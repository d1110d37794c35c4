import Bslz4ToSparse.Matrix.Normal
import Mathlib.Data.List.Dedup

/-!
# The csc layouts with one index per pixel (src/_matrix.py)

csc-run keeps the first bin of each pixel, csc-nosplit its only bin. Each builder
refuses the matrices that its layout cannot hold.
-/

namespace Bslz4ToSparse.Matrix

open Foundation

/-- `BSLZ4_NO_BIN`: the bin of a pixel without entries. -/
def noBin : Nat := 0xFFFFFFFF

/-- Why a layout refuses a matrix, with the numbers of the message. -/
inductive LayoutError where
  | notRuns (broken several : Nat)     -- pixels whose bins are not one ascending run
  | brokenRuns (broken : Nat)          -- the same, as `_runs` says it
  | tooWide (width most : Nat)         -- a pixel reaches too many bins
  | manyBins (pixels : Nat)            -- pixels that reach more than one bin
  | notOne (weights : Nat)             -- weights that are not 1
  | sharedBins (bins : Nat)            -- bins reached by more than one pixel
  | blockElems (blockElems most : Nat) -- a decode block over the 16-bit index
  deriving DecidableEq, Repr

variable {F : Type}

namespace NormalMatrix

variable (m : NormalMatrix F)

/-- The pixel of each entry. -/
def entryPixels : List Nat := repeatEach (List.range m.npix) m.counts

/-- Entry `k + 1` belongs to the pixel of entry `k` but not to the next bin. -/
def breaks (k : Nat) : Bool :=
  m.entryPixels.getD (k + 1) 0 == m.entryPixels.getD k 0 &&
    m.indices.getD (k + 1) 0 != m.indices.getD k 0 + 1

/-- The pixels whose bins are not one ascending run. -/
def brokenPixels : List Nat :=
  (((List.range (m.entryPixels.length - 1)).filter m.breaks).map
    fun k => m.entryPixels.getD (k + 1) 0).dedup

/-- The number of pixels with several bins. -/
def severalBins : Nat := (m.counts.filter (1 < ·)).length

theorem ptr_eq_offsets {p : Nat} (hp : p ≤ m.npix) : m.ptr p = (offsets m.counts).getD p 0 := by
  induction p with
  | zero => rw [getD_offsets _ (Nat.zero_le _)]; exact m.indptr_zero
  | succ p ih =>
    have hle := m.ptr_le_succ (show p < m.npix from hp)
    rw [getD_offsets_succ _ (by rw [length_counts]; exact hp), ← ih (by omega)]
    have hcount : m.counts.getD p 0 = m.count p := by
      simp [counts, List.getD_eq_getElem?_getD, show p < m.npix from hp]
    rw [hcount, count]
    omega

/-- The pixels of the entries of pixel `p` are `p`. -/
theorem segment_entryPixels {p : Nat} (hp : p < m.npix) :
    Foundation.segment m.ptr m.entryPixels p = List.replicate (m.count p) p := by
  have hflat : m.entryPixels =
      ((List.range m.npix).map fun p => List.replicate (m.count p) p).flatten := by
    rw [entryPixels, repeatEach, counts, List.flatMap_def, List.zip_map_right, List.map_map,
      List.map_zip_eq_zipWith, List.zipWith_self]
    rfl
  have hlen : ((List.range m.npix).map fun p => List.replicate (m.count p) p).map List.length =
      m.counts := by
    rw [List.map_map, counts]
    exact List.map_congr_left fun p _ => List.length_replicate
  have hseg := segment_flatten ((List.range m.npix).map fun p => List.replicate (m.count p) p)
    (p := p) (by simpa using hp)
  rw [← hflat, hlen] at hseg
  rw [Foundation.segment, m.ptr_eq_offsets hp.le, m.ptr_eq_offsets (show p + 1 ≤ m.npix from hp)]
  rw [Foundation.segment] at hseg
  rw [hseg]
  simp [List.getD_eq_getElem?_getD, hp]

theorem getD_entryPixels {p j : Nat} (hp : p < m.npix) (hj : j < m.count p) :
    m.entryPixels.getD (m.ptr p + j) 0 = p := by
  rw [← getD_segment m.entryPixels 0 hj, m.segment_entryPixels hp]
  simp [List.getD_eq_getElem?_getD, hj]

theorem length_entryPixels : m.entryPixels.length = m.indices.length := by
  rw [entryPixels, length_repeatEach (by simp), m.sum_counts]

/-- The bins of a pixel ascend by one from its first one. -/
def IsRun (p : Nat) : Prop :=
  ∀ j, j < m.count p → m.indices.getD (m.ptr p + j) 0 = m.indices.getD (m.ptr p) 0 + j

theorem isRun_of_unbroken (h : m.brokenPixels = []) {p : Nat} (hp : p < m.npix) : m.IsRun p := by
  have hnone : ∀ k, k < m.indices.length - 1 → m.breaks k = false := by
    intro k hk
    by_contra hb
    have hmem : m.entryPixels.getD (k + 1) 0 ∈ m.brokenPixels := by
      refine List.mem_dedup.mpr (List.mem_map.mpr ⟨k, List.mem_filter.mpr ⟨?_, ?_⟩, rfl⟩)
      · rw [m.length_entryPixels]
        exact List.mem_range.mpr hk
      · simpa using hb
    rw [h] at hmem
    exact List.not_mem_nil hmem
  have hle := m.ptr_le (show p + 1 ≤ m.npix from hp)
  intro j hj
  induction j with
  | zero => rfl
  | succ j ih =>
    have hcount : m.count p = m.ptr (p + 1) - m.ptr p := rfl
    have hprev := ih (by omega)
    have hbreak := hnone (m.ptr p + j) (by omega)
    rw [breaks, show m.ptr p + j + 1 = m.ptr p + (j + 1) by omega, m.getD_entryPixels hp hj,
      m.getD_entryPixels hp (show j < m.count p by omega)] at hbreak
    have hnext : m.indices.getD (m.ptr p + (j + 1)) 0 = m.indices.getD (m.ptr p + j) 0 + 1 := by
      simpa using hbreak
    rw [hnext, hprev, Nat.add_assoc]

/-- The first bin of a pixel, 0 for an empty column. -/
def firstBin (p : Nat) : Nat := if 0 < m.count p then m.indices.getD (m.ptr p) 0 else 0

/-- `_run_starts`. -/
def runStarts : Except LayoutError (List Nat) :=
  if m.brokenPixels = [] then .ok ((List.range m.npix).map m.firstBin)
  else .error (.notRuns m.brokenPixels.length m.severalBins)

/-- `_runs`, which gives the entry counts as well. -/
def runs : Except LayoutError (List Nat × List Nat) :=
  if m.brokenPixels = [] then .ok ((List.range m.npix).map m.firstBin, m.counts)
  else .error (.brokenRuns m.brokenPixels.length)

theorem runStarts_eq {starts : List Nat} (h : m.runStarts = .ok starts) :
    m.brokenPixels = [] ∧ ∀ p, p < m.npix → starts.getD p 0 = m.firstBin p := by
  unfold runStarts at h
  split at h
  · next hb =>
    refine ⟨hb, fun p hp => ?_⟩
    rw [← Except.ok.inj h]
    simp [List.getD_eq_getElem?_getD, hp]
  · exact absurd h (by simp)

/-- The starts give every bin of the matrix. -/
theorem runStarts_spec {starts : List Nat} (h : m.runStarts = .ok starts) {p j : Nat}
    (hp : p < m.npix) (hj : j < m.count p) :
    m.indices.getD (m.ptr p + j) 0 = starts.getD p 0 + j := by
  obtain ⟨hb, hstart⟩ := m.runStarts_eq h
  rw [m.isRun_of_unbroken hb hp j hj, hstart p hp, firstBin, if_pos (by omega)]

variable [DecidableEq F] [One F]

/-- The pixels that reach more than one bin. -/
def manyBins : List Nat := m.counts.filter (1 < ·)

/-- The weights that are not 1. -/
def notOne : List F := m.data.filter (· ≠ 1)

/-- The one bin of pixel `p`, or `none`. -/
def onlyBin (none : Nat) (p : Nat) : Nat :=
  if m.count p = 1 then m.indices.getD (m.ptr p) 0 else none

/-- `_nosplit_bins`; `_histogram_bins` is the same with another mark for no bin. -/
def nosplitBins : Except LayoutError (List Nat) :=
  if m.manyBins ≠ [] then .error (.manyBins m.manyBins.length)
  else if m.notOne ≠ [] then .error (.notOne m.notOne.length)
  else .ok ((List.range m.npix).map (m.onlyBin noBin))

/-- `_permute_bins`: as `_nosplit_bins`, and no bin is shared. -/
def permuteBins : Except LayoutError (List Nat) := do
  let bins ← m.nosplitBins
  let used := bins.filter (· ≠ noBin)
  if used.dedup.length ≠ used.length then .error (.sharedBins (used.length - used.dedup.length))
  else return bins

/-- A histogram's columns, from the bins. -/
theorem nosplitBins_spec [Inhabited F] {bins : List Nat} (h : m.nosplitBins = .ok bins) {p : Nat}
    (hp : p < m.npix) :
    m.column p = if bins.getD p 0 = noBin then [] else [(bins.getD p 0, 1)] := by
  unfold nosplitBins at h
  split at h
  · exact absurd h (by simp)
  next hmany =>
  split at h
  · exact absurd h (by simp)
  next hone =>
  have hbin : bins.getD p 0 = m.onlyBin noBin p := by
    rw [← Except.ok.inj h]
    simp [List.getD_eq_getElem?_getD, hp]
  have hcount : m.count p ≤ 1 := by
    by_contra hgt
    refine hmany fun hnil => ?_
    have hmem : m.count p ∈ m.manyBins :=
      List.mem_filter.mpr ⟨List.mem_map.mpr ⟨p, List.mem_range.mpr hp, rfl⟩, by simpa using hgt⟩
    rw [hnil] at hmem
    exact List.not_mem_nil hmem
  have hle := m.ptr_le (show p + 1 ≤ m.npix from hp)
  rw [hbin, onlyBin, m.column_eq_map hp]
  by_cases h1 : m.count p = 1
  · have hk : m.ptr p < m.indices.length := by rw [count] at h1; omega
    have hweight : m.data.getD (m.ptr p) default = 1 := by
      by_contra hne
      refine hone fun hnil => ?_
      have hmem : m.data.getD (m.ptr p) default ∈ m.notOne := by
        refine List.mem_filter.mpr ⟨?_, by simpa using hne⟩
        rw [List.getD_eq_getElem _ _ (m.length_data ▸ hk)]
        exact List.getElem_mem _
      rw [hnil] at hmem
      exact List.not_mem_nil hmem
    have hlt : m.indices.getD (m.ptr p) 0 < m.nbins := by
      rw [List.getD_eq_getElem _ _ hk]
      exact m.indices_lt _ (List.getElem_mem _)
    have hne : m.indices.getD (m.ptr p) 0 ≠ noBin := by
      have hnb := m.nbins_lt
      rw [noBin]
      omega
    rw [h1, if_pos rfl, if_neg hne]
    simpa using hweight
  · have h0 : m.count p = 0 := by omega
    simp [h0]

end NormalMatrix

end Bslz4ToSparse.Matrix
