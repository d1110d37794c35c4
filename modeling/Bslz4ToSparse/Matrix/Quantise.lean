import Bslz4ToSparse.Foundation.Reduce
import Bslz4ToSparse.Foundation.Rint
import Bslz4ToSparse.Matrix.Runs
import Bslz4ToSparse.Pixel
import Mathlib.Algebra.BigOperators.Ring.List

/-!
# Integer weights (`_quantise`, src/_matrix.py)

The weights are scaled by a power of two and rounded, and what the rounding changed in the
sum of a column is added to its first largest weight. The arithmetic is exact.
-/

namespace Bslz4ToSparse

open Foundation

/-- `np.iinfo(t).max`. -/
def Dtype.largest (t : Dtype) : ℤ := 2 ^ (t.bits - if t.signed then 1 else 0) - 1

/-- A value that the type can hold is not changed by storing it. -/
theorem Pixel.value_ofInt {t : Dtype} {q : ℤ} (h0 : 0 ≤ q) (h : q ≤ t.largest) :
    Pixel.value (BitVec.ofInt t.bits q : Pixel t) = q := by
  rw [Dtype.largest] at h
  rw [Pixel.value]
  split
  · next hs =>
    have hpow : (2 : ℤ) ^ t.bits = 2 * 2 ^ (t.bits - 1) := by
      rw [← pow_succ']
      congr 1
      have hpos := t.size_pos
      simp only [Dtype.bits]
      omega
    rw [if_pos hs] at h
    rw [BitVec.toInt_ofInt]
    apply Int.bmod_eq_of_le <;> push_cast <;> omega
  · next hs =>
    rw [if_neg hs, Nat.sub_zero] at h
    rw [BitVec.toNat_ofInt]
    push_cast
    rw [Int.emod_eq_of_lt h0 (by omega), Int.toNat_of_nonneg h0]

namespace Matrix

/-- Why `_quantise` refuses a matrix, with the numbers of the message. -/
inductive QuantiseError where
  | negative (least : ℚ)            -- a weight below the round-off of the areas
  | negativeRounded (weights : Nat) -- weights below 0 after the residual
  | doesNotFit (stored : Dtype)     -- a weight over the largest of the stored type
  deriving DecidableEq, Repr

namespace NormalMatrix

variable (m : NormalMatrix ℚ)

/-- `np.abs(d).max()`. -/
def largestWeight : ℚ := reduce max 0 (m.data.map abs)

/-- The weights, the tolerated negative ones taken as 0. -/
def clipped : Except QuantiseError (List ℚ) :=
  let least := reduce min 0 m.data
  if least < 0 then
    if least < -(1 / 10 ^ 6) * m.largestWeight then .error (.negative least)
    else .ok (m.data.map fun d => max d 0)
  else .ok m.data

/-- `np.nonzero(has)`: the pixels with entries. -/
def nonempty : List Nat := nonempties m.ptr 0 m.npix

/-- The first entries of the pixels with entries. -/
def first : List Nat := m.nonempty.map m.ptr

/-- The column sums, rounded. -/
def target (w : List ℚ) : List ℤ := (reduceat (· + ·) 0 w m.first).map rint

/-- The column sums of the rounded weights. -/
def got (q : List ℤ) : List ℤ := reduceat (· + ·) 0 q m.first

/-- The largest weight of each pixel, 0 for an empty column. -/
def colmax (w : List ℚ) : List ℚ :=
  scatter (List.replicate m.npix 0) m.nonempty (reduceat max 0 w m.first)

/-- The entries with the largest weight of their column. -/
def cand (w : List ℚ) : List Nat :=
  (List.range w.length).filter fun k => w.getD k 0 == (m.colmax w).getD (m.entryPixels.getD k 0) 0

/-- The first candidate of each pixel. -/
def biggest (w : List ℚ) : List Nat := runHeads (fun k => m.entryPixels.getD k 0) (m.cand w)

/-- The rounded weights, the residual of each column on its first largest weight. -/
def rounded (w : List ℚ) : List ℤ :=
  let q := w.map rint
  if q.length ≠ 0 then
    scatter q (m.biggest w) (List.zipWith (· + ·) ((m.biggest w).map fun k => q.getD k 0)
      (List.zipWith (· - ·) (m.target w) (m.got q)))
  else q

/-- `_quantise`. -/
def quantise (b : ℤ) (t : Dtype) : Except QuantiseError (List (Pixel t)) := do
  let d ← m.clipped
  let q := m.rounded (d.map (· * 2 ^ b))
  let below := q.filter (· < 0)
  if below ≠ [] then .error (.negativeRounded below.length)
  else if q.length ≠ 0 ∧ t.largest < reduce max 0 q then .error (.doesNotFit t)
  else return q.map (BitVec.ofInt t.bits)

/-! ## The columns -/

variable {m}

theorem mem_nonempty {p : Nat} : p ∈ m.nonempty ↔ p < m.npix ∧ 0 < m.count p := by
  rw [nonempty, mem_nonempties, count]
  omega

theorem nodup_nonempty : m.nonempty.Nodup := nodup_nonempties 0 m.npix

theorem reduceat_first {α : Type} (f : α → α → α) (d : α) {xs : List α}
    (h : xs.length = m.indices.length) :
    reduceat f d xs m.first = m.nonempty.map fun p => reduce f d (Foundation.segment m.ptr xs p) := by
  refine reduceat_nonempties f d (fun p _ hp => m.ptr_le_succ (by omega)) ?_
  rw [h, Nat.zero_add]
  exact m.indptr_last

theorem length_segment_of {α : Type} {xs : List α} (h : xs.length = m.indices.length) {p : Nat}
    (hp : p < m.npix) : (Foundation.segment m.ptr xs p).length = m.count p :=
  length_segment (m.ptr_le_succ hp) (by rw [h]; exact m.ptr_le hp)

/-- An entry of a pixel, as an entry of the matrix. -/
theorem entry_lt {p j : Nat} (hp : p < m.npix) (hj : j < m.count p) :
    m.ptr p + j < m.indices.length := by
  have hle := m.ptr_le (show p + 1 ≤ m.npix from hp)
  rw [count] at hj
  omega

theorem getD_colmax {w : List ℚ} (h : w.length = m.indices.length) {p : Nat} (hp : p ∈ m.nonempty) :
    (m.colmax w).getD p 0 = reduce max 0 (Foundation.segment m.ptr w p) := by
  have hset := scatter_map (List.replicate m.npix 0) (k := fun p => p)
    (fun p => reduce max 0 (Foundation.segment m.ptr w p)) 0
    (by rw [List.map_id']; exact nodup_nonempty) hp
    (by rw [List.length_replicate]; exact (mem_nonempty.mp hp).1)
  rwa [List.map_id', ← reduceat_first max 0 h] at hset

theorem cand_eq {w : List ℚ} (h : w.length = m.indices.length) :
    m.cand w = m.nonempty.flatMap fun p => (List.range' (m.ptr p) (m.count p)).filter fun k =>
      w.getD k 0 == (m.colmax w).getD (m.entryPixels.getD k 0) 0 := by
  have hall : List.range w.length =
      m.nonempty.flatMap fun p => List.range' (m.ptr p) (m.count p) := by
    have hpieces := flatMap_segment m.ptr (List.range w.length) m.npix m.indptr_zero m.indptr_mono
    rw [List.take_of_length_le (by rw [List.length_range, h]; exact m.indptr_last.ge)] at hpieces
    rw [nonempty, flatMap_nonempties, ← List.range_eq_range', ← hpieces]
    · refine List.flatMap_congr fun p hp => ?_
      have hle := m.ptr_le (show p + 1 ≤ m.npix from List.mem_range.mp hp)
      rw [Foundation.segment, List.range_eq_range', List.drop_range',
        List.take_range'_of_length_ge (by rw [h]; omega), Nat.zero_add, Nat.mul_one]
      rfl
    · intro p _ _ hp
      rw [show m.count p = 0 by rw [count]; omega]
      rfl
  rw [cand, hall, List.filter_flatMap]

/-- The first candidate of a pixel. -/
theorem head_cand {w : List ℚ} (h : w.length = m.indices.length) {p : Nat} (hp : p ∈ m.nonempty) :
    ((List.range' (m.ptr p) (m.count p)).filter fun k =>
      w.getD k 0 == (m.colmax w).getD (m.entryPixels.getD k 0) 0).head? =
        some (m.ptr p + firstLargest (Foundation.segment m.ptr w p)) := by
  obtain ⟨hlt, hpos⟩ := mem_nonempty.mp hp
  have hlen := length_segment_of h hlt
  have hne : Foundation.segment m.ptr w p ≠ [] := by
    intro hnil
    rw [hnil, List.length_nil] at hlen
    omega
  rw [firstLargest_eq 0, ← hlen]
  apply head_filter_range'
  · intro j hj
    have hj' : j < m.count p := hlen ▸ hj
    rw [m.getD_entryPixels hlt hj', getD_colmax h hp, ← getD_segment w 0 hj',
      List.getD_eq_getElem _ _ hj]
  · exact ⟨_, reduce_max_mem 0 hne, beq_self_eq_true _⟩

theorem biggest_eq {w : List ℚ} (h : w.length = m.indices.length) :
    m.biggest w = m.nonempty.map fun p =>
      m.ptr p + firstLargest (Foundation.segment m.ptr w p) := by
  rw [biggest, cand_eq h, runHeads_flatMap 0 nodup_nonempty]
  · refine List.map_congr_left fun p hp => ?_
    rw [List.headD_eq_head?_getD, head_cand h hp]
    rfl
  · -- an entry of a pixel has that pixel
    intro p hp k hk
    obtain ⟨hlow, hhigh⟩ := List.mem_range'_1.mp (List.mem_filter.mp hk).1
    have hpix := m.getD_entryPixels (mem_nonempty.mp hp).1 (show k - m.ptr p < m.count p by omega)
    rwa [show m.ptr p + (k - m.ptr p) = k by omega] at hpix
  · intro p hp hnil
    have hhead := head_cand h hp
    rw [hnil] at hhead
    exact absurd hhead (by simp)

/-- What rounding the weights of a pixel one by one takes from their sum. -/
def residual (m : NormalMatrix ℚ) (w : List ℚ) (p : Nat) : ℤ :=
  let ws := Foundation.segment m.ptr w p
  rint ws.sum - (ws.map rint).sum

theorem length_rounded (w : List ℚ) : (m.rounded w).length = w.length := by
  rw [rounded]
  split
  · rw [length_scatter, List.length_map]
  · rw [List.length_map]

theorem firstLargest_column {w : List ℚ} (h : w.length = m.indices.length) {p : Nat}
    (hp : p ∈ m.nonempty) : firstLargest (Foundation.segment m.ptr w p) < m.count p := by
  obtain ⟨hlt, hpos⟩ := mem_nonempty.mp hp
  have hlen := length_segment_of h hlt
  rw [← hlen]
  apply firstLargest_lt
  intro hnil
  rw [hnil, List.length_nil] at hlen
  omega

/-- An entry is that of one pixel. -/
theorem eq_of_entry_eq {p q i j : Nat} (hp : p < m.npix) (hi : i < m.count p) (hq : q < m.npix)
    (hj : j < m.count q) (h : m.ptr p + i = m.ptr q + j) : p = q := by
  rw [← m.getD_entryPixels hp hi, h, m.getD_entryPixels hq hj]

theorem rounded_eq {w : List ℚ} (h : w.length = m.indices.length) (hne : w ≠ []) :
    m.rounded w = scatter (w.map rint)
      (m.nonempty.map fun p => m.ptr p + firstLargest (Foundation.segment m.ptr w p))
      (m.nonempty.map fun p =>
        (w.map rint).getD (m.ptr p + firstLargest (Foundation.segment m.ptr w p)) 0 +
          m.residual w p) := by
  have hq : (w.map rint).length = m.indices.length := by rw [List.length_map, h]
  have hnz : (w.map rint).length ≠ 0 := by
    rw [List.length_map]
    exact fun h0 => hne (List.length_eq_zero_iff.mp h0)
  have hresidual : List.zipWith (· - ·) (m.target w) (m.got (w.map rint)) =
      m.nonempty.map (m.residual w) := by
    rw [target, got, reduceat_first _ _ h, reduceat_first _ _ hq, List.map_map, List.zipWith_map,
      List.zipWith_self]
    refine List.map_congr_left fun p _ => ?_
    simp only [Function.comp_apply, reduce_add, residual, map_segment]
  rw [rounded, if_pos hnz, hresidual, biggest_eq h, List.map_map, List.zipWith_map, List.zipWith_self]
  rfl

/-- The entries of a pixel are rounded, and the first largest one takes the residual. -/
theorem getD_rounded {w : List ℚ} (h : w.length = m.indices.length) {p j : Nat} (hp : p < m.npix)
    (hj : j < m.count p) :
    (m.rounded w).getD (m.ptr p + j) 0 = rint (w.getD (m.ptr p + j) 0) +
      if j = firstLargest (Foundation.segment m.ptr w p) then m.residual w p else 0 := by
  have hmem : p ∈ m.nonempty := mem_nonempty.mpr ⟨hp, by omega⟩
  have hentry := entry_lt hp hj
  have hround := getD_map_zero rint_zero w (m.ptr p + j)
  have hne : w ≠ [] := by
    rintro rfl
    rw [← h] at hentry
    exact absurd hentry (Nat.not_lt_zero _)
  rw [rounded_eq h hne]
  by_cases hfirst : j = firstLargest (Foundation.segment m.ptr w p)
  · have hinj : ∀ p ∈ m.nonempty, ∀ q ∈ m.nonempty,
        m.ptr p + firstLargest (Foundation.segment m.ptr w p) =
          m.ptr q + firstLargest (Foundation.segment m.ptr w q) → p = q :=
      fun p hp q hq => eq_of_entry_eq (mem_nonempty.mp hp).1 (firstLargest_column h hp)
        (mem_nonempty.mp hq).1 (firstLargest_column h hq)
    rw [if_pos hfirst, ← hround, hfirst]
    apply scatter_map (w.map rint) (fun p => (w.map rint).getD
      (m.ptr p + firstLargest (Foundation.segment m.ptr w p)) 0 + m.residual w p) 0
      (nodup_nonempty.map_on hinj) hmem
    rwa [List.length_map, h, ← hfirst]
  · rw [if_neg hfirst, add_zero, scatter_of_notMem, hround]
    intro hk
    obtain ⟨q, hq, heq⟩ := List.mem_map.mp hk
    obtain rfl := eq_of_entry_eq (mem_nonempty.mp hq).1 (firstLargest_column h hq) hp hj heq
    omega

/-- The column of a pixel: rounded, with the residual on the first largest weight. -/
theorem segment_rounded {w : List ℚ} (h : w.length = m.indices.length) {p : Nat} (hp : p < m.npix) :
    Foundation.segment m.ptr (m.rounded w) p =
      ((Foundation.segment m.ptr w p).map rint).modify (firstLargest (Foundation.segment m.ptr w p))
        (· + m.residual w p) := by
  have hlen := length_segment_of (by rw [length_rounded, h] : (m.rounded w).length = _) hp
  have hlen' := length_segment_of h hp
  refine List.ext_getElem (by rw [List.length_modify, List.length_map, hlen, hlen']) fun j h₁ h₂ => ?_
  have hj : j < m.count p := by rwa [hlen] at h₁
  have hround := getD_rounded h hp hj
  rw [← getD_segment _ _ hj, ← getD_segment w _ hj, List.getD_eq_getElem _ _ h₁,
    List.getD_eq_getElem _ _ (by rwa [hlen'])] at hround
  rw [hround, List.getElem_modify, List.getElem_map]
  by_cases hfirst : j = firstLargest (Foundation.segment m.ptr w p)
  · rw [if_pos hfirst, if_pos hfirst.symm]
  · rw [if_neg hfirst, if_neg (Ne.symm hfirst), add_zero]

/-- Rounding conserves the rounded sum of a column. -/
theorem sum_segment_rounded {w : List ℚ} (h : w.length = m.indices.length) {p : Nat}
    (hp : p ∈ m.nonempty) :
    (Foundation.segment m.ptr (m.rounded w) p).sum = rint (Foundation.segment m.ptr w p).sum := by
  have hlt := (mem_nonempty.mp hp).1
  rw [segment_rounded h hlt, sum_modify, residual]
  · exact add_sub_cancel _ _
  · rw [List.length_map, length_segment_of h hlt]
    exact firstLargest_column h hp

/-! ## What is stored -/

/-- The integers that `_quantise` means to store: the weights that are not below 0 scaled,
rounded and corrected. -/
def intended (m : NormalMatrix ℚ) (b : ℤ) : List ℤ :=
  m.rounded ((m.data.map fun d => max d 0).map (· * 2 ^ b))

theorem clipped_eq {d : List ℚ} (h : m.clipped = .ok d) : d = m.data.map fun d => max d 0 := by
  unfold clipped at h
  simp only at h
  split at h
  · split at h
    · exact absurd h (by simp)
    · exact (Except.ok.inj h).symm
  · next hleast =>
    rw [← Except.ok.inj h]
    have hpos : ∀ x ∈ m.data, max x 0 = id x := fun x hx =>
      max_eq_left ((not_lt.mp hleast).trans (reduce_min_le 0 hx))
    rw [List.map_congr_left hpos, List.map_id]

/-- What is stored keeps its value. -/
theorem quantise_eq {b : ℤ} {t : Dtype} {stored : List (Pixel t)} (h : m.quantise b t = .ok stored) :
    stored.map Pixel.value = m.intended b := by
  unfold quantise at h
  cases hd : m.clipped with
  | error e =>
    rw [hd] at h
    exact absurd h (by simp [bind, Except.bind])
  | ok d =>
    have hq : m.rounded (d.map (· * 2 ^ b)) = m.intended b := by rw [clipped_eq hd, intended]
    simp only [hd, bind, Except.bind] at h
    rw [hq] at h
    split at h
    · exact absurd h (by simp)
    next hbelow =>
    split at h
    · exact absurd h (by simp)
    next hfits =>
    rw [← Except.ok.inj h, List.map_map]
    refine (List.map_congr_left fun q hmem => ?_).trans (List.map_id _)
    have hnonneg : 0 ≤ q := by
      by_contra hneg
      exact hbelow (List.ne_nil_of_mem (List.mem_filter.mpr ⟨hmem, by simpa using hneg⟩))
    have hle := le_reduce_max 0 hmem
    have hlen : (m.intended b).length ≠ 0 := fun h0 =>
      List.ne_nil_of_mem hmem (List.length_eq_zero_iff.mp h0)
    exact Pixel.value_ofInt hnonneg (hle.trans (not_lt.mp fun hlt => hfits ⟨hlen, hlt⟩))

end NormalMatrix

/-- Quantising conserves the columns. -/
theorem quantise_conserves (m : NormalMatrix ℚ) (b : ℤ) {t : Dtype} {stored : List (Pixel t)}
    (h : m.quantise b t = .ok stored) :
    stored.map Pixel.value = m.intended b ∧
    ∀ p, p < m.npix → 0 < m.count p →
      let ws := (Foundation.segment m.ptr m.data p).map fun d => max d 0
      let qs := (Foundation.segment m.ptr stored p).map Pixel.value
      qs.sum = rint (ws.sum * 2 ^ b) ∧
      ∀ j, j < m.count p → j ≠ firstLargest ws → qs.getD j 0 = rint (ws.getD j 0 * 2 ^ b) := by
  have hstored := NormalMatrix.quantise_eq h
  have hlen : ((m.data.map fun d => max d 0).map fun d => d * 2 ^ b).length = m.indices.length := by
    rw [List.length_map, List.length_map, m.length_data]
  have hpos : (0 : ℚ) < 2 ^ b := zpow_pos (by norm_num) b
  refine ⟨hstored, fun p hp hcount => ?_⟩
  have hmem : p ∈ m.nonempty := NormalMatrix.mem_nonempty.mpr ⟨hp, hcount⟩
  have hscaled : Foundation.segment m.ptr ((m.data.map fun d => max d 0).map fun d => d * 2 ^ b) p =
      ((Foundation.segment m.ptr m.data p).map fun d => max d 0).map fun d => d * 2 ^ b := by
    rw [map_segment, map_segment]
  simp only
  rw [← map_segment, hstored, NormalMatrix.intended]
  constructor
  · rw [NormalMatrix.sum_segment_rounded hlen hmem, hscaled, List.sum_map_mul_right, List.map_id']
  · intro j hj hne
    have hmono : StrictMono fun d : ℚ => d * 2 ^ b := fun x y hxy => mul_lt_mul_of_pos_right hxy hpos
    rw [getD_segment _ _ hj, NormalMatrix.getD_rounded hlen hp hj, hscaled, firstLargest_map hmono,
      if_neg hne, add_zero, ← getD_segment _ _ hj, hscaled]
    exact congrArg rint (getD_map_zero (f := fun d => d * 2 ^ b) (zero_mul _) _ j)

/-- One pixel whose two largest weights tie, and an empty one. -/
def tied : NormalMatrix ℚ where
  data := [5 / 16, 1 / 16, 5 / 16]
  indices := [0, 1, 2]
  indptr := [0, 3, 3]
  nbins := 3
  npix := 2
  length_data := rfl
  length_indptr := rfl
  indptr_zero := rfl
  indptr_mono := by decide
  indptr_last := rfl
  indices_lt := threeIndices_lt
  nbins_lt := threeBins_lt
  entries_lt := threeEntries_lt

theorem quantise_conserves_tied :
    tied.quantise 2 .u16 = .ok [2#16, 0#16, 1#16] ∧
    (([2#16, 0#16, 1#16] : List (Pixel .u16)).map Pixel.value).sum = rint (11 / 4) := by
  have h : tied.quantise 2 .u16 = .ok [2#16, 0#16, 1#16] := by decide +kernel
  have hsum := ((quantise_conserves tied 2 h).2 0 (by decide) (by decide)).1
  exact ⟨h, hsum.trans (by decide +kernel)⟩

end Matrix

end Bslz4ToSparse
