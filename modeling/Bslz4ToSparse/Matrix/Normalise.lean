import Bslz4ToSparse.Foundation.Reduce
import Bslz4ToSparse.Matrix.Normal
import Bslz4ToSparse.Pixel

/-!
# Validating a matrix (`normalise_matrix`, src/_matrix.py)

The caller's index arrays have any integer type. They are checked as signed 64-bit
integers and then narrowed to `uint32`, so what comes out is not yet known to be
consistent; folding the mask in makes the column pointers anew.
-/

namespace Bslz4ToSparse.Matrix

open Foundation

/-- An integer array of the caller. -/
structure IntArray where
  dtype : Dtype
  isInt : dtype.isFloat = false
  elems : List (Pixel dtype)

def IntArray.values (a : IntArray) : List ℤ := a.elems.map Pixel.value

/-- A csc matrix of the caller; `nbins` is the product of its bins. -/
structure CallerMatrix (G : Type) where
  data : List G
  indices : IntArray
  indptr : IntArray
  nbins : Nat

/-- `_NormalMatrix` as `normalise_matrix` returns it. -/
structure RawMatrix (F : Type) where
  data : List F
  indices : List (BitVec 32)
  indptr : List (BitVec 32)
  nbins : Nat
  npix : Nat
  deriving DecidableEq

/-- Why `normalise_matrix` refuses a matrix, with the numbers of the message. -/
inductive NormaliseError where
  | length (entries expected : Nat)    -- csc indptr has entries, expected npix + 1
  | start                              -- csc indptr[0] must be 0
  | decreasing                         -- csc indptr is not nondecreasing
  | noPointers                         -- indptr[-1] of an empty array
  | last (last : ℤ) (indices : Nat)    -- csc indptr[-1] != len(indices)
  | index (nbins : Nat)                -- a csc index is >= nbins
  deriving DecidableEq, Repr

/-- `astype(np.int64)`. -/
def toInt64 (v : ℤ) : ℤ := v.bmod (2 ^ 64)

/-- `np.diff` of an `int64` array. -/
def diff64 (xs : List ℤ) : List ℤ := List.zipWith (fun b a => toInt64 (b - a)) xs.tail xs

variable {F G : Type}

/-- `normalise_matrix`; `float32` converts a weight. -/
def normaliseMatrix (float32 : G → F) (c : CallerMatrix G) (npix : Option Nat) :
    Except NormaliseError (RawMatrix F) :=
  let indptr := c.indptr.values
  let indices := c.indices.values
  if npix.any fun n => indptr.length ≠ n + 1 then .error (.length indptr.length (npix.getD 0 + 1))
  else if indptr.length ≠ 0 ∧ indptr.getD 0 0 ≠ 0 then .error .start
  else if (diff64 (indptr.map toInt64)).any (· < 0) then .error .decreasing
  else if indptr.length = 0 then .error .noPointers
  else if indptr.getD (indptr.length - 1) 0 ≠ indices.length then
    .error (.last (indptr.getD (indptr.length - 1) 0) indices.length)
  else if (indices.map toInt64).any ((c.nbins : ℤ) ≤ ·) then .error (.index c.nbins)
  else .ok {
    data := c.data.map float32
    indices := indices.map (BitVec.ofInt 32)
    indptr := indptr.map (BitVec.ofInt 32)
    nbins := c.nbins
    npix := indptr.length - 1 }

/-! ## Folding the mask in -/

/-- Why `_fold_mask` refuses a mask or a matrix. -/
inductive FoldError where
  | maskSize (sizes : MaskSize)
  | negativeCount       -- `np.repeat` with a negative count
  | keepLength          -- a mask of the entries of another length than the entries
  deriving DecidableEq, Repr

namespace RawMatrix

variable (m : RawMatrix F)

/-- The column pointer. -/
def ptr (p : Nat) : Nat := (m.indptr.getD p 0).toNat

/-- The entry counts of the pixels. -/
def counts : List ℤ := List.zipWith (fun b a => (b.toNat : ℤ) - a.toNat) m.indptr.tail m.indptr

/-- `_fold_mask`. -/
def fold (mask : List (BitVec 8)) : Except FoldError (RawMatrix F) :=
  let ms := mask.map fun b => decide (0 < b.toNat)
  let ns := m.counts.map Int.toNat
  let keep := repeatEach ms ns
  if mask.length ≠ m.npix then .error (.maskSize ⟨mask.length, m.npix⟩)
  else if m.counts.any (· < 0) then .error .negativeCount
  else if keep.length ≠ m.data.length ∨ keep.length ≠ m.indices.length then .error .keepLength
  else .ok { m with
    data := select keep m.data
    indices := select keep m.indices
    indptr := (offsets (List.zipWith (fun b n => if b then n else 0) ms ns)).map (BitVec.ofNat 32) }

/-- The column pointers cut the entries into columns. -/
structure Consistent : Prop where
  length_indptr : m.indptr.length = m.npix + 1
  length_data : m.data.length = m.indices.length
  start : m.ptr 0 = 0
  mono : ∀ p, p < m.npix → m.ptr p ≤ m.ptr (p + 1)
  last : m.ptr m.npix = m.indices.length

variable {m}

@[simp] theorem length_counts : m.counts.length = m.indptr.length - 1 := by
  simp [counts]

theorem getD_counts {p : Nat} (hp : p + 1 < m.indptr.length) :
    m.counts.getD p 0 = (m.ptr (p + 1) : ℤ) - m.ptr p := by
  have hlt : p < m.indptr.length := by omega
  have htail : p < m.indptr.tail.length := by rw [List.length_tail]; omega
  rw [counts, List.getD_eq_getElem _ _ (by rw [List.length_zipWith]; omega), List.getElem_zipWith,
    List.getElem_tail, ptr, ptr, List.getD_eq_getElem _ _ hp, List.getD_eq_getElem _ _ hlt]

/-- A count is negative where a pointer is below the one before. -/
theorem any_counts_iff : m.counts.any (· < 0) = true ↔
    ∃ p, p + 1 < m.indptr.length ∧ m.ptr (p + 1) < m.ptr p := by
  rw [List.any_eq_true]
  constructor
  · rintro ⟨n, hn, hneg⟩
    obtain ⟨p, hp, rfl⟩ := List.getElem_of_mem hn
    have hlt : p + 1 < m.indptr.length := by rw [length_counts] at hp; omega
    rw [← List.getD_eq_getElem _ 0 hp, getD_counts hlt, decide_eq_true_eq] at hneg
    exact ⟨p, hlt, by omega⟩
  · rintro ⟨p, hp, hlt⟩
    have hlen : p < m.counts.length := by rw [length_counts]; omega
    refine ⟨_, List.getElem_mem hlen, ?_⟩
    rw [← List.getD_eq_getElem _ 0 hlen, getD_counts hp, decide_eq_true_eq]
    omega

/-- The counts are not negative, so the pointers ascend. -/
theorem ascending_of_counts (h : m.counts.any (· < 0) = false) {p : Nat} (hp : p + 1 < m.indptr.length) :
    m.ptr p ≤ m.ptr (p + 1) := by
  by_contra hlt
  exact Bool.eq_false_iff.mp h (any_counts_iff.mpr ⟨p, hp, not_le.mp hlt⟩)

/-- Pointers that start at 0 are the offsets of the counts. -/
theorem ptr_eq_offsets (h0 : m.ptr 0 = 0) (h : m.counts.any (· < 0) = false) {p : Nat}
    (hp : p < m.indptr.length) : m.ptr p = (offsets (m.counts.map Int.toNat)).getD p 0 := by
  induction p with
  | zero => rw [h0, getD_offsets _ (Nat.zero_le _)]; rfl
  | succ p ih =>
    have hle := ascending_of_counts h hp
    have hcount : (m.counts.map Int.toNat).getD p 0 = m.ptr (p + 1) - m.ptr p := by
      rw [getD_map_zero rfl, getD_counts hp]
      omega
    rw [getD_offsets_succ _ (by rw [List.length_map, length_counts]; omega), ← ih (by omega), hcount]
    omega

end RawMatrix

/-- What `normalise_matrix` has checked. -/
structure Validated (m : RawMatrix F) : Prop where
  length_indptr : m.indptr.length = m.npix + 1
  length_data : m.data.length = m.indices.length
  start : m.ptr 0 = 0
  last : m.ptr m.npix = m.indices.length
  entries_lt : m.indices.length < 2 ^ 32

namespace RawMatrix

variable {m : RawMatrix F}

theorem length_counts_of (hm : Validated m) : (m.counts.map Int.toNat).length = m.npix := by
  rw [List.length_map, length_counts, hm.length_indptr]
  rfl

theorem sum_counts (hm : Validated m) (h : m.counts.any (· < 0) = false) :
    (m.counts.map Int.toNat).sum = m.indices.length := by
  rw [← getD_offsets_length, length_counts_of hm, ← ptr_eq_offsets hm.start h, hm.last]
  rw [hm.length_indptr]
  exact Nat.lt_succ_self _

/-- The kept entries, counted by pixels. -/
theorem length_fold {α : Type} (hm : Validated m) (h : m.counts.any (· < 0) = false) {ms : List Bool}
    (hms : ms.length = m.npix) {xs : List α} (hxs : xs.length = m.indices.length) :
    (select (repeatEach ms (m.counts.map Int.toNat)) xs).length =
      (List.zipWith (fun b n => if b then n else 0) ms (m.counts.map Int.toNat)).sum := by
  have hlen : ms.length = (m.counts.map Int.toNat).length := by rw [length_counts_of hm, hms]
  rw [length_select, count_repeatEach]
  rw [length_repeatEach hlen, sum_counts hm h, hxs]

/-- The folded matrix is consistent, and its indices are among those of the matrix. -/
theorem fold_consistent (hm : Validated m) {mask : List (BitVec 8)} {fm : RawMatrix F}
    (h : m.fold mask = .ok fm) :
    fm.Consistent ∧ fm.npix = m.npix ∧ fm.nbins = m.nbins ∧ ∀ i ∈ fm.indices, i ∈ m.indices := by
  unfold fold at h
  simp only at h
  split at h
  · exact absurd h (by simp)
  next hsize =>
  split at h
  · exact absurd h (by simp)
  next hcounts =>
  split at h
  · exact absurd h (by simp)
  next hkeep =>
  obtain rfl := Except.ok.inj h
  have hmono : m.counts.any (· < 0) = false := by simpa using hcounts
  set ms := mask.map fun b => decide (0 < b.toNat) with hms
  set kept := List.zipWith (fun b n => if b then n else 0) ms (m.counts.map Int.toNat) with hkept
  have hlen : ms.length = m.npix := by
    rw [hms, List.length_map]
    exact not_not.mp hsize
  have hkeptlen : kept.length = m.npix := by
    rw [hkept, List.length_zipWith, hlen, List.length_map, length_counts, hm.length_indptr]
    simp
  have htotal : (select (repeatEach ms (m.counts.map Int.toNat)) m.indices).length = kept.sum :=
    length_fold hm hmono hlen rfl
  have hle := length_select_le (repeatEach ms (m.counts.map Int.toNat)) m.indices
  have hptr : ∀ p, p ≤ m.npix → ∀ fm : RawMatrix F,
      fm.indptr = (offsets kept).map (BitVec.ofNat 32) → fm.ptr p = (offsets kept).getD p 0 := by
    intro p hp fm hfm
    have hbound := offsets_le kept (hkeptlen ▸ hp)
    have hlt := hm.entries_lt
    rw [ptr, hfm, getD_map_zero rfl, BitVec.toNat_ofNat, Nat.mod_eq_of_lt (by omega)]
  refine ⟨⟨?_, ?_, ?_, fun p hp => ?_, ?_⟩, rfl, rfl, fun i hi => mem_of_mem_select hi⟩
  · simp [hkeptlen]
  · exact (length_fold hm hmono hlen hm.length_data).trans htotal.symm
  · rw [hptr 0 (Nat.zero_le _) _ rfl, getD_offsets _ (Nat.zero_le _)]
    rfl
  · have hp' : p < m.npix := hp
    rw [hptr p hp'.le _ rfl, hptr (p + 1) hp' _ rfl, getD_offsets_succ _ (by rw [hkeptlen]; exact hp')]
    exact Nat.le_add_right _ _
  · rw [hptr m.npix le_rfl _ rfl, ← hkeptlen, getD_offsets_length]
    exact htotal.symm

/-- Nothing is dropped when no pixel is masked. -/
theorem fold_unmasked (hm : Validated m) (h : m.counts.any (· < 0) = false) :
    ∃ fm, m.fold (List.replicate m.npix 1#8) = .ok fm ∧ fm.indices = m.indices ∧ fm.nbins = m.nbins := by
  have hms : (List.replicate m.npix 1#8).map (fun b => decide (0 < b.toNat)) =
      List.replicate m.npix true := by rw [List.map_replicate]; rfl
  have hlen : (List.replicate m.npix true).length = (m.counts.map Int.toNat).length := by
    rw [length_counts_of hm, List.length_replicate]
  have hkeep : (repeatEach (List.replicate m.npix true) (m.counts.map Int.toNat)).length =
      m.indices.length := by rw [length_repeatEach hlen, sum_counts hm h]
  have hall : ∀ b ∈ repeatEach (List.replicate m.npix true) (m.counts.map Int.toNat), b = true :=
    fun b hb => (List.mem_replicate.mp (mem_of_mem_repeatEach hb)).2
  unfold fold
  simp only [hms, List.length_replicate, h, hkeep, hm.length_data]
  simp only [select_all hkeep hall, ne_eq, not_true_eq_false, if_false, or_self, Bool.false_eq_true]
  exact ⟨_, rfl, rfl, rfl⟩

theorem fold_refused {mask : List (BitVec 8)} (h : m.counts.any (· < 0) = true) (fm : RawMatrix F) :
    m.fold mask ≠ .ok fm := by
  unfold fold
  simp only [h, if_true]
  split <;> simp

/-- Every entry is in a column. -/
theorem Consistent.exists_column (hm : m.Consistent) {k : Nat} (hk : k < m.indices.length) :
    ∃ p, p < m.npix ∧ m.ptr p ≤ k ∧ k < m.ptr (p + 1) := by
  have hfind : ∀ n, k < m.ptr n → ∃ p, p < n ∧ m.ptr p ≤ k ∧ k < m.ptr (p + 1) := by
    intro n
    induction n with
    | zero =>
      intro h
      rw [hm.start] at h
      exact absurd h (Nat.not_lt_zero k)
    | succ n ih =>
      intro h
      by_cases hn : m.ptr n ≤ k
      · exact ⟨n, Nat.lt_succ_self n, hn, h⟩
      · obtain ⟨p, hp, hcol⟩ := ih (not_le.mp hn)
        exact ⟨p, hp.trans (Nat.lt_succ_self n), hcol⟩
  exact hfind m.npix (hm.last ▸ hk)

/-- A consistent matrix with sound bins is a `NormalMatrix`. -/
def toNormal (m : RawMatrix F) (hm : m.Consistent) (hbins : ∀ i ∈ m.indices, i.toNat < m.nbins)
    (hnbins : m.nbins < 2 ^ 31) (hentries : m.indices.length + 4 < 2 ^ 32) : NormalMatrix F where
  data := m.data
  indices := m.indices.map BitVec.toNat
  indptr := m.indptr.map BitVec.toNat
  nbins := m.nbins
  npix := m.npix
  length_data := by rw [List.length_map, hm.length_data]
  length_indptr := by rw [List.length_map, hm.length_indptr]
  indptr_zero := by
    rw [getD_map_zero (f := BitVec.toNat) rfl]
    exact hm.start
  indptr_mono := fun p hp => by
    rw [getD_map_zero (f := BitVec.toNat) rfl, getD_map_zero (f := BitVec.toNat) rfl]
    exact hm.mono p hp
  indptr_last := by
    rw [getD_map_zero (f := BitVec.toNat) rfl, List.length_map]
    exact hm.last
  indices_lt := fun b hb => by
    obtain ⟨i, hi, rfl⟩ := List.mem_map.mp hb
    exact hbins i hi
  nbins_lt := hnbins
  entries_lt := by rwa [List.length_map]

end RawMatrix

/-- The checks of `normalise_matrix`. -/
theorem normaliseMatrix_validated {float32 : G → F} {c : CallerMatrix G} {npix : Option Nat}
    {m : RawMatrix F} (h : normaliseMatrix float32 c npix = .ok m)
    (hdata : c.data.length = c.indices.elems.length) (hlen : c.indices.elems.length < 2 ^ 32) :
    Validated m ∧ m.nbins = c.nbins ∧ m.indices = c.indices.values.map (BitVec.ofInt 32) ∧
      m.indptr = c.indptr.values.map (BitVec.ofInt 32) ∧
      ∀ v ∈ c.indices.values, toInt64 v < c.nbins := by
  unfold normaliseMatrix at h
  simp only at h
  split at h
  · exact absurd h (by simp)
  split at h
  · exact absurd h (by simp)
  next hstart =>
  split at h
  · exact absurd h (by simp)
  split at h
  · exact absurd h (by simp)
  next hsome =>
  split at h
  · exact absurd h (by simp)
  next hlast =>
  split at h
  · exact absurd h (by simp)
  next hindex =>
  obtain rfl := Except.ok.inj h
  have hlt : c.indices.values.length < 2 ^ 32 := by rwa [IntArray.values, List.length_map]
  have hlen : c.indptr.values.length = c.indptr.values.length - 1 + 1 := by omega
  refine ⟨⟨?_, ?_, ?_, ?_, ?_⟩, rfl, rfl, rfl, ?_⟩
  · simpa using hlen
  · simp [hdata, IntArray.values]
  · have h0 : c.indptr.values.getD 0 0 = 0 := by
      by_contra hne
      exact hstart ⟨by omega, hne⟩
    rw [RawMatrix.ptr, getD_map_zero rfl, h0]
    rfl
  · have hend := not_not.mp hlast
    rw [RawMatrix.ptr, getD_map_zero rfl, hend, List.length_map]
    simpa using hlt
  · simpa using hlt
  · intro v hv
    by_contra hge
    exact hindex (List.any_eq_true.mpr ⟨toInt64 v, List.mem_map_of_mem hv, by simpa using hge⟩)

end Bslz4ToSparse.Matrix
