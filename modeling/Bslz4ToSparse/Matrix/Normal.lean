import Bslz4ToSparse.Foundation.Accumulate
import Bslz4ToSparse.Foundation.Ragged

/-!
# The normalised pixel to bin matrix (src/_matrix.py)

One column per pixel, stored as compressed columns. `NormalMatrix` is a matrix that
`normalise_matrix` has validated; `product` is what multiplying a frame by it means.
-/

namespace Bslz4ToSparse.Matrix

open Foundation

/-- `_NormalMatrix`, with the contents that `normalise_matrix` checks. The powder length is a
C `int`; the column pointers are `uint32`, and so are the loop counters, which look up to four
entries ahead. -/
structure NormalMatrix (F : Type) where
  data : List F
  indices : List Nat
  indptr : List Nat
  nbins : Nat
  npix : Nat
  length_data : data.length = indices.length
  length_indptr : indptr.length = npix + 1
  indptr_zero : indptr.getD 0 0 = 0
  indptr_mono : ∀ p, p < npix → indptr.getD p 0 ≤ indptr.getD (p + 1) 0
  indptr_last : indptr.getD npix 0 = indices.length
  indices_lt : ∀ b ∈ indices, b < nbins
  nbins_lt : nbins < 2 ^ 31
  entries_lt : indices.length + 4 < 2 ^ 32

theorem twoBins_lt : 2 < 2 ^ 31 := by decide

theorem threeBins_lt : 3 < 2 ^ 31 := by decide

theorem threeIndices_lt : ∀ b ∈ [0, 1, 2], b < 3 := by decide

theorem threeEntries_lt : [0, 1, 2].length + 4 < 2 ^ 32 := by decide

variable {F D : Type}

/-- What the column `col` of a pixel of value `v` adds to bin `b`. -/
def columnSum [NonUnitalNonAssocSemiring D] (weight : F → D) (col : List (Nat × F)) (v : D)
    (b : Nat) : D :=
  (col.map fun e => single e.1 (weight e.2 * v) b).sum

theorem columnSum_zero [NonUnitalNonAssocSemiring D] (weight : F → D) (col : List (Nat × F))
    (b : Nat) : columnSum weight col 0 b = 0 := by
  simp [columnSum, single]

namespace NormalMatrix

variable (m : NormalMatrix F)

/-- The column pointer. -/
def ptr (p : Nat) : Nat := m.indptr.getD p 0

/-- The number of entries of a pixel. -/
def count (p : Nat) : Nat := m.ptr (p + 1) - m.ptr p

/-- `np.diff(indptr)`. -/
def counts : List Nat := (List.range m.npix).map m.count

/-- The bins and weights of a pixel. -/
def column (p : Nat) : List (Nat × F) := Foundation.segment m.ptr (m.indices.zip m.data) p

/-- The matrix times the frame of the pixel values `v`, in bin `b`. -/
def product [NonUnitalNonAssocSemiring D] (weight : F → D) (v : Nat → D) (b : Nat) : D :=
  ((List.range m.npix).map fun p => columnSum weight (m.column p) (v p) b).sum

@[simp] theorem length_counts : m.counts.length = m.npix := by simp [counts]

theorem ptr_le_succ {p : Nat} (hp : p < m.npix) : m.ptr p ≤ m.ptr (p + 1) := m.indptr_mono p hp

theorem ptr_mono {p q : Nat} (hpq : p ≤ q) (hq : q ≤ m.npix) : m.ptr p ≤ m.ptr q := by
  induction q with
  | zero => rw [Nat.le_zero.mp hpq]
  | succ q ih =>
    by_cases hlast : p = q + 1
    · rw [hlast]
    · exact (ih (by omega) (by omega)).trans (m.ptr_le_succ hq)

theorem ptr_le {p : Nat} (hp : p ≤ m.npix) : m.ptr p ≤ m.indices.length := by
  rw [← m.indptr_last]
  exact m.ptr_mono hp le_rfl

@[simp] theorem length_zip : (m.indices.zip m.data).length = m.indices.length := by
  rw [List.length_zip, m.length_data, Nat.min_self]

theorem length_column {p : Nat} (hp : p < m.npix) : (m.column p).length = m.count p := by
  rw [column, length_segment (m.indptr_mono p hp) (by rw [length_zip]; exact m.ptr_le hp)]
  rfl

theorem column_bin_lt {p : Nat} {e : Nat × F} (he : e ∈ m.column p) : e.1 < m.nbins := by
  have hmem : e ∈ m.indices.zip m.data := mem_of_mem_segment he
  exact m.indices_lt _ (List.of_mem_zip hmem).1

/-- A column, read by position. -/
theorem column_eq_map [Inhabited F] {p : Nat} (hp : p < m.npix) :
    m.column p = (List.range' (m.ptr p) (m.count p)).map
      fun k => (m.indices.getD k 0, m.data.getD k default) := by
  have hle := m.ptr_le (show p + 1 ≤ m.npix from hp)
  have hmono := m.ptr_le_succ hp
  rw [column, Foundation.segment]
  refine List.ext_getElem ?_ ?_
  · simp only [List.length_take, List.length_drop, length_zip, List.length_map, List.length_range',
      count]
    omega
  · intro j h₁ h₂
    have hj : j < m.count p := by simpa using h₂
    have hk : m.ptr p + j < m.indices.length := by simp only [count] at hj; omega
    simp [List.getD_eq_getElem?_getD, List.getElem?_eq_getElem hk,
      List.getElem?_eq_getElem (m.length_data ▸ hk)]

/-! ## The entries one by one -/

/-- Pixel, bin and weight of the entries of pixel `p`. -/
def pixelEntries (p : Nat) : List (Nat × Nat × F) := (m.column p).map fun e => (p, e.1, e.2)

/-- Pixel, bin and weight of every entry. -/
def entries : List (Nat × Nat × F) := (List.range m.npix).flatMap m.pixelEntries

/-- The product as the sum over the entries of a bin. -/
theorem product_eq_entries [NonUnitalNonAssocSemiring D] (weight : F → D) (v : Nat → D) (b : Nat) :
    m.product weight v b =
      ((m.entries.filter (·.2.1 == b)).map fun e => weight e.2.2 * v e.1).sum := by
  rw [sum_map_filter, entries, sum_map_flatMap, product]
  refine congrArg List.sum (List.map_congr_left fun p _ => ?_)
  rw [pixelEntries, List.map_map, columnSum]
  refine congrArg List.sum (List.map_congr_left fun e _ => ?_)
  by_cases h : b = e.1
  · simp [single, h]
  · simp [single, h, Ne.symm h]

/-! ## Folding the mask in -/

/-- The columns of one of the arrays. -/
def pieces {α : Type} (xs : List α) : List (List α) := (List.range m.npix).map (Foundation.segment m.ptr xs)

@[simp] theorem length_pieces {α : Type} (xs : List α) : (m.pieces xs).length = m.npix := by
  simp [pieces]

theorem flatten_pieces {α : Type} {xs : List α} (h : xs.length = m.indices.length) :
    (m.pieces xs).flatten = xs := by
  rw [pieces, ← List.flatMap_def, flatMap_segment m.ptr xs m.npix m.indptr_zero m.indptr_mono]
  exact List.take_of_length_le (by rw [h]; exact m.indptr_last.ge)

theorem map_length_pieces {α : Type} {xs : List α} (h : xs.length = m.indices.length) :
    (m.pieces xs).map List.length = m.counts := by
  rw [pieces, List.map_map, counts]
  refine List.map_congr_left ?_
  intro p hp
  have hp' : p < m.npix := List.mem_range.mp hp
  exact length_segment (m.indptr_mono p hp') (by rw [h]; exact m.ptr_le hp')

theorem sum_counts : m.counts.sum = m.indices.length := by
  have hpieces : (m.pieces m.indices).map List.length = m.counts := m.map_length_pieces rfl
  rw [← hpieces, ← List.length_flatten, m.flatten_pieces rfl]

/-- The kept entries are those of the kept columns. -/
theorem select_keep {α : Type} {xs : List α} {ms : List Bool} (h : xs.length = m.indices.length)
    (hms : ms.length = m.npix) :
    select (repeatEach ms m.counts) xs =
      (List.zipWith (fun b c => if b then c else []) ms (m.pieces xs)).flatten := by
  conv_lhs => rw [← m.flatten_pieces h, ← m.map_length_pieces h]
  exact select_repeatEach ms _ (by rw [hms, length_pieces])

theorem map_length_keep {α : Type} {xs : List α} (ms : List Bool)
    (h : xs.length = m.indices.length) :
    (List.zipWith (fun b c => if b then c else []) ms (m.pieces xs)).map List.length =
      List.zipWith (fun b n => if b then n else 0) ms m.counts := by
  rw [List.map_zipWith, ← m.map_length_pieces h, List.zipWith_map_right]
  congr 1
  funext b c
  cases b <;> rfl

/-- `_fold_mask` on a mask of the right size: the entries of the masked pixels are dropped. -/
def fold (ms : List Bool) (h : ms.length = m.npix) : NormalMatrix F where
  data := select (repeatEach ms m.counts) m.data
  indices := select (repeatEach ms m.counts) m.indices
  indptr := offsets (List.zipWith (fun b n => if b then n else 0) ms m.counts)
  nbins := m.nbins
  npix := m.npix
  length_data := by
    rw [m.select_keep m.length_data h, m.select_keep rfl h, List.length_flatten,
      List.length_flatten, m.map_length_keep ms m.length_data, m.map_length_keep ms rfl]
  length_indptr := by simp [h]
  indptr_zero := by rw [getD_offsets _ (Nat.zero_le _)]; rfl
  indptr_mono := by
    intro p hp
    rw [getD_offsets_succ _ (by simpa [h] using hp)]
    exact Nat.le_add_right _ _
  indptr_last := by
    have hlast := getD_offsets_length (List.zipWith (fun b n => if b then n else 0) ms m.counts)
    rw [List.length_zipWith, h, length_counts, Nat.min_self] at hlast
    rw [hlast, m.select_keep rfl h, List.length_flatten, m.map_length_keep ms rfl]
  indices_lt := fun b hb => m.indices_lt b (mem_of_mem_select hb)
  nbins_lt := m.nbins_lt
  entries_lt := (Nat.add_le_add_right (length_select_le _ _) 4).trans_lt m.entries_lt

theorem column_fold {ms : List Bool} (h : ms.length = m.npix) {p : Nat} (hp : p < m.npix) :
    (m.fold ms h).column p = if ms.getD p false then m.column p else [] := by
  have hzip : (m.fold ms h).indices.zip (m.fold ms h).data =
      (List.zipWith (fun b c => if b then c else []) ms
        (m.pieces (m.indices.zip m.data))).flatten := by
    rw [← m.select_keep m.length_zip h]
    exact zip_select _ _ _
  have hptr : (m.fold ms h).ptr = fun p => (offsets ((List.zipWith (fun b c => if b then c else [])
      ms (m.pieces (m.indices.zip m.data))).map List.length)).getD p 0 := by
    rw [m.map_length_keep ms m.length_zip]
    rfl
  rw [column, hzip, hptr, segment_flatten _ (by simpa [h] using hp)]
  simp [List.getD_eq_getElem?_getD, pieces, column, h, hp]

/-- The folded matrix times a frame is the matrix times the frame with the masked pixels set
to zero. -/
theorem product_fold [NonUnitalNonAssocSemiring D] {ms : List Bool} (h : ms.length = m.npix)
    (weight : F → D) (v : Nat → D) (b : Nat) :
    (m.fold ms h).product weight v b =
      m.product weight (fun p => if ms.getD p false then v p else 0) b := by
  refine congrArg List.sum (List.map_congr_left ?_)
  intro p hp
  rw [m.column_fold h (List.mem_range.mp hp)]
  by_cases hkeep : ms.getD p false = true
  · simp only [hkeep, if_true]
  · simp only [if_neg hkeep, columnSum_zero]
    rfl

end NormalMatrix

/-- The sizes that `_fold_mask` refuses. -/
structure MaskSize where
  mask : Nat
  npix : Nat
  deriving DecidableEq, Repr

/-- `_fold_mask`. -/
def foldMask (m : NormalMatrix F) (mask : List (BitVec 8)) :
    Except MaskSize (NormalMatrix F) :=
  if h : mask.length = m.npix then
    .ok (m.fold (mask.map fun b => decide (0 < b.toNat)) (by rw [List.length_map, h]))
  else .error ⟨mask.length, m.npix⟩

end Bslz4ToSparse.Matrix
