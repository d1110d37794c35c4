import Mathlib.Algebra.BigOperators.Group.List.Lemmas
import Mathlib.Algebra.BigOperators.Ring.List
import Mathlib.Tactic.Ring

/-!
# Sparse matrices

A sparse matrix is a list of entries (row, column, value). Entries at one place add up, as
they do in the product with a vector and in the product of two matrices.
-/

namespace Bslz4ToSparse.Foundation

/-- A sparse matrix, by its entries. -/
structure Sparse (F : Type) where
  nrows : Nat
  ncols : Nat
  entries : List (Nat × Nat × F)
  row_lt : ∀ e ∈ entries, e.1 < nrows
  col_lt : ∀ e ∈ entries, e.2.1 < ncols

namespace Sparse

variable {F : Type} [CommSemiring F]

/-- Row `i` of the product of entries with a vector. -/
def rowDot (entries : List (Nat × Nat × F)) (x : Nat → F) (i : Nat) : F :=
  (entries.map fun e => if e.1 = i then e.2.2 * x e.2.1 else 0).sum

/-- The product with a vector. -/
def apply (m : Sparse F) (x : Nat → F) : List F := (List.range m.nrows).map (rowDot m.entries x)

@[simp] theorem length_apply (m : Sparse F) (x : Nat → F) : (m.apply x).length = m.nrows := by
  rw [apply, List.length_map, List.length_range]

theorem getD_apply (m : Sparse F) (x : Nat → F) {i : Nat} (hi : i < m.nrows) :
    (m.apply x).getD i 0 = rowDot m.entries x i := by
  simp [apply, List.getD_eq_getElem?_getD, hi]

/-- The entries of row `e.2.1` of `b`, times the entry `e`, in row `e.1`. -/
def scaled (b : List (Nat × Nat × F)) (e : Nat × Nat × F) : List (Nat × Nat × F) :=
  (b.filter (·.1 = e.2.1)).map fun d => (e.1, d.2.1, e.2.2 * d.2.2)

theorem mem_scaled {b : List (Nat × Nat × F)} {e c : Nat × Nat × F} (h : c ∈ scaled b e) :
    c.1 = e.1 ∧ ∃ d ∈ b, c.2.1 = d.2.1 := by
  obtain ⟨d, hd, rfl⟩ := List.mem_map.mp h
  exact ⟨rfl, d, (List.mem_filter.mp hd).1, rfl⟩

/-- The product of two matrices. -/
def mul (a b : Sparse F) : Sparse F where
  nrows := a.nrows
  ncols := b.ncols
  entries := a.entries.flatMap (scaled b.entries)
  row_lt := by
    intro c hc
    obtain ⟨e, he, hce⟩ := List.mem_flatMap.mp hc
    rw [(mem_scaled hce).1]
    exact a.row_lt e he
  col_lt := by
    intro c hc
    obtain ⟨e, he, hce⟩ := List.mem_flatMap.mp hc
    obtain ⟨-, d, hd, hcol⟩ := mem_scaled hce
    rw [hcol]
    exact b.col_lt d hd

theorem rowDot_append (xs ys : List (Nat × Nat × F)) (x : Nat → F) (i : Nat) :
    rowDot (xs ++ ys) x i = rowDot xs x i + rowDot ys x i := by
  rw [rowDot, List.map_append, List.sum_append]
  rfl

theorem rowDot_flatMap {α : Type} (f : α → List (Nat × Nat × F)) (l : List α) (x : Nat → F)
    (i : Nat) : rowDot (l.flatMap f) x i = (l.map fun a => rowDot (f a) x i).sum := by
  induction l with
  | nil => rfl
  | cons a l ih => rw [List.flatMap_cons, rowDot_append, ih, List.map_cons, List.sum_cons]

theorem rowDot_scaled (b : List (Nat × Nat × F)) (e : Nat × Nat × F) (x : Nat → F) (i : Nat) :
    rowDot (scaled b e) x i = if e.1 = i then e.2.2 * rowDot b x e.2.1 else 0 := by
  induction b with
  | nil => simp [scaled, rowDot]
  | cons d b ih =>
    have hcons : rowDot (d :: b) x e.2.1 =
        (if d.1 = e.2.1 then d.2.2 * x d.2.1 else 0) + rowDot b x e.2.1 := by
      rw [rowDot, List.map_cons, List.sum_cons]
      rfl
    by_cases hd : d.1 = e.2.1
    · have hscaled : scaled (d :: b) e = (e.1, d.2.1, e.2.2 * d.2.2) :: scaled b e := by
        simp [scaled, hd]
      rw [hscaled, rowDot, List.map_cons, List.sum_cons, ← rowDot, ih, hcons, if_pos hd]
      by_cases hi : e.1 = i
      · simp only [hi, if_true]
        ring
      · simp only [hi, if_false, add_zero]
    · have hscaled : scaled (d :: b) e = scaled b e := by
        simp [scaled, hd]
      rw [hscaled, ih, hcons, if_neg hd, zero_add]

/-- A product applied to a vector is its factors applied one after the other. -/
theorem rowDot_mul (a b : Sparse F) (x : Nat → F) (i : Nat) :
    rowDot (a.mul b).entries x i = rowDot a.entries (rowDot b.entries x) i := by
  rw [mul, rowDot_flatMap, rowDot]
  exact congrArg List.sum (List.map_congr_left fun e _ => rowDot_scaled b.entries e x i)

end Sparse

/-- The sum over the numbered items of a list of the values at number `k`. -/
theorem sum_zipIdx_single {α F : Type} [AddCommMonoid F] (g : α → F) (l : List α) {k : Nat} {a : α}
    (h : l[k]? = some a) : (l.zipIdx.map fun e => if e.2 = k then g e.1 else 0).sum = g a := by
  suffices hfrom : ∀ n, ((l.zipIdx n).map fun e => if e.2 = n + k then g e.1 else 0).sum = g a by
    simpa using hfrom 0
  induction l generalizing k with
  | nil => simp at h
  | cons b l ih =>
    intro n
    rw [List.zipIdx_cons, List.map_cons, List.sum_cons]
    cases k with
    | zero =>
      obtain rfl : b = a := by simpa using h
      have hrest : ((l.zipIdx (n + 1)).map fun e => if e.2 = n + 0 then g e.1 else 0).sum = 0 := by
        apply List.sum_eq_zero
        intro v hv
        obtain ⟨e, he, rfl⟩ := List.mem_map.mp hv
        have hle := List.le_snd_of_mem_zipIdx he
        exact if_neg (by omega)
      rw [hrest, add_zero, if_pos (Nat.add_zero n).symm]
    | succ k =>
      have hrest := ih (by simpa using h) (n + 1)
      rw [show n + 1 + k = n + (k + 1) by omega] at hrest
      rw [hrest, if_neg (by simp), zero_add]

/-- The sum over `0 .. n` of the values at `k`. -/
theorem sum_range_single {F : Type} [AddCommMonoid F] (g : Nat → F) {n k : Nat} (h : k < n) :
    ((List.range n).map fun i => if i = k then g i else 0).sum = g k := by
  rw [List.sum_map_eq_nsmul_single k _ fun i hi _ => if_neg hi, if_pos rfl,
    List.count_eq_one_of_mem List.nodup_range (List.mem_range.mpr h), one_nsmul]

end Bslz4ToSparse.Foundation
