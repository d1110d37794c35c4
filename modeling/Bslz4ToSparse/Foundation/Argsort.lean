import Mathlib.Data.List.GetD
import Mathlib.Data.List.Perm.Basic
import Mathlib.Order.Lattice

/-!
# Sorting by keys

The positions of a list in the order of their keys. When the keys tell two kinds of
positions apart, the positions of the larger kind come last.
-/

namespace Bslz4ToSparse.Foundation

variable {α : Type}

/-- `np.argsort(keys, kind="stable")`. -/
def argsort [LinearOrder α] (d : α) (keys : List α) : List Nat :=
  (List.range keys.length).mergeSort fun i j => decide (keys.getD i d ≤ keys.getD j d)

section Keys

variable [LinearOrder α] {d : α} {keys : List α}

theorem argsort_perm : (argsort d keys).Perm (List.range keys.length) := List.mergeSort_perm _ _

@[simp] theorem length_argsort : (argsort d keys).length = keys.length := by
  rw [argsort_perm.length_eq, List.length_range]

theorem mem_argsort {k : Nat} : k ∈ argsort d keys ↔ k < keys.length := by
  rw [argsort_perm.mem_iff, List.mem_range]

theorem nodup_argsort : (argsort d keys).Nodup := argsort_perm.nodup_iff.mpr List.nodup_range

theorem argsort_sorted : (argsort d keys).Pairwise fun i j => keys.getD i d ≤ keys.getD j d := by
  have h : (argsort d keys).Pairwise fun i j => decide (keys.getD i d ≤ keys.getD j d) = true := by
    apply List.pairwise_mergeSort
    · intro a b c hab hbc
      exact decide_eq_true (le_trans (of_decide_eq_true hab) (of_decide_eq_true hbc))
    · intro a b
      simp only [Bool.or_eq_true, decide_eq_true_eq]
      exact le_total _ _
  exact h.imp of_decide_eq_true

end Keys

/-- A list in which one kind of elements comes last. -/
theorem filter_append_filter {l : List α} {B : α → Bool}
    (h : l.Pairwise fun a b => B a = true → B b = true) :
    l.filter (fun a => !B a) ++ l.filter B = l := by
  induction l with
  | nil => rfl
  | cons a l ih =>
    obtain ⟨ha, hl⟩ := List.pairwise_cons.mp h
    cases hB : B a with
    | true =>
      have hall : ∀ b ∈ l, B b = true := fun b hb => ha b hb hB
      have hnone : l.filter (fun a => !B a) = [] :=
        List.filter_eq_nil_iff.mpr fun b hb => by simp [hall b hb]
      rw [List.filter_cons_of_neg (by simp [hB]), hnone, List.filter_cons_of_pos hB,
        List.filter_eq_self.mpr hall]
      rfl
    | false =>
      rw [List.filter_cons_of_pos (by simp [hB]), List.filter_cons_of_neg (by simp [hB]),
        List.cons_append, ih hl]

/-- The last `c` positions, when `c` of them have larger keys than the others. -/
theorem drop_argsort [LinearOrder α] {d : α} {keys : List α} {B : Nat → Bool}
    (h : ∀ i j, i < keys.length → j < keys.length → B i = true → B j = false →
      keys.getD j d < keys.getD i d) :
    (argsort d keys).drop (keys.length - ((List.range keys.length).filter B).length) =
      (argsort d keys).filter B := by
  have hlast : (argsort d keys).Pairwise fun i j => B i = true → B j = true := by
    refine List.Pairwise.imp_of_mem (fun {i j} hi hj hle hBi => ?_) argsort_sorted
    by_contra hBj
    exact absurd (h i j (mem_argsort.mp hi) (mem_argsort.mp hj) hBi (by simpa using hBj)) (not_lt.mpr hle)
  have hsplit := filter_append_filter hlast
  have hlen := congrArg List.length hsplit
  have hperm : ((argsort d keys).filter B).length = ((List.range keys.length).filter B).length :=
    (argsort_perm.filter B).length_eq
  rw [List.length_append, length_argsort] at hlen
  conv_lhs => rw [← hsplit]
  rw [List.drop_append_of_le_length (by omega), List.drop_of_length_le (by omega), List.nil_append]

end Bslz4ToSparse.Foundation
