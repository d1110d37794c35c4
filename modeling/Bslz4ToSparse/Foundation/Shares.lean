import Mathlib.Data.List.Perm.Basic
import Mathlib.Data.List.Nodup
import Mathlib.Logic.Function.Basic

/-!
# What several parties hold

Each of `n` parties holds a list. When one of them changes, the lists of all together change
by what this one had and has.
-/

namespace Bslz4ToSparse.Foundation

variable {α β : Type}

/-- What all of `n` parties hold. -/
def shares (n : Nat) (f : β → List α) (g : Nat → β) : List α := (List.range n).flatMap fun k => f (g k)

/-- The parties but one hold the same before and after. -/
theorem shares_update (f : β → List α) (g : Nat → β) {n k : Nat} (hk : k < n) (b : β) :
    ∃ rest, (shares n f g).Perm (f (g k) ++ rest) ∧
      (shares n f (Function.update g k b)).Perm (f b ++ rest) := by
  have hsplit := List.perm_cons_erase (List.mem_range.mpr hk)
  refine ⟨((List.range n).erase k).flatMap fun j => f (g j), ?_, ?_⟩
  · exact hsplit.flatMap_right _
  · refine (hsplit.flatMap_right _).trans ?_
    rw [List.flatMap_cons, Function.update_self]
    apply List.Perm.append_left
    apply List.Perm.of_eq
    apply List.flatMap_congr
    intro j hj
    have hne : j ≠ k := fun h => List.Nodup.not_mem_erase List.nodup_range (h ▸ hj)
    rw [Function.update_of_ne hne]

/-- One party hands something over. -/
theorem shares_move {f : β → List α} {g : Nat → β} {n k : Nat} (hk : k < n) {b : β}
    {xs ys : List α} (h : (xs ++ f b).Perm (ys ++ f (g k))) :
    (xs ++ shares n f (Function.update g k b)).Perm (ys ++ shares n f g) := by
  obtain ⟨rest, hbefore, hafter⟩ := shares_update f g hk b
  calc (xs ++ shares n f (Function.update g k b)).Perm (xs ++ (f b ++ rest)) := hafter.append_left xs
    _ = (xs ++ f b) ++ rest := (List.append_assoc _ _ _).symm
    (xs ++ f b ++ rest).Perm ((ys ++ f (g k)) ++ rest) := h.append_right rest
    _ = ys ++ (f (g k) ++ rest) := List.append_assoc _ _ _
    (ys ++ (f (g k) ++ rest)).Perm (ys ++ shares n f g) := (hbefore.append_left ys).symm

theorem shares_nil {f : β → List α} {g : Nat → β} {n : Nat} (h : ∀ k, k < n → f (g k) = []) :
    shares n f g = [] :=
  List.flatMap_eq_nil_iff.mpr fun k hk => h k (List.mem_range.mp hk)

end Bslz4ToSparse.Foundation
