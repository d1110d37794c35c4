import Mathlib.Algebra.BigOperators.Group.Finset.Basic
import Mathlib.Data.List.Chain
import Mathlib.Logic.Relation

/-!
# Runs that end

When every step lowers a measure, no run is longer than the measure, and each can be gone on with
until it is stuck. The measure of a system of several parties is a sum with one summand for each.
-/

namespace Bslz4ToSparse.Foundation

section

variable {σ : Type} {r : σ → σ → Prop} {m : σ → Nat}

/-- No run has more steps than the measure at its start. -/
theorem length_le_measure (h : ∀ s s', r s s' → m s' < m s) {s : σ} {run : List σ}
    (hrun : (s :: run).IsChain r) : run.length ≤ m s := by
  induction run generalizing s with
  | nil => exact Nat.zero_le _
  | cons s' run ih =>
    obtain ⟨hstep, hrest⟩ := List.isChain_cons_cons.mp hrun
    have hlen := ih hrest
    have hlt := h s s' hstep
    rw [List.length_cons]
    omega

/-- From every state there is a run to one where nothing goes on. -/
theorem exists_stuck (h : ∀ s s', r s s' → m s' < m s) (s : σ) :
    ∃ s', Relation.ReflTransGen r s s' ∧ ∀ s'', ¬r s' s'' := by
  induction hm : m s using Nat.strong_induction_on generalizing s with
  | _ n ih =>
    by_cases hstuck : ∀ s'', ¬r s s''
    · exact ⟨s, .refl, hstuck⟩
    · obtain ⟨s₁, hstep⟩ := not_forall_not.mp hstuck
      obtain ⟨s', hrun, hend⟩ := ih (m s₁) (hm ▸ h s s₁ hstep) s₁ rfl
      exact ⟨s', .head hstep hrun, hend⟩

end

/-- One party changes, and with it its summand. -/
theorem sum_update {β : Type} (c : β → Nat) (g : Nat → β) {n k : Nat} (hk : k < n) (b : β) :
    (∑ i ∈ Finset.range n, c (Function.update g k b i)) + c (g k) =
      (∑ i ∈ Finset.range n, c (g i)) + c b := by
  have hmem := Finset.mem_range.mpr hk
  rw [← Finset.add_sum_erase _ _ hmem, ← Finset.add_sum_erase _ (fun i => c (g i)) hmem,
    Function.update_self]
  have hothers : ∑ i ∈ (Finset.range n).erase k, c (Function.update g k b i) =
      ∑ i ∈ (Finset.range n).erase k, c (g i) := by
    refine Finset.sum_congr rfl fun i hi => ?_
    rw [Function.update_of_ne (Finset.ne_of_mem_erase hi)]
  rw [hothers]
  omega

end Bslz4ToSparse.Foundation
