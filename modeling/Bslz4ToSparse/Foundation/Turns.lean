import Mathlib.Data.List.Basic

/-!
# A loop whose turns may go several ways

The state after each turn is one of those that the turn may leave. What every turn keeps, the loop
keeps; what a turn sets and the others keep, the loop leaves set.
-/

namespace Bslz4ToSparse.Foundation

variable {α ι σ : Type}

/-- The loop over `l`, from state `x` to state `y`. -/
inductive Turns (turn : α → σ → σ → Prop) : List α → σ → σ → Prop
  | nil (x : σ) : Turns turn [] x x
  | cons {a : α} {l : List α} {x y z : σ} (hturn : turn a x y) (hrest : Turns turn l y z) : Turns turn (a :: l) x z

variable {turn : α → σ → σ → Prop} {l : List α}

/-- A loop all of whose turns come to their end comes to its end. -/
theorem Turns.exists (h : ∀ a ∈ l, ∀ x, ∃ y, turn a x y) (x : σ) : ∃ y, Turns turn l x y := by
  induction l generalizing x with
  | nil => exact ⟨x, .nil x⟩
  | cons a l ih =>
    obtain ⟨y, hy⟩ := h a List.mem_cons_self x
    obtain ⟨z, hz⟩ := ih (fun b hb => h b (List.mem_cons_of_mem a hb)) y
    exact ⟨z, .cons hy hz⟩

theorem Turns.keeps {P : σ → Prop} (h : ∀ a ∈ l, ∀ x y, turn a x y → P x → P y) {x y : σ}
    (hrun : Turns turn l x y) (hx : P x) : P y := by
  induction hrun with
  | nil => exact hx
  | @cons a l x y z hturn _ ih =>
    exact ih (fun b hb => h b (List.mem_cons_of_mem a hb)) (h a List.mem_cons_self x y hturn hx)

/-- Each turn has cells of its own: they are right after the loop, once right after the turn. -/
theorem Turns.sets {P : ι → σ → Prop} {cells : α → List ι}
    (hsets : ∀ a ∈ l, ∀ x y, turn a x y → ∀ i ∈ cells a, P i y)
    (hkeeps : ∀ a ∈ l, ∀ x y, turn a x y → ∀ i, i ∉ cells a → P i x → P i y) {x y : σ}
    (hrun : Turns turn l x y) : ∀ i ∈ l.flatMap cells, P i y := by
  induction hrun with
  | nil => exact fun i hi => absurd hi List.not_mem_nil
  | @cons a l x y z hturn hrest ih =>
    intro i hi
    have hlater := fun b hb => hkeeps b (List.mem_cons_of_mem a hb)
    by_cases hmem : i ∈ l.flatMap cells
    · exact ih (fun b hb => hsets b (List.mem_cons_of_mem a hb)) hlater i hmem
    · have hnow : i ∈ cells a := (List.mem_append.mp hi).resolve_right hmem
      refine hrest.keeps (fun b hb x y hy => hlater b hb x y hy i fun hib => hmem ?_)
        (hsets a List.mem_cons_self x y hturn i hnow)
      exact List.mem_flatMap.mpr ⟨b, hb, hib⟩

end Bslz4ToSparse.Foundation
