import Bslz4ToSparse.Foundation.Buffer
import Mathlib.Data.List.Range
import Mathlib.Data.List.Forall2

/-!
# Counting loops

A loop over `0 .. n` is a fold of the list of its counters. Its rule is induction on the
counter, with an invariant that may speak of it.
-/

namespace Bslz4ToSparse.Foundation

variable {σ ε : Type}

/-- The rule of a loop. -/
theorem foldl_range_induct {f : σ → Nat → σ} {n : Nat} (I : Nat → σ → Prop) {s : σ} (h : I 0 s)
    (hstep : ∀ k, k < n → ∀ s, I k s → I (k + 1) (f s k)) : I n ((List.range n).foldl f s) := by
  induction n with
  | zero => exact h
  | succ n ih =>
    rw [List.range_succ, List.foldl_append, List.foldl_cons, List.foldl_nil]
    apply hstep n (Nat.lt_succ_self n)
    apply ih
    intro k hk
    exact hstep k (by omega)

/-- A loop with checks follows the loop without them when each of its turns does. -/
theorem foldlM_simulates {α τ : Type} {R : σ → τ → Prop} {step : σ → α → Option σ} {f : τ → α → τ}
    {l : List α} (h : ∀ a ∈ l, ∀ s t, R s t → ∃ s', step s a = some s' ∧ R s' (f t a)) {s : σ} {t : τ}
    (hs : R s t) : ∃ s', l.foldlM step s = some s' ∧ R s' (l.foldl f t) := by
  induction l generalizing s t with
  | nil => exact ⟨s, rfl, hs⟩
  | cons a l ih =>
    obtain ⟨s', hstep, hs'⟩ := h a List.mem_cons_self s t hs
    rw [List.foldlM_cons, hstep, List.foldl_cons]
    exact ih (fun b hb => h b (List.mem_cons_of_mem a hb)) hs'

/-- Every turn of a loop that passes has passed. -/
theorem foldlM_some_mem {α : Type} {step : σ → α → Option σ} {l : List α} {s t : σ}
    (h : l.foldlM step s = some t) {a : α} (ha : a ∈ l) : ∃ s' t', step s' a = some t' := by
  induction l generalizing s with
  | nil => exact absurd ha List.not_mem_nil
  | cons b l ih =>
    rw [List.foldlM_cons] at h
    obtain ⟨s', hs', hrest⟩ := Option.bind_eq_some_iff.mp h
    rcases List.mem_cons.mp ha with rfl | hmem
    · exact ⟨s, s', hs'⟩
    · exact ih hrest hmem

/-- A loop whose checks pass. -/
theorem foldlM_eq_some {α : Type} {step : σ → α → Option σ} {f : σ → α → σ} {l : List α} {s : σ}
    (h : ∀ a ∈ l, ∀ s, step s a = some (f s a)) : l.foldlM step s = some (l.foldl f s) := by
  obtain ⟨s', hfold, rfl⟩ := foldlM_simulates (R := Eq)
    (fun a ha s t hst => ⟨_, h a ha s, congrArg (f · a) hst⟩) (rfl : s = s)
  exact hfold

/-- A loop that may raise, done. -/
theorem mapM_ok {α β : Type} {f : α → Except ε β} {l : List α} {r : List β}
    (h : l.mapM f = .ok r) : List.Forall₂ (fun a b => f a = .ok b) l r := by
  induction l generalizing r with
  | nil =>
    rw [List.mapM_nil] at h
    cases h
    exact .nil
  | cons a l ih =>
    rw [List.mapM_cons] at h
    cases ha : f a with
    | error e =>
      rw [ha] at h
      cases h
    | ok b =>
      cases hl : l.mapM f with
      | error e =>
        rw [ha, hl] at h
        cases h
      | ok bs =>
        rw [ha, hl] at h
        cases h
        exact .cons ha (ih hl)

/-- A loop that may raise, but does not. -/
theorem mapM_exists_ok {α β : Type} {f : α → Except ε β} {l : List α} (h : ∀ x ∈ l, ∃ y, f x = .ok y) :
    ∃ r, l.mapM f = .ok r := by
  induction l with
  | nil => exact ⟨[], rfl⟩
  | cons x l ih =>
    obtain ⟨y, hy⟩ := h x List.mem_cons_self
    obtain ⟨r, hr⟩ := ih fun z hz => h z (List.mem_cons_of_mem x hz)
    exact ⟨y :: r, by rw [List.mapM_cons, hy, hr]; rfl⟩

/-- A loop that may find nothing, done. -/
theorem mapM_some {α β : Type} {f : α → Option β} {l : List α} {r : List β}
    (h : l.mapM f = some r) : List.Forall₂ (fun a b => f a = some b) l r := by
  induction l generalizing r with
  | nil =>
    rw [List.mapM_nil] at h
    cases h
    exact .nil
  | cons a l ih =>
    rw [List.mapM_cons] at h
    obtain ⟨b, hb, hrest⟩ := Option.bind_eq_some_iff.mp h
    obtain ⟨bs, hbs, hout⟩ := Option.bind_eq_some_iff.mp hrest
    cases hout
    exact .cons hb (ih hbs)

/-- A loop that finds something at each turn. -/
theorem mapM_eq_some {α β : Type} {f : α → Option β} {g : α → β} {l : List α}
    (h : ∀ a ∈ l, f a = some (g a)) : l.mapM f = some (l.map g) := by
  induction l with
  | nil => rfl
  | cons a l ih =>
    rw [List.mapM_cons, h a List.mem_cons_self, ih fun b hb => h b (List.mem_cons_of_mem a hb)]
    rfl

/-- A loop that finds nothing at one turn finds nothing. -/
theorem mapM_none {α β : Type} {f : α → Option β} {l : List α} :
    l.mapM f = none ↔ ∃ a ∈ l, f a = none := by
  induction l with
  | nil => simp
  | cons a l ih =>
    rw [List.mapM_cons]
    simp only [List.mem_cons, exists_eq_or_imp, ← ih]
    cases f a with
    | none => simp
    | some b => cases l.mapM f <;> simp

end Bslz4ToSparse.Foundation
