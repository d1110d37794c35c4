import Mathlib.Algebra.BigOperators.Group.List.Basic
import Mathlib.Algebra.Group.Pi.Basic
import Mathlib.Algebra.Ring.Defs

/-!
# Loops that accumulate into a table

A table is a function from its indices to its cells. `Adds step c` says that `step` adds
`c i` to every cell `i`, whatever the table holds. Steps that add can be sequenced and
looped over, and the additions sum up; a loop that visits the same things in another
order therefore adds the same.
-/

namespace Bslz4ToSparse.Foundation

variable {α D : Type}

/-- Apply `f` to one cell. -/
def modifyAt (out : Nat → D) (b : Nat) (f : D → D) : Nat → D :=
  fun i => if i = b then f (out i) else out i

theorem modifyAt_ne {out : Nat → D} {b i : Nat} (f : D → D) (h : i ≠ b) :
    modifyAt out b f i = out i := if_neg h

/-- A loop whose turns act on a cell by themselves is a loop over that cell. -/
theorem foldl_cell {f : (Nat → D) → α → Nat → D} {g : D → α → D} {b : Nat} (l : List α)
    (h : ∀ a ∈ l, ∀ out, f out a b = g (out b) a) (out : Nat → D) :
    l.foldl f out b = l.foldl g (out b) := by
  induction l generalizing out with
  | nil => rfl
  | cons a l ih =>
    rw [List.foldl_cons, List.foldl_cons, ih (fun x hx => h x (List.mem_cons_of_mem a hx)),
      h a List.mem_cons_self]

/-- A loop over neighbouring cells visits each of them once. -/
theorem foldl_modifyAt (base c n : Nat) (f : Nat → D → D) (out : Nat → D) (b : Nat) :
    (List.range' c n).foldl (fun out k => modifyAt out (base + k) (f k)) out b =
      if base + c ≤ b ∧ b < base + c + n then f (b - base) (out b) else out b := by
  induction n with
  | zero =>
    rw [if_neg (by omega)]
    rfl
  | succ n ih =>
    rw [List.range'_concat, List.foldl_append, List.foldl_cons, List.foldl_nil, Nat.one_mul, modifyAt,
      ih]
    by_cases hlast : b = base + (c + n)
    · subst hlast
      rw [if_pos rfl, if_neg (by omega), if_pos (by omega), Nat.add_sub_cancel_left]
    · rw [if_neg hlast]
      by_cases hin : base + c ≤ b ∧ b < base + c + n
      · rw [if_pos hin, if_pos (by omega)]
      · rw [if_neg hin, if_neg (by omega)]

/-- Turns that do nothing may be left out. -/
theorem foldl_filter_of_idle {β : Type} {f : β → α → β} {p : α → Bool} {s : β} {I : β → Prop}
    (l : List α) (hs : I s) (hstep : ∀ a ∈ l, ∀ s, I s → I (f s a))
    (hidle : ∀ a ∈ l, p a = false → ∀ s, I s → f s a = s) :
    l.foldl f s = (l.filter p).foldl f s := by
  induction l generalizing s with
  | nil => rfl
  | cons a l ih =>
    have hstep' := fun x hx => hstep x (List.mem_cons_of_mem a hx)
    have hidle' := fun x hx => hidle x (List.mem_cons_of_mem a hx)
    by_cases hp : p a = true
    · rw [List.filter_cons_of_pos hp, List.foldl_cons, List.foldl_cons]
      exact ih (hstep a List.mem_cons_self s hs) hstep' hidle'
    · rw [List.filter_cons_of_neg hp, List.foldl_cons,
        hidle a List.mem_cons_self (by simpa using hp) s hs]
      exact ih hs hstep' hidle'

/-- A turn that gives `bad` settles the loop, if no turn leaves `bad`. -/
theorem foldl_absorbed {β : Type} {f : β → α → β} {bad : β} {l : List α} {a : α} (ha : a ∈ l)
    (hgive : ∀ s, f s a = bad) (hstay : ∀ x ∈ l, f bad x = bad) (s : β) : l.foldl f s = bad := by
  have hrest : ∀ l' : List α, (∀ x ∈ l', f bad x = bad) → l'.foldl f bad = bad := by
    intro l'
    induction l' with
    | nil => exact fun _ => rfl
    | cons x l' ih =>
      intro h
      rw [List.foldl_cons, h x List.mem_cons_self]
      exact ih fun y hy => h y (List.mem_cons_of_mem x hy)
  obtain ⟨before, after, rfl⟩ := List.append_of_mem ha
  rw [List.foldl_append, List.foldl_cons, hgive]
  exact hrest after fun x hx => hstay x (List.mem_append_right _ (List.mem_cons_of_mem a hx))

/-- What one cell of a table gets when `d` is added to cell `b`. -/
def single [Zero D] (b : Nat) (d : D) : Nat → D := fun i => if i = b then d else 0

variable [AddCommMonoid D]

def Adds (step : (Nat → D) → Nat → D) (c : Nat → D) : Prop := ∀ out i, step out i = out i + c i

theorem adds_modifyAt (b : Nat) (d : D) : Adds (fun out => modifyAt out b (· + d)) (single b d) := by
  intro out i
  by_cases h : i = b
  · simp [modifyAt, single, h]
  · simp [modifyAt, single, h]

theorem adds_id : Adds (fun out => out) (0 : Nat → D) := by
  intro out i
  simp

theorem Adds.comp {f g : (Nat → D) → Nat → D} {c d : Nat → D} (hf : Adds f c) (hg : Adds g d) :
    Adds (fun out => g (f out)) (c + d) := by
  intro out i
  calc g (f out) i = f out i + d i := hg (f out) i
    _ = out i + c i + d i := congrArg (· + _) (hf out i)
    _ = out i + (c + d) i := add_assoc _ _ _

theorem Adds.congr {f : (Nat → D) → Nat → D} {c d : Nat → D} (hf : Adds f c) (h : ∀ i, c i = d i) :
    Adds f d := fun out i => (hf out i).trans (by rw [h])

/-- A loop adds what its turns add. -/
theorem adds_foldl {f : (Nat → D) → α → Nat → D} {c : α → Nat → D} (l : List α)
    (h : ∀ a ∈ l, Adds (fun out => f out a) (c a)) :
    Adds (fun out => l.foldl f out) (fun i => (l.map fun a => c a i).sum) := by
  induction l with
  | nil => exact adds_id
  | cons a l ih =>
    have ha := h a List.mem_cons_self
    have hl := ih fun b hb => h b (List.mem_cons_of_mem a hb)
    intro out i
    calc (a :: l).foldl f out i = f out a i + (l.map fun a => c a i).sum := hl (f out a) i
      _ = out i + c a i + (l.map fun a => c a i).sum := congrArg (· + _) (ha out i)
      _ = out i + ((a :: l).map fun a => c a i).sum := by
        rw [List.map_cons, List.sum_cons, add_assoc]

/-- Sums over the same things in another order. -/
theorem sum_map_perm {l l' : List α} (h : l.Perm l') (f : α → D) :
    (l.map f).sum = (l'.map f).sum := (h.map f).sum_eq

theorem sum_map_flatMap {β : Type} (l : List α) (g : α → List β) (f : β → D) :
    ((l.flatMap g).map f).sum = (l.map fun a => ((g a).map f).sum).sum := by
  induction l with
  | nil => rfl
  | cons a l ih => rw [List.flatMap_cons, List.map_append, List.sum_append, ih, List.map_cons,
      List.sum_cons]

theorem sum_map_filter (l : List α) (p : α → Bool) (f : α → D) :
    ((l.filter p).map f).sum = (l.map fun a => if p a then f a else 0).sum := by
  induction l with
  | nil => rfl
  | cons a l ih =>
    by_cases h : p a = true
    · simp [List.filter_cons_of_pos h, ih, h]
    · simp [List.filter_cons_of_neg h, ih, h]

end Bslz4ToSparse.Foundation
