import Mathlib.Data.Nat.Basic
import Mathlib.Tactic.Ring

/-!
# Buffers with checked reads and writes

A buffer is a size and the contents of its cells. Every access goes through a
partial operation, which is `none` as soon as one cell of the access lies at or
past the size. Nothing is assumed about the initial contents.
-/

namespace Bslz4ToSparse.Foundation

/-- `size` cells; `get` outside of them is never observable through the operations. -/
structure Buffer (α : Type) where
  size : Nat
  get : Nat → α

namespace Buffer

variable {α : Type}

def ofList (xs : List α) (d : α) : Buffer α := ⟨xs.length, fun i => xs.getD i d⟩

@[simp] theorem size_ofList (xs : List α) (d : α) : (ofList xs d).size = xs.length := rfl

@[simp] theorem get_ofList (xs : List α) (d : α) (i : Nat) :
    (ofList xs d).get i = xs.getD i d := rfl

/-- One cell. -/
def load (b : Buffer α) (i : Nat) : Option α :=
  if i < b.size then some (b.get i) else none

/-- `n` consecutive cells from `i` on, as a function of the distance from `i`. -/
def loadRange (b : Buffer α) (i n : Nat) : Option (Nat → α) :=
  if i + n ≤ b.size then some (fun k => b.get (i + k)) else none

/-- Overwrite the `n` cells from `i` on. -/
def storeRange (b : Buffer α) (i n : Nat) (f : Nat → α) : Option (Buffer α) :=
  if i + n ≤ b.size then
    some { b with get := fun k => if i ≤ k ∧ k < i + n then f (k - i) else b.get k }
  else none

/-- Fill the `n` cells from `i` on with one value (`memset`). -/
def fill (b : Buffer α) (i n : Nat) (v : α) : Option (Buffer α) := b.storeRange i n fun _ => v

/-- Copy `n` cells of another buffer (`memcpy`). -/
def copyFrom (b : Buffer α) (i : Nat) (src : Buffer α) (j n : Nat) : Option (Buffer α) := do
  b.storeRange i n (← src.loadRange j n)

/-- Copy `n` cells of the buffer itself; as `memcpy`, undefined when the two ranges overlap. -/
def copyWithin (b : Buffer α) (i j n : Nat) : Option (Buffer α) :=
  if i + n ≤ j ∨ j + n ≤ i then b.copyFrom i b j n else none

theorem load_eq {b : Buffer α} {i : Nat} (h : i < b.size) : b.load i = some (b.get i) :=
  if_pos h

theorem loadRange_eq {b : Buffer α} {i n : Nat} (h : i + n ≤ b.size) :
    b.loadRange i n = some (fun k => b.get (i + k)) := if_pos h

/-- What a write leaves: the size, the cells outside the range, and the new cells. -/
structure Wrote (b b' : Buffer α) (i n : Nat) (f : Nat → α) : Prop where
  size : b'.size = b.size
  inside : ∀ k, k < n → b'.get (i + k) = f k
  outside : ∀ k, k < i ∨ i + n ≤ k → b'.get k = b.get k

theorem storeRange_wrote {b : Buffer α} {i n : Nat} (f : Nat → α) (h : i + n ≤ b.size) :
    ∃ b', b.storeRange i n f = some b' ∧ Wrote b b' i n f := by
  refine ⟨_, if_pos h, rfl, ?_, ?_⟩
  · intro k hk
    simp [hk]
  · intro k hk
    have hout : ¬ (i ≤ k ∧ k < i + n) := by omega
    simp [hout]

theorem fill_wrote {b : Buffer α} {i n : Nat} (v : α) (h : i + n ≤ b.size) :
    ∃ b', b.fill i n v = some b' ∧ Wrote b b' i n (fun _ => v) :=
  storeRange_wrote _ h

theorem copyFrom_wrote {b src : Buffer α} {i j n : Nat} (hsrc : j + n ≤ src.size)
    (hdst : i + n ≤ b.size) :
    ∃ b', b.copyFrom i src j n = some b' ∧ Wrote b b' i n (fun k => src.get (j + k)) := by
  obtain ⟨b', hb, hw⟩ := storeRange_wrote (b := b) (fun k => src.get (j + k)) hdst
  exact ⟨b', by simp [copyFrom, loadRange_eq hsrc, hb], hw⟩

theorem copyWithin_wrote {b : Buffer α} {i j n : Nat} (hsep : i + n ≤ j ∨ j + n ≤ i)
    (hsrc : j + n ≤ b.size) (hdst : i + n ≤ b.size) :
    ∃ b', b.copyWithin i j n = some b' ∧ Wrote b b' i n (fun k => b.get (j + k)) := by
  obtain ⟨b', hb, hw⟩ := copyFrom_wrote (b := b) hsrc hdst
  exact ⟨b', by simp [copyWithin, hsep, hb], hw⟩

theorem Wrote.refl (b : Buffer α) (i : Nat) (f : Nat → α) : Wrote b b i 0 f :=
  ⟨rfl, by omega, fun _ _ => rfl⟩

/-- Two adjacent writes make one. -/
theorem Wrote.append {b b₁ b₂ : Buffer α} {i m n : Nat} {f : Nat → α}
    (h₁ : Wrote b b₁ i m f) (h₂ : Wrote b₁ b₂ (i + m) n (fun k => f (m + k))) :
    Wrote b b₂ i (m + n) f := by
  refine ⟨h₂.size.trans h₁.size, ?_, ?_⟩
  · intro k hk
    by_cases hm : k < m
    · rw [h₂.outside _ (by omega), h₁.inside k hm]
    · have h := h₂.inside (k - m) (by omega)
      rwa [show i + m + (k - m) = i + k by omega, show m + (k - m) = k by omega] at h
  · intro k hk
    rw [h₂.outside k (by omega), h₁.outside k (by omega)]

theorem Wrote.congr {b b' : Buffer α} {i n : Nat} {f g : Nat → α} (h : Wrote b b' i n f)
    (hfg : ∀ k, k < n → f k = g k) : Wrote b b' i n g :=
  ⟨h.size, fun k hk => (h.inside k hk).trans (hfg k hk), h.outside⟩

end Buffer

/-! ## Sequencing of computations that may stop -/

section

variable {ε α β : Type}

@[simp] theorem ok_bind (a : α) (f : α → Except ε β) : (Except.ok a >>= f) = f a := rfl

@[simp] theorem error_bind (e : ε) (f : α → Except ε β) : (Except.error e >>= f) = .error e := rfl

@[simp] theorem throw_eq_error (e : ε) : (throw e : Except ε α) = .error e := rfl

@[simp] theorem pure_eq_ok (a : α) : (pure a : Except ε α) = .ok a := rfl

end

end Bslz4ToSparse.Foundation
