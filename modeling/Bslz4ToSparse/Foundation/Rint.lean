import Mathlib.Algebra.Order.Archimedean.Basic
import Mathlib.Algebra.Order.Field.Rat
import Mathlib.Data.Rat.Floor
import Mathlib.Tactic.Linarith
import Mathlib.Tactic.NormNum

/-!
# Rounding to an integer, ties to even
-/

namespace Bslz4ToSparse.Foundation

/-- `rint`. -/
def rint (x : ℚ) : ℤ :=
  if x - ⌊x⌋ < 1 / 2 then ⌊x⌋
  else if 1 / 2 < x - ⌊x⌋ then ⌊x⌋ + 1
  else if ⌊x⌋ % 2 = 0 then ⌊x⌋ else ⌊x⌋ + 1

/-- The rounded value is the floor or the next integer, whichever is not farther. -/
theorem rint_cases (x : ℚ) :
    rint x = ⌊x⌋ ∧ x - ⌊x⌋ ≤ 1 / 2 ∨ rint x = ⌊x⌋ + 1 ∧ 1 / 2 ≤ x - ⌊x⌋ := by
  unfold rint
  split_ifs with hlow hhigh heven
  · exact .inl ⟨rfl, hlow.le⟩
  · exact .inr ⟨rfl, hhigh.le⟩
  · exact .inl ⟨rfl, not_lt.mp hhigh⟩
  · exact .inr ⟨rfl, not_lt.mp hlow⟩

@[simp] theorem rint_intCast (n : ℤ) : rint n = n := by
  simp [rint]

@[simp] theorem rint_zero : rint 0 = 0 := rint_intCast 0

theorem rint_nonneg {x : ℚ} (h : 0 ≤ x) : 0 ≤ rint x := by
  have hfloor : 0 ≤ ⌊x⌋ := Int.floor_nonneg.mpr h
  rcases rint_cases x with ⟨hr, -⟩ | ⟨hr, -⟩ <;> omega

/-- Rounding at most doubles: a half is rounded to 0. -/
theorem rint_le_two_mul {x : ℚ} (h : 0 ≤ x) : (rint x : ℚ) ≤ 2 * x := by
  have hfloor : (0 : ℚ) ≤ ⌊x⌋ := by exact_mod_cast Int.floor_nonneg.mpr h
  have hle := Int.floor_le x
  rcases rint_cases x with ⟨hr, -⟩ | ⟨hr, hfrac⟩
  · rw [hr]
    linarith
  · rw [hr, Int.cast_add, Int.cast_one]
    linarith

example : rint (5 / 2) = 2 ∧ rint (7 / 2) = 4 ∧ rint (-1 / 2) = 0 := by decide +kernel

end Bslz4ToSparse.Foundation
