import Mathlib.Data.Nat.Init
import Mathlib.Tactic.Ring

/-!
# Division by multiplication

Dividing by `d` is multiplying with `N / d`, rounded up, and dividing by `N`, as long as the
rounding stays below one in `N`.
-/

namespace Bslz4ToSparse.Foundation

/-- The reciprocal is off by less than the divisor. -/
theorem ceilDiv_bounds {N d : Nat} (hd : 0 < d) :
    N ≤ (N + d - 1) / d * d ∧ (N + d - 1) / d * d ≤ N + (d - 1) := by
  have hlow := Nat.div_add_mod (N + d - 1) d
  have hrem := Nat.mod_lt (N + d - 1) hd
  rw [Nat.mul_comm] at hlow
  omega

theorem mul_ceilDiv_div {N d x : Nat} (hd : 0 < d) (h : x * (d - 1) < N) :
    x * ((N + d - 1) / d) / N = x / d := by
  obtain ⟨hlow, hhigh⟩ := @ceilDiv_bounds N d hd
  set m := (N + d - 1) / d
  have hq : x / d * d ≤ x := Nat.div_mul_le_self x d
  have hx : x + 1 ≤ (x / d + 1) * d := Nat.lt_mul_of_div_lt (Nat.lt_succ_self _) hd
  apply Nat.div_eq_of_lt_le
  · calc x / d * N ≤ x / d * (m * d) := Nat.mul_le_mul_left _ hlow
      _ = x / d * d * m := by ring
      _ ≤ x * m := Nat.mul_le_mul_right _ hq
  · -- multiplied through by the divisor
    refine Nat.lt_of_mul_lt_mul_left (a := d) ?_
    calc d * (x * m) = x * (m * d) := by ring
      _ ≤ x * (N + (d - 1)) := Nat.mul_le_mul_left _ hhigh
      _ = x * N + x * (d - 1) := Nat.mul_add _ _ _
      _ < x * N + N := by omega
      _ = (x + 1) * N := (Nat.succ_mul x N).symm
      _ ≤ (x / d + 1) * d * N := Nat.mul_le_mul_right _ hx
      _ = d * ((x / d + 1) * N) := by ring

end Bslz4ToSparse.Foundation
