import Bslz4ToSparse.Dot.PaddedBins
import Bslz4ToSparse.Foundation.Extended

/-!
# Floating-point dots

The pixels of the two floating-point types stand for a number, an infinity or a NaN; the
sums are those of doubles.
-/

namespace Bslz4ToSparse

open Foundation

namespace Pixel

variable {t : Dtype}

/-- The bits behind the exponent. -/
def significandBits : Dtype → Nat
  | .f32 => 23
  | _ => 52

def exponentBias : Dtype → Nat
  | .f32 => 127
  | _ => 1023

/-- What a floating-point pixel stands for. -/
def extended (v : Pixel t) : Extended ℚ :=
  if v.isNaN then .nan
  else if v.magnitude = infinity t then .inf v.msb
  else
    let k := significandBits t
    let e := v.magnitude / 2 ^ k
    let f := v.magnitude % 2 ^ k
    let x : ℚ := if e = 0 then f * 2 ^ (1 - exponentBias t - k : Int)
      else (2 ^ k + f) * 2 ^ (e - exponentBias t - k : Int)
    .fin (if v.msb then -x else x)

/-- The conversion to `double`. -/
def toDouble (v : Pixel t) : Extended ℚ :=
  if t.isFloat then v.extended else .fin (Dot.roundTo 53 v.value)

/-- The conversion to `float`, for the roundings of that type. -/
def toFloat (single : Rounding ℚ) (v : Pixel t) : Extended ℚ :=
  if t.isFloat then
    match v.extended with
    | .fin x => if t = .f64 then single.round x else .fin x
    | x => x
  else .fin (Dot.roundTo 24 v.value)

/-- A NaN. -/
def quietNaN (t : Dtype) : Pixel t := BitVec.ofNat _ (infinity t + 2 ^ (significandBits t - 1))

/-- 1 or -1. -/
def unit (t : Dtype) (negative : Bool) : Pixel t :=
  BitVec.ofNat _ ((if negative then 2 ^ (t.bits - 1) else 0) + exponentBias t * 2 ^ significandBits t)

theorem toDouble_finite (ht : t.isFloat = false) (v : Pixel t) : ∃ x, v.toDouble = .fin x :=
  ⟨_, if_neg (by simp [ht])⟩

theorem toDouble_quietNaN (ht : t.isFloat = true) :
    (quietNaN t).toDouble = .nan ∧ (quietNaN t).nonzero = true := by
  cases t
  case f32 => decide +kernel
  case f64 => decide +kernel
  all_goals cases ht

theorem toDouble_zero (ht : t.isFloat = true) :
    toDouble (t := t) 0#_ = .fin 0 ∧ nonzero (t := t) 0#_ = false := by
  cases t
  case f32 => decide +kernel
  case f64 => decide +kernel
  all_goals cases ht

theorem toDouble_unit (ht : t.isFloat = true) (negative : Bool) :
    (unit t negative).toDouble = .fin (if negative then -1 else 1) := by
  cases t
  case f32 => cases negative <;> decide +kernel
  case f64 => cases negative <;> decide +kernel
  all_goals cases ht

end Pixel

namespace Dot

variable (R single : Rounding ℚ) (t : Dtype)

/-- Doubles, and weights that were converted to them. -/
def floating : Arith (Pixel t) (Extended ℚ) (Extended ℚ) where
  zero := 0
  add := .add R
  mul := .mul R
  fma := .fma R
  pixel := Pixel.toDouble
  pixelFloat := Pixel.toFloat single
  weight := id

/-- Each way in which a row takes a pixel in adds a product. -/
theorem rowOp_accumulates (width : Nat) (vector : Bool) (k : Nat) :
    Extended.Accumulates R (rowOp (floating R single t) width vector k) := by
  unfold rowOp
  cases vector with
  | false => exact Extended.accumulates_weight_mul R
  | true =>
    by_cases hk : k < laneEnd width
    · simp only [hk, if_true]
      exact Extended.accumulates_fma R
    · simp only [hk, if_true, if_false]
      exact Extended.accumulates_value_mul R

end Dot

end Bslz4ToSparse
