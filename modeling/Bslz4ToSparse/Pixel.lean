import Mathlib.Data.BitVec

/-!
# The pixel types

A pixel is the bit pattern of its type. The comparisons are those of the C type: signed
or unsigned for the integers, IEEE 754 for the two floating-point types.
-/

namespace Bslz4ToSparse

/-- The pixel dtypes, in the order of their indices 0..9. -/
inductive Dtype where
  | u8 | u16 | u32 | u64 | i8 | i16 | i32 | i64 | f32 | f64
  deriving DecidableEq, Repr

namespace Dtype

/-- `sizeof`. -/
def size : Dtype → Nat
  | u8 | i8 => 1
  | u16 | i16 => 2
  | u32 | i32 | f32 => 4
  | u64 | i64 | f64 => 8

def signed : Dtype → Bool
  | i8 | i16 | i32 | i64 => true
  | _ => false

/-- `dtype >= 8`. -/
def isFloat : Dtype → Bool
  | f32 | f64 => true
  | _ => false

/-- The bits of a pixel. -/
abbrev bits (t : Dtype) : Nat := 8 * t.size

theorem size_pos (t : Dtype) : 0 < t.size := by cases t <;> decide

theorem size_cases (t : Dtype) : t.size = 1 ∨ t.size = 2 ∨ t.size = 4 ∨ t.size = 8 := by
  cases t <;> decide

end Dtype

/-- A pixel of type `t`. -/
abbrev Pixel (t : Dtype) : Type := BitVec t.bits

namespace Pixel

variable {t : Dtype}

/-- The value of an integer pixel. -/
def value (v : Pixel t) : Int := if t.signed then v.toInt else v.toNat

/-- The bits behind the sign of a floating-point pixel: the magnitudes compare as these do. -/
def magnitude (v : Pixel t) : Nat := v.toNat % 2 ^ (t.bits - 1)

/-- The bits of an infinity: every larger magnitude is a NaN. -/
def infinity : Dtype → Nat
  | .f32 => 0x7F800000
  | _ => 0x7FF0000000000000

def isNaN (v : Pixel t) : Bool := infinity t < v.magnitude

/-- The magnitude with the sign of a floating-point pixel; both zeros are 0. -/
def signedMagnitude (v : Pixel t) : Int := if v.msb then -v.magnitude else v.magnitude

/-- `v > cut` in the pixel type. -/
def gt (v cut : Pixel t) : Bool :=
  if t.isFloat then !v.isNaN && !cut.isNaN && decide (cut.signedMagnitude < v.signedMagnitude)
  else decide (cut.value < v.value)

/-- `v != 0` in the pixel type. -/
def nonzero (v : Pixel t) : Bool :=
  if t.isFloat then v.magnitude != 0 else v != 0#_

theorem value_natAbs_lt (v : Pixel t) : v.value.natAbs < 2 ^ t.bits := by
  have hlt := v.isLt
  unfold value
  split
  · have h₁ : v.toInt < ((2 ^ (t.bits - 1) : Nat) : Int) := by
      rw [Nat.cast_pow]
      exact BitVec.toInt_lt
    have h₂ : -((2 ^ (t.bits - 1) : Nat) : Int) ≤ v.toInt := by
      rw [Nat.cast_pow]
      exact BitVec.le_toInt v
    have hpos := t.size_pos
    have hpow : 2 ^ (t.bits - 1) < 2 ^ t.bits := Nat.pow_lt_pow_right (by omega) (by simp only [Dtype.bits]; omega)
    omega
  · rwa [Int.natAbs_natCast]

theorem value_eq_zero (ht : t.isFloat = false) {v : Pixel t} (h : v.nonzero = false) : v.value = 0 := by
  have hv : v = 0#_ := by simpa [nonzero, ht] using h
  rw [hv, value]
  simp

end Pixel

end Bslz4ToSparse
