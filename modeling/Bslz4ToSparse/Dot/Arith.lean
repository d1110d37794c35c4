import Mathlib.Algebra.Group.Nat.Defs
import Mathlib.Algebra.Ring.Defs
import Mathlib.Data.Nat.Log

/-!
# The arithmetic of a dot

The kernels are written over an arbitrary arithmetic, so that what does not depend on
rounding is proved for the machine's. Exact arithmetic is the instance in which sums and
products are those of a ring and only the conversions of a pixel may round.
-/

namespace Bslz4ToSparse.Dot

/-- Pixels `P`, stored weights `F` and cells `D` of the powder. -/
structure Arith (P F D : Type) where
  zero : D
  add : D → D → D
  mul : D → D → D
  fma : D → D → D → D        -- `a * b + c` with one rounding
  pixel : P → D              -- a pixel in the type of the cells
  pixelFloat : P → D         -- a pixel that was converted to `float` before
  weight : F → D             -- a stored weight in the type of the cells

variable {P F D : Type}

/-- The operations of a ring. -/
def Arith.exact [Semiring D] (pixel pixelFloat : P → D) (weight : F → D) : Arith P F D where
  zero := 0
  add := (· + ·)
  mul := (· * ·)
  fma := fun a b c => a * b + c
  pixel := pixel
  pixelFloat := pixelFloat
  weight := weight

/-- A magnitude rounded to a significand of `k` bits, ties to even. -/
def roundMagnitude (k a : Nat) : Nat :=
  if a < 2 ^ k then a
  else
    let s := a.log2 + 1 - k
    let q := a / 2 ^ s
    let r := a % 2 ^ s
    let up := 2 ^ (s - 1) < r ∨ r = 2 ^ (s - 1) ∧ q % 2 = 1
    (if up then q + 1 else q) * 2 ^ s

/-- The conversion of an integer to a floating-point type with a significand of `k` bits. -/
def roundTo (k : Nat) (v : Int) : Int := v.sign * roundMagnitude k v.natAbs

theorem roundTo_eq {k : Nat} {v : Int} (h : v.natAbs < 2 ^ k) : roundTo k v = v := by
  rw [roundTo, roundMagnitude, if_pos h]
  exact Int.sign_mul_natAbs v

example : roundTo 24 16777217 = 16777216 ∧ roundTo 24 (-16777219) = -16777220 := by decide

end Bslz4ToSparse.Dot
