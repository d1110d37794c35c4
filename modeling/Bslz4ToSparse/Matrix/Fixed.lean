import Bslz4ToSparse.Matrix.Runs
import Mathlib.Data.BitVec

/-!
# Fixed-point matrices (src/_matrix.py)

A matrix whose weights are unsigned integers of 16 or 32 bits. The integer dots add the
weights times the pixels in 64 bits, modulo 2^64.
-/

namespace Bslz4ToSparse.Matrix

open Foundation

variable {F D : Type} {w : Nat}

/-- `FixedPointMatrix`: the matrix that the weights were made from, and the weights. -/
structure FixedPointMatrix (F : Type) (w : Nat) where
  nm : NormalMatrix F
  data : List (BitVec w)
  length_data : data.length = nm.indices.length
  wbits : w = 16 ∨ w = 32

namespace FixedPointMatrix

variable (fx : FixedPointMatrix F w)

/-- The columns of the matrix, with the integer weights. -/
def weights : NormalMatrix (BitVec w) := { fx.nm with
  data := fx.data
  length_data := fx.length_data }

/-- `to_scipy`: the weights as `int64`. -/
def toScipy : NormalMatrix (BitVec 64) := { fx.nm with
  data := fx.data.map (BitVec.setWidth 64)
  length_data := by rw [List.length_map]; exact fx.length_data }

/-- The first bins for the run layouts (`_runs(nm)[0]`). -/
def starts : Except LayoutError (List Nat) := fx.nm.runs.map Prod.fst

theorem starts_spec {starts : List Nat} (h : fx.starts = .ok starts) :
    fx.weights.runStarts = .ok starts := by
  unfold FixedPointMatrix.starts NormalMatrix.runs at h
  unfold NormalMatrix.runStarts
  have hbroken : fx.weights.brokenPixels = fx.nm.brokenPixels := rfl
  rw [hbroken]
  split at h
  · next hrun =>
    rw [if_pos hrun]
    obtain rfl := Except.ok.inj h
    rfl
  · exact absurd h (by simp [Except.map])

theorem toScipy_column (p : Nat) :
    fx.toScipy.column p = (fx.weights.column p).map fun e => (e.1, e.2.setWidth 64) := by
  have hzip : fx.toScipy.indices.zip fx.toScipy.data =
      (fx.weights.indices.zip fx.weights.data).map fun e => (e.1, e.2.setWidth 64) :=
    List.zip_map_right
  rw [NormalMatrix.column, hzip, map_segment]
  rfl

/-- A weight is not negative as an `int64`. -/
theorem weight_toInt (d : BitVec w) (hw : w = 16 ∨ w = 32) :
    (d.setWidth 64).toInt = (d.toNat : Int) := by
  have hlt := d.isLt
  have hpow : 2 ^ w ≤ 2 ^ 32 := Nat.pow_le_pow_right (by decide) (by omega)
  have hnat : (d.setWidth 64).toNat = d.toNat := by
    rw [BitVec.toNat_setWidth, Nat.mod_eq_of_lt (by omega)]
  rw [BitVec.toInt_eq_toNat_of_lt (by omega), hnat]

end FixedPointMatrix

/-! ## Sums modulo 2^64 -/

theorem ofInt_sum {α : Type} (l : List α) (f : α → Int) :
    BitVec.ofInt 64 (l.map f).sum = (l.map fun a => BitVec.ofInt 64 (f a)).sum := by
  induction l with
  | nil => rfl
  | cons a l ih => rw [List.map_cons, List.sum_cons, BitVec.ofInt_add, ih, List.map_cons, List.sum_cons]

/-- A product modulo 2^64 is that of the weights and values modulo 2^64. -/
theorem ofInt_product (m : NormalMatrix F) (weight : F → Int) (v : Nat → Int) (b : Nat) :
    BitVec.ofInt 64 (m.product weight v b) =
      m.product (fun d => BitVec.ofInt 64 (weight d)) (fun p => BitVec.ofInt 64 (v p)) b := by
  rw [NormalMatrix.product, ofInt_sum, NormalMatrix.product]
  refine congrArg List.sum (List.map_congr_left fun p _ => ?_)
  rw [columnSum, ofInt_sum, columnSum]
  refine congrArg List.sum (List.map_congr_left fun e _ => ?_)
  by_cases h : b = e.1
  · simp only [single, h, if_true, BitVec.ofInt_mul]
  · simp only [single, h, if_false]
    rfl

/-- `to_scipy()` times a frame. -/
theorem toScipy_product (fx : FixedPointMatrix F w) (v : Nat → Int) (b : Nat) :
    fx.toScipy.product BitVec.toInt v b = fx.weights.product (fun d => (d.toNat : Int)) v b := by
  refine congrArg List.sum (List.map_congr_left fun p _ => ?_)
  rw [fx.toScipy_column, columnSum, columnSum, List.map_map]
  refine congrArg List.sum (List.map_congr_left fun e _ => ?_)
  simp only [Function.comp_apply, FixedPointMatrix.weight_toInt _ fx.wbits]

end Bslz4ToSparse.Matrix
