import Mathlib.Algebra.Order.Ring.Defs
import Mathlib.Tactic.NormNum

/-!
# Numbers with infinities and a NaN

Floating-point arithmetic over the numbers of a ring: every finite result is rounded, an
infinity times zero is a NaN, and so is every sum and product with a NaN. The two zeros are
one number.
-/

namespace Bslz4ToSparse.Foundation

/-- A number, an infinity with its sign, or a NaN. -/
inductive Extended (K : Type) where
  | fin (x : K)
  | inf (negative : Bool)
  | nan
  deriving DecidableEq, Repr

/-- A rounding to the numbers of a format. It leaves them alone, zero among them, and a number too
large for the format becomes an infinity. -/
structure Rounding (K : Type) [Zero K] where
  round : K → Extended K
  round_zero : round 0 = .fin 0
  round_round : ∀ x y, round x = .fin y → round y = .fin y
  round_ne_nan : ∀ x, round x ≠ .nan

/-- Nothing is rounded. -/
def Rounding.exact (K : Type) [Zero K] : Rounding K where
  round := .fin
  round_zero := rfl
  round_round := fun _ _ _ => rfl
  round_ne_nan := fun _ h => by cases h

namespace Extended

variable {K : Type}

instance [Zero K] : Zero (Extended K) := ⟨.fin 0⟩

instance [One K] : One (Extended K) := ⟨.fin 1⟩

instance [Zero K] : Inhabited (Extended K) := ⟨.fin 0⟩

theorem nan_ne_zero [Zero K] : (nan : Extended K) ≠ 0 := fun h => by cases h

/-! ## Sums -/

variable [CommRing K] (R : Rounding K)

def add : Extended K → Extended K → Extended K
  | .fin x, .fin y => R.round (x + y)
  | .inf m, .inf n => if m = n then .inf m else .nan
  | .inf m, .fin _ => .inf m
  | .fin _, .inf n => .inf n
  | _, _ => .nan

/-- A number of the format. -/
def Held (x : Extended K) : Prop := ∀ y, x = .fin y → R.round y = .fin y

@[simp] theorem add_nan (x : Extended K) : add R x .nan = .nan := by cases x <;> rfl

@[simp] theorem nan_add (x : Extended K) : add R .nan x = .nan := by cases x <;> rfl

variable {R}

theorem held_zero : Held R 0 := by
  intro y hy
  obtain rfl : 0 = y := Extended.fin.inj hy
  exact R.round_zero

theorem held_round (x : K) : Held R (R.round x) := fun y hy => R.round_round x y hy

theorem held_add (x y : Extended K) : Held R (add R x y) := by
  cases x <;> cases y
  case fin.fin => exact held_round _
  case inf.inf m n =>
    intro z hz
    simp only [add] at hz
    split at hz <;> cases hz
  all_goals
    intro z hz
    cases hz

/-- Adding a zero does not change a number of the format. -/
theorem Held.add_zero {x : Extended K} (h : Held R x) : add R x 0 = x := by
  cases x with
  | fin x =>
    change R.round (x + 0) = .fin x
    rw [AddMonoid.add_zero, h x rfl]
  | inf n => rfl
  | nan => rfl

/-- Neither a NaN nor the negative infinity. -/
def Bounded (z : Extended K) : Prop := z ≠ .nan ∧ z ≠ .inf true

omit [CommRing K] in
theorem bounded_fin (x : K) : Bounded (.fin x) := by
  constructor <;> intro h <;> cases h

omit [CommRing K] in
theorem bounded_infinity : Bounded (.inf false : Extended K) := by
  constructor <;> intro h <;> cases h

theorem add_infinity {z : Extended K} (h : Bounded z) :
    add R (.inf false) z = .inf false ∧ add R z (.inf false) = .inf false := by
  cases z with
  | fin x => exact ⟨rfl, rfl⟩
  | nan => exact absurd rfl h.1
  | inf n =>
    cases n with
    | false => exact ⟨rfl, rfl⟩
    | true => exact absurd rfl h.2

/-! ## Products -/

variable [LinearOrder K]

/-- The sign; a NaN has none. -/
def negative : Extended K → Bool
  | .fin x => decide (x < 0)
  | .inf n => n
  | .nan => false

/-- The product of two numbers that are not both finite. -/
def mulInf (x y : Extended K) : Extended K :=
  if x = .nan ∨ y = .nan ∨ x = .fin 0 ∨ y = .fin 0 then .nan
  else .inf (xor x.negative y.negative)

variable (R)

def mul : Extended K → Extended K → Extended K
  | .fin x, .fin y => R.round (x * y)
  | x, y => mulInf x y

/-- `x * y + z` with one rounding. -/
def fma (x y z : Extended K) : Extended K :=
  match x, y with
  | .fin x, .fin y =>
      match z with
      | .fin z => R.round (x * y + z)
      | z => z
  | x, y => add R (mulInf x y) z

@[simp] theorem mul_nan (x : Extended K) : mul R x .nan = .nan := by cases x <;> simp [mul, mulInf]

@[simp] theorem nan_mul (x : Extended K) : mul R .nan x = .nan := by cases x <;> simp [mul, mulInf]

@[simp] theorem fma_nan (x y : Extended K) : fma R x y .nan = .nan := by
  cases x <;> cases y <;> simp [fma]

@[simp] theorem fma_nan_mid (x z : Extended K) : fma R x .nan z = .nan := by
  cases x <;> cases z <;> simp [fma, mulInf]

@[simp] theorem nan_fma (y z : Extended K) : fma R .nan y z = .nan := by
  cases y <;> cases z <;> simp [fma, mulInf]

variable {R}

theorem Held.fma_zero {z : Extended K} (h : Held R z) {x y : K} (hxy : x * y = 0) :
    fma R (.fin x) (.fin y) z = z := by
  cases z with
  | fin z =>
    change R.round (x * y + z) = .fin z
    rw [hxy, AddMonoid.zero_add, h z rfl]
  | inf n => rfl
  | nan => rfl

theorem held_fma (x y : Extended K) {z : Extended K} (h : Held R z) : Held R (fma R x y z) := by
  have hinf : Held R (add R (mulInf x y) z) := held_add _ _
  cases x <;> cases y
  case fin.fin =>
    cases z with
    | fin z => exact held_round _
    | inf n => exact h
    | nan => exact h
  all_goals exact hinf

/-! ## Sums of products -/

/-- The product of a number and an infinity of the sign that makes it positive. -/
theorem mulInf_positive {x : K} {n : Bool} (hx : x ≠ 0) (hn : decide (x < 0) = n) :
    mulInf (.fin x) (.inf n) = .inf false ∧ mulInf (.inf n) (.fin x) = .inf false := by
  subst hn
  simp [mulInf, negative, hx]

variable (R)

/-- An operation that adds the product of `x` and `w` to `z`, with any roundings. -/
structure Accumulates (op : Extended K → Extended K → Extended K → Extended K) : Prop where
  held : ∀ x w z, Held R z → Held R (op x w z)
  zero_product : ∀ x w z, x * w = 0 → Held R z → op (.fin x) (.fin w) z = z
  nan_value : ∀ w z, op .nan w z = .nan
  nan_weight : ∀ x z, op x .nan z = .nan
  nan_sum : ∀ x w, op x w .nan = .nan
  infinity : ∀ x n z, x ≠ 0 → decide (x < 0) = n → Bounded z → op (.fin x) (.inf n) z = .inf false

theorem accumulates_fma : Accumulates R (fma R) where
  held := fun x w _ h => held_fma x w h
  zero_product := fun _ _ _ hxw h => h.fma_zero hxw
  nan_value := nan_fma R
  nan_weight := fma_nan_mid R
  nan_sum := fma_nan R
  infinity := fun x n z hx hn hz => by
    change add R (mulInf (.fin x) (.inf n)) z = .inf false
    rw [(mulInf_positive hx hn).1]
    exact (add_infinity hz).1

theorem accumulates_value_mul : Accumulates R fun x w z => add R z (mul R x w) where
  held := fun _ _ _ _ => held_add _ _
  zero_product := fun x w z hxw h => by
    change add R z (R.round (x * w)) = z
    rw [hxw, R.round_zero]
    exact h.add_zero
  nan_value := fun _ _ => by rw [nan_mul, add_nan]
  nan_weight := fun _ _ => by rw [mul_nan, add_nan]
  nan_sum := fun _ _ => nan_add R _
  infinity := fun x n z hx hn hz => by
    change add R z (mulInf (.fin x) (.inf n)) = .inf false
    rw [(mulInf_positive hx hn).1]
    exact (add_infinity hz).2

theorem accumulates_weight_mul : Accumulates R fun x w z => add R z (mul R w x) where
  held := fun _ _ _ _ => held_add _ _
  zero_product := fun x w z hxw h => by
    change add R z (R.round (w * x)) = z
    rw [mul_comm w x, hxw, R.round_zero]
    exact h.add_zero
  nan_value := fun _ _ => by rw [mul_nan, add_nan]
  nan_weight := fun _ _ => by rw [nan_mul, add_nan]
  nan_sum := fun _ _ => nan_add R _
  infinity := fun x n z hx hn hz => by
    change add R z (mulInf (.inf n) (.fin x)) = .inf false
    rw [(mulInf_positive hx hn).2]
    exact (add_infinity hz).2

end Extended

end Bslz4ToSparse.Foundation
