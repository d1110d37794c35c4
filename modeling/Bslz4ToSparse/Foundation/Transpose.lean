import Bslz4ToSparse.Foundation.Loops
import Mathlib.Data.BitVec
import Mathlib.Data.Nat.Bitwise

/-!
# Transposing a bit matrix

Row `x` of the matrix is a word. A stage exchanges bit `s` of the row number with bit `s` of
the column number; when it has been done for every bit, the matrix is transposed.
-/

namespace Bslz4ToSparse.Foundation

variable {w : Nat}

/-! ## Bits of a number -/

/-- Bit `s`, as 0 or 1. -/
def bitAt (s x : Nat) : Nat := x / 2 ^ s % 2

/-- `x` with its bit `s` replaced by that of `y`. -/
def withBit (s x y : Nat) : Nat := 2 ^ (s + 1) * (x / 2 ^ (s + 1)) + (bitAt s y * 2 ^ s + x % 2 ^ s)

theorem bitAt_cases (s x : Nat) : bitAt s x = 0 ∨ bitAt s x = 1 := Nat.mod_two_eq_zero_or_one _

theorem testBit_eq_bitAt (s x : Nat) : x.testBit s = decide (bitAt s x = 1) :=
  Nat.testBit_eq_decide_div_mod_eq

theorem and_two_pow_ne_zero {s k : Nat} : k &&& 2 ^ s ≠ 0 ↔ bitAt s k = 1 := by
  rw [Nat.and_two_pow, testBit_eq_bitAt]
  rcases bitAt_cases s k with h | h <;> simp [h]

theorem withBit_self (s x : Nat) : withBit s x x = x := by
  have hmod : x % 2 ^ (s + 1) = bitAt s x * 2 ^ s + x % 2 ^ s := by
    rw [bitAt, Nat.pow_succ, Nat.mod_mul, Nat.mul_comm, Nat.add_comm]
  rw [withBit, ← hmod, Nat.div_add_mod]

theorem digits_lt (s x y : Nat) : bitAt s y * 2 ^ s + x % 2 ^ s < 2 ^ (s + 1) := by
  have hlow : x % 2 ^ s < 2 ^ s := Nat.mod_lt _ (Nat.two_pow_pos s)
  rw [Nat.pow_succ]
  rcases bitAt_cases s y with h | h <;> rw [h] <;> omega

theorem withBit_mod (s x y : Nat) : withBit s x y % 2 ^ (s + 1) = bitAt s y * 2 ^ s + x % 2 ^ s := by
  rw [withBit, Nat.mul_add_mod, Nat.mod_eq_of_lt (digits_lt s x y)]

/-- What a bit replaced by another adds or takes away. -/
theorem withBit_eq (s x y : Nat) : withBit s x y + bitAt s x * 2 ^ s = x + bitAt s y * 2 ^ s := by
  have hx := withBit_self s x
  rw [withBit] at hx ⊢
  omega

theorem bitAt_withBit (s x y : Nat) : bitAt s (withBit s x y) = bitAt s y := by
  have hmod : withBit s x y % 2 ^ (s + 1) = _ := withBit_mod s x y
  have hbit : bitAt s (withBit s x y) = withBit s x y % 2 ^ (s + 1) / 2 ^ s := by
    rw [bitAt, Nat.pow_succ, Nat.mod_mul_right_div_self]
  rw [hbit, hmod, Nat.mul_comm, Nat.mul_add_div (Nat.two_pow_pos s),
    Nat.div_eq_of_lt (Nat.mod_lt _ (Nat.two_pow_pos s)), Nat.add_zero]

theorem bitAt_add {s k : Nat} (h : bitAt s k = 0) : bitAt s (k + 2 ^ s) = 1 := by
  have hpos := Nat.two_pow_pos s
  rw [bitAt, Nat.add_div_right _ hpos]
  rw [bitAt] at h
  omega

theorem bitAt_sub {s y : Nat} (h : 2 ^ s ≤ y) : bitAt s (y - 2 ^ s) = 1 - bitAt s y := by
  have hpos := Nat.two_pow_pos s
  have hadd : y / 2 ^ s = (y - 2 ^ s) / 2 ^ s + 1 := by
    rw [← Nat.add_div_right _ hpos, Nat.sub_add_cancel h]
  rw [bitAt, bitAt]
  omega

/-! ## A stage -/

/-- The rows `k` and `k + j` exchange the columns that the mask leaves, a distance `j` apart. -/
def exchange (j : Nat) (m : BitVec w) (a : Nat → BitVec w) (k : Nat) : Nat → BitVec w :=
  if k &&& j ≠ 0 then a
  else
    let t := ((a k >>> j) ^^^ a (k + j)) &&& m
    fun x => if x = k + j then a x ^^^ t else if x = k then a x ^^^ (t <<< j) else a x

/-- A stage: all the pairs of rows. -/
def exchangeRows (j : Nat) (m : BitVec w) (a : Nat → BitVec w) : Nat → BitVec w :=
  (List.range w).foldl (exchange j m) a

/-- The columns whose number has no bit `s`. -/
def IsMask (s : Nat) (m : BitVec w) : Prop := ∀ y, y < w → m.getLsbD y = decide (bitAt s y = 0)

theorem exchange_skip {s k : Nat} (m : BitVec w) (a : Nat → BitVec w) (h : bitAt s k = 1) :
    exchange (2 ^ s) m a k = a := by
  rw [exchange, if_pos (and_two_pow_ne_zero.mpr h)]

/-- The two rows of a pair. -/
theorem exchange_pair {s : Nat} {m : BitVec w} (hm : IsMask s m) (a : Nat → BitVec w) {k x y : Nat}
    (hk : bitAt s k = 0) (hx : x = k ∨ x = k + 2 ^ s) (hy : y < w) :
    (exchange (2 ^ s) m a k x).getLsbD y = (a (withBit s x y)).getLsbD (withBit s y x) := by
  have hpos := Nat.two_pow_pos s
  have hand : ¬ k &&& 2 ^ s ≠ 0 := fun hne => by rw [and_two_pow_ne_zero, hk] at hne; cases hne
  have hrow := withBit_eq s x y
  have hcol := withBit_eq s y x
  rw [exchange, if_neg hand]
  rcases hx with rfl | rfl
  · -- the lower row
    rw [if_neg (by omega), if_pos rfl, BitVec.getLsbD_xor, BitVec.getLsbD_shiftLeft]
    rw [hk] at hrow hcol
    rcases bitAt_cases s y with hbit | hbit
    · rw [hbit] at hrow hcol
      have hsame : withBit s x y = x ∧ withBit s y x = y := by omega
      rw [hsame.1, hsame.2]
      by_cases hle : y < 2 ^ s
      · simp [hle]
      · -- a borrow leaves the mask
        have hout := hm (y - 2 ^ s) (by omega)
        rw [bitAt_sub (by omega), hbit] at hout
        simp [hout]
    · rw [hbit] at hrow hcol
      have hle : 2 ^ s ≤ y := by
        by_contra hlt
        rw [bitAt, Nat.div_eq_of_lt (by omega)] at hbit
        cases hbit
      have hin := hm (y - 2 ^ s) (by omega)
      rw [bitAt_sub hle, hbit] at hin
      have hmoved : withBit s x y = x + 2 ^ s ∧ withBit s y x = y - 2 ^ s := by omega
      have hback : 2 ^ s + (y - 2 ^ s) = y := by omega
      have hnot : ¬ y < 2 ^ s := by omega
      rw [hmoved.1, hmoved.2]
      simp [hin, hy, hnot, hback]
  · -- the upper row
    rw [if_pos rfl, BitVec.getLsbD_xor, BitVec.getLsbD_and, BitVec.getLsbD_xor,
      BitVec.getLsbD_ushiftRight, hm y hy]
    rw [bitAt_add hk] at hrow hcol
    rcases bitAt_cases s y with hbit | hbit
    · rw [hbit] at hrow hcol
      have hmoved : withBit s (k + 2 ^ s) y = k ∧ withBit s y (k + 2 ^ s) = 2 ^ s + y := by omega
      rw [hmoved.1, hmoved.2, hbit, decide_eq_true rfl, Bool.and_true, Bool.xor_left_comm,
        Bool.xor_self, Bool.xor_false]
    · rw [hbit] at hrow hcol
      have hsame : withBit s (k + 2 ^ s) y = k + 2 ^ s ∧ withBit s y (k + 2 ^ s) = y := by omega
      rw [hsame.1, hsame.2, hbit]
      simp

theorem exchange_other {j : Nat} (m : BitVec w) (a : Nat → BitVec w) {k x : Nat} (hx : x ≠ k)
    (hxj : x ≠ k + j) : exchange j m a k x = a x := by
  rw [exchange]
  split
  · rfl
  · exact (if_neg hxj).trans (if_neg hx)

/-- The lower row of the pair of `x`. -/
theorem lowerRow (s x : Nat) : withBit s x 0 + bitAt s x * 2 ^ s = x := by
  have hzero : bitAt s 0 = 0 := by rw [bitAt, Nat.zero_div]
  rw [withBit_eq, hzero, Nat.zero_mul, Nat.add_zero]

theorem bitAt_lowerRow (s x : Nat) : bitAt s (withBit s x 0) = 0 := by
  rw [bitAt_withBit, bitAt, Nat.zero_div]

theorem lowerRow_withBit (s x y : Nat) : withBit s (withBit s x y) 0 = withBit s x 0 := by
  have hrow := withBit_eq s x y
  have hx := lowerRow s x
  have hwith := lowerRow s (withBit s x y)
  rw [bitAt_withBit] at hwith
  omega

theorem lowerRow_eq_iff {s x k : Nat} (hk : bitAt s k = 0) :
    withBit s x 0 = k ↔ x = k ∨ x = k + 2 ^ s := by
  have hx := lowerRow s x
  constructor
  · rintro rfl
    rcases bitAt_cases s x with h | h <;> rw [h] at hx <;> omega
  · rintro (rfl | rfl)
    · rw [hk] at hx
      omega
    · rw [bitAt_add hk] at hx
      omega

/-- A stage exchanges bit `s` of the row with bit `s` of the column. -/
theorem exchangeRows_getLsbD {s : Nat} {m : BitVec w} (hm : IsMask s m) (a : Nat → BitVec w)
    {x y : Nat} (hx : x < w) (hy : y < w) :
    (exchangeRows (2 ^ s) m a x).getLsbD y = (a (withBit s x y)).getLsbD (withBit s y x) := by
  -- the pair of row `x` is done at the lower of its rows; the others leave it alone
  have hrun := foldl_range_induct (f := exchange (2 ^ s) m) (s := a) (n := w)
    (I := fun n b => ∀ x, (withBit s x 0 < n → ∀ y, y < w →
        (b x).getLsbD y = (a (withBit s x y)).getLsbD (withBit s y x)) ∧
      (n ≤ withBit s x 0 → b x = a x))
    (fun x => ⟨fun h => absurd h (Nat.not_lt_zero _), fun _ => rfl⟩) ?_
  · have hlow := lowerRow s x
    exact (hrun x).1 (by omega) y hy
  · intro n _ b hb x
    obtain ⟨hdone, htodo⟩ := hb x
    by_cases hpair : withBit s x 0 = n
    · have hbit : bitAt s n = 0 := hpair ▸ bitAt_lowerRow s x
      constructor
      · intro _ y hy
        have hread : b (withBit s x y) = a (withBit s x y) :=
          (hb _).2 (lowerRow_withBit s x y ▸ hpair.ge)
        rw [exchange_pair hm b hbit ((lowerRow_eq_iff hbit).mp hpair) hy, hread]
      · intro hle
        omega
    · have hsame : exchange (2 ^ s) m b n x = b x := by
        rcases bitAt_cases s n with hbit | hbit
        · rw [lowerRow_eq_iff hbit, not_or] at hpair
          exact exchange_other m b hpair.1 hpair.2
        · rw [exchange_skip m b hbit]
      rw [hsame]
      constructor
      · intro hlt
        exact hdone (by omega)
      · intro hle
        exact htodo (by omega)

/-! ## All stages -/

/-- The high bits of `x` and the low `n` bits of `y`. -/
def mixBits (n x y : Nat) : Nat := 2 ^ n * (x / 2 ^ n) + y % 2 ^ n

theorem mixBits_div (n x y : Nat) : mixBits n x y / 2 ^ n = x / 2 ^ n := by
  rw [mixBits, Nat.mul_add_div (Nat.two_pow_pos n), Nat.div_eq_of_lt (Nat.mod_lt _ (Nat.two_pow_pos n)),
    Nat.add_zero]

theorem mixBits_mod (n x y : Nat) : mixBits n x y % 2 ^ n = y % 2 ^ n := by
  rw [mixBits, Nat.mul_add_mod, Nat.mod_mod]

theorem mixBits_lt {n k x y : Nat} (h : n ≤ k) (hx : x < 2 ^ k) : mixBits n x y < 2 ^ k := by
  obtain ⟨d, rfl⟩ := Nat.exists_eq_add_of_le h
  rw [Nat.pow_add] at hx ⊢
  have hdiv : mixBits n x y / 2 ^ n < 2 ^ d := by
    rw [mixBits_div]
    exact Nat.div_lt_of_lt_mul hx
  rw [Nat.mul_comm]
  exact Nat.lt_mul_of_div_lt hdiv (Nat.two_pow_pos n)

/-- One more bit. -/
theorem withBit_mixBits (n x y : Nat) :
    withBit n (mixBits n x y) (mixBits n y x) = mixBits (n + 1) x y := by
  have hhigh : mixBits n x y / 2 ^ (n + 1) = x / 2 ^ (n + 1) := by
    rw [Nat.pow_succ, ← Nat.div_div_eq_div_mul, mixBits_div, Nat.div_div_eq_div_mul]
  have hlow : y % 2 ^ (n + 1) = bitAt n y * 2 ^ n + y % 2 ^ n := by
    rw [bitAt, Nat.pow_succ, Nat.mod_mul, Nat.mul_comm, Nat.add_comm]
  rw [withBit, bitAt, hhigh, mixBits_div, mixBits_mod, ← bitAt, ← hlow]
  rfl

/-- The stages from the highest bit down transpose the matrix. -/
theorem foldl_exchangeRows {n k : Nat} (hw : w = 2 ^ k) (hn : n ≤ k) {m : Nat → BitVec w}
    (hm : ∀ s, s < n → IsMask s (m s)) (a : Nat → BitVec w) {x y : Nat} (hx : x < w) (hy : y < w) :
    ((List.range n).reverse.foldl (fun b s => exchangeRows (2 ^ s) (m s) b) a x).getLsbD y =
      (a (mixBits n x y)).getLsbD (mixBits n y x) := by
  induction n generalizing a with
  | zero => simp [mixBits, Nat.mod_one]
  | succ n ih =>
    rw [List.range_succ, List.reverse_append, List.reverse_singleton, List.singleton_append,
      List.foldl_cons, ih (by omega) (fun s hs => hm s (by omega))]
    subst hw
    rw [exchangeRows_getLsbD (hm n (Nat.lt_succ_self n)) a (mixBits_lt (by omega) hx)
      (mixBits_lt (by omega) hy), withBit_mixBits, withBit_mixBits]

theorem mixBits_self {n x y : Nat} (hx : x < 2 ^ n) (hy : y < 2 ^ n) : mixBits n x y = y := by
  rw [mixBits, Nat.div_eq_of_lt hx, Nat.mul_zero, Nat.zero_add, Nat.mod_eq_of_lt hy]

end Bslz4ToSparse.Foundation
