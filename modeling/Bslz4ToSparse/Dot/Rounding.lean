import Bslz4ToSparse.Dot.Arith
import Mathlib.Tactic.Ring

/-!
# Rounding to a significand

Rounding to `k` bits is monotone, and leaves alone what has `k` bits.
-/

namespace Bslz4ToSparse.Dot

/-- A magnitude of more than `k` bits goes to one of the two multiples of its grid around it. -/
theorem roundMagnitude_cases {k a : Nat} (h : 2 ^ k ≤ a) :
    ∃ s q r, 0 < s ∧ a.log2 + 1 = s + k ∧ a = q * 2 ^ s + r ∧ r < 2 ^ s ∧
      roundMagnitude k a =
        (if 2 ^ (s - 1) < r ∨ r = 2 ^ (s - 1) ∧ q % 2 = 1 then q + 1 else q) * 2 ^ s := by
  have hpos : a ≠ 0 := by
    have hk := Nat.two_pow_pos k
    omega
  have hlog : k ≤ a.log2 := (Nat.le_log2 hpos).mpr h
  refine ⟨a.log2 + 1 - k, a / 2 ^ (a.log2 + 1 - k), a % 2 ^ (a.log2 + 1 - k), by omega, by omega, ?_, ?_, ?_⟩
  · rw [Nat.mul_comm]
    exact (Nat.div_add_mod _ _).symm
  · exact Nat.mod_lt _ (Nat.two_pow_pos _)
  · rw [roundMagnitude, if_neg (not_lt.mpr h)]

/-- The quotient of a magnitude has `k` bits. -/
theorem quotient_bounds {k a s q r : Nat} (hk : 0 < k) (h : 2 ^ k ≤ a) (hlog : a.log2 + 1 = s + k)
    (ha : a = q * 2 ^ s + r) (hr : r < 2 ^ s) : 2 ^ (k - 1) ≤ q ∧ q < 2 ^ k := by
  have hpos : a ≠ 0 := by
    have hk := Nat.two_pow_pos k
    omega
  have hlow : 2 ^ (k - 1) * 2 ^ s ≤ a := by
    rw [← Nat.pow_add, show k - 1 + s = a.log2 by omega]
    exact Nat.log2_self_le hpos
  have hhigh : a < 2 ^ k * 2 ^ s := by
    rw [← Nat.pow_add, show k + s = a.log2 + 1 by omega]
    exact Nat.lt_log2_self
  constructor
  · have hlt : 2 ^ (k - 1) * 2 ^ s < (q + 1) * 2 ^ s := by rw [Nat.add_mul, Nat.one_mul]; omega
    exact Nat.le_of_lt_succ (Nat.lt_of_mul_lt_mul_right hlt)
  · exact Nat.lt_of_mul_lt_mul_right (show q * 2 ^ s < 2 ^ k * 2 ^ s by omega)

/-- Rounding does not leave the binade, but for its upper end. -/
theorem roundMagnitude_bounds {k a : Nat} (hk : 0 < k) (h : 2 ^ k ≤ a) :
    2 ^ a.log2 ≤ roundMagnitude k a ∧ roundMagnitude k a ≤ 2 ^ (a.log2 + 1) := by
  obtain ⟨s, q, r, hs, hlog, ha, hr, hround⟩ := roundMagnitude_cases h
  obtain ⟨hlow, hhigh⟩ := quotient_bounds hk h hlog ha hr
  have hmul : roundMagnitude k a = q * 2 ^ s ∨ roundMagnitude k a = (q + 1) * 2 ^ s := by
    rw [hround]
    split
    · exact Or.inr rfl
    · exact Or.inl rfl
  have hbottom : 2 ^ a.log2 = 2 ^ (k - 1) * 2 ^ s := by rw [← Nat.pow_add]; congr 1; omega
  have htop : 2 ^ (a.log2 + 1) = 2 ^ k * 2 ^ s := by rw [← Nat.pow_add]; congr 1; omega
  rw [hbottom, htop]
  rcases hmul with hmul | hmul <;> rw [hmul]
  · exact ⟨Nat.mul_le_mul_right _ hlow, Nat.mul_le_mul_right _ hhigh.le⟩
  · exact ⟨Nat.mul_le_mul_right _ (by omega), Nat.mul_le_mul_right _ (by omega)⟩

/-- Rounding is monotone. -/
theorem roundMagnitude_mono {k a b : Nat} (hk : 0 < k) (hab : a ≤ b) :
    roundMagnitude k a ≤ roundMagnitude k b := by
  by_cases hb : b < 2 ^ k
  · rwa [roundMagnitude, if_pos (hab.trans_lt hb), roundMagnitude, if_pos hb]
  have hb' := not_lt.mp hb
  have hbpos : b ≠ 0 := by
    have hk := Nat.two_pow_pos k
    omega
  have hbound := (roundMagnitude_bounds hk hb').1
  by_cases ha : a < 2 ^ k
  · rw [roundMagnitude, if_pos ha]
    exact (ha.le.trans (Nat.pow_le_pow_right (by decide) ((Nat.le_log2 hbpos).mpr hb'))).trans hbound
  have ha' := not_lt.mp ha
  have hapos : a ≠ 0 := by
    have hk := Nat.two_pow_pos k
    omega
  have hlogs : a.log2 ≤ b.log2 := (Nat.le_log2 hbpos).mpr ((Nat.log2_self_le hapos).trans hab)
  rcases hlogs.lt_or_eq with hlt | heq
  · exact ((roundMagnitude_bounds hk ha').2.trans (Nat.pow_le_pow_right (by decide) hlt)).trans hbound
  · -- one grid: the quotients compare, and with equal quotients the remainders do
    obtain ⟨s, q, r, hs, hlog, hqr, hr, hround⟩ := roundMagnitude_cases ha'
    obtain ⟨s', q', r', hs', hlog', hqr', hr', hround'⟩ := roundMagnitude_cases hb'
    obtain rfl : s = s' := by omega
    rw [hround, hround']
    apply Nat.mul_le_mul_right
    rcases Nat.lt_trichotomy q q' with hq | rfl | hq
    · split <;> split <;> omega
    · split <;> split <;> omega
    · have hmul : (q' + 1) * 2 ^ s ≤ q * 2 ^ s := Nat.mul_le_mul_right _ hq
      rw [Nat.add_mul, Nat.one_mul] at hmul
      omega

/-- A number of `k` bits times a power of two is not changed. -/
theorem roundMagnitude_mul {k m e : Nat} (hm : m < 2 ^ k) : roundMagnitude k (m * 2 ^ e) = m * 2 ^ e := by
  by_cases h : m * 2 ^ e < 2 ^ k
  · rw [roundMagnitude, if_pos h]
  obtain ⟨s, q, r, hs, hlog, hqr, hr, hround⟩ := roundMagnitude_cases (not_lt.mp h)
  have hle : s ≤ e := by
    have hpos : m * 2 ^ e ≠ 0 := by
      have hk := Nat.two_pow_pos k
      omega
    have hlt : (m * 2 ^ e).log2 < k + e := (Nat.log2_lt hpos).mpr (by
      rw [Nat.pow_add]
      exact Nat.mul_lt_mul_of_pos_right hm (Nat.two_pow_pos e))
    omega
  have hdvd : 2 ^ s ∣ m * 2 ^ e := Dvd.dvd.mul_left (Nat.pow_dvd_pow 2 hle) m
  have hr0 : r = 0 := by
    have hdvd' : 2 ^ s ∣ r := by
      rw [hqr] at hdvd
      exact (Nat.dvd_add_right (Nat.dvd_mul_left _ _)).mp hdvd
    exact Nat.eq_zero_of_dvd_of_lt hdvd' hr
  have hhalf := Nat.two_pow_pos (s - 1)
  rw [hround, if_neg (by omega)]
  omega

/-- A rounded number has `k` bits. -/
theorem roundMagnitude_form {k : Nat} (hk : 0 < k) (a : Nat) :
    ∃ m e, m < 2 ^ k ∧ roundMagnitude k a = m * 2 ^ e := by
  by_cases h : a < 2 ^ k
  · exact ⟨a, 0, h, by rw [roundMagnitude, if_pos h, Nat.pow_zero, Nat.mul_one]⟩
  obtain ⟨s, q, r, hs, hlog, hqr, hr, hround⟩ := roundMagnitude_cases (not_lt.mp h)
  obtain ⟨hlow, hhigh⟩ := quotient_bounds hk (not_lt.mp h) hlog hqr hr
  rw [hround]
  split
  · by_cases hcarry : q + 1 < 2 ^ k
    · exact ⟨q + 1, s, hcarry, rfl⟩
    · refine ⟨1, k + s, Nat.one_lt_two_pow hk.ne', ?_⟩
      rw [show q + 1 = 2 ^ k by omega, Nat.pow_add, Nat.one_mul]
  · exact ⟨q, s, hhigh, rfl⟩

theorem roundTo_natCast (k a : Nat) : roundTo k a = roundMagnitude k a := by
  rw [roundTo, Int.natAbs_natCast]
  rcases Nat.eq_zero_or_pos a with rfl | hpos
  · simp [roundMagnitude]
  · rw [Int.sign_eq_one_of_pos (by omega), one_mul]

theorem roundTo_mono {k : Nat} (hk : 0 < k) {v w : Int} (hv : 0 ≤ v) (h : v ≤ w) :
    roundTo k v ≤ roundTo k w := by
  obtain ⟨a, rfl⟩ := Int.eq_ofNat_of_zero_le hv
  obtain ⟨b, rfl⟩ := Int.eq_ofNat_of_zero_le (hv.trans h)
  rw [roundTo_natCast, roundTo_natCast]
  exact_mod_cast roundMagnitude_mono hk (by exact_mod_cast h)

end Bslz4ToSparse.Dot
