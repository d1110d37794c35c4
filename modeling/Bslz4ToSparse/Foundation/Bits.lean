import Mathlib.Data.BitVec

/-!
# Bits of a word

A comparison of vector lanes gives a word with one bit a lane; a loop takes its set bits
out one after another, the lowest first. An exchange of bits at a fixed distance is the
step of a bit transpose.
-/

namespace Bslz4ToSparse.Foundation

variable {w : Nat} {σ : Type}

/-- The word of `w` bits whose bit `k` is `f k` (a `movemask`, or a comparison into a mask). -/
def gather : (w : Nat) → (Nat → Bool) → BitVec w
  | 0, _ => 0#0
  | w + 1, f => BitVec.cons (f w) (gather w f)

theorem getLsbD_gather (f : Nat → Bool) (k : Nat) :
    (gather w f).getLsbD k = (decide (k < w) && f k) := by
  induction w with
  | zero => simp
  | succ w ih =>
    rw [gather, BitVec.getLsbD_cons, ih]
    rcases Nat.lt_trichotomy k w with hlt | rfl | hgt
    · have hsucc : k < w + 1 := by omega
      simp [hlt, hsucc, hlt.ne]
    · simp
    · have hsucc : ¬ k < w + 1 := by omega
      have hnot : ¬ k < w := by omega
      simp [hsucc, hnot, hgt.ne']

-- from here on a gathered word is known by its bits only
attribute [irreducible] gather

theorem gather_getLsbD (x : BitVec w) : gather w x.getLsbD = x :=
  BitVec.eq_of_getLsbD_eq fun k hk => by rw [getLsbD_gather, decide_eq_true hk, Bool.true_and]

/-- The numbers of the set bits, in order. -/
def setBits (x : BitVec w) : List Nat := (List.range w).filter x.getLsbD

theorem setBits_gather (f : Nat → Bool) : setBits (gather w f) = (List.range w).filter f := by
  refine List.filter_congr fun k hk => ?_
  rw [getLsbD_gather, decide_eq_true (List.mem_range.mp hk), Bool.true_and]

theorem gather_and (f g : Nat → Bool) : gather w f &&& gather w g = gather w fun k => f k && g k := by
  refine BitVec.eq_of_getLsbD_eq fun k hk => ?_
  simp only [BitVec.getLsbD_and, getLsbD_gather, hk, decide_true, Bool.true_and]

theorem gather_congr {f g : Nat → Bool} (h : ∀ k, k < w → f k = g k) : gather w f = gather w g := by
  refine BitVec.eq_of_getLsbD_eq fun k hk => ?_
  rw [getLsbD_gather, getLsbD_gather, h k hk]

/-- A piece of a gathered word. -/
theorem gather_piece (f : Nat → Bool) {a b : Nat} (h : a + b ≤ w) :
    ((gather w f) >>> a).setWidth b = gather b fun k => f (a + k) := by
  refine BitVec.eq_of_getLsbD_eq fun k hk => ?_
  have hlt : a + k < w := by omega
  simp only [BitVec.getLsbD_setWidth, BitVec.getLsbD_ushiftRight, getLsbD_gather, hk, hlt,
    decide_true, Bool.true_and]

/-- A wider word with no bit set from `n` on. -/
theorem setBits_eq_filter {x : BitVec w} {n : Nat} {f : Nat → Bool} (hn : n ≤ w)
    (h : ∀ k, x.getLsbD k = (decide (k < n) && f k)) : setBits x = (List.range n).filter f := by
  have hsplit : List.range w = List.range n ++ List.range' n (w - n) := by
    rw [List.range_eq_range', List.range_eq_range',
      show List.range' n (w - n) = List.range' (0 + n) (w - n) by rw [Nat.zero_add],
      List.range'_append_1, show n + (w - n) = w by omega]
  have hhigh : (List.range' n (w - n)).filter x.getLsbD = [] := by
    refine List.filter_eq_nil_iff.mpr fun k hk => ?_
    have hge := (List.mem_range'_1.mp hk).1
    rw [h, decide_eq_false (by omega), Bool.false_and]
    exact Bool.false_ne_true
  rw [setBits, hsplit, List.filter_append, hhigh, List.append_nil]
  refine List.filter_congr fun k hk => ?_
  rw [h, decide_eq_true (List.mem_range.mp hk), Bool.true_and]

theorem length_setBits_le (x : BitVec w) : (setBits x).length ≤ w :=
  (List.length_filter_le _ _).trans (List.length_range ▸ le_rfl)

/-- `popcount`. -/
def popcount (x : BitVec w) : Nat := (setBits x).length

theorem eq_zero_iff_setBits (x : BitVec w) : x = 0#w ↔ setBits x = [] := by
  constructor
  · rintro rfl
    simp [setBits]
  · intro h
    refine BitVec.eq_of_getLsbD_eq fun k hk => ?_
    have hnot := List.filter_eq_nil_iff.mp h k (List.mem_range.mpr hk)
    simpa using hnot

/-! ## The loop over the set bits -/

/-- `bits & (bits - 1)` clears the lowest set bit. -/
theorem getLsbD_clearLowest {x : BitVec w} (hx : x ≠ 0#w) (k : Nat) :
    (x &&& (x - 1#w)).getLsbD k = (x.getLsbD k && decide (k ≠ x.ctz.toNat)) := by
  set t := x.ctz.toNat with ht
  have hlow : ∀ j, j < t → x.toNat.testBit j = false := fun j hj =>
    BitVec.getLsbD_false_of_lt_ctz hj
  have hbit : x.toNat.testBit t = true := BitVec.getLsbD_true_ctz_of_ne_zero hx
  -- `x` is an odd multiple of `2 ^ t`
  have hmod : x.toNat % 2 ^ t = 0 := by
    refine Nat.eq_of_testBit_eq fun j => ?_
    rw [Nat.testBit_mod_two_pow, Nat.zero_testBit]
    by_cases hj : j < t
    · rw [hlow j hj, Bool.and_false]
    · simp [hj]
  have hodd : x.toNat / 2 ^ t % 2 = 1 := by
    have h := hbit
    rw [Nat.testBit_eq_decide_div_mod_eq] at h
    simpa using h
  have hxeq : x.toNat = 2 ^ t * (x.toNat / 2 ^ t) := by
    have h := Nat.div_add_mod x.toNat (2 ^ t)
    omega
  set q := x.toNat / 2 ^ t with hq
  have hpos : 0 < 2 ^ t := Nat.two_pow_pos t
  have hqpos : 0 < q := by
    refine Nat.pos_of_ne_zero fun h0 => ?_
    rw [h0] at hodd
    cases hodd
  have hsub : (x - 1#w).toNat = 2 ^ t * (q - 1) + (2 ^ t - 1) := by
    have hx1 : 1 ≤ x.toNat := by
      rw [hxeq]
      exact Nat.mul_pos hpos hqpos
    have hw : 0 < w := by
      by_contra h0
      obtain rfl : w = 0 := by omega
      exact hx (BitVec.eq_of_zero_length rfl)
    have hone : (1#w).toNat = 1 := by
      rw [BitVec.toNat_ofNat, Nat.mod_eq_of_lt (Nat.one_lt_two_pow hw.ne')]
    rw [BitVec.toNat_sub_of_le (by rw [BitVec.le_def, hone]; exact hx1), hone, hxeq]
    obtain ⟨r, hr⟩ : ∃ r, q = r + 1 := ⟨q - 1, by omega⟩
    rw [hr, Nat.mul_succ, Nat.add_sub_cancel]
    omega
  rw [BitVec.getLsbD_and]
  have hleft : x.getLsbD k = x.toNat.testBit k := rfl
  have hright : (x - 1#w).getLsbD k = (x - 1#w).toNat.testBit k := rfl
  rw [hright, hsub, Nat.testBit_two_pow_mul_add _ (by omega)]
  by_cases hk : k < t
  · simp [hleft, hlow k hk]
  · rw [if_neg hk]
    rcases Nat.lt_or_ge t k with hlt | hge
    · -- above the lowest bit, `q` and `q - 1` agree
      have hne : k ≠ t := by omega
      have hsame : (q - 1).testBit (k - t) = q.testBit (k - t) := by
        obtain ⟨j, hj⟩ : ∃ j, k - t = j + 1 := ⟨k - t - 1, by omega⟩
        rw [hj, Nat.testBit_succ, Nat.testBit_succ]
        congr 1
        omega
      have hkq : x.getLsbD k = q.testBit (k - t) := by
        rw [hleft, hxeq, Nat.testBit_two_pow_mul]
        simp only [ge_iff_le, hlt.le, decide_true, Bool.true_and]
      rw [hsame, hkq]
      simp [hne]
    · obtain rfl : k = t := by omega
      have hz : (q - 1).testBit 0 = false := by
        rw [Nat.testBit_zero]
        simp only [decide_eq_false_iff_not]
        omega
      rw [Nat.sub_self, hz]
      simp

theorem setBits_eq_cons {x : BitVec w} (hx : x ≠ 0#w) :
    setBits x = x.ctz.toNat :: setBits (x &&& (x - 1#w)) := by
  have ht : x.ctz.toNat < w := by
    have h := BitVec.ctz_lt_iff_ne_zero.mpr hx
    have hnat := BitVec.lt_def.mp h
    rw [BitVec.natCast_eq_ofNat, BitVec.toNat_ofNat] at hnat
    exact hnat.trans_le (Nat.mod_le _ _)
  have hclear := getLsbD_clearLowest hx
  set t := x.ctz.toNat
  have hrange : List.range w = List.range t ++ t :: List.range' (t + 1) (w - t - 1) := by
    rw [List.range_eq_range', List.range_eq_range', ← List.range'_succ, show w - t - 1 + 1 = w - t by omega,
      show List.range' t (w - t) = List.range' (0 + t) (w - t) by rw [Nat.zero_add],
      List.range'_append_1, show t + (w - t) = w by omega]
  have hnone : ∀ y : BitVec w, (∀ j, j < t → y.getLsbD j = false) →
      (List.range t).filter y.getLsbD = [] := fun y hy =>
    List.filter_eq_nil_iff.mpr fun j hj => by simp [hy j (List.mem_range.mp hj)]
  have hlow : ∀ j, j < t → x.getLsbD j = false := fun j hj => BitVec.getLsbD_false_of_lt_ctz hj
  have hbit : x.getLsbD t = true := BitVec.getLsbD_true_ctz_of_ne_zero hx
  unfold setBits
  rw [hrange, List.filter_append, List.filter_append, hnone x hlow,
    hnone _ fun j hj => by rw [hclear, hlow j hj, Bool.false_and], List.filter_cons_of_pos hbit,
    List.filter_cons_of_neg (by rw [hclear]; simp), List.nil_append, List.nil_append]
  congr 1
  refine List.filter_congr fun k hk => ?_
  have hne : k ≠ t := by
    have h := (List.mem_range'_1.mp hk).1
    omega
  rw [hclear, decide_eq_true hne, Bool.and_true]

/-- `while (bits) { b = ctz(bits); …; bits &= bits - 1; }`, for a word of at most `fuel` set bits. -/
def scanBits (step : Nat → σ → σ) : Nat → BitVec w → σ → σ
  | 0, _, s => s
  | fuel + 1, bits, s =>
      if bits = 0#w then s
      else scanBits step fuel (bits &&& (bits - 1#w)) (step bits.ctz.toNat s)

theorem scanBits_eq (step : Nat → σ → σ) {fuel : Nat} {bits : BitVec w}
    (h : popcount bits ≤ fuel) (s : σ) :
    scanBits step fuel bits s = (setBits bits).foldl (fun s b => step b s) s := by
  induction fuel generalizing bits s with
  | zero =>
    have hnil : setBits bits = [] := List.length_eq_zero_iff.mp (Nat.le_zero.mp h)
    rw [hnil]
    rfl
  | succ fuel ih =>
    rw [scanBits]
    by_cases h0 : bits = 0#w
    · rw [if_pos h0, (eq_zero_iff_setBits bits).mp h0]
      rfl
    · have hcons := setBits_eq_cons h0
      have hfuel : popcount (bits &&& (bits - 1#w)) ≤ fuel := by
        have hlen := congrArg List.length hcons
        rw [List.length_cons] at hlen
        unfold popcount at *
        omega
      rw [if_neg h0, ih hfuel, hcons, List.foldl_cons]

/-- The sign bit flipped on both sides turns a signed comparison into an unsigned one. -/
theorem slt_xor_signBit {x y s : BitVec (w + 1)} (hs : s.toNat = 2 ^ w) :
    (x ^^^ s).slt (y ^^^ s) = x.ult y := by
  have hpow : 2 ^ (w + 1) = 2 * 2 ^ w := by rw [Nat.pow_succ, Nat.mul_comm]
  -- the high bit is flipped, the rest stays
  have hflip : ∀ z : BitVec (w + 1), (z ^^^ s).toInt = (z.toNat : Int) - (2 ^ w : Nat) := by
    intro z
    have hz := z.isLt
    have hdiv : (z ^^^ s).toNat / 2 ^ w = z.toNat / 2 ^ w ^^^ 1 := by
      rw [BitVec.toNat_xor, Nat.xor_div_two_pow, hs, Nat.div_self (Nat.two_pow_pos w)]
    have hmod : (z ^^^ s).toNat % 2 ^ w = z.toNat % 2 ^ w := by
      rw [BitVec.toNat_xor, Nat.xor_mod_two_pow, hs, Nat.mod_self, Nat.xor_zero]
    have h₁ := Nat.div_add_mod (z ^^^ s).toNat (2 ^ w)
    have h₂ := Nat.div_add_mod z.toNat (2 ^ w)
    have hlt : z.toNat % 2 ^ w < 2 ^ w := Nat.mod_lt _ (Nat.two_pow_pos w)
    have hbit : z.toNat / 2 ^ w < 2 := Nat.div_lt_of_lt_mul (by omega)
    rw [BitVec.toInt_eq_toNat_cond, hpow]
    rw [hdiv, hmod] at h₁
    generalize z.toNat / 2 ^ w = b at *
    generalize z.toNat % 2 ^ w = r at *
    generalize 2 ^ w = p at *
    rcases show b = 0 ∨ b = 1 by omega with rfl | rfl
    · rw [show 0 ^^^ 1 = 1 from rfl] at h₁
      rw [if_neg (by omega)]
      push_cast
      omega
    · rw [show 1 ^^^ 1 = 0 from rfl] at h₁
      rw [if_pos (by omega)]
      omega
  rw [BitVec.slt_eq_decide, hflip, hflip, BitVec.ult_eq_decide]
  refine decide_eq_decide.mpr ?_
  omega

end Bslz4ToSparse.Foundation
