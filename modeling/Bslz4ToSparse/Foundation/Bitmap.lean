import Bslz4ToSparse.Foundation.Bits

/-!
# Bitmaps in 64-bit words, and exchanges of bits

A bitmap is filled word by word and read back by scanning the set bits of its words. An
exchange of bits at a fixed distance (a delta swap) is one round of a bit transpose.
-/

namespace Bslz4ToSparse.Foundation

variable {σ : Type}

/-! ## Bitmaps -/

abbrev Bitmap : Type := Nat → BitVec 64

/-- `bm[g >> 6] |= x << (g & 63)`. -/
def orAt (bm : Bitmap) (g : Nat) (x : BitVec 64) : Bitmap := fun w =>
  if w = g / 64 then bm w ||| x <<< (g % 64) else bm w

/-- Bit `g`. -/
def testAt (bm : Bitmap) (g : Nat) : Bool := (bm (g / 64)).getLsbD (g % 64)

/-- The loops over the set bits of the first `nw` words. -/
def scanBitmap (step : Nat → σ → σ) (nw : Nat) (bm : Bitmap) (s : σ) : σ :=
  (List.range nw).foldl (fun s w => scanBits (fun b s => step (64 * w + b) s) 64 (bm w) s) s

/-- ORing bits that stay in their word. -/
theorem testAt_orAt (bm : Bitmap) {g n : Nat} {x : BitVec 64} (hword : g % 64 + n ≤ 64)
    (hx : ∀ k, n ≤ k → x.getLsbD k = false) (h : Nat) :
    testAt (orAt bm g x) h =
      (testAt bm h || (decide (g ≤ h ∧ h < g + n) && x.getLsbD (h - g))) := by
  have hmod : h % 64 < 64 := Nat.mod_lt h (by decide)
  unfold testAt orAt
  by_cases hw : h / 64 = g / 64
  · rw [if_pos hw, BitVec.getLsbD_or, BitVec.getLsbD_shiftLeft, decide_eq_true hmod, Bool.true_and]
    congr 1
    by_cases hge : g ≤ h
    · have hsub : h % 64 - g % 64 = h - g := by omega
      rw [decide_eq_false (show ¬ h % 64 < g % 64 by omega), Bool.not_false, Bool.true_and, hsub]
      by_cases hlt : h < g + n
      · rw [decide_eq_true ⟨hge, hlt⟩, Bool.true_and]
      · rw [hx _ (by omega), Bool.and_false]
    · rw [decide_eq_true (show h % 64 < g % 64 by omega), decide_eq_false (by omega)]
      rfl
  · rw [if_neg hw, decide_eq_false (by omega), Bool.false_and, Bool.or_false]

theorem scanBitmap_eq (step : Nat → σ → σ) (nw : Nat) (bm : Bitmap) (s : σ) :
    scanBitmap step nw bm s =
      ((List.range (64 * nw)).filter (testAt bm)).foldl (fun s g => step g s) s := by
  induction nw with
  | zero => rfl
  | succ nw ih =>
    have hword : (List.range' (64 * nw) 64).filter (testAt bm) =
        (setBits (bm nw)).map fun b => 64 * nw + b := by
      rw [List.range'_eq_map_range, List.filter_map, setBits]
      refine congrArg _ (List.filter_congr fun b hb => ?_)
      have hlt := List.mem_range.mp hb
      rw [Function.comp_apply, testAt, show (64 * nw + b) / 64 = nw by omega,
        show (64 * nw + b) % 64 = b by omega]
    have hrange : List.range (64 * (nw + 1)) = List.range (64 * nw) ++ List.range' (64 * nw) 64 := by
      rw [List.range_eq_range', List.range_eq_range', Nat.mul_succ,
        show List.range' (64 * nw) 64 = List.range' (0 + 64 * nw) 64 by rw [Nat.zero_add],
        List.range'_append_1]
    unfold scanBitmap at *
    rw [List.range_succ, List.foldl_append, ih, hrange, List.filter_append, List.foldl_append, hword,
      List.foldl_cons, List.foldl_nil, scanBits_eq _ (length_setBits_le _), List.foldl_map]

/-! ## Delta swaps -/

/-- `v = (x ^ (x >> s)) & m; x ^= (v << s) ^ v`. -/
def deltaSwap (m : BitVec 64) (s : Nat) (x : BitVec 64) : BitVec 64 :=
  let v := (x ^^^ (x >>> s)) &&& m
  (x ^^^ (v <<< s)) ^^^ v

/-- The bit that a delta swap brings to position `k`. -/
def swapIndex (m : BitVec 64) (s k : Nat) : Nat :=
  if m.getLsbD k then k + s else if s ≤ k ∧ m.getLsbD (k - s) then k - s else k

/-- A mask whose bits and their partners at distance `s` are all different. -/
def SwapMask (m : BitVec 64) (s : Nat) : Prop :=
  ∀ k, k < 64 → m.getLsbD k = true → k + s < 64 ∧ (s ≤ k → m.getLsbD (k - s) = false)

instance (m : BitVec 64) (s : Nat) : Decidable (SwapMask m s) :=
  inferInstanceAs (Decidable (∀ k, k < 64 → _))

theorem getLsbD_deltaSwap {m : BitVec 64} {s : Nat} (hm : SwapMask m s) (x : BitVec 64) {k : Nat}
    (hk : k < 64) : (deltaSwap m s x).getLsbD k = x.getLsbD (swapIndex m s k) := by
  simp only [deltaSwap, BitVec.getLsbD_xor, BitVec.getLsbD_and, BitVec.getLsbD_shiftLeft,
    BitVec.getLsbD_ushiftRight, hk, decide_true, Bool.true_and]
  unfold swapIndex
  cases hbit : m.getLsbD k with
  | true =>
    obtain ⟨-, hlow⟩ := hm k hk hbit
    have hpart : (!decide (k < s) && ((x.getLsbD (k - s) ^^ x.getLsbD (s + (k - s))) &&
        m.getLsbD (k - s))) = false := by
      by_cases hs : s ≤ k
      · rw [hlow hs, Bool.and_false, Bool.and_false]
      · rw [decide_eq_true (by omega), Bool.not_true, Bool.false_and]
    rw [hpart, if_pos rfl, Nat.add_comm k s, Bool.and_true, Bool.xor_false]
    cases x.getLsbD k <;> simp
  | false =>
    rw [Bool.and_false, Bool.xor_false, if_neg Bool.false_ne_true]
    by_cases hs : s ≤ k
    · rw [decide_eq_false (by omega), Bool.not_false, Bool.true_and,
        show s + (k - s) = k by omega]
      cases hlow : m.getLsbD (k - s) with
      | true =>
        rw [Bool.and_true, if_pos ⟨hs, rfl⟩]
        cases x.getLsbD k <;> simp
      | false => simp
    · rw [decide_eq_true (by omega)]
      simp [hs]

/-- The transpose of a word as an 8 by 8 matrix of bits: three rounds of exchanges. -/
def transpose8 (x : BitVec 64) : BitVec 64 :=
  deltaSwap 0x00000000f0f0f0f0#64 28
    (deltaSwap 0x0000cccc0000cccc#64 14 (deltaSwap 0x00aa00aa00aa00aa#64 7 x))

theorem getLsbD_transpose8 (x : BitVec 64) {a b : Nat} (ha : a < 8) (hb : b < 8) :
    (transpose8 x).getLsbD (8 * a + b) = x.getLsbD (8 * b + a) := by
  have h7 : SwapMask 0x00aa00aa00aa00aa#64 7 := by decide
  have h14 : SwapMask 0x0000cccc0000cccc#64 14 := by decide
  have h28 : SwapMask 0x00000000f0f0f0f0#64 28 := by decide
  have hindex : ∀ a, a < 8 → ∀ b, b < 8 →
      swapIndex 0x00000000f0f0f0f0#64 28 (8 * a + b) < 64 ∧
      swapIndex 0x0000cccc0000cccc#64 14 (swapIndex 0x00000000f0f0f0f0#64 28 (8 * a + b)) < 64 ∧
      swapIndex 0x00aa00aa00aa00aa#64 7 (swapIndex 0x0000cccc0000cccc#64 14
        (swapIndex 0x00000000f0f0f0f0#64 28 (8 * a + b))) = 8 * b + a := by decide
  obtain ⟨hlt₁, hlt₂, heq⟩ := hindex a ha b hb
  rw [transpose8, getLsbD_deltaSwap h28 _ (by omega), getLsbD_deltaSwap h14 _ hlt₁,
    getLsbD_deltaSwap h7 _ hlt₂, heq]

end Bslz4ToSparse.Foundation
