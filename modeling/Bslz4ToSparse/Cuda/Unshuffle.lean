import Bslz4ToSparse.Foundation.Launch
import Bslz4ToSparse.Foundation.Transpose
import Bslz4ToSparse.Steps.Untranspose

/-!
# The unshuffle on the GPU (src/cuda/shuffle_warp.cuh, src/cuda/bslz4_split.cu)

A warp of 32 lanes undoes the bitshuffle of a block of 8192 bytes in registers, by 32 x 32
bit transposes, and stages the pixels in the decode buffer. The lanes run in any order between
two barriers.
-/

namespace Bslz4ToSparse.Cuda

open Foundation Steps
open Lz4 (Byte)

/-- A store of one lane. -/
abbrev LaneStore : Type := Nat × (Nat → Byte)

/-- Word `i` of a buffer (little endian). -/
def word (mem : Memory) (i : Nat) : BitVec 32 :=
  gather 32 fun k => (mem (4 * i + k / 8)).getLsbD (k % 8)

/-- Byte `q` of a word. -/
def wordByte (x : BitVec 32) (q : Nat) : Byte := (x >>> (8 * q)).setWidth 8

/-! ## The registers of a lane -/

/-- A stage of `transpose32`, and the mask of the next one. -/
def transposeStage (s : (Nat → BitVec 32) × BitVec 32) (j : Nat) : (Nat → BitVec 32) × BitVec 32 :=
  (exchangeRows j s.2 s.1, s.2 ^^^ (s.2 <<< (j >>> 1)))

/-- `transpose32`. -/
def transpose32 (a : Nat → BitVec 32) : Nat → BitVec 32 :=
  ([16, 8, 4, 2, 1].foldl transposeStage (a, 0x0000FFFF#32)).1

/-- The mask of the stage of bit `s`. -/
def stageMask : Nat → BitVec 32
  | 0 => 0x55555555#32
  | 1 => 0x33333333#32
  | 2 => 0x0F0F0F0F#32
  | 3 => 0x00FF00FF#32
  | _ => 0x0000FFFF#32

theorem isMask_stageMask : ∀ s, s < 5 → IsMask s (stageMask s) := by
  unfold IsMask
  decide

theorem transpose32_eq (a : Nat → BitVec 32) :
    transpose32 a = (List.range 5).reverse.foldl (fun b s => exchangeRows (2 ^ s) (stageMask s) b) a := by
  have h8 : 0x0000FFFF#32 ^^^ (0x0000FFFF#32 <<< (16 >>> 1)) = 0x00FF00FF#32 := by decide
  have h4 : 0x00FF00FF#32 ^^^ (0x00FF00FF#32 <<< (8 >>> 1)) = 0x0F0F0F0F#32 := by decide
  have h2 : 0x0F0F0F0F#32 ^^^ (0x0F0F0F0F#32 <<< (4 >>> 1)) = 0x33333333#32 := by decide
  have h1 : 0x33333333#32 ^^^ (0x33333333#32 <<< (2 >>> 1)) = 0x55555555#32 := by decide
  simp only [transpose32, transposeStage, List.foldl_cons, List.foldl_nil, h8, h4, h2, h1]
  rfl

/-- Bit `y` of word `x` becomes bit `x` of word `y`. -/
theorem transpose32_getLsbD (a : Nat → BitVec 32) {x y : Nat} (hx : x < 32) (hy : y < 32) :
    (transpose32 a x).getLsbD y = (a y).getLsbD x := by
  rw [transpose32_eq, foldl_exchangeRows (w := 32) (k := 5) rfl le_rfl isMask_stageMask a hx hy,
    mixBits_self hx hy, mixBits_self hy hx]

/-! ## The staging -/

/-- The place of 16-byte vector `n` in the decode buffer. -/
def swizzle (n : Nat) : Nat := n ^^^ ((n >>> 3) &&& 7)

/-- `make_uint4`, byte by byte. -/
def makeUint4 (a b c d : BitVec 32) (r : Nat) : Byte := wordByte ([a, b, c, d].getD (r / 4) 0#32) (r % 4)

/-- `sst4`. -/
def sst4 (n : Nat) (a b c d : BitVec 32) : LaneStore := (swizzle n, makeUint4 a b c d)

/-- `shuf32_warp`: what lane `lane` loads into `a[q]`. -/
def shuf32Load (dec : Memory) (lane q k : Nat) : BitVec 32 := word dec (k * 64 + (lane + 32 * q))

/-- `shuf32_warp`: the stores of lane `lane` to the decode buffer. -/
def shuf32Lane (dec : Memory) (lane : Nat) : List LaneStore :=
  (List.range 2).flatMap fun q =>
    let a := transpose32 (shuf32Load dec lane q)
    let g := lane + 32 * q
    (List.range 8).map fun i => sst4 (g * 8 + i) (a (4 * i)) (a (4 * i + 1)) (a (4 * i + 2)) (a (4 * i + 3))

/-- `shuf16_warp`: what lane `lane` loads into `a[p]`. -/
def shuf16Load (dec : Memory) (lane p k : Nat) : BitVec 32 :=
  if k < 16 then word dec (k * 128 + (lane + 64 * p))
  else word dec ((k - 16) * 128 + (lane + 64 * p + 32))

/-- `wa[m]` from `x0` and `x1`. -/
def lowHalves (x0 x1 : BitVec 32) : BitVec 32 := (x0 &&& 0xFFFF#32) ||| (x1 <<< 16)

/-- `wb[m]` from `x0` and `x1`. -/
def highHalves (x0 x1 : BitVec 32) : BitVec 32 := (x0 >>> 16) ||| (x1 &&& 0xFFFF0000#32)

/-- `shuf16_warp`. -/
def shuf16Lane (dec : Memory) (lane : Nat) : List LaneStore :=
  (List.range 2).flatMap fun p =>
    let a := transpose32 (shuf16Load dec lane p)
    let ga := lane + 64 * p
    let gb := ga + 32
    (List.range 4).flatMap fun i =>
      let wa := fun m => lowHalves (a (2 * (4 * i + m))) (a (2 * (4 * i + m) + 1))
      let wb := fun m => highHalves (a (2 * (4 * i + m))) (a (2 * (4 * i + m) + 1))
      [sst4 (ga * 4 + i) (wa 0) (wa 1) (wa 2) (wa 3), sst4 (gb * 4 + i) (wb 0) (wb 1) (wb 2) (wb 3)]

/-- `shuf8_warp`: what lane `lane` loads into `a[p]`; register `8 * s + k`. -/
def shuf8Load (dec : Memory) (lane p k : Nat) : BitVec 32 :=
  word dec (k % 8 * 256 + (lane + 128 * p + 32 * (k / 8)))

/-- `w[m]`: byte `s` of four registers. -/
def bytesAt (s : Nat) (a : Nat → BitVec 32) (m : Nat) : BitVec 32 :=
  ((a (4 * m) >>> (8 * s)) &&& 0xFF#32) ||| (((a (4 * m + 1) >>> (8 * s)) &&& 0xFF#32) <<< 8) |||
    (((a (4 * m + 2) >>> (8 * s)) &&& 0xFF#32) <<< 16) |||
    (((a (4 * m + 3) >>> (8 * s)) &&& 0xFF#32) <<< 24)

/-- `shuf8_warp`. -/
def shuf8Lane (dec : Memory) (lane : Nat) : List LaneStore :=
  (List.range 2).flatMap fun p =>
    let a := transpose32 (shuf8Load dec lane p)
    (List.range 4).flatMap fun s =>
      let g := lane + 128 * p + 32 * s
      let w := bytesAt s a
      [sst4 (g * 2) (w 0) (w 1) (w 2) (w 3), sst4 (g * 2 + 1) (w 4) (w 5) (w 6) (w 7)]

/-- `flush`: the stores of lane `lane` to the frame, whose vectors count from `base`. -/
def flushLane (dec : Memory) (base lane : Nat) : List LaneStore :=
  (List.range 16).map fun i => (base + (i * 32 + lane), fun r => dec (16 * swizzle (i * 32 + lane) + r))

/-- A warp: the lanes have read `dec` when they store to it, and have stored when they flush. -/
def ShufWarp (lanes : Memory → Nat → List LaneStore) (dec : Memory) (base : Nat) (out out' : Memory) :
    Prop :=
  ∃ staged, AnyOrder 16 ((List.range 32).map (lanes dec)) dec staged ∧
    AnyOrder 16 ((List.range 32).map (flushLane staged base)) out out'

/-- The function the kernel calls for pixels of `bpp` bytes. -/
def shufLane (bpp : Nat) : Memory → Nat → List LaneStore :=
  if bpp = 4 then shuf32Lane else if bpp = 2 then shuf16Lane else shuf8Lane

theorem ShufWarp.exists (lanes : Memory → Nat → List LaneStore) (dec : Memory) (base : Nat)
    (out : Memory) : ∃ out', ShufWarp lanes dec base out out' := by
  obtain ⟨staged, hstaged⟩ := AnyOrder.exists 16 ((List.range 32).map (lanes dec)) dec
  obtain ⟨out', hout'⟩ := AnyOrder.exists 16 ((List.range 32).map (flushLane staged base)) out
  exact ⟨out', staged, hstaged, hout'⟩

/-! ## The staged block -/

theorem swizzle_swizzle (n : Nat) : swizzle (swizzle n) = n := by
  have hlow : ((n >>> 3) &&& 7) >>> 3 = 0 := by
    have hlt : (n >>> 3) &&& 7 < 8 := Nat.and_lt_two_pow (n := 3) _ (by decide)
    rw [Nat.shiftRight_eq_div_pow]
    omega
  rw [swizzle, swizzle, Nat.shiftRight_xor_distrib, hlow, Nat.xor_zero, Nat.xor_assoc, Nat.xor_self,
    Nat.xor_zero]

theorem swizzle_inj {m n : Nat} (h : swizzle m = swizzle n) : m = n := by
  rw [← swizzle_swizzle m, h, swizzle_swizzle]

/-- Bit `e` of plane `k` of a block of `ne` elements. -/
def planeBit (planes : Memory) (ne k e : Nat) : Bool := (planes (k * (ne / 8) + e / 8)).getLsbD (e % 8)

/-- Byte `p` of the inverse bitshuffle of a block of `ne` elements of `nb` bytes. -/
def unshuffledByte (planes : Memory) (ne nb p : Nat) : Byte :=
  gather 8 fun i => planeBit planes ne (8 * (p % nb) + i) (p / nb)

theorem unshuffled_of_bytes {planes out : Memory} {ne nb : Nat}
    (h : ∀ p, p < ne * nb → out p = unshuffledByte planes ne nb p) : Unshuffled planes out ne nb := by
  intro e he b hb i hi
  have hlt : e * nb + b < ne * nb := by
    have hle : (e + 1) * nb ≤ ne * nb := Nat.mul_le_mul_right nb he
    rw [Nat.succ_mul] at hle
    omega
  have hdiv : (e * nb + b) / nb = e := by
    rw [Nat.mul_comm, Nat.mul_add_div (by omega), Nat.div_eq_of_lt hb, Nat.add_zero]
  have hmod : (e * nb + b) % nb = b := by rw [Nat.mul_comm, Nat.mul_add_mod, Nat.mod_eq_of_lt hb]
  rw [h _ hlt, unshuffledByte, getLsbD_gather, decide_eq_true hi, Bool.true_and, hdiv, hmod, planeBit]

/-- The stores of the lanes are the vectors of the unshuffled block. -/
structure Stages (lanes : Nat → List LaneStore) (planes : Memory) (nb : Nat) : Prop where
  sound : ∀ lane, lane < 32 → ∀ s ∈ lanes lane, ∃ n, n < 512 ∧ s.1 = swizzle n ∧
    ∀ r, r < 16 → s.2 r = unshuffledByte planes (8192 / nb) nb (16 * n + r)
  complete : ∀ n, n < 512 → ∃ lane, lane < 32 ∧ ∃ s ∈ lanes lane, s.1 = swizzle n

/-- A warp whose stores are the vectors of the unshuffled block stores the block. -/
theorem ShufWarp.stores {lanes : Memory → Nat → List LaneStore} {dec out out' : Memory} {base nb : Nat}
    (hrun : ShufWarp lanes dec base out out') (h : Stages (lanes dec) dec nb) :
    (∀ p, p < 8192 → out' (16 * base + p) = unshuffledByte dec (8192 / nb) nb p) ∧
      ∀ p, p < 16 * base ∨ 16 * base + 8192 ≤ p → out' p = out p := by
  obtain ⟨staged, hstage, hflush⟩ := hrun
  have hstaged : ∀ n, n < 512 → ∀ r, r < 16 →
      staged (16 * swizzle n + r) = unshuffledByte dec (8192 / nb) nb (16 * n + r) := by
    intro n hn r hr
    have hdiv : (16 * swizzle n + r) / 16 = swizzle n := by omega
    have hmod : (16 * swizzle n + r) % 16 = r := by omega
    apply hstage.of_eq
    · rw [hdiv, hmod]
      intro thread hthread s hs heq
      obtain ⟨lane, hlane, rfl⟩ := List.mem_map.mp hthread
      obtain ⟨m, -, hm, hbytes⟩ := h.sound lane (List.mem_range.mp hlane) s hs
      rw [swizzle_inj (hm.symm.trans heq)] at hbytes
      exact hbytes r hr
    · obtain ⟨lane, hlane, s, hs, heq⟩ := h.complete n hn
      exact ⟨_, List.mem_map_of_mem (List.mem_range.mpr hlane), s, hs, heq.trans hdiv.symm⟩
  constructor
  · intro p hp
    have hdiv : (16 * base + p) / 16 = base + p / 16 := by omega
    have hmod : (16 * base + p) % 16 = p % 16 := by omega
    have hbyte := hstaged (p / 16) (by omega) (p % 16) (Nat.mod_lt p (by decide))
    rw [Nat.div_add_mod] at hbyte
    apply hflush.of_eq
    · rw [hdiv, hmod]
      intro thread hthread s hs heq
      obtain ⟨lane, -, rfl⟩ := List.mem_map.mp hthread
      obtain ⟨i, -, rfl⟩ := List.mem_map.mp hs
      have hn : i * 32 + lane = p / 16 := by
        dsimp only at heq
        omega
      dsimp only
      rw [hn, hbyte]
    · refine ⟨_, List.mem_map_of_mem (List.mem_range.mpr (Nat.mod_lt (p / 16) (show 0 < 32 by decide))),
        _, List.mem_map_of_mem (a := p / 16 / 32) (List.mem_range.mpr (by omega)), ?_⟩
      dsimp only
      omega
  · intro p hp
    apply hflush.of_ne
    intro thread hthread s hs heq
    obtain ⟨lane, hlane, rfl⟩ := List.mem_map.mp hthread
    obtain ⟨i, hi, rfl⟩ := List.mem_map.mp hs
    have hlane' := List.mem_range.mp hlane
    have hi' := List.mem_range.mp hi
    dsimp only at heq
    omega

/-! ## The three kernels -/

/-- Word `g` of plane `k` of the block, bit by bit. -/
theorem word_getLsbD (dec : Memory) {R k g e : Nat} (he : e < 32) :
    (word dec (k * R + g)).getLsbD e = planeBit dec (32 * R) k (32 * g + e) := by
  have hplane : k * (32 * R / 8) = 4 * (k * R) := by
    rw [show 32 * R / 8 = 4 * R by omega, Nat.mul_left_comm]
  have hbyte : 4 * (k * R + g) + e / 8 = k * (32 * R / 8) + (32 * g + e) / 8 := by
    rw [hplane]
    omega
  have hbit : e % 8 = (32 * g + e) % 8 := by omega
  rw [word, getLsbD_gather, decide_eq_true he, Bool.true_and, hbyte, hbit, planeBit]

theorem wordByte_getLsbD (x : BitVec 32) {q b : Nat} (hb : b < 8) :
    (wordByte x q).getLsbD b = x.getLsbD (8 * q + b) := by
  rw [wordByte, BitVec.getLsbD_setWidth, decide_eq_true hb, Bool.true_and, BitVec.getLsbD_ushiftRight]

theorem makeUint4_eq (f : Nat → BitVec 32) {r : Nat} (hr : r < 16) :
    makeUint4 (f 0) (f 1) (f 2) (f 3) r = wordByte (f (r / 4)) (r % 4) := by
  have hword : [f 0, f 1, f 2, f 3].getD (r / 4) 0#32 = f (r / 4) := by
    obtain h | h | h | h : r / 4 = 0 ∨ r / 4 = 1 ∨ r / 4 = 2 ∨ r / 4 = 3 := by omega
    all_goals rw [h]; rfl
  rw [makeUint4, hword]

/-- Four words of the unshuffled block, as a vector. -/
theorem makeUint4_unshuffled {dec : Memory} {ne nb n : Nat} (f : Nat → BitVec 32)
    (h : ∀ c, c < 4 → ∀ q, q < 4 → ∀ b, b < 8 → (f c).getLsbD (8 * q + b) =
      planeBit dec ne (8 * ((16 * n + 4 * c + q) % nb) + b) ((16 * n + 4 * c + q) / nb))
    {r : Nat} (hr : r < 16) :
    makeUint4 (f 0) (f 1) (f 2) (f 3) r = unshuffledByte dec ne nb (16 * n + r) := by
  refine BitVec.eq_of_getLsbD_eq fun b hb => ?_
  have hsplit : 16 * n + 4 * (r / 4) + r % 4 = 16 * n + r := by omega
  have hbit := h (r / 4) (by omega) (r % 4) (Nat.mod_lt r (by decide)) b hb
  rw [makeUint4_eq f hr, wordByte_getLsbD _ hb, hbit, hsplit, unshuffledByte, getLsbD_gather,
    decide_eq_true hb, Bool.true_and]

theorem shuf32_getLsbD (dec : Memory) {lane q e k : Nat} (he : e < 32) (hk : k < 32) :
    (transpose32 (shuf32Load dec lane q) e).getLsbD k =
      planeBit dec 2048 k (32 * (lane + 32 * q) + e) := by
  rw [transpose32_getLsbD _ he hk, shuf32Load, word_getLsbD dec he]

theorem shuf32_stages (dec : Memory) : Stages (shuf32Lane dec) dec 4 := by
  constructor
  · intro lane hlane s hs
    simp only [shuf32Lane, List.mem_flatMap, List.mem_map, List.mem_range] at hs
    obtain ⟨q, hq, i, hi, rfl⟩ := hs
    refine ⟨(lane + 32 * q) * 8 + i, by omega, rfl, ?_⟩
    intro r hr
    apply makeUint4_unshuffled (fun c => transpose32 (shuf32Load dec lane q) (4 * i + c)) _ hr
    intro c hc q' hq' b hb
    rw [shuf32_getLsbD dec (by omega) (by omega)]
    congr 1 <;> omega
  · intro n hn
    refine ⟨n / 8 % 32, Nat.mod_lt _ (by decide), ?_⟩
    simp only [shuf32Lane, List.mem_flatMap, List.mem_map, List.mem_range]
    refine ⟨_, ⟨n / 256, by omega, n % 8, Nat.mod_lt n (by decide), rfl⟩, ?_⟩
    exact congrArg swizzle (by omega)

theorem lowHalf_getLsbD : ∀ k, k < 32 → (0xFFFF#32).getLsbD k = decide (k < 16) := by decide

theorem highHalf_getLsbD : ∀ k, k < 32 → (0xFFFF0000#32).getLsbD k = decide (16 ≤ k) := by decide

theorem lowByte_getLsbD : ∀ k, k < 32 → (0xFF#32).getLsbD k = decide (k < 8) := by decide

theorem lowHalves_getLsbD (x0 x1 : BitVec 32) {k : Nat} (hk : k < 32) :
    (lowHalves x0 x1).getLsbD k = if k < 16 then x0.getLsbD k else x1.getLsbD (k - 16) := by
  rw [lowHalves, BitVec.getLsbD_or, BitVec.getLsbD_and, BitVec.getLsbD_shiftLeft, lowHalf_getLsbD k hk]
  split
  · next h => simp [h]
  · next h => simp [h, hk]

theorem highHalves_getLsbD (x0 x1 : BitVec 32) {k : Nat} (hk : k < 32) :
    (highHalves x0 x1).getLsbD k = if k < 16 then x0.getLsbD (16 + k) else x1.getLsbD k := by
  rw [highHalves, BitVec.getLsbD_or, BitVec.getLsbD_and, BitVec.getLsbD_ushiftRight,
    highHalf_getLsbD k hk]
  split
  · next h =>
    rw [decide_eq_false (by omega), Bool.and_false, Bool.or_false]
  · next h =>
    rw [BitVec.getLsbD_of_ge x0 _ (by omega), decide_eq_true (by omega), Bool.and_true, Bool.false_or]

theorem shuf16_getLsbD (dec : Memory) {lane p e k : Nat} (he : e < 32) (hk : k < 32) :
    (transpose32 (shuf16Load dec lane p) e).getLsbD k =
      planeBit dec 4096 (k % 16) (32 * (lane + 64 * p + 32 * (k / 16)) + e) := by
  rw [transpose32_getLsbD _ he hk, shuf16Load]
  split
  · rw [word_getLsbD dec he]
    congr 1 <;> omega
  · rw [word_getLsbD dec he]
    congr 1 <;> omega

theorem shuf16_stages (dec : Memory) : Stages (shuf16Lane dec) dec 2 := by
  constructor
  · intro lane hlane s hs
    simp only [shuf16Lane, List.mem_flatMap, List.mem_range, List.mem_cons, List.not_mem_nil,
      or_false] at hs
    obtain ⟨p, hp, i, hi, rfl | rfl⟩ := hs
    · refine ⟨(lane + 64 * p) * 4 + i, by omega, rfl, ?_⟩
      intro r hr
      apply makeUint4_unshuffled (fun m => lowHalves
        (transpose32 (shuf16Load dec lane p) (2 * (4 * i + m)))
        (transpose32 (shuf16Load dec lane p) (2 * (4 * i + m) + 1))) _ hr
      intro c hc q hq b hb
      rw [lowHalves_getLsbD _ _ (by omega)]
      split
      · rw [shuf16_getLsbD dec (by omega) (by omega)]
        congr 1 <;> omega
      · rw [shuf16_getLsbD dec (by omega) (by omega)]
        congr 1 <;> omega
    · refine ⟨(lane + 64 * p + 32) * 4 + i, by omega, rfl, ?_⟩
      intro r hr
      apply makeUint4_unshuffled (fun m => highHalves
        (transpose32 (shuf16Load dec lane p) (2 * (4 * i + m)))
        (transpose32 (shuf16Load dec lane p) (2 * (4 * i + m) + 1))) _ hr
      intro c hc q hq b hb
      rw [highHalves_getLsbD _ _ (by omega)]
      split
      · rw [shuf16_getLsbD dec (by omega) (by omega)]
        congr 1 <;> omega
      · rw [shuf16_getLsbD dec (by omega) (by omega)]
        congr 1 <;> omega
  · intro n hn
    refine ⟨n / 4 % 32, Nat.mod_lt _ (by decide), ?_⟩
    simp only [shuf16Lane, List.mem_flatMap, List.mem_range]
    rcases Nat.mod_two_eq_zero_or_one (n / 128) with h | h
    · refine ⟨_, ⟨n / 256, by omega, n % 4, Nat.mod_lt n (by decide), List.mem_cons_self⟩, ?_⟩
      exact congrArg swizzle (by omega)
    · refine ⟨_, ⟨n / 256, by omega, n % 4, Nat.mod_lt n (by decide),
        List.mem_cons_of_mem _ List.mem_cons_self⟩, ?_⟩
      exact congrArg swizzle (by omega)

/-- One byte moved to place `j`. -/
theorem movedByte_getLsbD (x : BitVec 32) (s : Nat) {j q b : Nat} (hj : j < 4) (hq : q < 4) (hb : b < 8) :
    (((x >>> (8 * s)) &&& 0xFF#32) <<< (8 * j)).getLsbD (8 * q + b) =
      (decide (q = j) && x.getLsbD (8 * s + b)) := by
  rw [BitVec.getLsbD_shiftLeft, BitVec.getLsbD_and, BitVec.getLsbD_ushiftRight,
    lowByte_getLsbD _ (show 8 * q + b - 8 * j < 32 by omega)]
  rcases Nat.lt_trichotomy q j with hlt | rfl | hgt
  · rw [decide_eq_true (show 8 * q + b < 8 * j by omega), decide_eq_false hlt.ne]
    simp
  · rw [decide_eq_false (show ¬ 8 * q + b < 8 * q by omega), Nat.add_sub_cancel_left,
      decide_eq_true hb, decide_eq_true (show 8 * q + b < 32 by omega), decide_eq_true rfl]
    simp
  · rw [decide_eq_false (show ¬ 8 * q + b - 8 * j < 8 by omega), decide_eq_false hgt.ne']
    simp

theorem bytesAt_getLsbD (s : Nat) (a : Nat → BitVec 32) (m : Nat) {q b : Nat} (hq : q < 4)
    (hb : b < 8) : (bytesAt s a m).getLsbD (8 * q + b) = (a (4 * m + q)).getLsbD (8 * s + b) := by
  have h0 := movedByte_getLsbD (a (4 * m)) s (j := 0) (by decide) hq hb
  have h1 := movedByte_getLsbD (a (4 * m + 1)) s (j := 1) (by decide) hq hb
  have h2 := movedByte_getLsbD (a (4 * m + 2)) s (j := 2) (by decide) hq hb
  have h3 := movedByte_getLsbD (a (4 * m + 3)) s (j := 3) (by decide) hq hb
  rw [Nat.mul_zero, BitVec.shiftLeft_zero] at h0
  rw [bytesAt, BitVec.getLsbD_or, BitVec.getLsbD_or, BitVec.getLsbD_or, h0, h1, h2, h3]
  obtain rfl | rfl | rfl | rfl : q = 0 ∨ q = 1 ∨ q = 2 ∨ q = 3 := by omega
  all_goals simp

theorem shuf8_getLsbD (dec : Memory) {lane p e k : Nat} (he : e < 32) (hk : k < 32) :
    (transpose32 (shuf8Load dec lane p) e).getLsbD k =
      planeBit dec 8192 (k % 8) (32 * (lane + 128 * p + 32 * (k / 8)) + e) := by
  rw [transpose32_getLsbD _ he hk, shuf8Load, word_getLsbD dec he]

theorem shuf8_stages (dec : Memory) : Stages (shuf8Lane dec) dec 1 := by
  constructor
  · intro lane hlane st hst
    simp only [shuf8Lane, List.mem_flatMap, List.mem_range, List.mem_cons, List.not_mem_nil,
      or_false] at hst
    obtain ⟨p, hp, s, hs, hst⟩ := hst
    -- the words `w[0..3]` and `w[4..7]`
    have hvector : ∀ h, h < 2 → ∀ r, r < 16 →
        makeUint4 (bytesAt s (transpose32 (shuf8Load dec lane p)) (4 * h))
          (bytesAt s (transpose32 (shuf8Load dec lane p)) (4 * h + 1))
          (bytesAt s (transpose32 (shuf8Load dec lane p)) (4 * h + 2))
          (bytesAt s (transpose32 (shuf8Load dec lane p)) (4 * h + 3)) r =
        unshuffledByte dec (8192 / 1) 1 (16 * ((lane + 128 * p + 32 * s) * 2 + h) + r) := by
      intro h hh r hr
      apply makeUint4_unshuffled (fun c => bytesAt s (transpose32 (shuf8Load dec lane p)) (4 * h + c))
        _ hr
      intro c hc q hq b hb
      rw [bytesAt_getLsbD s _ _ hq hb, shuf8_getLsbD dec (by omega) (by omega)]
      congr 1 <;> omega
    rcases hst with rfl | rfl
    · exact ⟨(lane + 128 * p + 32 * s) * 2, by omega, rfl, hvector 0 (by decide)⟩
    · exact ⟨(lane + 128 * p + 32 * s) * 2 + 1, by omega, rfl, hvector 1 (by decide)⟩
  · intro n hn
    refine ⟨n / 2 % 32, Nat.mod_lt _ (by decide), ?_⟩
    simp only [shuf8Lane, List.mem_flatMap, List.mem_range]
    rcases Nat.mod_two_eq_zero_or_one n with h | h
    · refine ⟨_, ⟨n / 256, by omega, n / 64 % 4, Nat.mod_lt _ (by decide), List.mem_cons_self⟩, ?_⟩
      exact congrArg swizzle (by omega)
    · refine ⟨_, ⟨n / 256, by omega, n / 64 % 4, Nat.mod_lt _ (by decide),
        List.mem_cons_of_mem _ List.mem_cons_self⟩, ?_⟩
      exact congrArg swizzle (by omega)

theorem shufLane_stages {bpp : Nat} (h : bpp = 1 ∨ bpp = 2 ∨ bpp = 4) (dec : Memory) :
    Stages (shufLane bpp dec) dec bpp := by
  rcases h with rfl | rfl | rfl
  · exact shuf8_stages dec
  · exact shuf16_stages dec
  · exact shuf32_stages dec

/-! ## The last block -/

/-- Element `dest` of the last block, bit by bit; `mybyte` moves on by a plane. -/
def partialStep (dec : Memory) (mymask : BitVec 32) (bytestride : Nat) (s : Nat × BitVec 32) (i : Nat) :
    Nat × BitVec 32 :=
  (s.1 + bytestride,
    if (dec s.1).setWidth 32 &&& mymask ≠ 0#32 then s.2 ||| (1#32 <<< i) else s.2)

/-- `val` of element `dest`. -/
def partialValue (dec : Memory) (bpp bytestride dest : Nat) : BitVec 32 :=
  ((List.range (bpp * 8)).foldl (partialStep dec (1#32 <<< (dest % 8)) bytestride) (dest / 8, 0#32)).2

/-- The stores of lane `lane` for the last block, which is at `ps`: `bsize` bytes of elements, then the
last `tocopy` bytes of the chunk. -/
def partialLane (dec : Memory) (comp : List Byte) (bpp ps bsize tocopy lane : Nat) : List LaneStore :=
  let nelb := bsize / bpp
  let bytestride := bsize / (8 * bpp)
  ((List.range' lane ((nelb - lane + 31) / 32) 32).flatMap fun dest =>
    (List.range bpp).map fun i =>
      (ps + dest * bpp + i, fun _ => (partialValue dec bpp bytestride dest >>> (8 * i)).setWidth 8)) ++
    if lane < tocopy then
      [(ps + bsize + lane, fun _ => comp.getD (comp.length - tocopy + lane) 0#8)]
    else []

/-- What `decompress` stores to the frame for block `blockid` of a good chunk, from the decoded
block `dec`. -/
def DecompressStores (bpp totalBytes ntot blockid : Nat) (dec : Memory) (comp : List Byte)
    (out out' : Memory) : Prop :=
  let nfull := totalBytes / 8192
  let part := totalBytes - nfull * 8192
  let tocopy := part % (bpp * 8)
  if ntot ≤ blockid then out' = out
  else if blockid < nfull then ShufWarp (shufLane bpp) dec (blockid * 512) out out'
  else
    AnyOrder 1 ((List.range 32).map (partialLane dec comp bpp (nfull * 8192) (part - tocopy) tocopy))
      out out'

theorem and_mask_ne_zero (x : Byte) {i : Nat} (hi : i < 8) :
    x.setWidth 32 &&& (1#32 <<< i) ≠ 0#32 ↔ x.getLsbD i = true := by
  have hbit : (x.setWidth 32).getLsbD i = x.getLsbD i := by
    rw [BitVec.getLsbD_setWidth, decide_eq_true (by omega), Bool.true_and]
  have hone : BitVec.twoPow 32 i ≠ 0#32 := fun h => by
    have hzero := congrArg (fun y => y.getLsbD i) h
    have h32 : i < 32 := by omega
    simp [h32] at hzero
  rw [← BitVec.twoPow_eq, BitVec.and_twoPow, hbit]
  cases x.getLsbD i with
  | true => simpa using hone
  | false => simp

theorem partialValue_getLsbD (dec : Memory) {bpp bytestride dest k : Nat} (hbpp : bpp ≤ 4)
    (hk : k < bpp * 8) : (partialValue dec bpp bytestride dest).getLsbD k =
      (dec (dest / 8 + k * bytestride)).getLsbD (dest % 8) := by
  -- after `i` bits, `val` holds the bits below `i`
  have hrun := foldl_range_induct (f := partialStep dec (1#32 <<< (dest % 8)) bytestride)
    (s := (dest / 8, 0#32)) (n := bpp * 8)
    (I := fun i s => s.1 = dest / 8 + i * bytestride ∧ ∀ k, k < 32 → s.2.getLsbD k =
      (decide (k < i) && (dec (dest / 8 + k * bytestride)).getLsbD (dest % 8)))
    ⟨by rw [Nat.zero_mul, Nat.add_zero], fun k _ => by simp⟩ ?_
  · rw [partialValue, hrun.2 k (by omega), decide_eq_true hk, Bool.true_and]
  · rintro i hi ⟨pos, val⟩ ⟨hpos, hval⟩
    dsimp only at hpos hval
    have hbit := and_mask_ne_zero (dec pos) (Nat.mod_lt dest (show 0 < 8 by decide))
    rw [partialStep]
    dsimp only
    refine ⟨by rw [hpos, Nat.succ_mul, Nat.add_assoc], ?_⟩
    intro k hk
    split
    · next hset =>
      have htrue := hbit.mp hset
      rw [BitVec.getLsbD_or, hval k hk, ← BitVec.twoPow_eq, BitVec.getLsbD_twoPow,
        decide_eq_true (show i < 32 by omega), Bool.true_and]
      rcases Nat.lt_trichotomy k i with hlt | rfl | hgt
      · simp [hlt, hlt.ne', show k < i + 1 by omega]
      · rw [hpos] at htrue
        simp [htrue]
      · simp [hgt.ne, show ¬ k < i by omega, show ¬ k < i + 1 by omega]
    · next hclear =>
      have hfalse : (dec pos).getLsbD (dest % 8) = false := by
        rw [← Bool.not_eq_true, ← hbit]
        exact hclear
      rw [hval k hk]
      rcases Nat.lt_trichotomy k i with hlt | rfl | hgt
      · simp [hlt, show k < i + 1 by omega]
      · rw [hpos] at hfalse
        simp [hfalse]
      · simp [show ¬ k < i by omega, show ¬ k < i + 1 by omega]

/-- The elements of a lane. -/
theorem mem_dests {nelb lane dest : Nat} (hlane : lane < 32) :
    dest ∈ List.range' lane ((nelb - lane + 31) / 32) 32 ↔ dest < nelb ∧ dest % 32 = lane := by
  rw [List.mem_range']
  constructor
  · rintro ⟨i, hi, rfl⟩
    omega
  · rintro ⟨hlt, rfl⟩
    exact ⟨dest / 32, by omega, by omega⟩

section Partial

variable {dec : Memory} {comp : List Byte} {bpp ps ne tocopy : Nat}

/-- The stores of a lane: bytes of its elements, and a byte of the remainder. -/
theorem mem_partialLane {lane : Nat} (hlane : lane < 32) (hbpp : 0 < bpp) {s : LaneStore} :
    s ∈ partialLane dec comp bpp ps (ne * bpp) tocopy lane ↔
      (∃ dest, (dest < ne ∧ dest % 32 = lane) ∧ ∃ i, i < bpp ∧ s = (ps + dest * bpp + i, fun _ =>
        (partialValue dec bpp (ne / 8) dest >>> (8 * i)).setWidth 8)) ∨
      lane < tocopy ∧ s = (ps + ne * bpp + lane, fun _ => comp.getD (comp.length - tocopy + lane) 0#8) := by
  have hstride : ne * bpp / (8 * bpp) = ne / 8 := Nat.mul_div_mul_right ne 8 hbpp
  simp only [partialLane, List.mem_append, List.mem_flatMap, List.mem_map, List.mem_range,
    Nat.mul_div_cancel ne hbpp, hstride, mem_dests hlane]
  constructor
  · rintro (⟨dest, hdest, i, hi, rfl⟩ | hraw)
    · exact Or.inl ⟨dest, hdest, i, hi, rfl⟩
    · split at hraw
      · next hlt => exact Or.inr ⟨hlt, List.mem_singleton.mp hraw⟩
      · exact absurd hraw List.not_mem_nil
  · rintro (⟨dest, hdest, i, hi, rfl⟩ | ⟨hlt, rfl⟩)
    · exact Or.inl ⟨dest, hdest, i, hi, rfl⟩
    · rw [if_pos hlt]
      exact Or.inr List.mem_cons_self

/-- A byte of an element. -/
theorem partialByte_eq (hbpp : bpp ≤ 4) {dest i : Nat} (hi : i < bpp) :
    (partialValue dec bpp (ne / 8) dest >>> (8 * i)).setWidth 8 =
      unshuffledByte dec ne bpp (dest * bpp + i) := by
  have hdiv : (dest * bpp + i) / bpp = dest := by
    rw [Nat.mul_comm, Nat.mul_add_div (by omega), Nat.div_eq_of_lt hi, Nat.add_zero]
  have hmod : (dest * bpp + i) % bpp = i := by rw [Nat.mul_comm, Nat.mul_add_mod, Nat.mod_eq_of_lt hi]
  refine BitVec.eq_of_getLsbD_eq fun b hb => ?_
  rw [BitVec.getLsbD_setWidth, decide_eq_true hb, Bool.true_and, BitVec.getLsbD_ushiftRight,
    partialValue_getLsbD dec hbpp (by omega), unshuffledByte, getLsbD_gather, decide_eq_true hb,
    Bool.true_and, hdiv, hmod, planeBit, Nat.add_comm]

theorem byte_lt {dest i : Nat} (hdest : dest < ne) (hi : i < bpp) : dest * bpp + i < ne * bpp := by
  have hle : (dest + 1) * bpp ≤ ne * bpp := Nat.mul_le_mul_right bpp hdest
  rw [Nat.succ_mul] at hle
  omega

/-- The last block is stored, and the remainder behind it. -/
theorem partial_stores (hpos : 0 < bpp) (hbpp : bpp ≤ 4) (htocopy : tocopy ≤ 32) {out out' : Memory}
    (hrun : AnyOrder 1 ((List.range 32).map (partialLane dec comp bpp ps (ne * bpp) tocopy)) out out') :
    (∀ p, p < ne * bpp → out' (ps + p) = unshuffledByte dec ne bpp p) ∧
      (∀ i, i < tocopy → out' (ps + ne * bpp + i) = comp.getD (comp.length - tocopy + i) 0#8) ∧
      ∀ p, p < ps ∨ ps + ne * bpp + tocopy ≤ p → out' p = out p := by
  refine ⟨?_, ?_, ?_⟩
  · intro p hp
    apply hrun.of_eq
    · intro thread hthread s hs heq
      obtain ⟨lane, hlane, rfl⟩ := List.mem_map.mp hthread
      rcases (mem_partialLane (List.mem_range.mp hlane) hpos).mp hs with
        ⟨dest, -, i, hi, rfl⟩ | ⟨-, rfl⟩
      · have hbyte : dest * bpp + i = p := by
          dsimp only at heq
          omega
        dsimp only
        rw [partialByte_eq hbpp hi, hbyte]
      · dsimp only at heq
        omega
    · have hdest : p / bpp < ne := Nat.div_lt_of_lt_mul (by rwa [Nat.mul_comm])
      have hsplit := Nat.div_add_mod' p bpp
      refine ⟨_, List.mem_map_of_mem (List.mem_range.mpr (Nat.mod_lt (p / bpp) (show 0 < 32 by decide))),
        _, (mem_partialLane (Nat.mod_lt _ (by decide)) hpos).mpr (Or.inl ⟨p / bpp, ⟨hdest, rfl⟩,
          p % bpp, Nat.mod_lt p hpos, rfl⟩), ?_⟩
      dsimp only
      omega
  · intro k hk
    apply hrun.of_eq
    · intro thread hthread s hs heq
      obtain ⟨lane, hlane, rfl⟩ := List.mem_map.mp hthread
      rcases (mem_partialLane (List.mem_range.mp hlane) hpos).mp hs with
        ⟨dest, ⟨hdest, -⟩, i, hi, rfl⟩ | ⟨-, rfl⟩
      · have hlt := byte_lt hdest hi
        dsimp only at heq
        omega
      · have hsame : lane = k := by
          dsimp only at heq
          omega
        rw [hsame]
    · refine ⟨_, List.mem_map_of_mem (List.mem_range.mpr (hk.trans_le htocopy)), _,
        (mem_partialLane (hk.trans_le htocopy) hpos).mpr (Or.inr ⟨hk, rfl⟩), ?_⟩
      dsimp only
      omega
  · intro p hp
    apply hrun.of_ne
    intro thread hthread s hs heq
    obtain ⟨lane, hlane, rfl⟩ := List.mem_map.mp hthread
    rcases (mem_partialLane (List.mem_range.mp hlane) hpos).mp hs with
      ⟨dest, ⟨hdest, -⟩, i, hi, rfl⟩ | ⟨hlt, rfl⟩
    · have hlt := byte_lt hdest hi
      dsimp only at heq
      omega
    · dsimp only at heq
      omega

end Partial

/-! ## The kernel -/

/-- The elements of block `blockid`. -/
def blockElems (bpp totalBytes blockid : Nat) : Nat :=
  if blockid < totalBytes / 8192 then 8192 / bpp else (totalBytes % 8192 - totalBytes % 8192 % (bpp * 8)) / bpp

/-- Where it starts in the frame. -/
def blockStart (totalBytes blockid : Nat) : Nat := min blockid (totalBytes / 8192) * 8192

theorem blockElems_mul {bpp : Nat} (hbpp : bpp = 1 ∨ bpp = 2 ∨ bpp = 4) (totalBytes blockid : Nat) :
    blockElems bpp totalBytes blockid * bpp =
        (if blockid < totalBytes / 8192 then 8192
          else totalBytes % 8192 - totalBytes % 8192 % (bpp * 8)) ∧
      8 ∣ blockElems bpp totalBytes blockid := by
  rw [blockElems]
  split <;> rcases hbpp with rfl | rfl | rfl <;> omega

/-- A block of the frame is the inverse bitshuffle of what was decoded, as the CPU has it; the raw
remainder is behind the last one, and no other byte is stored. -/
theorem decompress_unshuffles {bpp : Nat} (hbpp : bpp = 1 ∨ bpp = 2 ∨ bpp = 4)
    {totalBytes ntot blockid : Nat} (hblock : blockid < ntot) {dec out out' : Memory} {comp : List Byte}
    (hrun : DecompressStores bpp totalBytes ntot blockid dec comp out out') :
    Unshuffled dec (offset out' (blockStart totalBytes blockid)) (blockElems bpp totalBytes blockid) bpp ∧
    (totalBytes / 8192 ≤ blockid → ∀ i, i < totalBytes % 8192 % (bpp * 8) →
      out' (totalBytes - totalBytes % 8192 % (bpp * 8) + i) =
        comp.getD (comp.length - totalBytes % 8192 % (bpp * 8) + i) 0#8) ∧
    (∀ p, p < blockStart totalBytes blockid ∨
        (if blockid < totalBytes / 8192 then blockStart totalBytes blockid + 8192 else totalBytes) ≤ p →
      out' p = out p) ∧
    ∀ (t : Dtype), t.size = bpp → ∀ (K : Kernels), K.Inverse → ∀ value scratch, ∃ r,
      untransposeBackend K value dec scratch (blockElems bpp totalBytes blockid) bpp = some r ∧
      ∀ e, e < blockElems bpp totalBytes blockid →
        pixelAt t (offset out' (blockStart totalBytes blockid)) e = pixelAt t r.1 e := by
  have hpos : 0 < bpp := by omega
  have hle : bpp ≤ 4 := by omega
  obtain ⟨hmul, h8⟩ := blockElems_mul hbpp totalBytes blockid
  have hpart : totalBytes - totalBytes / 8192 * 8192 = totalBytes % 8192 := by omega
  have hraw : totalBytes % 8192 % (bpp * 8) < bpp * 8 := Nat.mod_lt _ (by omega)
  have hrawle : totalBytes % 8192 % (bpp * 8) ≤ totalBytes % 8192 := Nat.mod_le _ _
  simp only [DecompressStores, hpart] at hrun
  rw [if_neg (by omega)] at hrun
  have hstored : (∀ p, p < blockElems bpp totalBytes blockid * bpp →
        out' (blockStart totalBytes blockid + p) =
          unshuffledByte dec (blockElems bpp totalBytes blockid) bpp p) ∧
      (totalBytes / 8192 ≤ blockid → ∀ i, i < totalBytes % 8192 % (bpp * 8) →
        out' (totalBytes - totalBytes % 8192 % (bpp * 8) + i) =
          comp.getD (comp.length - totalBytes % 8192 % (bpp * 8) + i) 0#8) ∧
      ∀ p, p < blockStart totalBytes blockid ∨
          (if blockid < totalBytes / 8192 then blockStart totalBytes blockid + 8192 else totalBytes) ≤ p →
        out' p = out p := by
    by_cases hfull : blockid < totalBytes / 8192
    · have hstart : blockStart totalBytes blockid = 16 * (blockid * 512) := by
        rw [blockStart, min_eq_left hfull.le]
        omega
      rw [if_pos hfull] at hrun hmul ⊢
      obtain ⟨hbytes, hframe⟩ := hrun.stores (shufLane_stages hbpp dec)
      rw [hstart, hmul]
      refine ⟨?_, fun hlast => absurd hfull (not_lt.mpr hlast), hframe⟩
      intro p hp
      rw [hbytes p hp, blockElems, if_pos hfull]
    · have hstart : blockStart totalBytes blockid = totalBytes / 8192 * 8192 := by
        rw [blockStart, min_eq_right (not_lt.mp hfull)]
      rw [if_neg hfull] at hrun hmul ⊢
      rw [← hmul] at hrun
      obtain ⟨hbytes, htail, hframe⟩ := partial_stores hpos hle (by omega) hrun
      rw [hstart]
      refine ⟨hbytes, ?_, ?_⟩
      · intro _ i hi
        rw [← htail i hi]
        congr 1
        omega
      · intro p hp
        apply hframe
        omega
  obtain ⟨hbytes, htail, hframe⟩ := hstored
  have hunshuffled : Unshuffled dec (offset out' (blockStart totalBytes blockid))
      (blockElems bpp totalBytes blockid) bpp := unshuffled_of_bytes hbytes
  refine ⟨hunshuffled, htail, hframe, ?_⟩
  rintro t rfl K hK value scratch
  obtain ⟨cpu, scratch', hcpu, hcpu'⟩ :=
    (untransposeBackend_spec hK value dec scratch (blockElems t.size totalBytes blockid) t.size).1 h8
  refine ⟨_, hcpu, ?_⟩
  intro e he
  rw [hunshuffled.pixel he, hcpu'.pixel he]

theorem DecompressStores.exists (bpp totalBytes ntot blockid : Nat) (dec : Memory) (comp : List Byte)
    (out : Memory) : ∃ out', DecompressStores bpp totalBytes ntot blockid dec comp out out' := by
  simp only [DecompressStores]
  split
  · exact ⟨out, rfl⟩
  · split
    · exact ShufWarp.exists _ _ _ _
    · exact AnyOrder.exists _ _ _

/-- The last block of a frame of 8192 + 37 bytes has 16 pixels of 2 bytes. -/
theorem decompress_unshuffles_last :
    ∃ out', DecompressStores 2 8229 2 1 (bytesOf [0x5A#8, 0xFF#8]) [1#8, 2#8, 3#8, 4#8, 5#8]
        (fun _ => 0#8) out' ∧
      Unshuffled (bytesOf [0x5A#8, 0xFF#8]) (offset out' 8192) 16 2 := by
  obtain ⟨out', hrun⟩ := DecompressStores.exists 2 8229 2 1 (bytesOf [0x5A#8, 0xFF#8])
    [1#8, 2#8, 3#8, 4#8, 5#8] fun _ => 0#8
  exact ⟨out', hrun, (decompress_unshuffles (Or.inr (Or.inl rfl)) (by decide) hrun).1⟩

end Bslz4ToSparse.Cuda
