import Bslz4ToSparse.Steps.Collect

/-!
# What the collects list

Every value of the collect step appends the same entries: the unmasked pixels of the block
above the cut, in order. No store reaches further than the block has pixels.
-/

namespace Bslz4ToSparse.Steps

open Foundation
open Lz4 (Byte)

variable {P : Type} {t : Dtype} {gt : P → Bool} {mask : Mask} {px : Nat → P} {i0 n : Nat}

theorem maskOk_some (m : Nat → Byte) (idx : Nat) : maskOk (some m) idx = (m idx != 0#8) := rfl

theorem selects_lane (j k : Nat) :
    selects gt mask px i0 (j + k) = (maskOk mask (j + i0 + k) && gt (px (j + k))) := by
  rw [selects, show j + k + i0 = j + i0 + k by omega]

/-! ## The loops -/

theorem collectFrom_emits (j n : Nat) (o : Sink P) :
    Emits o (collectFrom gt mask px i0 j n o)
      (collected (selects gt mask px i0) px i0 j (n - j)) (n - j) :=
  emits_lanes (selects gt mask px i0) px i0 id
    (fun o j => o.putIf (selects gt mask px i0 j) (px j) (j + i0)) j (n - j)
    (fun _ _ _ o => emits_putIf _ o _ _) o

theorem collectGroups_emits {w : Nat} {group : Nat → Sink P → Sink P} (hw : 0 < w)
    (hgroup : ∀ j, j + w ≤ n → ∀ o, Emits o (group j o)
      (collected (selects gt mask px i0) px i0 j w) w) (o : Sink P) :
    Emits o (collectGroups w group gt mask px i0 n o)
      (collected (selects gt mask px i0) px i0 0 n) n := by
  have hmul : w * (n / w) ≤ n := Nat.mul_div_le n w
  have hgroups := emits_groups (selects gt mask px i0) px i0 id (fun o g => group (w * g) o) w 0
    (n / w) hw (fun k hk o => by
      have hle : w * (k + 1) ≤ w * (n / w) := Nat.mul_le_mul_left w hk
      rw [Nat.mul_succ] at hle
      rw [Nat.zero_add]
      exact hgroup (w * k) (by omega) o) o
  have hrest := @collectFrom_emits P gt mask px i0 (w * (n / w)) n
    ((List.range (n / w)).foldl (fun o g => group (w * g) o) o)
  refine Emits.next _ px i0 hgroups ?_ (show w * (n / w) + (n - w * (n / w)) = n by omega)
  rwa [Nat.zero_add]

/-! ## avx512cs -/

theorem andMask_gather {w : Nat} (j : Nat) :
    andMask mask (j + i0) (gather w fun k => gt (px (j + k))) =
      gather w fun k => selects gt mask px i0 (j + k) := by
  unfold andMask
  cases mask with
  | none =>
    refine gather_congr fun k _ => ?_
    rw [selects_lane]
    rfl
  | some m =>
    change (gather w fun k => gt (px (j + k))) &&& (gather w fun k => m (j + i0 + k) != 0#8) = _
    rw [gather_and]
    refine gather_congr fun k _ => ?_
    rw [selects_lane, maskOk_some, Bool.and_comm]

/-- A group none of whose pixels is selected. -/
theorem emits_skip {sel : Nat → Bool} {j w v : Nat} {m : BitVec v}
    (hm : setBits m = (List.range w).filter fun k => sel (j + k)) (h0 : m = 0#v) (o : Sink P) :
    Emits o o (collected sel px i0 j w) w := by
  have hnone : collected sel px i0 j w = [] := by
    have hnil : (List.range w).filter (fun k => sel (j + k)) = [] := by
      rw [← hm]
      exact (eq_zero_iff_setBits m).mp h0
    rw [collected, ← map_setBits_gather sel (fun k => (k + i0, px k)) j w, setBits_gather, hnil,
      List.map_nil]
  rw [hnone]
  exact Emits.refl o w

theorem compressGroup16_emits {px : Nat → BitVec 16} (cut : BitVec 16) (j : Nat)
    (o : Sink (BitVec 16)) :
    Emits o (compressGroup16 mask px i0 cut j o)
      (collected (selects cut.ult mask px i0) px i0 j 32) 32 := by
  set sel := selects cut.ult mask px i0 with hsel
  simp only [compressGroup16, andMask_gather, ← hsel]
  split
  · next h0 => exact emits_skip (setBits_gather _) h0 o
  rw [gather_piece _ (by decide), gather_piece _ (by decide)]
  simp only [Nat.zero_add]
  have hhi : (fun k => sel (j + (16 + k))) = fun k => sel (j + 16 + k) := by
    funext k
    rw [Nat.add_assoc]
  rw [hhi, popcount_gather sel px i0, popcount_gather sel px i0]
  have hall : collected sel px i0 j 32 = collected sel px i0 j 16 ++ collected sel px i0 (j + 16) 16 :=
    collected_append sel px i0 j 16 16
  refine ⟨?_, ?_, ?_⟩
  · rw [hall, List.length_append]
  · exact fills_vals sel px i0 o.vals 0#16 o.npx j 32
  · have hlo := fills_adr sel px i0 o.adr 0 o.npx j 16
    rw [hall, List.map_append]
    change Fills _ _ _ _ (16 + 16)
    refine hlo.append ?_
    rw [List.length_map]
    exact fills_adr sel px i0 _ 0 _ (j + 16) 16

theorem compressGroup32_emits {px : Nat → BitVec 32} (cut : BitVec 32) (j : Nat)
    (o : Sink (BitVec 32)) :
    Emits o (compressGroup32 mask px i0 cut j o)
      (collected (selects cut.ult mask px i0) px i0 j 16) 16 := by
  set sel := selects cut.ult mask px i0 with hsel
  simp only [compressGroup32, andMask_gather, ← hsel]
  split
  · next h0 => exact emits_skip (setBits_gather _) h0 o
  rw [popcount_gather sel px i0]
  exact ⟨rfl, fills_vals sel px i0 o.vals 0#32 o.npx j 16, fills_adr sel px i0 o.adr 0 o.npx j 16⟩

/-! ## avx2cs and sse2 -/

theorem gtBiased16_eq (cut : BitVec 16) : gtBiased16 cut = cut.ult :=
  funext fun _ => slt_xor_signBit (by decide)

theorem gtBiased32_eq (cut : BitVec 32) : gtBiased32 cut = cut.ult :=
  funext fun _ => slt_xor_signBit (by decide)

theorem getLsbD_lowOnes {n : Nat} (hn : n ≤ 32) (k : Nat) :
    (BitVec.ofNat 32 (2 ^ n - 1)).getLsbD k = decide (k < n) := by
  rw [BitVec.getLsbD_ofNat, Nat.testBit_two_pow_sub_one]
  by_cases hk : k < n
  · rw [decide_eq_true hk, decide_eq_true (show k < 32 by omega), Bool.and_self]
  · rw [decide_eq_false hk, Bool.and_false]

theorem getLsbD_unmaskedBits {n : Nat} (hn : n ≤ 32) (idx k : Nat) :
    (unmaskedBits n mask idx).getLsbD k = (decide (k < n) && maskOk mask (idx + k)) := by
  cases mask with
  | none => rw [unmaskedBits, getLsbD_lowOnes hn, maskOk, Bool.and_true]
  | some m =>
    rw [unmaskedBits, BitVec.getLsbD_and, getLsbD_lowOnes hn, BitVec.getLsbD_not,
      BitVec.getLsbD_setWidth, getLsbD_gather, maskOk_some]
    by_cases hk : k < n
    · have hk32 : k < 32 := by omega
      simp only [hk, hk32, decide_true, Bool.true_and, Bool.and_true]
      rfl
    · simp only [hk, decide_false, Bool.and_false, Bool.false_and]

/-- The bit loop, for a word whose bits are the selected ones of `w` lanes. -/
theorem bitGroup_emits {w : Nat} (hw : w ≤ 32) {bits : Nat → BitVec 32} {j : Nat}
    (hbits : ∀ k, (bits j).getLsbD k = (decide (k < w) && selects gt mask px i0 (j + k)))
    (o : Sink P) :
    Emits o (bitGroup px i0 bits j o) (collected (selects gt mask px i0) px i0 j w) w :=
  emits_scanBits _ px i0 j w (setBits_eq_filter hw hbits) (length_setBits_le _) o

theorem getLsbD_lanesBits {w : Nat} (hw : w ≤ 32) (j k : Nat) :
    (lanesBits w gt mask px i0 j).getLsbD k =
      (decide (k < w) && selects gt mask px i0 (j + k)) := by
  rw [lanesBits, BitVec.getLsbD_and, getLsbD_unmaskedBits hw, BitVec.getLsbD_setWidth,
    getLsbD_gather, selects_lane]
  by_cases hk : k < w
  · have hk32 : k < 32 := by omega
    simp only [hk, hk32, decide_true, Bool.true_and]
  · simp only [hk, decide_false, Bool.false_and]

theorem getLsbD_sse2Bits16 {px : Nat → BitVec 16} (cut : BitVec 16) (j k : Nat) :
    (sse2Bits16 mask px i0 cut j).getLsbD k =
      (decide (k < 8) && selects cut.ult mask px i0 (j + k)) := by
  rw [sse2Bits16, BitVec.getLsbD_and, getLsbD_unmaskedBits (by decide), BitVec.getLsbD_and,
    BitVec.getLsbD_setWidth, getLsbD_gather, gtBiased16_eq, selects_lane,
    show 0xFF#32 = BitVec.ofNat 32 (2 ^ 8 - 1) from rfl, getLsbD_lowOnes (by decide)]
  by_cases hk : k < 8
  · have hk16 : k < 16 := by omega
    have hk32 : k < 32 := by omega
    have hlane : packedLane k = k := by
      unfold packedLane
      omega
    simp only [hk, hk16, hk32, hlane, decide_true, Bool.true_and, Bool.and_true]
  · simp only [hk, decide_false, Bool.false_and]

theorem getLsbD_avx2csBits16 {px : Nat → BitVec 16} (cut : BitVec 16) (j k : Nat) :
    (avx2csBits16 mask px i0 cut j).getLsbD k =
      (decide (k < 16) && selects cut.ult mask px i0 (j + k)) := by
  have hhigh : (0xFF00#32).getLsbD k = (decide (8 ≤ k) && decide (k < 16)) := by
    rcases Nat.lt_or_ge k 32 with hk | hk
    · revert k
      decide
    · rw [BitVec.getLsbD_of_ge _ _ hk, decide_eq_false (show ¬ k < 16 by omega), Bool.and_false]
  rw [avx2csBits16, BitVec.getLsbD_and, getLsbD_unmaskedBits (by decide), BitVec.getLsbD_or,
    BitVec.getLsbD_and, BitVec.getLsbD_and, BitVec.getLsbD_ushiftRight, getLsbD_gather,
    getLsbD_gather, gtBiased16_eq, selects_lane, hhigh,
    show 0xFF#32 = BitVec.ofNat 32 (2 ^ 8 - 1) from rfl, getLsbD_lowOnes (by decide)]
  by_cases hk : k < 16
  · have hk32 : k < 32 := by omega
    by_cases hlow : k < 8
    · have hlane : packedLane k = k := by
        unfold packedLane
        omega
      have hge : ¬ 8 ≤ k := by omega
      simp only [hk, hk32, hlow, hge, hlane, decide_true, decide_false, Bool.true_and,
        Bool.and_true, Bool.and_false, Bool.or_false]
    · have hlane : packedLane (8 + k) = k := by
        unfold packedLane
        omega
      have hge : 8 ≤ k := by omega
      have hk24 : 8 + k < 32 := by omega
      simp only [hk, hk24, hlow, hge, hlane, decide_true, decide_false, Bool.true_and,
        Bool.and_true, Bool.and_false, Bool.false_or]
  · simp only [hk, decide_false, Bool.false_and]

/-- The table gives the selected lanes first; the first lane's store follows them. -/
theorem avx2csLane_eq {α : Type} (m : BitVec 8) (xs : Nat → α) :
    (fun k => xs (avx2csLane m k)) = compress (xs 0) m xs := by
  funext k
  unfold avx2csLane compress
  cases (setBits m)[k]? with
  | none => rfl
  | some b => rfl

theorem lutHalf_emits {sel : Nat → Bool} {m : BitVec 8} {j : Nat}
    (hm : m = gather 8 fun k => sel (j + k)) (o : Sink P) :
    Emits o (lutHalf px i0 m j o) (collected sel px i0 j 8) 8 := by
  subst hm
  unfold lutHalf
  rw [avx2csLane_eq _ fun k => px (j + k), avx2csLane_eq _ fun k => j + i0 + k,
    popcount_gather sel px i0]
  exact ⟨rfl, fills_vals sel px i0 o.vals _ o.npx j 8, fills_adr sel px i0 o.adr _ o.npx j 8⟩

theorem lutGroup_emits {px : Nat → BitVec 16} (cut : BitVec 16) (j : Nat) (o : Sink (BitVec 16)) :
    Emits o (lutGroup mask px i0 cut j o)
      (collected (selects cut.ult mask px i0) px i0 j 16) 16 := by
  set sel := selects cut.ult mask px i0 with hsel
  have hbits := @getLsbD_avx2csBits16 mask i0 px cut j
  simp only [lutGroup]
  split
  · next h0 => exact emits_skip (setBits_eq_filter (by decide) hbits) h0 o
  split
  · exact @bitGroup_emits _ _ _ _ _ 16 (by decide) (fun _ => avx2csBits16 mask px i0 cut j) j hbits o
  · refine emits_groups sel px i0 id (fun o h => lutHalf px i0 _ (j + 8 * h) o) 8 j 2 (by decide)
      (fun h hh o => lutHalf_emits ?_ o) o
    refine BitVec.eq_of_getLsbD_eq fun k hk => ?_
    have hk16 : 8 * h + k < 16 := by omega
    simp only [BitVec.getLsbD_setWidth, BitVec.getLsbD_ushiftRight, getLsbD_gather, hbits, hk, hk16,
      decide_true, Bool.true_and, ← hsel, Nat.add_assoc]

/-! ## neon and vsx -/

theorem gatedGroup_emits {w : Nat} (j : Nat) (o : Sink P) :
    Emits o (gatedGroup w gt mask px i0 j o) (collected (selects gt mask px i0) px i0 j w) w := by
  unfold gatedGroup
  split
  · exact emits_lanes (selects gt mask px i0) px i0 id
      (fun o j => o.putIf (selects gt mask px i0 j) (px j) (j + i0)) j w
      (fun _ _ _ o => emits_putIf _ o _ _) o
  · next hany =>
    have hnone : collected (selects gt mask px i0) px i0 j w = [] := by
      rw [collected, List.filter_eq_nil_iff.mpr, List.map_nil]
      intro k hk hsel
      have hin := List.mem_range'_1.mp hk
      refine hany (List.any_eq_true.mpr ⟨k - j, List.mem_range.mpr (by omega), ?_⟩)
      rw [show j + (k - j) = k by omega]
      exact (Bool.and_eq_true_iff.mp hsel).2
    rw [hnone]
    exact Emits.refl o w

theorem vsxWindowStep_emits {w j fin : Nat} (hw : 0 < w) (hfin : w ∣ fin - j)
    (s : Sink P × Bool) :
    Emits s.1 (vsxWindowStep w gt mask px i0 j fin s).1
      (collected (selects gt mask px i0) px i0 j (fin - j)) (fin - j) := by
  unfold vsxWindowStep
  simp only
  split
  · exact collectFrom_emits j fin s.1
  · have hgroups := emits_groups (selects gt mask px i0) px i0 id
      (fun o g => gatedGroup w gt mask px i0 (j + w * g) o) w j ((fin - j) / w) hw
      (fun k _ o => gatedGroup_emits (j + w * k) o) s.1
    rwa [Nat.mul_div_cancel' hfin] at hgroups

theorem collectVsx_emits {w : Nat} (hw : 0 < w) (hwin : w ∣ vsxWindow) (o : Sink P) :
    Emits o (collectVsx w gt mask px i0 n o) (collected (selects gt mask px i0) px i0 0 n) n := by
  have hmul : w * (n / w) ≤ n := Nat.mul_div_le n w
  have hpos : 0 < vsxWindow := by decide
  unfold collectVsx
  simp only
  set nv := w * (n / w) with hnv
  set c := (nv + vsxWindow - 1) / vsxWindow with hc
  have hcover : min (vsxWindow * c) nv = nv := by
    have h := Nat.div_add_mod (nv + vsxWindow - 1) vsxWindow
    have hmod := Nat.mod_lt (nv + vsxWindow - 1) hpos
    rw [← hc] at h
    omega
  have hwindows := emits_windows (selects gt mask px i0) px i0 Prod.fst
    (fun s k => vsxWindowStep w gt mask px i0 (vsxWindow * k) (min (vsxWindow * k + vsxWindow) nv) s)
    vsxWindow 0 nv (fun k hk s => by
      have hlen : min (vsxWindow * k + vsxWindow) nv - vsxWindow * k =
          min vsxWindow (nv - vsxWindow * k) := by omega
      rw [Nat.zero_add, ← hlen]
      refine vsxWindowStep_emits hw ?_ s
      have hstart : w ∣ vsxWindow * k := hwin.mul_right k
      rcases Nat.le_total (vsxWindow * k + vsxWindow) nv with h | h
      · rw [Nat.min_eq_left h, Nat.add_sub_cancel_left]
        exact hwin
      · rw [Nat.min_eq_right h]
        exact Nat.dvd_sub (Dvd.intro _ rfl) hstart) (o, false) c (fun k hk => by
      have hle : vsxWindow * (k + 1) ≤ nv + vsxWindow - 1 :=
        (Nat.mul_le_mul_left vsxWindow hk).trans (Nat.mul_div_le _ _)
      rw [Nat.mul_succ] at hle
      omega)
  rw [hcover] at hwindows
  refine Emits.next _ px i0 hwindows ?_ (show nv + (n - nv) = n by omega)
  rw [Nat.zero_add]
  exact collectFrom_emits nv n _

/-! ## The dispatch -/

theorem collectGtU16_emits (collect : Collect) {px : Nat → BitVec 16} (cut : BitVec 16)
    (o : Sink (BitVec 16)) :
    Emits o (collectGtU16 collect mask px i0 n cut o)
      (collected (selects cut.ult mask px i0) px i0 0 n) n := by
  cases collect with
  | avx512cs => exact collectGroups_emits (by decide) (fun j _ o => compressGroup16_emits cut j o) o
  | avx2cs => exact collectGroups_emits (by decide) (fun j _ o => lutGroup_emits cut j o) o
  | vsx => exact collectVsx_emits (by decide) (by decide) o
  | neon => exact collectGroups_emits (by decide) (fun j _ o => gatedGroup_emits j o) o
  | sse2 =>
    exact collectGroups_emits (by decide) (fun j _ o =>
      bitGroup_emits (by decide) (getLsbD_sse2Bits16 cut j) o) o
  | scalar => exact collectFrom_emits 0 n o

theorem collectGtU32_emits (collect : Collect) {px : Nat → BitVec 32} (cut : BitVec 32)
    (o : Sink (BitVec 32)) :
    Emits o (collectGtU32 collect mask px i0 n cut o)
      (collected (selects cut.ult mask px i0) px i0 0 n) n := by
  cases collect with
  | avx512cs => exact collectGroups_emits (by decide) (fun j _ o => compressGroup32_emits cut j o) o
  | avx2cs =>
    refine collectGroups_emits (by decide) (fun j _ o => bitGroup_emits (by decide) ?_ o) o
    rw [gtBiased32_eq]
    exact getLsbD_lanesBits (by decide) j
  | vsx => exact collectVsx_emits (by decide) (by decide) o
  | neon => exact collectGroups_emits (by decide) (fun j _ o => gatedGroup_emits j o) o
  | sse2 =>
    refine collectGroups_emits (by decide) (fun j _ o => bitGroup_emits (by decide) ?_ o) o
    rw [gtBiased32_eq]
    exact getLsbD_lanesBits (by decide) j
  | scalar => exact collectFrom_emits 0 n o

theorem gt_u16 (cut : Pixel .u16) : (fun v : Pixel .u16 => v.gt cut) = BitVec.ult cut := by
  funext v
  simp [Pixel.gt, Pixel.value, Dtype.isFloat, Dtype.signed, BitVec.ult]

theorem gt_u32 (cut : Pixel .u32) : (fun v : Pixel .u32 => v.gt cut) = BitVec.ult cut := by
  funext v
  simp [Pixel.gt, Pixel.value, Dtype.isFloat, Dtype.signed, BitVec.ult]

/-- A collect appends the unmasked pixels of the block above the cut. -/
theorem collectGt_emits (t : Dtype) (collect : Collect) (mask : Mask) (px : Nat → Pixel t)
    (i0 n : Nat) (cut : Pixel t) (o : Sink (Pixel t)) :
    Emits o (collectGt t collect mask px i0 n cut o)
      (collected (selects (fun v => v.gt cut) mask px i0) px i0 0 n) n := by
  cases t with
  | u16 =>
    rw [gt_u16]
    exact collectGtU16_emits collect cut o
  | u32 =>
    rw [gt_u32]
    exact collectGtU32_emits collect cut o
  | u8 | u64 | i8 | i16 | i32 | i64 | f32 | f64 => exact collectFrom_emits 0 n o

theorem zero_ult {w : Nat} : BitVec.ult 0#w = fun v => v != 0#w := by
  funext v
  rw [BitVec.ult_eq_decide, BitVec.toNat_ofNat, Nat.zero_mod]
  by_cases hv : v = 0#w
  · subst hv
    simp
  · have hpos : 0 < v.toNat := Nat.pos_of_ne_zero fun h => hv (BitVec.eq_of_toNat_eq (by simpa using h))
    rw [decide_eq_true hpos]
    exact (bne_iff_ne.mpr hv).symm

theorem collectNzU16_emits (collect : Collect) {px : Nat → BitVec 16} (o : Sink (BitVec 16)) :
    Emits o (collectNzU16 collect mask px i0 n o)
      (collected (selects (· != 0#16) mask px i0) px i0 0 n) n := by
  have hsimd := fun c => @collectGtU16_emits mask i0 n c px 0#16 o
  rw [← zero_ult]
  cases collect with
  | scalar =>
    unfold collectNzU16
    rw [← zero_ult]
    exact collectFrom_emits 0 n o
  | avx512cs => exact hsimd .avx512cs
  | avx2cs => exact hsimd .avx2cs
  | vsx => exact hsimd .vsx
  | neon => exact hsimd .neon
  | sse2 => exact hsimd .sse2

theorem collectNzU32_emits (collect : Collect) {px : Nat → BitVec 32} (o : Sink (BitVec 32)) :
    Emits o (collectNzU32 collect mask px i0 n o)
      (collected (selects (· != 0#32) mask px i0) px i0 0 n) n := by
  have hsimd := fun c => @collectGtU32_emits mask i0 n c px 0#32 o
  rw [← zero_ult]
  cases collect with
  | scalar =>
    unfold collectNzU32
    rw [← zero_ult]
    exact collectFrom_emits 0 n o
  | avx512cs => exact hsimd .avx512cs
  | avx2cs => exact hsimd .avx2cs
  | vsx => exact hsimd .vsx
  | neon => exact hsimd .neon
  | sse2 => exact hsimd .sse2

/-- A compaction appends the unmasked pixels of the block that are not zero. -/
theorem collectNz_emits (t : Dtype) (collect : Collect) (mask : Mask) (px : Nat → Pixel t)
    (i0 n : Nat) (o : Sink (Pixel t)) :
    Emits o (collectNz t collect mask px i0 n o)
      (collected (selects Pixel.nonzero mask px i0) px i0 0 n) n := by
  cases t with
  | u16 => exact collectNzU16_emits collect o
  | u32 => exact collectNzU32_emits collect o
  | u8 | u64 | i8 | i16 | i32 | i64 | f32 | f64 => exact collectFrom_emits 0 n o

/-! ## All values agree -/

/-- No store of `n` pixels reaches the entry `i0 + n` if at most `i0` were listed before. -/
theorem emits_untouched {o o' : Sink P} {es : List (Nat × P)} (h : Emits o o' es n)
    (hnpx : o.npx ≤ i0) {i : Nat} (hi : i0 + n ≤ i) : o'.vals i = o.vals i ∧ o'.adr i = o.adr i :=
  ⟨h.vals.outside i (by omega), h.adr.outside i (by omega)⟩

/-- Every value of the collect step gives the same list: the unmasked pixels above the cut, or
the non-zero ones, in order. -/
theorem collect_values_agree (t : Dtype) (collect collect' : Collect) (mask : Mask)
    (px : Nat → Pixel t) (i0 n : Nat) (cut : Pixel t) (o : Sink (Pixel t)) :
    (collectGt t collect mask px i0 n cut o).entries =
        (collectGt t collect' mask px i0 n cut o).entries ∧
      (collectGt t collect mask px i0 n cut o).npx = (collectGt t collect' mask px i0 n cut o).npx ∧
      (collectGt t collect mask px i0 n cut o).entries = o.entries ++
        ((List.range n).filter fun j => maskOk mask (j + i0) && (px j).gt cut).map
          (fun j => (j + i0, px j)) ∧
      (collectNz t collect mask px i0 n o).entries = o.entries ++
        ((List.range n).filter fun j => maskOk mask (j + i0) && (px j).nonzero).map
          (fun j => (j + i0, px j)) ∧
      (o.npx ≤ i0 → ∀ i, i0 + n ≤ i →
        (collectGt t collect mask px i0 n cut o).vals i = o.vals i ∧
        (collectGt t collect mask px i0 n cut o).adr i = o.adr i ∧
        (collectNz t collect mask px i0 n o).vals i = o.vals i ∧
        (collectNz t collect mask px i0 n o).adr i = o.adr i) := by
  have hgt := collectGt_emits t collect mask px i0 n cut o
  have hgt' := collectGt_emits t collect' mask px i0 n cut o
  have hnz := collectNz_emits t collect mask px i0 n o
  refine ⟨?_, ?_, ?_, ?_, fun hnpx i hi => ?_⟩
  · rw [hgt.entries, hgt'.entries]
  · rw [hgt.npx, hgt'.npx]
  · rw [hgt.entries, List.range_eq_range']
    rfl
  · rw [hnz.entries, List.range_eq_range']
    rfl
  · obtain ⟨hvals, hadr⟩ := emits_untouched hgt hnpx hi
    obtain ⟨hvals', hadr'⟩ := emits_untouched hnz hnpx hi
    exact ⟨hvals, hadr, hvals', hadr'⟩

/-- A group of 32 with pixels on both sides of the sign bit, and three pixels behind it. -/
theorem collect_values_agree_signs :
    let px : Nat → Pixel .u16 := fun j => BitVec.ofNat 16 (0x7ffe + j)
    let o : Sink (Pixel .u16) := ⟨fun _ => 0#16, fun _ => 0, 0⟩
    (collectGt .u16 .avx512cs none px 0 35 0x801f#16 o).entries =
        (collectGt .u16 .avx2cs none px 0 35 0x801f#16 o).entries ∧
      ∀ i, 35 ≤ i → (collectGt .u16 .avx512cs none px 0 35 0x801f#16 o).vals i = 0#16 := by
  intro px o
  obtain ⟨hsame, -, -, -, hout⟩ := collect_values_agree .u16 .avx512cs .avx2cs none px 0 35 0x801f#16 o
  exact ⟨hsame, fun i hi => (hout (Nat.le_refl 0) i (by omega)).1⟩

end Bslz4ToSparse.Steps
