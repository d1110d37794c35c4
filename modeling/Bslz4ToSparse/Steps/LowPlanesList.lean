import Bslz4ToSparse.Steps.LowPlanesSpec

/-!
# The list and the block of the low-planes values

A block that is taken lists the pixels that a full untranspose and the scalar collect would
list, and the dense route gets the block that the full untranspose would write.
-/

namespace Bslz4ToSparse.Steps

open Foundation
open Lz4 (Byte)

variable {t : Dtype}

/-! ## The groups of a tile -/

/-- What is asked of the emission of a group: the selected bytes, widened. -/
def EmitsGroup (emit : (Nat → Byte) → BitVec 64 → Nat → Sink (Pixel t) → Sink (Pixel t)) : Prop :=
  ∀ u k base o, k ≠ 0#64 →
    Emits o (emit u k base o) (collected k.getLsbD (fun l => (u l).setWidth t.bits) base 0 64) 64

/-- Whatever the stack holds, the two passes list the pixels of the tile if every group that is not recorded has
nothing selected. -/
theorem tileStep_emits {emit : (Nat → Byte) → BitVec 64 → Nat → Sink (Pixel t) → Sink (Pixel t)}
    (hemit : EmitsGroup emit) {sel : Nat → Bool} {px : Nat → Pixel t} {i0 start cnt : Nat}
    (hcnt : cnt ≤ 128) {U : Nat → Nat → Byte} {S : Nat → BitVec 64} {gs : List Nat}
    (hnd : gs.Nodup) (hlt : ∀ g ∈ gs, g < cnt) (hskip : ∀ g, g < cnt → g ∉ gs → S g = 0#64)
    (hsel : ∀ g, g < cnt → ∀ l, l < 64 → (S g).getLsbD l = sel (start + 64 * g + l))
    (hpx : ∀ g, g < cnt → ∀ l, l < 64 → (U g l).setWidth t.bits = px (start + 64 * g + l))
    (stack : Memory × (Nat → BitVec 64)) (o : Sink (Pixel t)) :
    Emits o (tileStep emit (fun r => gs.foldl (fun r g => r.store g (U g) (S g)) r) stack (i0 + start) o)
      (collected sel px i0 start (64 * cnt)) (64 * cnt) := by
  obtain ⟨hin, hout⟩ := recorded_fold U S gs hnd ⟨stack.1, stack.2, fun _ => 0#64⟩
  unfold tileStep
  simp only
  set r : Recorded := gs.foldl (fun r g => Recorded.store g (U g) (S g) r)
    ⟨stack.1, stack.2, fun _ => 0#64⟩ with hr
  have hempty : ∀ g, testAt (fun _ => 0#64) g = false := fun g => BitVec.getLsbD_zero
  -- the bitmap marks the groups with a selection
  have hmark : ∀ g, testAt r.gm g = (decide (g < cnt) && decide (S g ≠ 0#64)) := by
    intro g
    by_cases hg : g ∈ gs
    · rw [(hin g hg).2.2, hempty, Bool.false_or, decide_eq_true (hlt g hg), Bool.true_and]
    · rw [(hout g hg).2.2, hempty]
      by_cases hc : g < cnt
      · rw [hskip g hc hg]
        simp
      · rw [decide_eq_false hc, Bool.false_and]
  have hgroups : (List.range (64 * tileWords)).filter (testAt r.gm) =
      (List.range cnt).filter fun g => decide (S g ≠ 0#64) := by
    have hsplit : List.range (64 * tileWords) = List.range cnt ++ List.range' cnt (128 - cnt) := by
      rw [List.range_eq_range', List.range_eq_range',
        show List.range' cnt (128 - cnt) = List.range' (0 + cnt) (128 - cnt) by rw [Nat.zero_add],
        List.range'_append_1, show cnt + (128 - cnt) = 128 by omega]
      rfl
    have hrest : (List.range' cnt (128 - cnt)).filter (testAt r.gm) = [] := by
      refine List.filter_eq_nil_iff.mpr fun g hg => ?_
      rw [hmark, decide_eq_false (Nat.not_lt.mpr (List.mem_range'_1.mp hg).1), Bool.false_and]
      exact Bool.false_ne_true
    rw [hsplit, List.filter_append, hrest, List.append_nil]
    refine List.filter_congr fun g hg => ?_
    rw [hmark, decide_eq_true (List.mem_range.mp hg), Bool.true_and]
  rw [scanBitmap_eq, hgroups, List.foldl_filter]
  refine emits_groups sel px i0 id (fun o g => if decide (S g ≠ 0#64) = true then
    emit (offset r.ubuf (64 * g)) (r.kv g) (i0 + start + 64 * g) o else o) 64 start cnt (by decide)
    (fun g hg o => ?_) o
  by_cases h0 : S g = 0#64
  · rw [if_neg (by simp [h0])]
    exact emits_skip (setBits_eq_filter le_rfl fun l => by
      by_cases hl : l < 64
      · rw [hsel g hg l hl, decide_eq_true hl, Bool.true_and]
      · rw [BitVec.getLsbD_of_ge _ _ (by omega), decide_eq_false hl, Bool.false_and]) h0 o
  · have hmem : g ∈ gs := by
      by_contra hno
      exact h0 (hskip g hg hno)
    obtain ⟨hbuf, hkv, -⟩ := hin g hmem
    have hbase : i0 + start + 64 * g = i0 + (start + 64 * g) := Nat.add_assoc _ _ _
    have hes : collected (S g).getLsbD (fun l => (offset r.ubuf (64 * g) l).setWidth t.bits)
        (i0 + (start + 64 * g)) 0 64 = collected (fun l => sel (start + 64 * g + l))
          (fun l => px (start + 64 * g + l)) (i0 + (start + 64 * g)) 0 64 := by
      refine collected_congr _ _ _ fun l _ hl => ⟨hsel g hg l (by omega), ?_⟩
      rw [offset, hbuf l (by omega)]
      exact hpx g hg l (by omega)
    have h := hemit (offset r.ubuf (64 * g)) (S g) (i0 + (start + 64 * g)) o h0
    rw [if_pos (decide_eq_true h0), hkv, collected_shift, hbase, ← hes]
    exact h

theorem lowplanesEmit_emits : EmitsGroup (lowplanesEmit (t := t)) := by
  intro u k base o _
  set px : Nat → Pixel t := fun l => (u l).setWidth t.bits with hpx
  have hk : k = gather 64 fun l => k.getLsbD (0 + l) := by
    simp only [Nat.zero_add]
    exact (gather_getLsbD k).symm
  -- the two halves of the values are the 64 of one store
  have hvals : (lowplanesEmit u k base o).vals =
      storeLanes o.npx 64 (compress ((0#8).setWidth t.bits) k fun l => px (0 + l)) o.vals := by
    have hlane : ∀ l, (compress 0#8 k u l).setWidth t.bits =
        compress ((0#8).setWidth t.bits) k (fun l => px (0 + l)) l := by
      intro l
      unfold compress
      cases (setBits k)[l]? with
      | none => rfl
      | some b => simp [hpx]
    funext i
    simp only [lowplanesEmit, storeLanes, hlane]
    by_cases hlow : i < o.npx + 32
    · rw [if_neg (by omega)]
      refine if_congr (by omega) rfl rfl
    · by_cases hin : i < o.npx + 64
      · rw [if_pos (by omega), if_pos (by omega), show 32 + (i - (o.npx + 32)) = i - o.npx by omega]
      · rw [if_neg (by omega), if_neg (by omega), if_neg (by omega)]
  -- four stores of addresses, each behind the entries of the ones before
  have hadr : ∀ c, c ≤ 4 → ∀ s, s = (List.range c).foldl (fun (s : (Nat → Nat) × Nat) q =>
      let mq : BitVec 16 := (k >>> (16 * q)).setWidth 16
      (storeLanes s.2 16 (compress 0 mq fun l => 16 * q + base + l) s.1, s.2 + popcount mq))
      (o.adr, o.npx) →
      Fills o.adr s.1 o.npx ((collected k.getLsbD px base 0 (16 * c)).map Prod.fst) (16 * c) ∧
        s.2 = o.npx + (collected k.getLsbD px base 0 (16 * c)).length := by
    intro c
    induction c with
    | zero =>
      rintro - s rfl
      exact ⟨Fills.refl _ _ _, rfl⟩
    | succ c ih =>
      rintro hc s rfl
      obtain ⟨hfill, hlen⟩ := ih (by omega) _ rfl
      have hpiece : (k >>> (16 * c)).setWidth 16 = gather 16 fun l => k.getLsbD (16 * c + l) := by
        conv_lhs => rw [← gather_getLsbD k]
        exact gather_piece _ (by omega)
      rw [List.range_succ, List.foldl_append, List.foldl_cons, List.foldl_nil, Nat.mul_succ,
        collected_append, Nat.zero_add]
      simp only
      rw [hpiece, hlen, popcount_gather k.getLsbD px base]
      constructor
      · rw [List.map_append]
        refine hfill.append ?_
        rw [List.length_map]
        exact fills_adr k.getLsbD px base _ 0 _ (16 * c) 16
      · rw [List.length_append, Nat.add_assoc]
  obtain ⟨hfill, hlen⟩ := hadr 4 le_rfl _ rfl
  refine ⟨hlen, ?_, hfill⟩
  rw [hvals]
  conv in compress _ k _ => rw [hk]
  exact fills_vals k.getLsbD px base o.vals _ o.npx 0 64

theorem avx2Emit_emits : EmitsGroup (avx2Emit (t := t)) := by
  intro u k base o h0
  set px : Nat → Pixel t := fun l => (u l).setWidth t.bits with hpx
  unfold avx2Emit
  simp only [← hpx]
  split
  · next hone =>
    -- a single pixel
    have hbits : setBits k = [k.ctz.toNat] := by
      have hcons := setBits_eq_cons h0
      have hlen := congrArg List.length hcons
      unfold popcount avx2csScalarMax at hone
      rw [List.length_cons] at hlen
      rw [hcons, List.length_eq_zero_iff.mp (show (setBits (k &&& (k - 1#64))).length = 0 by omega)]
    have hes : collected k.getLsbD px base 0 64 = [(base + k.ctz.toNat, px k.ctz.toNat)] := by
      unfold collected
      rw [← List.range_eq_range']
      change (setBits k).map _ = _
      rw [hbits, List.map_cons, List.map_nil, Nat.add_comm]
    rw [hes]
    exact (emits_put o _ _).mono (by decide)
  · refine emits_groups k.getLsbD px base id (fun o q =>
      lutHalf px base ((k >>> (8 * q)).setWidth 8) (8 * q) o) 8 0 8 (by decide) (fun q hq o => ?_) o
    rw [Nat.zero_add]
    apply lutHalf_emits
    conv_lhs => rw [← gather_getLsbD k]
    exact gather_piece _ (by omega)

/-! ## Selections -/

/-- `v > cut`, for an unsigned pixel. -/
def aboveCut (cut : Nat) (v : Pixel t) : Bool := decide (cut < v.toNat)

theorem aboveCut_setWidth (ht : t.size = 2) (cut : Nat) (u : Byte) :
    aboveCut cut (u.setWidth t.bits) = decide (cut < u.toNat) := by
  have hlt : u.toNat < 2 ^ t.bits := by
    have h8 : u.toNat < 2 ^ 8 := u.isLt
    exact h8.trans_le (Nat.pow_le_pow_right (by decide) (by rw [Dtype.bits, ht]; decide))
  rw [aboveCut, BitVec.toNat_setWidth, Nat.mod_eq_of_lt hlt]

/-- The pixels that a low-planes value lists of the planes `L`. -/
def listed (mask : Mask) (L : Memory) (ne i0 cut : Nat) : List (Nat × Pixel t) :=
  collected (selects (aboveCut cut) mask (planePixel t L ne) i0) (planePixel t L ne) i0 0 ne

/-- No pixel of a block without high planes is above 255. -/
theorem listed_eq_nil {mask : Mask} {L : Memory} {ne i0 cut : Nat} (ht : t.size = 2) (h8 : 8 ∣ ne)
    (hhigh : ∀ i, ne ≤ i → i < 2 * ne → L i = 0#8) (hcut : 255 ≤ cut) :
    listed (t := t) mask L ne i0 cut = [] := by
  unfold listed collected
  rw [List.filter_eq_nil_iff.mpr, List.map_nil]
  intro e he
  have hlt : (lowByte L ne e).toNat < 2 ^ 8 := (lowByte L ne e).isLt
  rw [selects, planePixel_low ht h8 (by simpa using he) hhigh, aboveCut_setWidth ht,
    decide_eq_false (by omega), Bool.and_false]
  exact Bool.false_ne_true

theorem getLsbD_groupSelection (gt : Byte → Bool) (mask : Mask) (base : Nat) (u : Nat → Byte) {l : Nat}
    (hl : l < 64) :
    (groupSelection gt mask base u).getLsbD l = (maskOk mask (base + l) && gt (u l)) := by
  have h := @andMask_gather Byte gt mask u base 64 0
  simp only [Nat.zero_add] at h
  rw [groupSelection, h, getLsbD_gather, decide_eq_true hl, Bool.true_and, selects, Nat.add_comm l]

/-! ## The collects -/

section

variable {L raw' : Memory} {mask : Mask} {ne np i0 cut : Nat}

/-- The bytes of a group are the low bytes of its pixels. -/
theorem planeByte_eq (h8 : 8 ∣ ne) (hread : ReadsPlanes L raw' ne np) {start g l : Nat}
    (hs : 8 ∣ start) (hl : start + 64 * g + l < ne) :
    planeByte (planePtr raw' (ne / 8) np (start / 8)) (8 * g) l =
      lowByte L ne (start + 64 * g + l) := by
  refine gather_congr fun p hp => ?_
  have hidx : start / 8 + (8 * g + l / 8) = (start + 64 * g + l) / 8 := by omega
  rw [hread _ p _ hp (by omega), hidx, show l % 8 = (start + 64 * g + l) % 8 by omega]

/-- A tile of whole groups, the ones that are not transposed without data. -/
theorem tile_emits {emit : (Nat → Byte) → BitVec 64 → Nat → Sink (Pixel t) → Sink (Pixel t)}
    (hemit : EmitsGroup emit) {bytes : (Nat → Memory) → Nat → Nat → Byte}
    (hbytes : ∀ pl i l, l < 64 → bytes pl i l = planeByte pl i l) {gt : Byte → Bool}
    (hgt : ∀ v, gt v = decide (cut < v.toNat)) (ht : t.size = 2) (h8 : 8 ∣ ne)
    (hhigh : ∀ i, ne ≤ i → i < 2 * ne → L i = 0#8) (hread : ReadsPlanes L raw' ne np)
    {start cnt : Nat} (hs : 8 ∣ start) (hcnt : cnt ≤ 128) (hend : start + 64 * cnt ≤ ne)
    {gs : List Nat} (hnd : gs.Nodup) (hlt : ∀ g ∈ gs, g < cnt)
    (hskip : ∀ g, g < cnt → g ∉ gs → ∀ p, p < 8 → ∀ b, b < 8 →
      planePtr raw' (ne / 8) np (start / 8) p (8 * g + b) = 0#8) (stack : Memory × (Nat → BitVec 64))
    (o : Sink (Pixel t)) :
    Emits o (tileStep emit (fun r => gs.foldl (fun r g =>
        recordGroup (bytes (planePtr raw' (ne / 8) np (start / 8))) gt mask (i0 + start) g r) r)
        stack (i0 + start) o)
      (collected (selects (aboveCut cut) mask (planePixel t L ne) i0) (planePixel t L ne) i0 start
        (64 * cnt)) (64 * cnt) := by
  set pl := planePtr raw' (ne / 8) np (start / 8) with hpl
  have hbyte : ∀ g, g < cnt → ∀ l, l < 64 →
      bytes pl (8 * g) l = lowByte L ne (start + 64 * g + l) := by
    intro g hg l hl
    rw [hbytes _ _ _ hl, hpl, planeByte_eq h8 hread hs (by omega)]
  have hwide : ∀ g, g < cnt → ∀ l, l < 64 →
      (bytes pl (8 * g) l).setWidth t.bits = planePixel t L ne (start + 64 * g + l) := by
    intro g hg l hl
    rw [hbyte g hg l hl, ← planePixel_low ht h8 (by omega) hhigh]
  refine tileStep_emits hemit hcnt hnd hlt ?_ ?_ hwide stack o
  · intro g hg hno
    refine BitVec.eq_of_getLsbD_eq fun l hl => ?_
    have hzero : planeByte pl (8 * g) l = 0#8 := by
      refine BitVec.eq_of_getLsbD_eq fun p hp => ?_
      rw [planeByte, getLsbD_gather, hskip g hg hno p hp (l / 8) (by omega)]
      simp
    rw [getLsbD_groupSelection _ _ _ _ hl, hbytes _ _ _ hl, hzero, hgt]
    simp
  · intro g hg l hl
    rw [getLsbD_groupSelection _ _ _ _ hl, selects, ← hwide g hg l hl, aboveCut_setWidth ht, hgt,
      show i0 + start + 64 * g + l = start + 64 * g + l + i0 by omega]

/-- The tiles one after another. -/
theorem tiles_emits (h64 : 64 ∣ ne) {tile : Nat → Sink (Pixel t) → Sink (Pixel t)}
    {sel : Nat → Bool} {px : Nat → Pixel t}
    (htile : ∀ start, lowplanesTile ∣ start → start < ne → ∀ o, Emits o (tile start o)
      (collected sel px i0 start (64 * (tileBytes ne start / 8))) (64 * (tileBytes ne start / 8)))
    (o : Sink (Pixel t)) : Emits o (tiles ne tile o) (collected sel px i0 0 ne) ne := by
  have hcover : min (8192 * ((ne + 8192 - 1) / 8192)) ne = ne := by omega
  have hwindows := emits_windows sel px i0 id (fun o k => tile (8192 * k) o) 8192 0 ne (fun k hk o => by
      have hwhole : 64 * (tileBytes ne (8192 * k) / 8) = min 8192 (ne - 8192 * k) := by
        unfold tileBytes lowplanesTile
        omega
      rw [Nat.zero_add, ← hwhole]
      exact htile _ (Dvd.intro _ rfl) hk o) o ((ne + 8192 - 1) / 8192) (fun k hk => by omega)
  rwa [hcover] at hwindows

/-- The groups that a bitmap of groups with data names. -/
theorem busy_filter {step start : Nat} (hstep : step = 32 ∨ step = 64)
    (ht : step ∣ tileBytes ne start) :
    let pl := planePtr raw' (ne / 8) np (start / 8)
    let gs := (List.range (64 * tileWords)).filter (testAt (busyGroups step pl (tileBytes ne start)))
    gs.Nodup ∧ (∀ g ∈ gs, g < tileBytes ne start / 8) ∧
      ∀ g, g < tileBytes ne start / 8 → g ∉ gs → ∀ p, p < 8 → ∀ b, b < 8 → pl p (8 * g + b) = 0#8 := by
  have hbusy := busyGroups_spec (planePtr raw' (ne / 8) np (start / 8)) hstep ht
  refine ⟨List.nodup_range.filter _, fun g hg => ?_, fun g hg hno => ?_⟩
  · by_contra hge
    have htest := (List.mem_filter.mp hg).2
    rw [(hbusy g).2 (by omega)] at htest
    cases htest
  · have hin : g ∈ List.range (64 * tileWords) := by
      have htile : tileBytes ne start / 8 ≤ 128 := by
        unfold tileBytes lowplanesTile
        omega
      exact List.mem_range.mpr (hg.trans_le htile)
    have htest : testAt (busyGroups step (planePtr raw' (ne / 8) np (start / 8))
        (tileBytes ne start)) g = false := by
      cases hb : testAt (busyGroups step (planePtr raw' (ne / 8) np (start / 8))
        (tileBytes ne start)) g with
      | false => rfl
      | true => exact absurd (List.mem_filter.mpr ⟨hin, hb⟩) hno
    exact (hbusy g).1 htest hg

end

section

variable {L raw : Memory} {mask : Mask} {ne nzEnd i0 cut : Nat}

theorem lowplanesCollectVbmi_emits (ht : t.size = 2) (h64 : 64 ∣ ne) (hne : 0 < ne)
    (hst : Stores L (2 * ne) nzEnd raw) (hhigh : ∀ i, ne ≤ i → i < 2 * ne → L i = 0#8)
    (hcut : cut < 255) (stack : Nat → Memory × (Nat → BitVec 64)) (skip : Bool) (o : Sink (Pixel t)) :
    ∃ raw' o', lowplanesCollectVbmi stack raw ne nzEnd mask i0 cut skip o = .ok (raw', o') ∧
      Emits o o' (listed mask L ne i0 cut) ne := by
  have h8 : 8 ∣ ne := (by decide : 8 ∣ 64).trans h64
  obtain ⟨raw', hopen, hlow, -⟩ := openPlanes_spec h8 hne hst
  have hread := readsPlanes_of h8 hne hst hlow
  refine ⟨raw', _, by rw [lowplanesCollectVbmi, hopen]; rfl, ?_⟩
  refine tiles_emits h64 (fun start hs hlt o => ?_) o
  have hcnt : tileBytes ne start / 8 ≤ 128 := by
    unfold tileBytes lowplanesTile
    omega
  have hend : start + 64 * (tileBytes ne start / 8) ≤ ne := by
    unfold tileBytes lowplanesTile
    omega
  have hgt : ∀ v : Byte, (BitVec.ofNat 8 cut).ult v = decide (cut < v.toNat) := by
    intro v
    rw [BitVec.ult_eq_decide, BitVec.toNat_ofNat, Nat.mod_eq_of_lt (by omega)]
  have htile := @tile_emits t L raw' mask ne (planesHeld ne nzEnd) i0 cut _ lowplanesEmit_emits vbmiBytes
    (fun pl i l hl => vbmiBytes_eq pl i hl) _ hgt ht h8 hhigh hread start
    (tileBytes ne start / 8) ((by decide : 8 ∣ lowplanesTile).trans hs) hcnt hend
  by_cases hskip : skip = true ∧ tileBytes ne start % 64 = 0
  · obtain ⟨hnd, hin, hzero⟩ := @busy_filter raw' ne (planesHeld ne nzEnd) 64 start (Or.inr rfl)
      (Nat.dvd_of_mod_eq_zero hskip.2)
    simp only [hskip, and_self, if_true, scanBitmap_eq]
    exact htile hnd hin hzero _ o
  · simp only [hskip, if_false]
    exact htile List.nodup_range (fun g hg => List.mem_range.mp hg)
      (fun g hg hno => absurd (List.mem_range.mpr hg) hno) _ o

theorem lowplanesCollectAvx2_emits (ht : t.size = 2) (h256 : 256 ∣ ne) (hne : 0 < ne)
    (hst : Stores L (2 * ne) nzEnd raw) (hhigh : ∀ i, ne ≤ i → i < 2 * ne → L i = 0#8)
    (hcut : cut < 255) (stack : Nat → Memory × (Nat → BitVec 64)) (o : Sink (Pixel t)) :
    ∃ raw' o', lowplanesCollectAvx2 stack raw ne nzEnd mask i0 cut o = .ok (raw', o') ∧
      Emits o o' (listed mask L ne i0 cut) ne := by
  have h8 : 8 ∣ ne := (by decide : 8 ∣ 256).trans h256
  obtain ⟨raw', hopen, hlow, -⟩ := openPlanes_spec h8 hne hst
  have hread := readsPlanes_of h8 hne hst hlow
  refine ⟨raw', _, by rw [lowplanesCollectAvx2, hopen]; rfl, ?_⟩
  refine tiles_emits ((by decide : 64 ∣ 256).trans h256) (fun start hs hlt o => ?_) o
  have hcnt : tileBytes ne start / 8 ≤ 128 := by
    unfold tileBytes lowplanesTile
    omega
  have hend : start + 64 * (tileBytes ne start / 8) ≤ ne := by
    unfold tileBytes lowplanesTile
    omega
  have hwhole : 32 ∣ tileBytes ne start := by
    have hs256 : 256 ∣ start := (by decide : 256 ∣ lowplanesTile).trans hs
    unfold tileBytes lowplanesTile
    omega
  have hgt : ∀ v : Byte, gtBiased8 (BitVec.ofNat 8 cut) v = decide (cut < v.toNat) := by
    intro v
    have hbias : gtBiased8 (BitVec.ofNat 8 cut) v = (BitVec.ofNat 8 cut).ult v :=
      slt_xor_signBit (by decide)
    rw [hbias, BitVec.ult_eq_decide, BitVec.toNat_ofNat, Nat.mod_eq_of_lt (by omega)]
  obtain ⟨hnd, hin, hzero⟩ := @busy_filter raw' ne (planesHeld ne nzEnd) 32 start (Or.inl rfl) hwhole
  have htile := @tile_emits t L raw' mask ne (planesHeld ne nzEnd) i0 cut _ avx2Emit_emits avx2Bytes
    (fun pl i l hl => avx2Bytes_eq pl i hl) _ hgt ht h8 hhigh hread start
    (tileBytes ne start / 8) ((by decide : 8 ∣ lowplanesTile).trans hs) hcnt hend _ hnd hin hzero (stack (i0 + start)) o
  simp only [← scanBitmap_eq] at htile
  exact htile

/-- The bytes of a block, word by word. -/
theorem swarBytes_emits {put : Bool → Pixel t → Nat → Sink (Pixel t) → Sink (Pixel t)}
    (hput : ∀ c v a o, Emits o (put c v a o) (if c then [(a, v)] else []) 1) (u : Nat → Byte)
    (mask : Mask) (base cut n : Nat) (o : Sink (Pixel t)) :
    Emits o (swarBytes put u mask base cut n o)
      (collected (fun b => decide (cut < (u b).toNat) && maskOk mask (base + b))
        (fun b => (u b).setWidth t.bits) base 0 (8 * (n / 8))) (8 * (n / 8)) := by
  refine emits_groups _ _ base id (fun o w => if wordAt 8 u (8 * w) = 0#(8 * 8) then o
    else (List.range' (8 * w) 8).foldl (fun o b =>
      put (decide (cut < (u b).toNat) && maskOk mask (base + b)) ((u b).setWidth t.bits)
        (base + b) o) o) 8 0 (n / 8) (by decide) (fun w _ o => ?_) o
  rw [Nat.zero_add]
  split
  · next hzero =>
    -- no byte of an empty word is above the cut
    have hnone : collected (fun b => decide (cut < (u b).toNat) && maskOk mask (base + b))
        (fun b => (u b).setWidth t.bits) base (8 * w) 8 = [] := by
      rw [collected, List.filter_eq_nil_iff.mpr, List.map_nil]
      intro b hb
      obtain ⟨hge, hlt⟩ := List.mem_range'_1.mp hb
      have hbyte := wordAt_eq_zero.mp hzero (b - 8 * w) (by omega)
      rw [show 8 * w + (b - 8 * w) = b by omega] at hbyte
      rw [hbyte]
      simp
    rw [hnone]
    exact Emits.refl o 8
  · refine emits_lanes _ _ base id _ (8 * w) 8 (fun b _ _ o => ?_) o
    rw [Nat.add_comm b base]
    exact hput _ _ _ o

/-! ## vsx

Its groups of 64 pixels reach behind a block that is not a multiple of them. -/

/-- The byte at `i` of low plane `p`, for an `i` that may lie behind the plane: then the next
plane's, and behind the last one that holds data what the buffer has there. -/
def vsxByte (L raw : Memory) (ne nzEnd p i : Nat) : Byte :=
  if p < planesHeld ne nzEnd then
    if p * (ne / 8) + i < planesHeld ne nzEnd * (ne / 8) then L (p * (ne / 8) + i)
    else raw (p * (ne / 8) + i)
  else 0#8

/-- The byte that the transpose gives for pixel `e`, also behind the block's end. -/
def vsxLane (L raw : Memory) (ne nzEnd e : Nat) : Byte :=
  gather 8 fun p => (vsxByte L raw ne nzEnd p (e / 8)).getLsbD (e % 8)

/-- The pixels of the groups of 64. -/
def vsxLanes (ne : Nat) : Nat := 64 * ((ne / 8 + 7) / 8)

/-- What is listed of the lanes behind the block's end. -/
def vsxExtra (L raw : Memory) (mask : Mask) (ne nzEnd i0 cut : Nat) : List (Nat × Pixel t) :=
  let lane := fun e => (vsxLane L raw ne nzEnd e).setWidth t.bits
  collected (selects (aboveCut cut) mask lane i0) lane i0 ne (vsxLanes ne - ne)

theorem vsxExtra_eq_nil (h64 : 64 ∣ ne) :
    vsxExtra (t := t) L raw mask ne nzEnd i0 cut = [] := by
  have hnone : vsxLanes ne - ne = 0 := by
    unfold vsxLanes
    omega
  unfold vsxExtra
  rw [hnone]
  rfl

theorem lowplanesCollectVsx_emits (ht : t.size = 2) (h8 : 8 ∣ ne) (hne : 0 < ne)
    (hst : Stores L (2 * ne) nzEnd raw) (hhigh : ∀ i, ne ≤ i → i < 2 * ne → L i = 0#8)
    (branchfree : Bool) (o : Sink (Pixel t)) :
    ∃ raw' o', lowplanesCollectVsx raw ne nzEnd mask i0 cut branchfree o = .ok (raw', o') ∧
      Emits o o' (listed mask L ne i0 cut ++ vsxExtra L raw mask ne nzEnd i0 cut) (vsxLanes ne) := by
  obtain ⟨raw', hopen, hlow, hbehind⟩ := openPlanes_spec h8 hne hst
  have hread := readsPlanes_of h8 hne hst hlow
  refine ⟨raw', _, by rw [lowplanesCollectVsx, hopen]; rfl, ?_⟩
  set pl := planePtr raw' (ne / 8) (planesHeld ne nzEnd) 0 with hpl
  set lane : Nat → Byte := fun e => planeByte pl (8 * (e / 64)) (e % 64) with hlane
  -- the lanes in the block are its pixels, the ones behind it what follows the planes
  have hin : ∀ e, e < ne → lane e = lowByte L ne e := by
    intro e he
    have h := @planeByte_eq L raw' ne (planesHeld ne nzEnd) h8 hread 0 (e / 64) (e % 64) (dvd_zero 8)
      (by omega)
    rwa [Nat.zero_div, show 0 + 64 * (e / 64) + e % 64 = e by omega] at h
  have hout : ∀ e, lane e = vsxLane L raw ne nzEnd e := by
    intro e
    refine gather_congr fun p hp => ?_
    have hbyte : pl p (8 * (e / 64) + e % 64 / 8) = vsxByte L raw ne nzEnd p (e / 8) := by
      rw [hpl, planePtr, vsxByte, show 8 * (e / 64) + e % 64 / 8 = e / 8 by omega, Nat.add_zero]
      split
      · split
        · next hk => exact hlow _ hk
        · next hk => exact hbehind _ (by omega)
      · rfl
    rw [hbyte, show e % 64 % 8 = e % 8 by omega]
  set px : Nat → Pixel t := fun e => (lane e).setWidth t.bits with hpx
  have hgroups := emits_groups (selects (aboveCut cut) mask px i0) px i0 id (fun o g =>
    if (List.range 8).all fun p => wordAt 8 (pl p) (8 * g) == 0#(8 * 8) then o
    else swarBytes (if branchfree then Sink.putMaybe else Sink.putIf) (vsxBytes pl (8 * g)) mask
      (i0 + 8 * (8 * g)) cut 64 o) 64 0 ((ne / 8 + 7) / 8) (by decide) (fun g hg o => by
    have hgroup : ∀ l, l < 64 → lane (0 + 64 * g + l) = vsxBytes pl (8 * g) l := by
      intro l hl
      rw [vsxBytes_eq _ _ hl, hlane]
      simp only
      rw [show (0 + 64 * g + l) / 64 = g by omega, show (0 + 64 * g + l) % 64 = l by omega]
    have hes : collected (selects (aboveCut cut) mask px i0) px i0 (0 + 64 * g) 64 =
        collected (fun b => decide (cut < (vsxBytes pl (8 * g) b).toNat) &&
          maskOk mask (i0 + 8 * (8 * g) + b)) (fun b => (vsxBytes pl (8 * g) b).setWidth t.bits)
          (i0 + 8 * (8 * g)) 0 64 := by
      rw [collected_shift, show i0 + (0 + 64 * g) = i0 + 8 * (8 * g) by omega]
      refine collected_congr _ _ _ fun l _ hl => ⟨?_, ?_⟩
      · rw [selects, hpx]
        simp only
        rw [aboveCut_setWidth ht, hgroup l (by omega), Bool.and_comm,
          show 0 + 64 * g + l + i0 = i0 + 8 * (8 * g) + l by omega]
      · rw [hpx]
        simp only
        rw [hgroup l (by omega)]
    rw [hes]
    split
    · next hzero =>
      -- 64 zero pixels
      have hnone : ∀ l, l < 64 → vsxBytes pl (8 * g) l = 0#8 := by
        intro l hl
        rw [vsxBytes_eq _ _ hl]
        refine BitVec.eq_of_getLsbD_eq fun p hp => ?_
        have hword := List.all_eq_true.mp hzero p (List.mem_range.mpr hp)
        rw [planeByte, getLsbD_gather, wordAt_eq_zero.mp (beq_iff_eq.mp hword) (l / 8) (by omega)]
        simp
      have hnil : collected (fun b => decide (cut < (vsxBytes pl (8 * g) b).toNat) &&
          maskOk mask (i0 + 8 * (8 * g) + b)) (fun b => (vsxBytes pl (8 * g) b).setWidth t.bits)
          (i0 + 8 * (8 * g)) 0 64 = [] := by
        rw [collected, List.filter_eq_nil_iff.mpr, List.map_nil]
        intro l hl
        rw [hnone l (by simpa using hl)]
        simp
      rw [hnil]
      exact Emits.refl o 64
    · refine swarBytes_emits ?_ _ mask _ cut 64 o
      cases branchfree with
      | false => exact fun c v a o => emits_putIf c o v a
      | true => exact fun c v a o => emits_putMaybe c o v a) o
  have hlen : 64 * ((ne / 8 + 7) / 8) = ne + (vsxLanes ne - ne) := by
    unfold vsxLanes
    omega
  have hsplit : collected (selects (aboveCut cut) mask px i0) px i0 0 (64 * ((ne / 8 + 7) / 8)) =
      listed mask L ne i0 cut ++ vsxExtra L raw mask ne nzEnd i0 cut := by
    have hpixel : ∀ e, e < ne → px e = planePixel t L ne e := by
      intro e he
      rw [planePixel_low ht h8 he hhigh, ← hin e he]
    have hext : ∀ e, px e = (vsxLane L raw ne nzEnd e).setWidth t.bits := by
      intro e
      rw [← hout e]
    rw [hlen, collected_append]
    congr 1
    · refine collected_congr _ _ _ fun e _ he => ⟨?_, hpixel e (by omega)⟩
      rw [selects, selects, hpixel e (by omega)]
    · rw [vsxExtra, Nat.zero_add]
      exact collected_congr _ _ _ fun e _ _ => ⟨by rw [selects, selects, hext e], hext e⟩
  rw [← hsplit]
  exact hgroups

end

end Bslz4ToSparse.Steps
