import Bslz4ToSparse.Steps.LowPlanesList

/-!
# The low-planes values against the full untranspose

What `bslz4_lowplanes_list` and `bslz4_lowplanes_block` give the driver: the list or the
block of the full untranspose, or a block that the next step can take over.
-/

namespace Bslz4ToSparse.Steps

open Foundation
open Lz4 (Byte)

variable {t : Dtype} {K : Kernels} {L raw : Memory} {mask : Mask} {ne nzEnd i0 cut : Nat}

/-! ## The list -/

theorem highPlanesZeroC_spec (h8 : 8 ∣ ne) (h : Stores L (2 * ne) nzEnd raw) :
    ((highPlanesZeroC raw ne nzEnd).1 = true ↔ ∀ i, ne ≤ i → i < 2 * ne → L i = 0#8) ∧
    Stores L (2 * ne) nzEnd (highPlanesZeroC raw ne nzEnd).2 ∧
    (∀ i, i < nzEnd → (highPlanesZeroC raw ne nzEnd).2 i = raw i) ∧
    ∀ i, i < ne → (highPlanesZeroC raw ne nzEnd).2 i = L i := by
  unfold highPlanesZeroC
  split
  · next hle =>
    exact ⟨⟨fun _ i hi hlt => h.zeros i (hle.trans hi) hlt, fun _ => rfl⟩,
      h.fill_behind le_rfl _, fun i hi => zeroFill_below hi, fun i hi => h.fill (by omega) hi⟩
  · next hlt =>
    obtain ⟨hzero, hst, hkeep⟩ := @highPlanesZero_spec 8 ne nzEnd L raw (by decide) (by decide) h8 h
    exact ⟨hzero, hst, hkeep, fun i hi => hst.stored i (by omega) (by omega)⟩

/-- The high planes are zero exactly when every pixel is below 256. -/
theorem highPlanes_zero_iff (ht : t.size = 2) (h8 : 8 ∣ ne) :
    (∀ i, ne ≤ i → i < 2 * ne → L i = 0#8) ↔ ∀ e, e < ne → (planePixel t L ne e).toNat < 256 := by
  constructor
  · intro hhigh e he
    have hlt : (lowByte L ne e).toNat < 2 ^ 8 := (lowByte L ne e).isLt
    rw [planePixel_low ht h8 he hhigh, BitVec.toNat_setWidth]
    exact (Nat.mod_le _ _).trans_lt hlt
  · intro hpx i hi hlt
    obtain ⟨c, rfl⟩ := h8
    have hc : 0 < c := by omega
    have hplane : 8 ≤ i / c := (Nat.le_div_iff_mul_le hc).mpr hi
    have hbits : i / c < t.bits := by
      rw [Dtype.bits, ht, Nat.div_lt_iff_lt_mul hc]
      omega
    have hmod := Nat.mod_lt i hc
    refine BitVec.eq_of_getLsbD_eq fun b hb => ?_
    have he : 8 * (i % c) + b < 8 * c := by omega
    have hbit : (planePixel t L (8 * c) (8 * (i % c) + b)).getLsbD (i / c) = false := by
      apply Nat.testBit_lt_two_pow
      exact (hpx _ he).trans_le (Nat.pow_le_pow_right (show 0 < 2 by decide) hplane)
    have hbyte : i / c * (8 * c / 8) + (8 * (i % c) + b) / 8 = i := by
      rw [Nat.mul_div_cancel_left c (by decide), show (8 * (i % c) + b) / 8 = i % c by omega,
        Nat.mul_comm, Nat.div_add_mod]
    rw [planePixel, getLsbD_gather, hbyte, show (8 * (i % c) + b) % 8 = b by omega,
      decide_eq_true hbits, Bool.true_and] at hbit
    rw [hbit, BitVec.getLsbD_zero]

/-- kcb takes the low planes for the planes of one-byte elements. -/
theorem bytes_lowByte (hK : K.Inverse) (h8 : 8 ∣ ne) (hlow : ∀ i, i < ne → raw i = L i) :
    ∃ r, K.bitshufDecodeBlock raw none ne 1 = some r ∧ ∀ e, e < ne → r.1 e = lowByte L ne e := by
  obtain ⟨r, hr, hout⟩ := hK.bytes raw ne h8
  refine ⟨r, hr, fun e he => BitVec.eq_of_getLsbD_eq fun p hp => ?_⟩
  have hbit := hout e he 0 (by decide) p hp
  rw [Nat.mul_one, Nat.add_zero, Nat.mul_zero, Nat.zero_add] at hbit
  rw [hbit, lowByte, getLsbD_gather, decide_eq_true hp, Bool.true_and,
    hlow _ (by simpa using @plane_lt ne 1 p e h8 hp he)]

/-- The entries behind the right ones. -/
def listExtra (value : Untranspose) (L raw : Memory) (mask : Mask) (ne nzEnd i0 cut : Nat) :
    List (Nat × Pixel t) :=
  if value = .lowplanesVsx ∧ cut < 255 then
    vsxExtra L (highPlanesZero 8 raw ne nzEnd).2 mask ne nzEnd i0 cut
  else []

/-- The blocks that a value takes where their high planes are zero. -/
def takesBlock (value : Untranspose) (ne : Nat) : Bool :=
  match value with
  | .lowplanesVbmi => ne % 64 == 0
  | .lowplanesAvx2 => ne % 256 == 0
  | .lowplanesVsx => ne % 8 == 0 && decide (ne / 8 ≤ zeroPlaneBytes)
  | .lowplanesC => ne % 8 == 0
  | _ => false

/-- The cells that a call may write. -/
def listRoom (value : Untranspose) (ne cut : Nat) : Nat :=
  if value = .lowplanesVsx ∧ cut < 255 then vsxLanes ne else ne

/-- What a call gives: a block that the value takes is listed, every other one is kept. -/
structure ListSpec (value : Untranspose) (L raw : Memory) (mask : Mask) (ne nzEnd i0 cut : Nat)
    (o : Sink (Pixel t)) (r : Except Err (Memory × Memory × Option (Sink (Pixel t)))) : Prop where
  taken : takesBlock value ne = true → (∀ i, ne ≤ i → i < 2 * ne → L i = 0#8) →
    ∃ raw' scratch' o', r = .ok (raw', scratch', some o') ∧
      Emits o o' (listed mask L ne i0 cut ++ listExtra value L raw mask ne nzEnd i0 cut)
        (listRoom value ne cut)
  kept : ¬ (takesBlock value ne = true ∧ ∀ i, ne ≤ i → i < 2 * ne → L i = 0#8) →
    ∃ raw' scratch', r = .ok (raw', scratch', none) ∧ Stores L (2 * ne) nzEnd raw' ∧
      ∀ i, i < nzEnd → raw' i = raw i

/-- A value that does not take the block leaves everything as it is. -/
theorem ListSpec.decline {value : Untranspose} {scratch : Memory} {o : Sink (Pixel t)}
    (hst : Stores L (2 * ne) nzEnd raw) (h : takesBlock value ne = false) :
    ListSpec value L raw mask ne nzEnd i0 cut o (.ok (raw, scratch, none)) where
  taken := fun htakes => absurd htakes (by simp [h])
  kept := fun _ => ⟨raw, scratch, rfl, hst, fun _ _ => rfl⟩

/-- The steps that three of the values share: the high planes, the cut, the collect. -/
theorem ListSpec.of_collect {value : Untranspose} {z : Bool × Memory} {scratch : Memory}
    {o : Sink (Pixel t)} {collect : Except Err (Memory × Sink (Pixel t))} (ht : t.size = 2)
    (h8 : 8 ∣ ne) (hzero : z.1 = true ↔ ∀ i, ne ≤ i → i < 2 * ne → L i = 0#8)
    (hst : Stores L (2 * ne) nzEnd z.2) (hkeep : ∀ i, i < nzEnd → z.2 i = raw i)
    (htakes : takesBlock value ne = true)
    (hcollect : (∀ i, ne ≤ i → i < 2 * ne → L i = 0#8) → cut < 255 →
      ∃ raw' o', collect = .ok (raw', o') ∧
        Emits o o' (listed mask L ne i0 cut ++ listExtra value L raw mask ne nzEnd i0 cut)
          (listRoom value ne cut)) :
    ListSpec value L raw mask ne nzEnd i0 cut o
      (if (!z.1) = true then .ok (z.2, scratch, none)
      else if 255 ≤ cut then .ok (z.2, scratch, some o)
      else collect.bind fun r => .ok (r.1, scratch, some r.2)) := by
  constructor
  · intro _ hhigh
    rw [hzero.mpr hhigh, Bool.not_true, if_neg Bool.false_ne_true]
    rcases Nat.lt_or_ge cut 255 with hcut | hcut
    · obtain ⟨raw', o', hrun, hemit⟩ := hcollect hhigh hcut
      rw [if_neg (by omega), hrun]
      exact ⟨raw', scratch, o', rfl, hemit⟩
    · rw [if_pos hcut]
      refine ⟨z.2, scratch, o, rfl, ?_⟩
      rw [listed_eq_nil ht h8 hhigh hcut, listExtra, if_neg (by omega)]
      exact Emits.refl o _
  · intro hnot
    have hz : z.1 = false := by
      cases hz : z.1 with
      | false => rfl
      | true => exact absurd ⟨htakes, hzero.mp hz⟩ hnot
    rw [hz, Bool.not_false, if_pos rfl]
    exact ⟨z.2, scratch, rfl, hst, hkeep⟩

theorem lowplanesList_spec (hK : K.Inverse) (ht : t.size = 2) (value : Untranspose)
    (h8 : 8 ∣ ne) (hne : 0 < ne) (hst : Stores L (2 * ne) nzEnd raw) (scratch : Memory)
    (n blocksize : Nat) (o : Sink (Pixel t)) :
    ListSpec value L raw mask ne nzEnd i0 cut o
      (lowplanesList K value raw scratch ne nzEnd n blocksize mask i0 cut o) := by
  have hright : ∀ {o' : Sink (Pixel t)}, value ≠ .lowplanesVsx →
      Emits o o' (listed mask L ne i0 cut) ne →
      Emits o o' (listed mask L ne i0 cut ++ listExtra value L raw mask ne nzEnd i0 cut)
        (listRoom value ne cut) := by
    intro o' hvalue h
    rw [listExtra, if_neg fun hv => hvalue hv.1, List.append_nil, listRoom,
      if_neg fun hv => hvalue hv.1]
    exact h
  cases value with
  | lowplanesVbmi =>
    rw [lowplanesList]
    split
    · next hne => exact .decline hst (by simpa [takesBlock] using hne)
    next h64 =>
    have h64 : 64 ∣ ne := Nat.dvd_of_mod_eq_zero (by omega)
    obtain ⟨hzero, hst', hkeep⟩ := @highPlanesZero_spec 64 ne nzEnd L raw (by decide) (by decide) h64 hst
    refine .of_collect (z := highPlanesZero 64 raw ne nzEnd) ht h8 hzero hst' hkeep
      (by simpa [takesBlock] using Nat.mod_eq_zero_of_dvd h64) fun hhigh hcut => ?_
    obtain ⟨raw', o', hrun, hemit⟩ := @lowplanesCollectVbmi_emits t L _ mask ne nzEnd i0 cut ht h64
      hne hst' hhigh hcut K.tileStack (decide (n * lowplanesSkipRatio < blocksize)) o
    exact ⟨raw', o', hrun, hright (by simp) hemit⟩
  | lowplanesAvx2 =>
    rw [lowplanesList]
    split
    · next hne => exact .decline hst (by simpa [takesBlock] using hne)
    next h256 =>
    have h256 : 256 ∣ ne := Nat.dvd_of_mod_eq_zero (by omega)
    obtain ⟨hzero, hst', hkeep⟩ := @highPlanesZero_spec 8 ne nzEnd L raw (by decide) (by decide) h8 hst
    refine .of_collect (z := highPlanesZero 8 raw ne nzEnd) ht h8 hzero hst' hkeep
      (by simpa [takesBlock] using Nat.mod_eq_zero_of_dvd h256) fun hhigh hcut => ?_
    obtain ⟨raw', o', hrun, hemit⟩ := @lowplanesCollectAvx2_emits t L _ mask ne nzEnd i0 cut ht h256
      hne hst' hhigh hcut K.tileStack o
    exact ⟨raw', o', hrun, hright (by simp) hemit⟩
  | lowplanesVsx =>
    rw [lowplanesList]
    have hmod := Nat.mod_eq_zero_of_dvd h8
    split
    · next hsize => exact .decline hst (by simp [takesBlock]; omega)
    next hsize =>
    obtain ⟨hzero, hst', hkeep⟩ := @highPlanesZero_spec 8 ne nzEnd L raw (by decide) (by decide) h8 hst
    refine .of_collect (z := highPlanesZero 8 raw ne nzEnd) ht h8 hzero hst' hkeep
      (by simp [takesBlock]; omega) fun hhigh hcut => ?_
    obtain ⟨raw', o', hrun, hemit⟩ := @lowplanesCollectVsx_emits t L _ mask ne nzEnd i0 cut ht h8 hne
      hst' hhigh (decide (n * lowplanesBranchfreeRatio < blocksize)) o
    have hextra : listExtra (t := t) .lowplanesVsx L raw mask ne nzEnd i0 cut =
        vsxExtra L (highPlanesZero 8 raw ne nzEnd).2 mask ne nzEnd i0 cut := if_pos ⟨rfl, hcut⟩
    have hroom : listRoom .lowplanesVsx ne cut = vsxLanes ne := if_pos ⟨rfl, hcut⟩
    rw [hextra, hroom]
    exact ⟨raw', o', hrun, hemit⟩
  | lowplanesC =>
    rw [lowplanesList]
    have hmod := Nat.mod_eq_zero_of_dvd h8
    split
    · next hne => exact absurd hmod hne
    obtain ⟨hzero, hst', hkeep, hlow⟩ := highPlanesZeroC_spec h8 hst
    generalize highPlanesZeroC raw ne nzEnd = z at *
    obtain ⟨zero, raw₁⟩ := z
    simp only at hzero hst' hkeep hlow
    obtain ⟨r, hr, hout⟩ := bytes_lowByte hK h8 hlow
    have hbyte : ∀ e, e < ne → copyTo scratch 0 ne r.1 e = lowByte L ne e := by
      intro e he
      rw [copyTo, if_pos (by omega), Nat.sub_zero, hout e he]
    cases zero with
    | false =>
      refine ⟨fun _ hhigh => ?_, fun _ => ⟨raw₁, scratch, rfl, hst', hkeep⟩⟩
      cases hzero.mpr hhigh
    | true =>
      have hhigh := hzero.mp rfl
      refine ⟨fun _ _ => ?_, fun hnot => absurd ⟨by simp [takesBlock, hmod], hhigh⟩ hnot⟩
      simp only [Bool.not_true, Bool.false_eq_true, if_false, hr]
      split
      · next hcut =>
        refine ⟨_, _, _, rfl, ?_⟩
        rw [listed_eq_nil ht h8 hhigh hcut, listExtra, if_neg (by simp)]
        exact Emits.refl o _
      · refine ⟨_, _, _, rfl, hright (by simp) ?_⟩
        have hemit := swarBytes_emits (fun c v a o => emits_putIf c o v a) (copyTo scratch 0 ne r.1)
          mask i0 cut ne o
        have hes : collected (fun b => decide (cut < (copyTo scratch 0 ne r.1 b).toNat) &&
            maskOk mask (i0 + b)) (fun b => (copyTo scratch 0 ne r.1 b).setWidth t.bits) i0 0 ne =
            listed mask L ne i0 cut := by
          refine collected_congr _ _ _ fun e _ he => ?_
          have hpx : planePixel t L ne e = (copyTo scratch 0 ne r.1 e).setWidth t.bits := by
            rw [planePixel_low ht h8 (by omega) hhigh, hbyte e (by omega)]
          constructor
          · rw [selects, hpx, aboveCut_setWidth ht, Bool.and_comm, Nat.add_comm]
          · exact hpx.symm
        rw [Nat.mul_div_cancel' h8, hes] at hemit
        exact hemit
  | kcb | neon | scalar => exact .decline hst rfl

/-- What a call gives: the block is kept, or its high planes are zero and its pixels are listed. -/
def ListOutcome (value : Untranspose) (L raw : Memory) (mask : Mask) (ne nzEnd i0 cut : Nat)
    (o : Sink (Pixel t)) : Except Err (Memory × Memory × Option (Sink (Pixel t))) → Prop
  | .error _ => False
  | .ok (raw', _, none) => Stores L (2 * ne) nzEnd raw' ∧ (∀ i, i < nzEnd → raw' i = raw i) ∧
      (value = .lowplanesVsx → ne / 8 ≤ zeroPlaneBytes → ¬ ∀ i, ne ≤ i → i < 2 * ne → L i = 0#8)
  | .ok (_, _, some o') => (∀ i, ne ≤ i → i < 2 * ne → L i = 0#8) ∧
      (value = .lowplanesVsx → ne / 8 ≤ zeroPlaneBytes) ∧
      ∃ room, Emits o o' (listed mask L ne i0 cut ++ listExtra value L raw mask ne nzEnd i0 cut) room

theorem lowplanesList_outcome (hK : K.Inverse) (ht : t.size = 2) (value : Untranspose)
    (h8 : 8 ∣ ne) (hne : 0 < ne) (hst : Stores L (2 * ne) nzEnd raw) (scratch : Memory)
    (n blocksize : Nat) (o : Sink (Pixel t)) :
    ListOutcome value L raw mask ne nzEnd i0 cut o
      (lowplanesList K value raw scratch ne nzEnd n blocksize mask i0 cut o) := by
  have hspec := @lowplanesList_spec t K L raw mask ne nzEnd i0 cut hK ht value h8 hne hst scratch n
    blocksize o
  have hmod := Nat.mod_eq_zero_of_dvd h8
  by_cases htaken : takesBlock value ne = true ∧ ∀ i, ne ≤ i → i < 2 * ne → L i = 0#8
  · obtain ⟨raw', scratch', o', hrun, hemit⟩ := hspec.taken htaken.1 htaken.2
    rw [hrun]
    refine ⟨htaken.2, fun hvalue => ?_, _, hemit⟩
    subst hvalue
    simpa [takesBlock, hmod] using htaken.1
  · obtain ⟨raw', scratch', hrun, hst', hkeep⟩ := hspec.kept htaken
    rw [hrun]
    refine ⟨hst', hkeep, fun hvalue hsize hhigh => htaken ⟨?_, hhigh⟩⟩
    subst hvalue
    simpa [takesBlock, hmod] using hsize

/-! ## The block -/

/-- What a call gives: the pixel block, or the whole block of planes. -/
def BlockOutcome (t : Dtype) (L raw : Memory) (ne nzEnd : Nat) :
    Option Memory × Memory × Memory → Prop
  | (some block, _, _) => Unshuffled L block ne t.size
  | (none, raw', _) => ∀ i, i < 2 * ne → raw' i = zeroFill raw nzEnd (2 * ne - nzEnd) i

/-- The low bytes and zeros, where the high planes are zero. -/
theorem unshuffled_low {out : Memory} (ht : t.size = 2) (h8 : 8 ∣ ne)
    (hhigh : ∀ i, ne ≤ i → i < 2 * ne → L i = 0#8) (heven : ∀ e, e < ne → out (2 * e) = lowByte L ne e)
    (hodd : ∀ e, e < ne → out (2 * e + 1) = 0#8) : Unshuffled L out ne t.size := by
  intro e he b hb i hi
  rw [ht] at hb ⊢
  rcases show b = 0 ∨ b = 1 by omega with rfl | rfl
  · rw [Nat.add_zero, Nat.mul_comm e, heven e he, lowByte, getLsbD_gather, decide_eq_true hi,
      Bool.true_and, Nat.mul_zero, Nat.zero_add]
  · have hplane := @plane_lt ne 2 (8 * 1 + i) e h8 (by omega) he
    have hge : ne ≤ (8 * 1 + i) * (ne / 8) + e / 8 := by
      have hmul := Nat.mul_le_mul_right (ne / 8) (show 8 ≤ 8 * 1 + i by omega)
      omega
    rw [Nat.mul_comm e, hodd e he, hhigh _ hge (by omega), BitVec.getLsbD_zero, BitVec.getLsbD_zero]

theorem unshuffled_untransLowplanes {block : Memory} (ht : t.size = 2) (h64 : 64 ∣ ne)
    (hlow : ∀ i, i < ne → raw i = L i) (hhigh : ∀ i, ne ≤ i → i < 2 * ne → L i = 0#8) :
    Unshuffled L (untransLowplanes raw block ne) ne t.size := by
  have h8 : 8 ∣ ne := (by decide : 8 ∣ 64).trans h64
  have hread : ReadsPlanes L raw ne 8 := by
    intro start p i hp hi
    have hmul := Nat.mul_le_mul_right (ne / 8) (show p + 1 ≤ 8 by omega)
    rw [Nat.add_mul] at hmul
    rw [planePtr, if_pos hp, Nat.add_assoc, hlow _ (by omega)]
  refine unshuffled_low ht h8 hhigh (fun e he => ?_) fun e he => ?_
  · have h := @planeByte_eq L raw ne 8 h8 hread 0 (e / 64) (e % 64) (dvd_zero 8) (by omega)
    rw [untransLowplanes, if_pos (by omega), if_pos (by omega),
      show 2 * e / 2 = e by omega, vbmiBytes_eq _ _ (Nat.mod_lt e (by decide))]
    rwa [Nat.zero_div, show 0 + 64 * (e / 64) + e % 64 = e by omega] at h
  · rw [untransLowplanes, if_pos (by omega), if_neg (by omega)]

theorem widenLowplanes_spec (hK : K.Inverse) (ht : t.size = 2) (h8 : 8 ∣ ne)
    (hlow : ∀ i, i < ne → raw i = L i) (hhigh : ∀ i, ne ≤ i → i < 2 * ne → L i = 0#8)
    (block scratch : Memory) :
    ∃ block' scratch', widenLowplanes K raw block scratch ne = some (block', scratch') ∧
      Unshuffled L block' ne t.size := by
  obtain ⟨r, hr, hout⟩ := bytes_lowByte hK h8 hlow
  refine ⟨_, _, by rw [widenLowplanes, hr]; rfl, ?_⟩
  refine unshuffled_low ht h8 hhigh (fun e he => ?_) fun e he => ?_
  · rw [if_pos (by omega), if_pos (by omega), show 2 * e / 2 = e by omega, copyTo,
      if_pos (by omega), Nat.sub_zero, hout e he]
  · rw [if_pos (by omega), if_neg (by omega)]

theorem lowplanesBlock_outcome (hK : K.Inverse) (ht : t.size = 2) (value : Untranspose)
    (h8 : 8 ∣ ne) (hst : Stores L (2 * ne) nzEnd raw) (block scratch : Memory) :
    BlockOutcome t L raw ne nzEnd (lowplanesBlock K value block raw scratch ne nzEnd) := by
  unfold lowplanesBlock
  rcases Nat.lt_or_ge ne nzEnd with hnz | hnz
  · -- the decoder wrote into the high planes: they have to be looked at
    rw [if_neg (by omega)]
    simp only
    set raw₁ := if nzEnd < 2 * ne then zeroFill raw nzEnd (2 * ne - nzEnd) else raw with hraw
    have hfill : ∀ i, i < 2 * ne → raw₁ i = zeroFill raw nzEnd (2 * ne - nzEnd) i := by
      intro i hi
      rw [hraw]
      split
      · rfl
      · exact (zeroFill_below (by omega)).symm
    have hfull : ∀ i, i < 2 * ne → raw₁ i = L i := fun i hi => (hfill i hi).trans (hst.fill le_rfl hi)
    have hhigh : ∀ w, 0 < w → w ∣ 512 → w ∣ ne → allZero w (offset raw₁ ne) ne = true →
        ∀ i, ne ≤ i → i < 2 * ne → L i = 0#8 := by
      intro w hw h512 hne hz i hi hlt
      have h := (allZero_iff hw h512 hne _).mp hz (i - ne) (by omega)
      rwa [offset, show ne + (i - ne) = i by omega, hfull i hlt] at h
    have hkept : BlockOutcome t L raw ne nzEnd (none, raw₁, scratch) := hfill
    split
    · exact hkept
    next h64 =>
    have h64 : 64 ∣ ne := Nat.dvd_of_mod_eq_zero (by omega)
    have hlow : ∀ i, i < ne → raw₁ i = L i := fun i hi => hfull i (by omega)
    cases value with
    | lowplanesVbmi =>
      simp only
      split
      · next hz => exact unshuffled_untransLowplanes ht h64 hlow (hhigh 64 (by decide) (by decide) h64 hz)
      · exact hkept
    | lowplanesAvx2 =>
      simp only
      split
      · next hz =>
        obtain ⟨block', scratch', hrun, hout⟩ := widenLowplanes_spec hK ht h8 hlow
          (hhigh 8 (by decide) (by decide) h8 hz) block scratch
        rw [hrun]
        exact hout
      · exact hkept
    | lowplanesVsx | lowplanesC | kcb | neon | scalar => exact hkept
  · -- the high planes are empty
    rw [if_pos hnz]
    simp only
    have hhigh : ∀ i, ne ≤ i → i < 2 * ne → L i = 0#8 := fun i hi hlt =>
      hst.zeros i (hnz.trans hi) hlt
    have hlow : ∀ i, i < ne → zeroFill raw nzEnd (ne - nzEnd) i = L i := fun i hi =>
      hst.fill (by omega) hi
    have hkept : BlockOutcome t L raw ne nzEnd
        (none, zeroFill (zeroFill raw nzEnd (ne - nzEnd)) ne ne, scratch) := by
      intro i hi
      unfold zeroFill
      rcases Nat.lt_or_ge i nzEnd with h | h
      · rw [if_neg (by omega), if_neg (by omega), if_neg (by omega)]
      · rcases Nat.lt_or_ge i ne with h' | h'
        · rw [if_neg (by omega), if_pos (by omega), if_pos (by omega)]
        · rw [if_pos (by omega), if_pos (by omega)]
    split
    · next h64 =>
      have h64 : 64 ∣ ne := Nat.dvd_of_mod_eq_zero h64
      cases value with
      | lowplanesVbmi => exact unshuffled_untransLowplanes ht h64 hlow hhigh
      | lowplanesAvx2 =>
        obtain ⟨block', scratch', hrun, hout⟩ := widenLowplanes_spec hK ht h8 hlow hhigh block scratch
        simp only [hrun]
        exact hout
      | lowplanesVsx | lowplanesC | kcb | neon | scalar => exact hkept
    · exact hkept

/-! ## Both calls -/

/-- `bslz4_lowplanes_list` declines and leaves what is stored, or lists what the scalar collect
of the untransposed block lists. -/
def ListExact (K : Kernels) (value : Untranspose) (L raw scratch : Memory)
    (ne nzEnd n blocksize : Nat) (mask : Mask) (i0 cut : Nat) (o : Sink (Pixel .u16)) : Prop :=
  match lowplanesList K value raw scratch ne nzEnd n blocksize mask i0 cut o with
  | .error _ => False
  | .ok (raw', _, none) => ∀ i, i < nzEnd → raw' i = raw i
  | .ok (_, _, some o') => ∀ out, Unshuffled L out ne 2 →
      o'.entries = (collectFrom (aboveCut cut) mask (pixelAt .u16 out) i0 0 ne o).entries

/-- `bslz4_lowplanes_block` writes the untransposed block, or declines with the planes zero
filled to the block's end. -/
def BlockExact (K : Kernels) (value : Untranspose) (L block raw scratch : Memory)
    (ne nzEnd : Nat) : Prop :=
  BlockOutcome .u16 L raw ne nzEnd (lowplanesBlock K value block raw scratch ne nzEnd)

/-- The list of the vsx value holds nothing behind the block's end: where the block is taken and
the cut is below 255, the lanes of its last group of 64 that the bytes behind each plane form are
masked or not above the cut. -/
def EndsClean (value : Untranspose) (L raw : Memory) (mask : Mask) (ne nzEnd i0 cut : Nat) : Prop :=
  value = .lowplanesVsx → ne / 8 ≤ zeroPlaneBytes → (∀ i, ne ≤ i → i < 2 * ne → L i = 0#8) →
    cut < 255 → ∀ e, ne ≤ e → e < vsxLanes ne → maskOk mask (e + i0) = true →
      (vsxLane L (if ne < nzEnd then zeroFill raw nzEnd (2 * ne - nzEnd) else raw) ne nzEnd e).toNat
        ≤ cut

theorem highPlanesZero_raw (w : Nat) (raw : Memory) (ne nzEnd : Nat) :
    (highPlanesZero w raw ne nzEnd).2 =
      if ne < nzEnd then zeroFill raw nzEnd (2 * ne - nzEnd) else raw := by
  unfold highPlanesZero
  split
  · next hle => rw [if_neg (Nat.not_lt.mpr hle)]
  · next hlt =>
    rw [if_pos (Nat.not_le.mp hlt)]
    simp only
    split
    · rfl
    · next hge =>
      funext i
      rw [zeroFill, if_neg (by omega)]

/-- Nothing is listed behind the block's end exactly when every lane there is masked or low. -/
theorem listExtra_eq_nil_iff {value : Untranspose} (ht : t.size = 2)
    (hsize : value = .lowplanesVsx → ne / 8 ≤ zeroPlaneBytes)
    (hhigh : ∀ i, ne ≤ i → i < 2 * ne → L i = 0#8) :
    listExtra (t := t) value L raw mask ne nzEnd i0 cut = [] ↔
      EndsClean value L raw mask ne nzEnd i0 cut := by
  have hlanes : ne ≤ vsxLanes ne ∨ vsxLanes ne - ne = 0 := by omega
  unfold listExtra EndsClean
  rw [highPlanesZero_raw]
  set raw₁ := if ne < nzEnd then zeroFill raw nzEnd (2 * ne - nzEnd) else raw
  by_cases hv : value = .lowplanesVsx ∧ cut < 255
  · rw [if_pos hv, vsxExtra, collected, List.map_eq_nil_iff, List.filter_eq_nil_iff]
    constructor
    · intro h _ _ _ _ e hge hlt hmask
      have hsel := h e (List.mem_range'_1.mpr ⟨hge, by omega⟩)
      rw [selects, hmask, Bool.true_and, aboveCut_setWidth ht, decide_eq_true_iff] at hsel
      omega
    · intro h e he
      obtain ⟨hge, hlt⟩ := List.mem_range'_1.mp he
      rw [selects, aboveCut_setWidth ht, Bool.and_eq_true, decide_eq_true_iff]
      rintro ⟨hmask, habove⟩
      have hle := h hv.1 (hsize hv.1) hhigh hv.2 e hge (by omega) hmask
      omega
  · rw [if_neg hv]
    exact ⟨fun _ hvalue _ _ hcut => absurd ⟨hvalue, hcut⟩ hv, fun _ => rfl⟩

/-- The scalar collect of the untransposed block lists the pixels of the planes. -/
theorem entries_collect {out : Memory} (hout : Unshuffled L out ne 2) (o : Sink (Pixel .u16)) :
    (collectFrom (aboveCut cut) mask (pixelAt .u16 out) i0 0 ne o).entries =
      o.entries ++ listed mask L ne i0 cut := by
  have hemit := @collectFrom_emits (Pixel .u16) (aboveCut cut) mask (pixelAt .u16 out) i0 0 ne o
  rw [hemit.entries, listed, Nat.sub_zero]
  congr 1
  refine collected_congr _ _ _ fun e _ he => ?_
  have hpx : pixelAt .u16 out e = planePixel .u16 L ne e := Unshuffled.pixel hout (by omega)
  exact ⟨by rw [selects, selects, hpx], hpx⟩

/-- The low-planes shortcuts are the full untranspose exactly where no lane behind the end of a
vsx block is listed. -/
theorem lowplanes_exact_iff (hK : K.Inverse) (value : Untranspose) (h8 : 8 ∣ ne) (hne : 0 < ne)
    (hst : Stores L (2 * ne) nzEnd raw) (block scratch : Memory) (n blocksize : Nat) (mask : Mask)
    (i0 cut : Nat) (o : Sink (Pixel .u16)) :
    (ListExact K value L raw scratch ne nzEnd n blocksize mask i0 cut o ∧
      BlockExact K value L block raw scratch ne nzEnd) ↔
    EndsClean value L raw mask ne nzEnd i0 cut := by
  have hblock : BlockExact K value L block raw scratch ne nzEnd :=
    lowplanesBlock_outcome hK rfl value h8 hst block scratch
  have hlist := @lowplanesList_outcome .u16 K L raw mask ne nzEnd i0 cut hK rfl value h8 hne hst
    scratch n blocksize o
  rw [and_iff_left hblock]
  unfold ListExact
  generalize lowplanesList K value raw scratch ne nzEnd n blocksize mask i0 cut o = r at hlist
  rcases r with e | ⟨raw', scratch', _ | o'⟩
  · exact hlist.elim
  · -- declined
    obtain ⟨-, hkeep, hnot⟩ := hlist
    exact ⟨fun _ hv hsize hhigh => absurd hhigh (hnot hv hsize), fun _ => hkeep⟩
  · obtain ⟨hhigh, hsize, room, hemit⟩ := hlist
    rw [← listExtra_eq_nil_iff (t := .u16) rfl hsize hhigh]
    simp only
    constructor
    · intro h
      have hentries := h _ (unshuffled_scal L ne 2)
      rw [entries_collect (unshuffled_scal L ne 2), hemit.entries, ← List.append_assoc] at hentries
      exact List.append_right_eq_self.mp hentries
    · intro hnil out hout
      rw [entries_collect hout, hemit.entries, hnil, List.append_nil]

/-- Eight pixels of which the first is 1, in a buffer that is zero behind them. -/
theorem lowplanes_exact_iff_ragged :
    let L := bytesOf [1#8]
    ListExact .scalarOnly .lowplanesVsx L L L 8 1 3 16 none 0 0 ⟨fun _ => 0#16, fun _ => 0, 0⟩ ∧
      BlockExact .scalarOnly .lowplanesVsx L L L L 8 1 := by
  refine (lowplanes_exact_iff Kernels.scalarOnly_inverse .lowplanesVsx (by decide) (by decide)
    ⟨fun _ _ _ => rfl, fun i hi _ => ?_⟩ _ _ 3 16 none 0 0 _).mpr fun _ _ _ _ e hge hlt _ => ?_
  · obtain ⟨k, rfl⟩ : ∃ k, i = k + 1 := ⟨i - 1, by omega⟩
    rfl
  · have hlanes : ∀ e, e < 64 → 8 ≤ e → (vsxLane (bytesOf [1#8]) (bytesOf [1#8]) 8 1 e).toNat ≤ 0 := by
      decide +kernel
    exact hlanes e hlt hge

/-- Eight pixels of which the first is 2: the bit of the second plane is read behind the first
plane, and pixel 8 is listed. -/
theorem not_lowplanes_exact :
    ¬ (∀ (K : Kernels), K.Inverse → ∀ value L raw block scratch ne nzEnd n blocksize mask i0 cut o,
      8 ∣ ne → 0 < ne → Stores L (2 * ne) nzEnd raw →
        ListExact K value L raw scratch ne nzEnd n blocksize mask i0 cut o ∧
        BlockExact K value L block raw scratch ne nzEnd) := by
  intro h
  have hbad := (h .scalarOnly Kernels.scalarOnly_inverse .lowplanesVsx (bytesOf [0#8, 1#8])
    (bytesOf [0#8, 1#8]) (fun _ => 0#8) (fun _ => 0#8) 8 2 3 16 none 0 0
    ⟨fun _ => 0#16, fun _ => 0, 0⟩ (by decide) (by decide) ⟨fun _ _ _ => rfl, fun i hi _ => by
      obtain ⟨k, rfl⟩ : ∃ k, i = k + 2 := ⟨i - 2, by omega⟩
      rfl⟩).1
  have hentries := hbad _ (unshuffled_scal (bytesOf [0#8, 1#8]) 8 2)
  revert hentries
  decide +kernel

end Bslz4ToSparse.Steps
