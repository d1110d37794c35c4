import Bslz4ToSparse.Steps.CollectSpec
import Bslz4ToSparse.Steps.LowPlanes
import Mathlib.Tactic.IntervalCases

/-!
# What the low-planes values list

The three transposes give the same bytes, the two passes of a tile emit what one pass over
its pixels would, and a block that is taken has no byte above the low planes, so its list is
the one of its pixels.
-/

namespace Bslz4ToSparse.Steps

open Foundation
open Lz4 (Byte)

variable {t : Dtype}

/-! ## The transposes -/

/-- Pixel `l` of the group at byte `i` of the planes. -/
def planeByte (pl : Nat → Memory) (i l : Nat) : Byte :=
  gather 8 fun p => (pl p (i + l / 8)).getLsbD (l % 8)

theorem parity_and_bit (x : Byte) {j : Nat} (hj : j < 8) :
    parity (x &&& 1#8 <<< j) = x.getLsbD j := by
  have hrange : List.range 8 = [0, 1, 2, 3, 4, 5, 6, 7] := by decide
  simp only [parity, hrange, List.foldl_cons, List.foldl_nil, BitVec.getLsbD_and]
  interval_cases j <;> simp

/-- The index table brings byte `q` of plane `b` to the row of bit `b` of quadword `q`. -/
theorem permutex2var_vbmi (v : Nat → Nat → Byte) {q b : Nat} (hq : q < 8) (hb : b < 8) :
    permutex2var (v 0) (v 4) vbmiIndex (8 * q + (7 - b)) =
      if 4 ≤ b then v 4 (8 * (b - 4) + q) else v 0 (8 * b + q) := by
  have hindex : ∀ q, q < 8 → ∀ b, b < 8 →
      (vbmiIndex (8 * q + (7 - b))).testBit 6 = decide (4 ≤ b) ∧
      vbmiIndex (8 * q + (7 - b)) % 64 = if 4 ≤ b then 8 * (b - 4) + q else 8 * b + q := by
    decide +kernel
  obtain ⟨hreg, hbyte⟩ := hindex q hq b hb
  unfold permutex2var
  rw [hreg, hbyte]
  by_cases h4 : 4 ≤ b
  · simp only [h4, decide_true, if_true]
  · simp only [h4, decide_false, if_false, Bool.false_eq_true]

theorem vbmiBytes_eq (pl : Nat → Memory) (i : Nat) {l : Nat} (hl : l < 64) :
    vbmiBytes pl i l = planeByte pl i l := by
  unfold vbmiBytes gf2p8affine planeByte
  apply gather_congr
  intro b hb
  have hq : l / 8 < 8 := by omega
  have hbyte := permutex2var_vbmi (fun q b => pl (q + b / 8) (i + b % 8)) hq hb
  simp only at hbyte ⊢
  rw [identity8, parity_and_bit _ (Nat.mod_lt l (by decide)), hbyte]
  by_cases h4 : 4 ≤ b
  · rw [if_pos h4, show 4 + (8 * (b - 4) + l / 8) / 8 = b by omega,
      show (8 * (b - 4) + l / 8) % 8 = l / 8 by omega]
  · rw [if_neg h4, show 0 + (8 * b + l / 8) / 8 = b by omega,
      show (8 * b + l / 8) % 8 = l / 8 by omega]

theorem avx2Half_eq {high : Nat} {u0 u1 : Nat → Byte} {pl : Nat → Memory} {i : Nat}
    (hbytes : ∀ q, q < 4 → ∀ p, p < 8 →
      permute8x32 (unpack16 high u0 u1) (8 * q + p) = pl p (i + q)) {l : Nat} (hl : l < 32) :
    avx2Half high u0 u1 l = planeByte pl i l := by
  unfold avx2Half planeByte
  apply gather_congr
  intro p hp
  have hmod : l % 8 < 8 := Nat.mod_lt l (by decide)
  rw [getLsbD_transpose8 _ hmod hp, getLsbD_gather, decide_eq_true (show 8 * p + l % 8 < 64 by omega),
    Bool.true_and, show (8 * p + l % 8) / 8 = p by omega, show (8 * p + l % 8) % 8 = l % 8 by omega,
    hbytes (l / 8) (by omega) p hp]

theorem avx2Bytes_eq (pl : Nat → Memory) (i : Nat) {l : Nat} (hl : l < 64) :
    avx2Bytes pl i l = planeByte pl i l := by
  unfold avx2Bytes
  simp only
  split
  · next h =>
    refine avx2Half_eq (fun q hq p hp => ?_) h
    interval_cases q <;> interval_cases p <;> rfl
  · next h =>
    have hshift : planeByte pl i l = planeByte pl (i + 4) (l - 32) := by
      refine gather_congr fun p _ => ?_
      rw [show i + 4 + (l - 32) / 8 = i + l / 8 by omega, show (l - 32) % 8 = l % 8 by omega]
    rw [hshift]
    refine avx2Half_eq (fun q hq p hp => ?_) (by omega)
    interval_cases q <;> interval_cases p <;> rfl

theorem vecGb_eq {v : Nat → Byte} {pl : Nat → Memory} {i : Nat}
    (hbytes : ∀ q, q < 2 → ∀ p, p < 8 → v (8 * q + p) = pl p (i + q)) {l : Nat} (hl : l < 16) :
    vecGb v l = planeByte pl i l := by
  refine gather_congr fun p hp => ?_
  rw [hbytes (l / 8) (by omega) p hp]

theorem vsxBytes_eq (pl : Nat → Memory) (i : Nat) {l : Nat} (hl : l < 64) :
    vsxBytes pl i l = planeByte pl i l := by
  have hshift : planeByte pl i l = planeByte pl (i + 2 * (l / 16)) (l % 16) := by
    refine gather_congr fun p _ => ?_
    rw [show i + 2 * (l / 16) + l % 16 / 8 = i + l / 8 by omega, show l % 16 % 8 = l % 8 by omega]
  have h16 : l % 16 < 16 := Nat.mod_lt l (by decide)
  have hcases : l / 16 = 0 ∨ l / 16 = 1 ∨ l / 16 = 2 ∨ l / 16 = 3 := by omega
  rw [hshift]
  unfold vsxBytes
  rcases hcases with h | h | h | h <;> rw [h]
  all_goals
    refine vecGb_eq (fun q hq p hp => ?_) h16
    interval_cases q <;> interval_cases p <;> rfl

/-! ## Zero tests -/

theorem wordAt_eq_zero {w : Nat} {p : Memory} {k : Nat} :
    wordAt w p k = 0#(8 * w) ↔ ∀ b, b < w → p (k + b) = 0#8 := by
  constructor
  · intro h b hb
    refine BitVec.eq_of_getLsbD_eq fun i hi => ?_
    have hbit := congrArg (fun x => BitVec.getLsbD x (8 * b + i)) h
    simp only [wordAt, getLsbD_gather, BitVec.getLsbD_zero] at hbit
    rw [decide_eq_true (by omega), Bool.true_and, show (8 * b + i) / 8 = b by omega,
      show (8 * b + i) % 8 = i by omega] at hbit
    rw [hbit, BitVec.getLsbD_zero]
  · intro h
    refine BitVec.eq_of_getLsbD_eq fun i hi => ?_
    rw [wordAt, getLsbD_gather, h (i / 8) (by omega)]
    simp

theorem foldl_or_eq_zero {w : Nat} (f : Nat → BitVec w) (ks : List Nat) (x : BitVec w) :
    ks.foldl (fun acc k => acc ||| f k) x = 0#w ↔ x = 0#w ∧ ∀ k ∈ ks, f k = 0#w := by
  induction ks generalizing x with
  | nil => simp
  | cons k ks ih =>
    rw [List.foldl_cons, ih, BitVec.or_eq_zero_iff]
    simp only [List.mem_cons, forall_eq_or_imp, and_assoc]

theorem allZero_iff {w n : Nat} (hw : 0 < w) (h512 : w ∣ 512) (hn : w ∣ n) (p : Memory) :
    allZero w p n = true ↔ ∀ i, i < n → p i = 0#8 := by
  simp only [allZero, List.all_eq_true, beq_iff_eq, foldl_or_eq_zero, true_and, wordAt_eq_zero]
  constructor
  · intro h i hi
    -- the word of byte `i` in its step of 512
    have hstep : i / 512 * 512 ∈ strided 0 n 512 :=
      (mem_strided (by decide)).mpr ⟨Nat.zero_le _, by omega, by simp⟩
    obtain ⟨c, hc⟩ := h512
    have hdvd : w ∣ i / 512 * 512 := by
      rw [hc]
      exact Dvd.dvd.mul_left (Dvd.intro _ rfl) _
    have hmod := Nat.mod_lt i hw
    have hdm := Nat.div_add_mod i w
    obtain ⟨d, hd⟩ := hdvd
    have hle : i / 512 * 512 ≤ i := Nat.div_mul_le_self i 512
    have hfloor : i / 512 * 512 ≤ w * (i / w) := by
      rw [hd]
      exact Nat.mul_le_mul_left w ((Nat.le_div_iff_mul_le hw).mpr (by rw [Nat.mul_comm]; omega))
    have hword : w * (i / w) ∈ strided (i / 512 * 512) (min (i / 512 * 512 + 512) n) w := by
      refine (mem_strided hw).mpr ⟨hfloor, by omega, ?_⟩
      rw [hd, ← Nat.mul_sub, Nat.mul_mod_right]
    have hbyte := h _ hstep _ hword (i % w) hmod
    rwa [hdm] at hbyte
  · intro h i hi k hk b hb
    obtain ⟨hk₁, hk₂, hk₃⟩ := (mem_strided hw).mp hk
    obtain ⟨-, -, hi₃⟩ := (mem_strided (by decide)).mp hi
    refine h _ ?_
    -- words are whole in the block
    obtain ⟨c, hc⟩ := h512
    obtain ⟨d, rfl⟩ := hn
    have hdvd : w ∣ k := by
      have h₁ : w ∣ k - i := Nat.dvd_of_mod_eq_zero hk₃
      have h₂ : w ∣ i := by
        have h512i : 512 ∣ i := Nat.dvd_of_mod_eq_zero (by simpa using hi₃)
        exact (Dvd.intro _ hc.symm).trans h512i
      have h₃ := Nat.dvd_add h₁ h₂
      rwa [Nat.sub_add_cancel hk₁] at h₃
    obtain ⟨e, rfl⟩ := hdvd
    have hlt : e < d := Nat.lt_of_mul_lt_mul_left (show w * e < w * d by omega)
    have hmul := Nat.mul_le_mul_left w (show e + 1 ≤ d by omega)
    rw [Nat.mul_succ] at hmul
    omega

/-! ## The planes that are read -/

/-- `raw` is only filled behind `nzEnd`. -/
theorem zeroFill_below {raw : Memory} {start n i : Nat} (h : i < start) :
    zeroFill raw start n i = raw i := if_neg (by omega)

theorem highPlanesZero_spec {w ne nzEnd : Nat} {L raw : Memory} (hw : 0 < w) (h512 : w ∣ 512)
    (hne : w ∣ ne) (h : Stores L (2 * ne) nzEnd raw) :
    ((highPlanesZero w raw ne nzEnd).1 = true ↔ ∀ i, ne ≤ i → i < 2 * ne → L i = 0#8) ∧
    Stores L (2 * ne) nzEnd (highPlanesZero w raw ne nzEnd).2 ∧
    ∀ i, i < nzEnd → (highPlanesZero w raw ne nzEnd).2 i = raw i := by
  unfold highPlanesZero
  split
  · next hle => exact ⟨⟨fun _ i hi hlt => h.zeros i (hle.trans hi) hlt, fun _ => rfl⟩, h, fun _ _ => rfl⟩
  · simp only
    have hfull : ∀ i, i < 2 * ne →
        (if nzEnd < 2 * ne then zeroFill raw nzEnd (2 * ne - nzEnd) else raw) i = L i := by
      intro i hi
      split
      · exact h.fill le_rfl hi
      · exact h.stored i (by omega) hi
    refine ⟨?_, ?_, ?_⟩
    · rw [allZero_iff hw h512 hne]
      constructor
      · intro hz i hi hlt
        have hoff := hz (i - ne) (by omega)
        rw [offset, show ne + (i - ne) = i by omega, hfull i hlt] at hoff
        exact hoff
      · intro hz i hi
        rw [offset, hfull _ (by omega)]
        exact hz _ (by omega) (by omega)
    · exact ⟨fun i _ hi => hfull i hi, h.zeros⟩
    · intro i hi
      split
      · exact zeroFill_below hi
      · rfl

/-- The low planes that hold data. -/
def planesHeld (ne nzEnd : Nat) : Nat := (min ne nzEnd + ne / 8 - 1) / (ne / 8)

theorem planesHeld_le {ne nzEnd : Nat} (h8 : 8 ∣ ne) (hne : 0 < ne) : planesHeld ne nzEnd ≤ 8 := by
  obtain ⟨size, rfl⟩ := h8
  have hle := Nat.min_le_left (8 * size) nzEnd
  unfold planesHeld
  rw [Nat.mul_div_cancel_left size (by decide)]
  exact Nat.lt_succ_iff.mp ((Nat.div_lt_iff_lt_mul (by omega)).mpr (by omega))

theorem le_planesHeld {ne nzEnd : Nat} (h8 : 8 ∣ ne) (hne : 0 < ne) :
    min ne nzEnd ≤ planesHeld ne nzEnd * (ne / 8) := by
  have hsize : 0 < ne / 8 := by omega
  have hdm := Nat.div_add_mod (min ne nzEnd + ne / 8 - 1) (ne / 8)
  have hmod := Nat.mod_lt (min ne nzEnd + ne / 8 - 1) hsize
  rw [Nat.mul_comm] at hdm
  unfold planesHeld
  omega

/-- The planes that hold data are whole afterwards; nothing behind them changes. -/
theorem openPlanes_spec {L raw : Memory} {ne nzEnd : Nat} (h8 : 8 ∣ ne) (hne : 0 < ne)
    (h : Stores L (2 * ne) nzEnd raw) :
    ∃ raw', openPlanes raw ne nzEnd = .ok (planesHeld ne nzEnd, raw') ∧
      (∀ i, i < planesHeld ne nzEnd * (ne / 8) → raw' i = L i) ∧
      ∀ i, planesHeld ne nzEnd * (ne / 8) ≤ i → raw' i = raw i := by
  have hsize : ne / 8 ≠ 0 := by omega
  have hmin : (if ne < nzEnd then ne else nzEnd) = min ne nzEnd := by split <;> omega
  have hceil := @le_planesHeld ne nzEnd h8 hne
  have hle : planesHeld ne nzEnd * (ne / 8) ≤ ne := by
    have hmul := Nat.mul_le_mul_right (ne / 8) (@planesHeld_le ne nzEnd h8 hne)
    omega
  unfold openPlanes
  simp only [hsize, if_false, hmin]
  refine ⟨_, rfl, fun i hi => ?_, fun i hi => ?_⟩
  · change i < planesHeld ne nzEnd * (ne / 8) at hi
    change (if min ne nzEnd < planesHeld ne nzEnd * (ne / 8) then
      zeroFill raw (min ne nzEnd) (planesHeld ne nzEnd * (ne / 8) - min ne nzEnd) else raw) i = L i
    by_cases hstored : i < min ne nzEnd
    · have hraw : raw i = L i := h.stored i (by omega) (by omega)
      split
      · rw [zeroFill_below hstored, hraw]
      · exact hraw
    · rw [if_pos (by omega), zeroFill, if_pos (by omega)]
      exact (h.zeros i (by omega) (by omega)).symm
  · change (if min ne nzEnd < planesHeld ne nzEnd * (ne / 8) then
      zeroFill raw (min ne nzEnd) (planesHeld ne nzEnd * (ne / 8) - min ne nzEnd) else raw) i = raw i
    split
    · exact if_neg (by omega)
    · rfl

/-- What the pointers to the low planes read in the block. -/
def ReadsPlanes (L raw' : Memory) (ne np : Nat) : Prop :=
  ∀ start p i, p < 8 → start + i < ne / 8 →
    planePtr raw' (ne / 8) np start p i = L (p * (ne / 8) + (start + i))

/-- Plane `p` holds the bytes `[p * size, (p + 1) * size)` of the block, also where it is read
from the zeros. -/
theorem readsPlanes_of {L raw raw' : Memory} {ne nzEnd : Nat} (h8 : 8 ∣ ne) (hne : 0 < ne)
    (h : Stores L (2 * ne) nzEnd raw)
    (hlow : ∀ i, i < planesHeld ne nzEnd * (ne / 8) → raw' i = L i) :
    ReadsPlanes L raw' ne (planesHeld ne nzEnd) := by
  intro start p i hp hi
  have hceil := @le_planesHeld ne nzEnd h8 hne
  have hplane : p * (ne / 8) + (start + i) < ne := by
    have hmul := Nat.mul_le_mul_right (ne / 8) (show p + 1 ≤ 8 by omega)
    rw [Nat.add_mul] at hmul
    omega
  unfold planePtr
  split
  · next hlt =>
    have hmul := Nat.mul_le_mul_right (ne / 8) (show p + 1 ≤ planesHeld ne nzEnd by omega)
    rw [Nat.add_mul] at hmul
    rw [Nat.add_assoc]
    exact hlow _ (by omega)
  · next hge =>
    have hmul := Nat.mul_le_mul_right (ne / 8) (show planesHeld ne nzEnd ≤ p by omega)
    exact (h.zeros _ (by omega) (by omega)).symm

/-- Pixel `e` of the low planes. -/
def lowByte (L : Memory) (ne e : Nat) : Byte :=
  gather 8 fun p => (L (p * (ne / 8) + e / 8)).getLsbD (e % 8)

/-- A pixel below 256 is its low byte. -/
theorem planePixel_low {L : Memory} {ne e : Nat} (ht : t.size = 2) (h8 : 8 ∣ ne) (he : e < ne)
    (hhigh : ∀ i, ne ≤ i → i < 2 * ne → L i = 0#8) :
    planePixel t L ne e = (lowByte L ne e).setWidth t.bits := by
  refine BitVec.eq_of_getLsbD_eq fun k hk => ?_
  have hk16 : k < 8 * 2 := by rwa [Dtype.bits, ht] at hk
  rw [planePixel, lowByte, getLsbD_gather, BitVec.getLsbD_setWidth, getLsbD_gather,
    decide_eq_true hk]
  simp only [Bool.true_and]
  by_cases hlow : k < 8
  · rw [decide_eq_true hlow, Bool.true_and]
  · have hzero : L (k * (ne / 8) + e / 8) = 0#8 := by
      refine hhigh _ ?_ ?_
      · obtain ⟨m, rfl⟩ := h8
        have hmul := Nat.mul_le_mul_right (8 * m / 8) (show 8 ≤ k by omega)
        rw [Nat.mul_div_cancel_left m (by decide)] at *
        omega
      · have hlt := @plane_lt ne 2 k e h8 hk16 he
        omega
    rw [hzero, decide_eq_false hlow, Bool.false_and, BitVec.getLsbD_zero]

/-! ## Two passes over a tile -/

/-- The groups recorded one after another. -/
theorem recorded_fold (U : Nat → Nat → Byte) (S : Nat → BitVec 64) :
    ∀ (gs : List Nat), gs.Nodup → ∀ r : Recorded,
      let r' := gs.foldl (fun r g => r.store g (U g) (S g)) r
      (∀ g, g ∈ gs → (∀ l, l < 64 → r'.ubuf (64 * g + l) = U g l) ∧ r'.kv g = S g ∧
        testAt r'.gm g = (testAt r.gm g || decide (S g ≠ 0#64))) ∧
      (∀ g, g ∉ gs → (∀ l, l < 64 → r'.ubuf (64 * g + l) = r.ubuf (64 * g + l)) ∧
        r'.kv g = r.kv g ∧ testAt r'.gm g = testAt r.gm g) := by
  intro gs
  induction gs with
  | nil => exact fun _ r => ⟨fun g hg => absurd hg List.not_mem_nil, fun g _ => ⟨fun _ _ => rfl, rfl, rfl⟩⟩
  | cons g gs ih =>
    intro hnd r
    obtain ⟨hg, hnd⟩ := List.nodup_cons.mp hnd
    obtain ⟨hin, hout⟩ := ih hnd (r.store g (U g) (S g))
    have htest : ∀ h, testAt (r.store g (U g) (S g)).gm h =
        (testAt r.gm h || (decide (h = g) && decide (S g ≠ 0#64))) := by
      intro h
      have hone : ∀ k, 1 ≤ k → (if S g = 0#64 then 0#64 else 1#64).getLsbD k = false := by
        intro k hk
        split
        · exact BitVec.getLsbD_zero
        · rw [BitVec.getLsbD_one]
          simp
          omega
      rw [Recorded.store, testAt_orAt r.gm (n := 1) (by omega) hone]
      congr 1
      by_cases heq : h = g
      · subst heq
        rw [decide_eq_true ⟨le_rfl, Nat.lt_succ_self h⟩, decide_eq_true rfl, Nat.sub_self]
        by_cases h0 : S h = 0#64
        · simp [h0]
        · simp [h0]
      · rw [decide_eq_false (by omega), decide_eq_false heq]
        simp
    have hbuf : ∀ h, h ≠ g → ∀ l, l < 64 →
        (r.store g (U g) (S g)).ubuf (64 * h + l) = r.ubuf (64 * h + l) :=
      fun h hne l hl => if_neg (by omega)
    rw [List.foldl_cons]
    refine ⟨fun h hh => ?_, fun h hh => ?_⟩
    · by_cases heq : h = g
      · subst heq
        obtain ⟨h₁, h₂, h₃⟩ := hout h hg
        refine ⟨fun l hl => ?_, ?_, ?_⟩
        · rw [h₁ l hl]
          change (if 64 * h ≤ 64 * h + l ∧ 64 * h + l < 64 * h + 64 then _ else _) = _
          rw [if_pos (by omega), Nat.add_sub_cancel_left]
        · rw [h₂]
          exact if_pos rfl
        · rw [h₃, htest, decide_eq_true rfl, Bool.true_and]
      · have hmem : h ∈ gs := (List.mem_cons.mp hh).resolve_left heq
        obtain ⟨h₁, h₂, h₃⟩ := hin h hmem
        exact ⟨h₁, h₂, by rw [h₃, htest, decide_eq_false heq, Bool.false_and, Bool.or_false]⟩
    · have hne : h ≠ g := fun heq => hh (heq ▸ List.mem_cons_self)
      have hnot : h ∉ gs := fun hmem => hh (List.mem_cons_of_mem g hmem)
      obtain ⟨h₁, h₂, h₃⟩ := hout h hnot
      refine ⟨fun l hl => (h₁ l hl).trans (hbuf h hne l hl), ?_, ?_⟩
      · rw [h₂]
        exact if_neg hne
      · rw [h₃, htest, decide_eq_false hne, Bool.false_and, Bool.or_false]

/-- The bitmap of the groups with data, over tiles of whole steps. -/
theorem busyGroups_spec {step tsize : Nat} (pl : Nat → Memory)
    (hstep : step = 32 ∨ step = 64) (ht : step ∣ tsize) (g : Nat) :
    (testAt (busyGroups step pl tsize) g = false → g < tsize / 8 →
      ∀ p, p < 8 → ∀ b, b < 8 → pl p (8 * g + b) = 0#8) ∧
    (tsize / 8 ≤ g → testAt (busyGroups step pl tsize) g = false) := by
  set word : Nat → BitVec 64 := fun i => (gather (step / 8) fun q =>
    (List.range 8).any fun b =>
      (List.range 8).foldl (fun acc p => acc ||| pl p (i + (8 * q + b))) 0#8 != 0#8).setWidth 64
    with hword
  have hstep0 : 0 < step := by omega
  have h8 : 8 ∣ step := by omega
  have h64 : step ∣ 512 := by rcases hstep with rfl | rfl <;> decide
  have hwide : ∀ i k, step / 8 ≤ k → (word i).getLsbD k = false := by
    intro i k hk
    rw [hword, BitVec.getLsbD_setWidth, getLsbD_gather,
      decide_eq_false (show ¬ k < step / 8 by omega), Bool.false_and, Bool.and_false]
  -- a bit of the bitmap is a bit of the word of some step
  have hfold : ∀ (is : List Nat), (∀ i ∈ is, step ∣ i) → ∀ bm : Bitmap,
      testAt (is.foldl (fun gnz i => orAt gnz (i / 8) (word i)) bm) g =
        (testAt bm g || is.any fun i =>
          decide (i / 8 ≤ g ∧ g < i / 8 + step / 8) && (word i).getLsbD (g - i / 8)) := by
    intro is
    induction is with
    | nil => intro _ bm; simp
    | cons i is ih =>
      intro hdvd bm
      have hi := hdvd i List.mem_cons_self
      have hfit : i / 8 % 64 + step / 8 ≤ 64 := by
        rcases hstep with rfl | rfl <;> omega
      rw [List.foldl_cons, ih fun j hj => hdvd j (List.mem_cons_of_mem i hj),
        testAt_orAt bm hfit (hwide i), List.any_cons, Bool.or_assoc]
  have hmem : ∀ i, i ∈ strided 0 tsize step ↔ i < tsize ∧ step ∣ i := by
    intro i
    rw [mem_strided hstep0]
    simp only [Nat.zero_le, true_and, Nat.sub_zero, Nat.dvd_iff_mod_eq_zero]
  have hbusy : testAt (busyGroups step pl tsize) g = (strided 0 tsize step).any fun i =>
      decide (i / 8 ≤ g ∧ g < i / 8 + step / 8) && (word i).getLsbD (g - i / 8) := by
    have hempty : testAt (fun _ => 0#64) g = false := BitVec.getLsbD_zero
    have h := hfold (strided 0 tsize step) (fun i hi => ((hmem i).mp hi).2) fun _ => 0#64
    rw [hempty, Bool.false_or] at h
    exact h
  rw [hbusy]
  constructor
  · intro hnone hg p hp b hb
    set i := 8 * g / step * step with hi
    have hdm := Nat.div_add_mod (8 * g) step
    have hmod := Nat.mod_lt (8 * g) hstep0
    have hi8 : i + 8 * g % step = 8 * g := by rw [hi, Nat.mul_comm]; exact hdm
    have hin : i ∈ strided 0 tsize step := (hmem i).mpr ⟨by omega, Dvd.intro_left _ rfl⟩
    have hdvd8 : 8 ∣ i := h8.trans (Dvd.intro_left _ rfl)
    have hno := List.any_eq_false.mp hnone i hin
    have hq : g - i / 8 < step / 8 := by omega
    rw [decide_eq_true (show i / 8 ≤ g ∧ g < i / 8 + step / 8 by omega), Bool.true_and, hword,
      BitVec.getLsbD_setWidth, getLsbD_gather, decide_eq_true hq,
      decide_eq_true (show g - i / 8 < 64 by omega), Bool.true_and, Bool.true_and] at hno
    have hbyte := List.any_eq_false.mp (Bool.not_eq_true _ ▸ hno) b (List.mem_range.mpr hb)
    have hacc := bne_eq_false_iff_eq.mp (Bool.not_eq_true _ ▸ hbyte)
    have hzero := ((foldl_or_eq_zero (fun p => pl p (i + (8 * (g - i / 8) + b))) _ _).mp hacc).2 p
      (List.mem_range.mpr hp)
    rwa [show i + (8 * (g - i / 8) + b) = 8 * g + b by omega] at hzero
  · intro hg
    refine List.any_eq_false.mpr fun i hi => ?_
    obtain ⟨hlt, hdvd⟩ := (hmem i).mp hi
    have hend : i + step ≤ tsize := by
      obtain ⟨c, rfl⟩ := ht
      obtain ⟨d, rfl⟩ := hdvd
      have hdc : d < c := Nat.lt_of_mul_lt_mul_left hlt
      have hmul := Nat.mul_le_mul_left step (show d + 1 ≤ c by omega)
      rwa [Nat.mul_succ] at hmul
    rw [decide_eq_false (by omega), Bool.false_and]
    exact Bool.false_ne_true

end Bslz4ToSparse.Steps
