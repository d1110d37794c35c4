import Bslz4ToSparse.Steps.Untranspose

/-!
# The mask step in the bit-planes (src/steps/mask.h)

The pixel mask of a block is packed into words, one bit a pixel, and ANDed into every
bit-plane, so that masked pixels are zero before the untranspose.
-/

namespace Bslz4ToSparse.Steps

open Foundation
open Lz4 (Byte)

variable {t : Dtype}

/-- `BSLZ4_MASKPLANE_MAX_ELEMS`. -/
def maskplaneMaxElems : Nat := 8192

/-- The `mask` values. -/
inductive MaskStep where
  | pixel | planes | none
  deriving DecidableEq, Repr

/-- One word of the scalar loop. -/
def packWord (m : Memory) (w : Nat) : BitVec 64 :=
  (List.range 64).foldl (fun keep k =>
    keep ||| (BitVec.ofBool (m (64 * w + k) != 0#8)).setWidth 64 <<< k) 0#64

/-- One word of `bslz4_and_mask_avx512`, over all ones. -/
def packWordAvx512 (m : Memory) (w : Nat) : BitVec 64 :=
  BitVec.allOnes 64 &&& gather 64 fun k => m (64 * w + k) &&& m (64 * w + k) != 0#8

/-- `bslz4_pack_mask`: the words, and whether every pixel is unmasked. -/
def packMask (avx512 : Bool) (m : Memory) (ne : Nat) : (Nat → BitVec 64) × Bool :=
  let bits := fun w => if avx512 then packWordAvx512 m w else packWord m w
  (bits, (List.range (ne / 64)).foldl (fun all w => all &&& bits w) (BitVec.allOnes 64) ==
    BitVec.allOnes 64)

/-- Byte `j` of the packed words. -/
def maskByte (bits : Nat → BitVec 64) (j : Nat) : Byte := (bits (j / 8) >>> (8 * (j % 8))).setWidth 8

/-- `raw[start + j] &= mb[j]` for `lo <= j < hi`. -/
def andBytes (mb : Nat → Byte) (start lo hi : Nat) (raw : Memory) : Memory := fun i =>
  if start + lo ≤ i ∧ i < start + hi then raw i &&& mb (i - start) else raw i

/-- `bslz4_mask_planes_avx512` from plane start `p0` on: the planes, and where it stopped. -/
def maskPlanesAvx512 (mb : Nat → Byte) (nb nzEnd : Nat) : Nat → Nat → Memory → Memory × Nat
  | 0, p0, raw => (raw, min p0 nzEnd)
  | fuel + 1, p0, raw =>
      if p0 < nzEnd then
        let chunks := min (nb / 64) ((nzEnd - p0) / 64)
        let raw := (List.range chunks).foldl (fun raw k =>
          andBytes mb p0 (64 * k) (64 * k + 64) raw) raw
        if 64 * chunks < nb then (raw, min (p0 + 64 * chunks) nzEnd)
        else maskPlanesAvx512 mb nb nzEnd fuel (p0 + nb) raw
      else (raw, nzEnd)

/-- The loop of `bslz4_mask_planes` from plane start `p0` on, where the bytes before `i` are done. -/
def maskPlanesRest (mb : Nat → Byte) (nb nzEnd i : Nat) : Nat → Nat → Memory → Memory
  | 0, _, raw => raw
  | fuel + 1, p0, raw =>
      if p0 < nzEnd then
        maskPlanesRest mb nb nzEnd i fuel (p0 + nb)
          (andBytes mb p0 (if p0 < i then i - p0 else 0) (min (nzEnd - p0) nb) raw)
      else raw

/-- `bslz4_mask_planes`. -/
def maskPlanes (avx512 : Bool) (raw : Memory) (bits : Nat → BitVec 64) (nb nzEnd : Nat) : Memory :=
  let mb := maskByte bits
  let s := if avx512 ∧ nb % 64 = 0 then maskPlanesAvx512 mb nb nzEnd (nzEnd + 1) 0 raw else (raw, 0)
  maskPlanesRest mb nb nzEnd s.2 (nzEnd + 1) (s.2 - s.2 % nb) s.1

/-! ## The packed mask -/

theorem packWord_eq (m : Memory) (w : Nat) :
    packWord m w = gather 64 fun k => m (64 * w + k) != 0#8 := by
  have hfold : ∀ n, n ≤ 64 → (List.range n).foldl (fun keep k =>
      keep ||| (BitVec.ofBool (m (64 * w + k) != 0#8)).setWidth 64 <<< k) 0#64 =
      gather 64 fun k => decide (k < n) && m (64 * w + k) != 0#8 := by
    intro n
    induction n with
    | zero =>
      intro _
      refine BitVec.eq_of_getLsbD_eq fun k hk => ?_
      simp [getLsbD_gather]
    | succ n ih =>
      intro hn
      rw [List.range_succ, List.foldl_append, ih (by omega), List.foldl_cons, List.foldl_nil]
      refine BitVec.eq_of_getLsbD_eq fun k hk => ?_
      rw [BitVec.getLsbD_or, getLsbD_gather, getLsbD_gather, BitVec.getLsbD_shiftLeft,
        BitVec.getLsbD_setWidth, BitVec.getLsbD_ofBool]
      rcases Nat.lt_trichotomy k n with h | h | h
      · have h1 : k < n + 1 := by omega
        simp [hk, h, h1]
      · subst h
        simp [hk]
      · have h1 : ¬ k < n + 1 := by omega
        have h2 : ¬ k < n := by omega
        have h3 : k - n ≠ 0 := by omega
        simp [h1, h2, h3]
  rw [packWord, hfold 64 le_rfl]
  exact gather_congr fun k hk => by rw [decide_eq_true hk, Bool.true_and]

theorem packMask_word (avx512 : Bool) (m : Memory) (ne w : Nat) :
    (packMask avx512 m ne).1 w = gather 64 fun k => m (64 * w + k) != 0#8 := by
  cases avx512 with
  | true =>
    change packWordAvx512 m w = _
    rw [packWordAvx512, BitVec.allOnes_and]
    exact gather_congr fun k _ => by rw [BitVec.and_self]
  | false => exact packWord_eq m w

/-- Bit `i` of byte `j` is the mask of pixel `8 * j + i`. -/
theorem getLsbD_maskByte (avx512 : Bool) (m : Memory) (ne j : Nat) {i : Nat} (hi : i < 8) :
    (maskByte (packMask avx512 m ne).1 j).getLsbD i = (m (8 * j + i) != 0#8) := by
  have hlt : 8 * (j % 8) + i < 64 := by omega
  have hidx : 64 * (j / 8) + (8 * (j % 8) + i) = 8 * j + i := by omega
  rw [maskByte, BitVec.getLsbD_setWidth, BitVec.getLsbD_ushiftRight, packMask_word, getLsbD_gather,
    hidx]
  simp [hi, hlt]

/-- The words ANDed together are all ones exactly when each of them is. -/
theorem foldl_and_eq_allOnes (bits : Nat → BitVec 64) (n : Nat) :
    (List.range n).foldl (fun all w => all &&& bits w) (BitVec.allOnes 64) = BitVec.allOnes 64 ↔
      ∀ w, w < n → bits w = BitVec.allOnes 64 := by
  induction n with
  | zero => simp
  | succ n ih =>
    rw [List.range_succ, List.foldl_append, List.foldl_cons, List.foldl_nil]
    constructor
    · intro hall w hw
      have hbits : ∀ k, k < 64 →
          ((List.range n).foldl (fun all w => all &&& bits w) (BitVec.allOnes 64)).getLsbD k = true ∧
            (bits n).getLsbD k = true := by
        intro k hk
        have hk' := congrArg (fun x => BitVec.getLsbD x k) hall
        simp only [BitVec.getLsbD_and, BitVec.getLsbD_allOnes, hk, decide_true] at hk'
        exact Bool.and_eq_true_iff.mp hk'
      rcases Nat.lt_or_ge w n with hlt | hge
      · refine ih.mp (BitVec.eq_of_getLsbD_eq fun k hk => ?_) w hlt
        rw [(hbits k hk).1, BitVec.getLsbD_allOnes, decide_eq_true hk]
      · obtain rfl : w = n := by omega
        refine BitVec.eq_of_getLsbD_eq fun k hk => ?_
        rw [(hbits k hk).2, BitVec.getLsbD_allOnes, decide_eq_true hk]
    · intro hall
      rw [ih.mpr fun w hw => hall w (by omega), hall n (Nat.lt_succ_self n), BitVec.and_self]

/-- The block needs no AND exactly when no pixel of it is masked. -/
theorem packMask_unmasked_iff (avx512 : Bool) (m : Memory) {ne : Nat} (hne : 64 ∣ ne) :
    (packMask avx512 m ne).2 = true ↔ ∀ e, e < ne → m e ≠ 0#8 := by
  obtain ⟨c, rfl⟩ := hne
  have hfold := foldl_and_eq_allOnes (packMask avx512 m (64 * c)).1 (64 * c / 64)
  rw [Nat.mul_div_cancel_left c (by decide)] at hfold
  have hall : (packMask avx512 m (64 * c)).2 = true ↔
      ∀ w, w < c → (packMask avx512 m (64 * c)).1 w = BitVec.allOnes 64 := by
    rw [← hfold]
    change ((List.range (64 * c / 64)).foldl _ _ == _) = true ↔ _
    rw [beq_iff_eq, Nat.mul_div_cancel_left c (by decide)]
    rfl
  rw [hall]
  constructor
  · intro h e he
    have hones := h (e / 64) (by omega)
    rw [packMask_word] at hones
    have hbit := congrArg (fun x => BitVec.getLsbD x (e % 64)) hones
    have hmod : e % 64 < 64 := Nat.mod_lt e (by decide)
    simp only [getLsbD_gather, BitVec.getLsbD_allOnes, hmod, decide_true, Bool.true_and,
      Nat.div_add_mod] at hbit
    exact bne_iff_ne.mp hbit
  · intro h w hw
    rw [packMask_word]
    refine BitVec.eq_of_getLsbD_eq fun k hk => ?_
    rw [getLsbD_gather, BitVec.getLsbD_allOnes, decide_eq_true hk, Bool.true_and]
    exact bne_iff_ne.mpr (h _ (by omega))

/-! ## The planes -/

/-- The bytes `[a, b)` ANDed with the mask bytes of their planes. -/
def andPlanes (mb : Nat → Byte) (nb a b : Nat) (raw : Memory) : Memory := fun i =>
  if a ≤ i ∧ i < b then raw i &&& mb (i % nb) else raw i

theorem andPlanes_append (mb : Nat → Byte) (nb : Nat) {a b c : Nat} (hab : a ≤ b) (hbc : b ≤ c)
    (raw : Memory) : andPlanes mb nb b c (andPlanes mb nb a b raw) = andPlanes mb nb a c raw := by
  funext i
  unfold andPlanes
  rcases Nat.lt_or_ge i b with h | h
  · rw [if_neg (by omega)]
    refine if_congr (by omega) rfl rfl
  · rw [if_neg (show ¬ (a ≤ i ∧ i < b) by omega)]
    refine if_congr (by omega) rfl rfl

theorem andPlanes_empty (mb : Nat → Byte) (nb : Nat) {a b : Nat} (h : b ≤ a) (raw : Memory) :
    andPlanes mb nb a b raw = raw :=
  funext fun i => if_neg (by omega)

/-- Bytes of one plane. -/
theorem andBytes_eq (mb : Nat → Byte) {nb p0 lo hi : Nat} (hp : nb ∣ p0) (hhi : hi ≤ nb)
    (raw : Memory) : andBytes mb p0 lo hi raw = andPlanes mb nb (p0 + lo) (p0 + hi) raw := by
  funext i
  unfold andBytes andPlanes
  by_cases h : p0 + lo ≤ i ∧ i < p0 + hi
  · have hmod : i % nb = i - p0 := by
      obtain ⟨c, rfl⟩ := hp
      have hi : i = nb * c + (i - nb * c) := by omega
      rw [hi, Nat.mul_add_mod, Nat.mod_eq_of_lt (by omega), Nat.add_sub_cancel_left]
    rw [if_pos h, if_pos h, hmod]
  · rw [if_neg h, if_neg h]

theorem maskPlanesAvx512_spec (mb : Nat → Byte) {nb nzEnd : Nat} (hnb : 0 < nb) (h64 : 64 ∣ nb) :
    ∀ fuel p0 raw, nb ∣ p0 → nzEnd < fuel + p0 → ∃ stop, stop ≤ nzEnd ∧ min p0 nzEnd ≤ stop ∧
      maskPlanesAvx512 mb nb nzEnd fuel p0 raw = (andPlanes mb nb p0 stop raw, stop) := by
  intro fuel
  induction fuel with
  | zero =>
    intro p0 raw _ hf
    refine ⟨min p0 nzEnd, Nat.min_le_right _ _, le_rfl, ?_⟩
    rw [maskPlanesAvx512, andPlanes_empty _ _ (by omega)]
  | succ fuel ih =>
    intro p0 raw hp hf
    rw [maskPlanesAvx512]
    by_cases hlt : p0 < nzEnd
    · rw [if_pos hlt]
      simp only
      set chunks := min (nb / 64) ((nzEnd - p0) / 64) with hchunks
      have hle : 64 * chunks ≤ nb := by omega
      have hle' : p0 + 64 * chunks ≤ nzEnd := by omega
      have hfold : ∀ c, 64 * c ≤ nb → (List.range c).foldl (fun raw k =>
          andBytes mb p0 (64 * k) (64 * k + 64) raw) raw =
          andPlanes mb nb p0 (p0 + 64 * c) raw := by
        intro c
        induction c with
        | zero => intro _; rw [andPlanes_empty _ _ (by omega)]; rfl
        | succ c ihc =>
          intro hc
          rw [List.range_succ, List.foldl_append, ihc (by omega), List.foldl_cons, List.foldl_nil,
            andBytes_eq mb hp (by omega), andPlanes_append _ _ (by omega) (by omega)]
          rfl
      rw [hfold chunks hle]
      split
      · exact ⟨p0 + 64 * chunks, hle', by omega, by rw [Nat.min_eq_left hle']⟩
      · next hge =>
        have heq : 64 * chunks = nb := by omega
        obtain ⟨stop, hstop, hmin, hrec⟩ := ih (p0 + nb) (andPlanes mb nb p0 (p0 + 64 * chunks) raw)
          (Nat.dvd_add hp dvd_rfl) (by omega)
        refine ⟨stop, hstop, by omega, ?_⟩
        rw [hrec, heq, andPlanes_append _ _ (by omega) (by omega)]
    · rw [if_neg hlt]
      exact ⟨nzEnd, le_rfl, Nat.min_le_right _ _, by rw [andPlanes_empty _ _ (by omega)]⟩

theorem maskPlanesRest_spec (mb : Nat → Byte) {nb nzEnd i : Nat} (hnb : 0 < nb) :
    ∀ fuel p0 raw, nb ∣ p0 → i < p0 + nb → nzEnd < fuel + p0 →
      maskPlanesRest mb nb nzEnd i fuel p0 raw = andPlanes mb nb (max p0 i) nzEnd raw := by
  intro fuel
  induction fuel with
  | zero =>
    intro p0 raw _ _ hf
    rw [maskPlanesRest, andPlanes_empty _ _ (by omega)]
  | succ fuel ih =>
    intro p0 raw hp hi hf
    rw [maskPlanesRest]
    split
    · next hlt =>
      have hlo : p0 + (if p0 < i then i - p0 else 0) = max p0 i := by split <;> omega
      rw [ih (p0 + nb) _ (Nat.dvd_add hp dvd_rfl) (by omega) (by omega),
        andBytes_eq mb hp (Nat.min_le_right _ _), hlo]
      rcases Nat.le_total (max p0 i) (p0 + min (nzEnd - p0) nb) with h | h
      · rcases Nat.le_total (nzEnd - p0) nb with h' | h'
        · rw [andPlanes_empty _ _ (show nzEnd ≤ max (p0 + nb) i by omega), Nat.min_eq_left h',
            show p0 + (nzEnd - p0) = nzEnd by omega]
        · rw [Nat.min_eq_right h', show max (p0 + nb) i = p0 + nb by omega,
            andPlanes_append _ _ (by omega) (by omega)]
      · -- the plane was done before
        rw [andPlanes_empty _ _ h, andPlanes_empty _ _ (by omega), andPlanes_empty _ _ (by omega)]
    · next hge => rw [andPlanes_empty _ _ (by omega)]

/-- The mask is ANDed into every plane up to `nzEnd`, by either loop. -/
theorem maskPlanes_eq (avx512 : Bool) (raw : Memory) (bits : Nat → BitVec 64) {nb nzEnd : Nat}
    (hnb : 0 < nb) :
    maskPlanes avx512 raw bits nb nzEnd = andPlanes (maskByte bits) nb 0 nzEnd raw := by
  have hrest : ∀ stop raw, stop ≤ nzEnd →
      maskPlanesRest (maskByte bits) nb nzEnd stop (nzEnd + 1) (stop - stop % nb) raw =
        andPlanes (maskByte bits) nb stop nzEnd raw := by
    intro stop raw hstop
    have hdm := Nat.div_add_mod stop nb
    have hmod := Nat.mod_lt stop hnb
    have hstart : stop - stop % nb = nb * (stop / nb) := by omega
    rw [maskPlanesRest_spec _ hnb _ _ _ (hstart ▸ Dvd.intro _ rfl) (by omega) (by omega),
      Nat.max_eq_right (Nat.sub_le _ _)]
  unfold maskPlanes
  simp only
  split
  · next h =>
    obtain ⟨stop, hstop, -, hrun⟩ := maskPlanesAvx512_spec (maskByte bits) hnb
      (Nat.dvd_of_mod_eq_zero h.2) (nzEnd + 1) 0 raw (dvd_zero nb) (Nat.lt_succ_self _)
    rw [hrun, hrest stop _ hstop, andPlanes_append _ _ (Nat.zero_le _) hstop]
  · exact hrest 0 raw (Nat.zero_le _)

/-- The planes with the mask ANDed in. -/
def maskedPlanes (m : Memory) (ne : Nat) (planes : Memory) : Memory := fun i =>
  planes i &&& gather 8 fun b => m (8 * (i % (ne / 8)) + b) != 0#8

/-- The masked pixels are zero and the others unchanged. -/
theorem planePixel_maskedPlanes (m planes : Memory) {ne e : Nat} (h8 : 8 ∣ ne) (he : e < ne) :
    planePixel t (maskedPlanes m ne planes) ne e =
      if m e != 0#8 then planePixel t planes ne e else 0#_ := by
  obtain ⟨c, rfl⟩ := h8
  have hdiv : e / 8 < c := Nat.div_lt_of_lt_mul he
  refine BitVec.eq_of_getLsbD_eq fun k hk => ?_
  have hmod : (k * c + e / 8) % c = e / 8 := by
    rw [Nat.mul_comm, Nat.mul_add_mod, Nat.mod_eq_of_lt hdiv]
  have hbit : e % 8 < 8 := Nat.mod_lt e (by decide)
  rw [planePixel, getLsbD_gather, maskedPlanes, BitVec.getLsbD_and, getLsbD_gather,
    Nat.mul_div_cancel_left c (by decide), hmod, Nat.div_add_mod]
  by_cases hm : (m e != 0#8) = true
  · rw [if_pos hm, planePixel, getLsbD_gather, Nat.mul_div_cancel_left c (by decide), hm]
    simp [hbit]
  · rw [if_neg hm, Bool.not_eq_true _ |>.mp hm]
    simp

/-- What is stored of the planes after the mask step. -/
theorem stores_maskPlanes {planes raw : Memory} {n nzEnd ne : Nat} (h : Stores planes n nzEnd raw)
    (avx512 avx512' : Bool) (m : Memory) (hne : 8 ≤ ne) :
    Stores (maskedPlanes m ne planes) n nzEnd
      (maskPlanes avx512' raw (packMask avx512 m ne).1 (ne / 8) nzEnd) := by
  have hbyte : ∀ j, maskByte (packMask avx512 m ne).1 j = gather 8 fun b => m (8 * j + b) != 0#8 := by
    intro j
    refine BitVec.eq_of_getLsbD_eq fun b hb => ?_
    rw [getLsbD_maskByte _ _ _ _ hb, getLsbD_gather, decide_eq_true hb, Bool.true_and]
  rw [maskPlanes_eq _ _ _ (show 0 < ne / 8 by omega)]
  constructor
  · intro i hi hin
    rw [andPlanes, if_pos ⟨Nat.zero_le i, hi⟩, h.stored i hi hin, hbyte]
    rfl
  · intro i hi hin
    rw [maskedPlanes, h.zeros i hi hin, BitVec.zero_and]

/-- The block that is stored up to `nzEnd`: zeros behind it. -/
def logical (raw : Memory) (nzEnd : Nat) : Memory := fun i => if i < nzEnd then raw i else 0#8

theorem stores_logical (raw : Memory) (n nzEnd : Nat) : Stores (logical raw nzEnd) n nzEnd raw :=
  ⟨fun _ hi _ => (if_pos hi).symm, fun _ hi _ => if_neg (Nat.not_lt.mpr hi)⟩

/-- A block that is stored is the logical one. -/
theorem logical_eq_of_stores {L raw : Memory} {n nzEnd i : Nat} (h : Stores L n nzEnd raw) (hi : i < n) :
    logical raw nzEnd i = L i := by
  unfold logical
  split
  · next hlt => exact h.stored i hlt hi
  · next hge => exact (h.zeros i (Nat.not_lt.mp hge) hi).symm

/-- Masking in the planes commutes with the inverse bitshuffle, and the mask of a block is found
to be empty exactly when it is. -/
theorem maskPlanes_commutes (avx512 avx512' : Bool) (m raw : Memory) {ne : Nat} (h64 : 64 ∣ ne)
    (hne : 0 < ne) (nb nzEnd : Nat) :
    (∀ out out', Unshuffled (logical raw nzEnd) out ne nb →
      Unshuffled (logical (maskPlanes avx512' raw (packMask avx512 m ne).1 (ne / 8) nzEnd) nzEnd)
        out' ne nb →
      ∀ e, e < ne → ∀ b, b < nb → out' (e * nb + b) = if m e = 0#8 then 0#8 else out (e * nb + b)) ∧
    ((packMask avx512 m ne).2 = true ↔ ∀ e, e < ne → m e ≠ 0#8) := by
  have h8 : 8 ∣ ne := (by decide : 8 ∣ 64).trans h64
  refine ⟨fun out out' hout hout' e he b hb => ?_, packMask_unmasked_iff avx512 m h64⟩
  have hst := stores_maskPlanes (stores_logical raw (ne * nb) nzEnd) avx512 avx512' m (by omega : 8 ≤ ne)
  refine BitVec.eq_of_getLsbD_eq fun i hi => ?_
  have hplane := plane_lt h8 (show 8 * b + i < 8 * nb by omega) he
  have hmod : ((8 * b + i) * (ne / 8) + e / 8) % (ne / 8) = e / 8 := by
    rw [Nat.mul_comm, Nat.mul_add_mod, Nat.mod_eq_of_lt (by omega)]
  have hbit : e % 8 < 8 := Nat.mod_lt e (by decide)
  rw [hout' e he b hb i hi, logical_eq_of_stores hst hplane, maskedPlanes, BitVec.getLsbD_and, getLsbD_gather,
    hmod, Nat.div_add_mod, decide_eq_true hbit, Bool.true_and]
  by_cases hm : m e = 0#8
  · rw [if_pos hm, hm, BitVec.getLsbD_zero]
    simp
  · rw [if_neg hm, hout e he b hb i hi, bne_iff_ne.mpr hm, Bool.and_true]

/-- One masked pixel of 64, the planes stored up to the middle of the second one. -/
theorem maskPlanes_commutes_one :
    let m : Memory := fun e => if e = 9 then 0#8 else 1#8
    let raw : Memory := fun _ => 0xff#8
    ∀ out', Unshuffled (logical (maskPlanes true raw (packMask false m 64).1 8 12) 12) out' 64 2 →
      out' (9 * 2 + 0) = 0#8 ∧ out' (8 * 2 + 0) = 3#8 := by
  intro m raw out' hout'
  obtain ⟨h, -⟩ := maskPlanes_commutes false true m raw (by decide : 64 ∣ 64) (by decide) 2 12
  have hout := unshuffled_scal (logical raw 12) 64 2
  refine ⟨(h _ out' hout hout' 9 (by decide) 0 (by decide)).trans (if_pos rfl), ?_⟩
  rw [h _ out' hout hout' 8 (by decide) 0 (by decide)]
  decide +kernel

end Bslz4ToSparse.Steps
