import Bslz4ToSparse.Dot.FixedExact

/-!
# Clipping afterwards (src/conveyor/_clip.py)

The excess of every listed pixel above `wtmax`, times its weights, is subtracted from the
exact powder. The values and the sums are `int64`.
-/

namespace Bslz4ToSparse.Conveyor

open Foundation Matrix Dot

variable {F : Type} {t : Dtype} {w : Nat}

/-- `values.astype(np.int64)`. -/
def astypeInt64 (v : Pixel t) : BitVec 64 := BitVec.ofInt 64 v.value

/-- `v > wtmax`. -/
def hot (wtmax : Int) (v : Pixel t) : Bool := decide (wtmax < (astypeInt64 v).toInt)

/-- One frame of `clip_exact_powder`: its powder, and its pixel list. -/
def clipFrame (weights : NormalMatrix (BitVec 64)) (wtmax : Int) (out : Nat → BitVec 64)
    (list : List (Nat × Pixel t)) : Nat → BitVec 64 :=
  let hots := list.filter fun e => hot wtmax e.2
  if hots.isEmpty then out
  else fun b => out b - (hots.map fun e =>
    columnSum id (weights.column e.1) (astypeInt64 e.2 - BitVec.ofInt 64 wtmax) b).sum

/-- `clip_exact_powder`, with the lists of the frames. -/
def clipExactPowder (powder : Nat → Nat → BitVec 64) (lists : List (List (Nat × Pixel t)))
    (wtmax : Int) (weights : NormalMatrix (BitVec 64)) : Nat → Nat → BitVec 64 := fun i =>
  match lists[i]? with
  | some list => clipFrame weights wtmax (powder i) list
  | none => powder i

/-- A pixel clipped to `wtmax`. -/
def clip (wtmax : Int) (v : Pixel t) : Pixel t :=
  if wtmax < v.value then BitVec.ofInt _ wtmax else v

/-- The list of a frame has its pixels, each once, and every unmasked one above `wtmax`. -/
structure KeepsAbove (mask : Nat → Bool) (npix : Nat) (wtmax : Int) (frame : Nat → Pixel t)
    (list : List (Nat × Pixel t)) : Prop where
  nodup : (list.map Prod.fst).Nodup
  pixels : ∀ e ∈ list, e.1 < npix ∧ mask e.1 = true ∧ e.2 = frame e.1
  above : ∀ p, p < npix → mask p = true → wtmax < (frame p).value → p ∈ list.map Prod.fst

/-- The weighted excess of the pixels above `wtmax` that are negative as an `int64`. -/
def lostExcess (fx : FixedPointMatrix F w) (wtmax : Int) (frame : Nat → Pixel t) (b : Nat) :
    BitVec 64 :=
  (((List.range fx.nm.npix).filter fun p =>
    decide (2 ^ 63 ≤ (frame p).value ∧ wtmax < (frame p).value)).map fun p =>
      columnSum (BitVec.setWidth 64) (fx.weights.column p)
        (BitVec.ofInt 64 ((frame p).value - wtmax)) b).sum

/-! ## Values -/

theorem value_lt_two_pow (v : Pixel t) : v.value < 2 ^ 64 := by
  have h := v.value_natAbs_lt
  have hbits : t.bits ≤ 64 := by cases t <;> decide
  have hpow : 2 ^ t.bits ≤ 2 ^ 64 := Nat.pow_le_pow_right (by decide) hbits
  omega

theorem neg_le_value (v : Pixel t) : -2 ^ 63 ≤ v.value := by
  unfold Pixel.value
  split
  · have h := BitVec.le_toInt v
    have hbits : t.bits - 1 ≤ 63 := by cases t <;> decide
    have hpow : 2 ^ (t.bits - 1) ≤ 2 ^ 63 := Nat.pow_le_pow_right (by decide) hbits
    have hcast : ((2 ^ (t.bits - 1) : Nat) : Int) ≤ ((2 ^ 63 : Nat) : Int) := Int.ofNat_le.mpr hpow
    push_cast at hcast h
    omega
  · omega

/-- A value of 2^63 or more wraps; the others keep their value. -/
theorem hot_iff {wtmax : Int} (hw : 0 ≤ wtmax) (v : Pixel t) :
    hot wtmax v = true ↔ wtmax < v.value ∧ v.value < 2 ^ 63 := by
  have hlow := neg_le_value v
  have hhigh := value_lt_two_pow v
  rw [hot, decide_eq_true_iff, astypeInt64, BitVec.toInt_ofInt]
  rcases Int.lt_or_le v.value (2 ^ 63) with h | h
  · rw [Int.bmod_eq_of_le (by omega) (by omega)]
    omega
  · have hwrap : v.value.bmod (2 ^ 64) = v.value - 2 ^ 64 := by
      rw [Int.bmod_def]
      omega
    rw [hwrap]
    omega

theorem value_clip {wtmax : Int} (hw : 0 ≤ wtmax) (v : Pixel t) :
    (clip wtmax v).value = if wtmax < v.value then wtmax else v.value := by
  unfold clip
  split
  · next h =>
    -- below a value of the type, so it is one
    unfold Pixel.value at *
    split
    · next hs =>
      rw [if_pos hs] at h
      have hpos := t.size_pos
      have htop : v.toInt < 2 ^ (t.bits - 1) := BitVec.toInt_lt
      have hpow : (2 : Int) ^ t.bits = 2 * 2 ^ (t.bits - 1) := by
        conv_lhs => rw [show t.bits = t.bits - 1 + 1 by simp only [Dtype.bits]; omega, pow_succ]
        rw [mul_comm]
      rw [BitVec.toInt_ofInt, Int.bmod_eq_of_le]
      · push_cast
        omega
      · push_cast
        omega
    · next hs =>
      rw [if_neg hs] at h
      have htop := v.isLt
      rw [BitVec.toNat_ofInt]
      have hmod : wtmax % ((2 ^ t.bits : Nat) : Int) = wtmax :=
        Int.emod_eq_of_lt hw (h.trans (Int.ofNat_lt.mpr htop))
      rw [hmod, Int.toNat_of_nonneg hw]
  · rfl

/-! ## The correction -/

section

variable {fx : FixedPointMatrix F w} {mask : Nat → Bool} {wtmax : Int} {frame : Nat → Pixel t}
  {list : List (Nat × Pixel t)}

/-- What pixel `p` has to be corrected by in bin `b`. -/
def excess (fx : FixedPointMatrix F w) (wtmax : Int) (frame : Nat → Pixel t) (b p : Nat) : BitVec 64 :=
  columnSum (BitVec.setWidth 64) (fx.weights.column p) (BitVec.ofInt 64 ((frame p).value - wtmax)) b

theorem ofInt_sub (x y : Int) : BitVec.ofInt 64 (x - y) = BitVec.ofInt 64 x - BitVec.ofInt 64 y := by
  rw [Int.sub_eq_add_neg, BitVec.ofInt_add, BitVec.ofInt_neg, BitVec.sub_eq_add_neg]

theorem columnSum_sub (col : List (Nat × BitVec w)) (x y : BitVec 64) (b : Nat) :
    columnSum (BitVec.setWidth 64) col (x - y) b =
      columnSum (BitVec.setWidth 64) col x b - columnSum (BitVec.setWidth 64) col y b := by
  induction col with
  | nil => simp [columnSum]
  | cons e col ih =>
    have hcons : ∀ v, columnSum (BitVec.setWidth 64) (e :: col) v b =
        single e.1 (e.2.setWidth 64 * v) b + columnSum (BitVec.setWidth 64) col v b := fun _ => rfl
    rw [hcons, hcons, hcons, ih]
    unfold single
    split
    · rw [BitVec.mul_sub]
      ring
    · ring

/-- A sum over some of the numbers below `n`. -/
theorem sum_filter_range (n : Nat) (c : Nat → Bool) (g : Nat → BitVec 64) :
    (((List.range n).filter c).map g).sum =
      ((List.range n).map fun p => if c p then g p else 0).sum := by
  generalize List.range n = ps
  induction ps with
  | nil => rfl
  | cons p ps ih =>
    by_cases hp : c p = true
    · simp [hp, ih]
    · simp [hp, ih]

/-- Clipping the frame takes the excess of every pixel above `wtmax` out of the powder. -/
theorem fixedPowder_clip (hw : 0 ≤ wtmax) (b : Nat) :
    fixedPowder fx (fun p => clip wtmax (frame p)) b = fixedPowder fx frame b -
      (((List.range fx.nm.npix).filter fun p => decide (wtmax < (frame p).value)).map
        (excess fx wtmax frame b)).sum := by
  rw [fixedPowder_eq, fixedPowder_eq, sum_filter_range]
  unfold NormalMatrix.product
  change ((List.range fx.nm.npix).map _).sum = ((List.range fx.nm.npix).map _).sum - _
  generalize List.range fx.nm.npix = ps
  induction ps with
  | nil => simp
  | cons p ps ih =>
    rw [List.map_cons, List.sum_cons, ih, List.map_cons, List.sum_cons, List.map_cons, List.sum_cons]
    simp only [value_clip hw]
    by_cases hp : wtmax < (frame p).value
    · rw [if_pos hp, if_pos (decide_eq_true hp), excess, ofInt_sub, columnSum_sub]
      ring
    · rw [if_neg hp, if_neg (by simpa using hp)]
      ring

theorem excess_eq (p : Nat) (b : Nat) :
    columnSum id (fx.toScipy.column p) (astypeInt64 (frame p) - BitVec.ofInt 64 wtmax) b =
      excess fx wtmax frame b p := by
  rw [fx.toScipy_column, columnSum, List.map_map, excess, columnSum, ofInt_sub]
  rfl

/-- The pixels that are corrected. -/
theorem hots_perm (hw : 0 ≤ wtmax) (hlist : KeepsAbove mask fx.nm.npix wtmax frame list) :
    ((list.filter fun e => hot wtmax e.2).map Prod.fst).Perm
      ((List.range fx.nm.npix).filter fun p => mask p && hot wtmax (frame p)) := by
  have hleft : ((list.filter fun e => hot wtmax e.2).map Prod.fst).Nodup :=
    hlist.nodup.sublist (List.Sublist.map Prod.fst List.filter_sublist)
  have hright := (List.nodup_range (n := fx.nm.npix)).filter fun p => mask p && hot wtmax (frame p)
  apply (List.perm_ext_iff_of_nodup hleft hright).mpr
  intro p
  rw [List.mem_filter, List.mem_range, Bool.and_eq_true]
  constructor
  · intro hp
    obtain ⟨e, he, rfl⟩ := List.mem_map.mp hp
    obtain ⟨hmem, hhot⟩ := List.mem_filter.mp he
    obtain ⟨hlt, hmask, hval⟩ := hlist.pixels e hmem
    exact ⟨hlt, hmask, hval ▸ hhot⟩
  · rintro ⟨hlt, hmask, hhot⟩
    have hin := hlist.above p hlt hmask ((hot_iff hw _).mp hhot).1
    obtain ⟨e, he, rfl⟩ := List.mem_map.mp hin
    have hval := (hlist.pixels e he).2.2
    exact List.mem_map_of_mem (List.mem_filter.mpr ⟨he, hval.symm ▸ hhot⟩)

/-- What a frame is corrected by. -/
theorem clipFrame_eq (hw : 0 ≤ wtmax) (hmask : ∀ p, mask p = false → fx.weights.column p = [])
    (hlist : KeepsAbove mask fx.nm.npix wtmax frame list) (out : Nat → BitVec 64) (b : Nat) :
    clipFrame fx.toScipy wtmax out list b = out b -
      (((List.range fx.nm.npix).filter fun p => hot wtmax (frame p)).map
        (excess fx wtmax frame b)).sum := by
  have hterms : ((list.filter fun e => hot wtmax e.2).map fun e => columnSum id
        (fx.toScipy.column e.1) (astypeInt64 e.2 - BitVec.ofInt 64 wtmax) b) =
      ((list.filter fun e => hot wtmax e.2).map Prod.fst).map (excess fx wtmax frame b) := by
    rw [List.map_map]
    apply List.map_congr_left
    intro e he
    have hval := (hlist.pixels e (List.mem_of_mem_filter he)).2.2
    rw [hval, excess_eq]
    rfl
  have hsum : ((list.filter fun e => hot wtmax e.2).map fun e => columnSum id
        (fx.toScipy.column e.1) (astypeInt64 e.2 - BitVec.ofInt 64 wtmax) b).sum =
      (((List.range fx.nm.npix).filter fun p => hot wtmax (frame p)).map
        (excess fx wtmax frame b)).sum := by
    rw [hterms, sum_map_perm (hots_perm hw hlist), sum_filter_range, sum_filter_range]
    -- a masked pixel has no weights
    apply congrArg List.sum
    apply List.map_congr_left
    intro p _
    by_cases hp : mask p = true
    · rw [hp, Bool.true_and]
    · have hnil := hmask p (by simpa using hp)
      have hexcess : excess fx wtmax frame b p = 0 := by
        rw [excess, hnil]
        rfl
      simp [hp, hexcess]
  rw [← hsum, clipFrame]
  split
  · next hnone =>
    rw [List.isEmpty_iff.mp hnone]
    simp
  · rfl

/-- The pixels above `wtmax` are those that are corrected and those that are lost. -/
theorem sum_excess (hw : 0 ≤ wtmax) (b : Nat) :
    (((List.range fx.nm.npix).filter fun p => decide (wtmax < (frame p).value)).map
      (excess fx wtmax frame b)).sum =
      (((List.range fx.nm.npix).filter fun p => hot wtmax (frame p)).map
        (excess fx wtmax frame b)).sum + lostExcess fx wtmax frame b := by
  have hlost : lostExcess fx wtmax frame b = (((List.range fx.nm.npix).filter fun p =>
      decide (2 ^ 63 ≤ (frame p).value ∧ wtmax < (frame p).value)).map
        (excess fx wtmax frame b)).sum := rfl
  rw [hlost, sum_filter_range, sum_filter_range, sum_filter_range, ← List.sum_map_add]
  apply congrArg List.sum
  apply List.map_congr_left
  intro p _
  have hhot := hot_iff hw (frame p)
  by_cases habove : wtmax < (frame p).value
  · rw [if_pos (decide_eq_true habove)]
    by_cases hbig : (frame p).value < 2 ^ 63
    · rw [if_pos (hhot.mpr ⟨habove, hbig⟩), if_neg (by simpa using fun h => absurd hbig (not_lt.mpr h)),
        add_zero]
    · rw [if_neg fun h => hbig (hhot.mp h).2, if_pos (decide_eq_true ⟨not_lt.mp hbig, habove⟩), zero_add]
  · rw [if_neg (by simpa using habove), if_neg fun h => habove (hhot.mp h).1,
      if_neg (by simpa using fun _ => not_lt.mp habove), add_zero]

end

/-- Clipping afterwards gives the powder of the clipped frames where the weighted excess of the
pixels of 2^63 and more vanishes. -/
theorem clipExactPowder_exact_iff (fx : FixedPointMatrix F w) {mask : Nat → Bool}
    (hmask : ∀ p, mask p = false → fx.weights.column p = []) {cut wtmax : Int} (hcut : 0 ≤ cut)
    (hw : cut ≤ wtmax) (frames : Nat → Nat → Pixel t) (lists : List (List (Nat × Pixel t)))
    (hlists : ∀ i, (h : i < lists.length) →
      KeepsAbove mask fx.nm.npix wtmax (frames i) (lists.get ⟨i, h⟩)) :
    (∀ i, i < lists.length → ∀ b,
      clipExactPowder (fun i => fixedPowder fx (frames i)) lists wtmax fx.toScipy i b =
        fixedPowder fx (fun p => clip wtmax (frames i p)) b) ↔
    ∀ i, i < lists.length → ∀ b, lostExcess fx wtmax (frames i) b = 0 := by
  have hpos : 0 ≤ wtmax := hcut.trans hw
  refine forall_congr' fun i => forall_congr' fun hi => forall_congr' fun b => ?_
  have hget : lists[i]? = some (lists.get ⟨i, hi⟩) := List.getElem?_eq_getElem hi
  rw [clipExactPowder, hget, fixedPowder_clip hpos, sum_excess hpos]
  simp only []
  rw [clipFrame_eq hpos hmask (hlists i hi), sub_right_inj, eq_comm, add_eq_left]

/-- Only `uint64` has pixels of 2^63 and more. -/
theorem lostExcess_eq_zero (ht : t.isFloat = false) (hu : t ≠ .u64) (fx : FixedPointMatrix F w)
    (wtmax : Int) (frame : Nat → Pixel t) (b : Nat) : lostExcess fx wtmax frame b = 0 := by
  have hsmall : ∀ p, (frame p).value < 2 ^ 63 := by
    intro p
    unfold Pixel.value
    split
    · have htop : (frame p).toInt < 2 ^ (t.bits - 1) := BitVec.toInt_lt
      have hbits : t.bits - 1 ≤ 63 := by cases t <;> decide
      exact htop.trans_le (pow_le_pow_right₀ (by decide) hbits)
    · next hs =>
      have hlt := (frame p).isLt
      have hbits : t.bits ≤ 63 := by
        revert ht hu hs
        cases t <;> decide
      have hpow : 2 ^ t.bits ≤ 2 ^ 63 := Nat.pow_le_pow_right (by decide) hbits
      omega
  have hnone : ((List.range fx.nm.npix).filter fun p =>
      decide (2 ^ 63 ≤ (frame p).value ∧ wtmax < (frame p).value)) = [] := by
    apply List.filter_eq_nil_iff.mpr
    intro p _ h
    exact absurd (of_decide_eq_true h).1 (not_le.mpr (hsmall p))
  rw [lostExcess, hnone]
  rfl

/-- The frame 7, 9 of `int16`. -/
def sevenNine : Nat → Pixel .i16 := fun p => if p = 0 then 7#16 else 9#16

theorem sevenNine_kept : KeepsAbove (fun p => decide (p < 2)) 2 8 sevenNine [(1, sevenNine 1)] where
  nodup := by decide
  pixels := by decide
  above := by decide

theorem twoRuns_column_nil {p : Nat} (h : decide (p < 2) = false) :
    twoRuns.weights.column p = [] := by
  have hle : 2 ≤ p := Nat.le_of_not_lt (of_decide_eq_false h)
  have hptr : twoRuns.weights.ptr (p + 1) = 0 := by
    rw [NormalMatrix.ptr, List.getD_eq_default]
    exact Nat.succ_le_succ hle
  rw [NormalMatrix.column, Foundation.segment, hptr, Nat.zero_sub, List.take_zero]

theorem clipExactPowder_exact_iff_sevenNine :
    clipExactPowder (fun _ => fixedPowder twoRuns sevenNine) [[(1, sevenNine 1)]] 8
      twoRuns.toScipy 0 1 = fixedPowder twoRuns (fun p => clip 8 (sevenNine p)) 1 := by
  apply (clipExactPowder_exact_iff twoRuns (fun p => twoRuns_column_nil) (Int.le_refl 0)
    (by decide : (0 : Int) ≤ 8) (fun _ => sevenNine) [[(1, sevenNine 1)]] ?_).mpr
  · intro i _ b
    exact lostExcess_eq_zero rfl (by decide) twoRuns 8 sevenNine b
  · decide
  · intro i hi
    obtain rfl : i = 0 := by simpa using hi
    exact sevenNine_kept

/-- The frame 2^63, 0 of `uint64`. -/
def topBit : Nat → Pixel .u64 := fun p => if p = 0 then 9223372036854775808#64 else 0#64

theorem topBit_kept : KeepsAbove (fun p => decide (p < 2)) 2 8 topBit [(0, topBit 0)] where
  nodup := by decide
  pixels := by decide
  above := by decide

/-- A pixel of 2^63 is not clipped. -/
theorem not_clipExactPowder_exact :
    ¬∀ (fx : FixedPointMatrix ℚ 16) (mask : Nat → Bool),
      (∀ p, mask p = false → fx.weights.column p = []) → ∀ cut wtmax : Int, 0 ≤ cut → cut ≤ wtmax →
      ∀ (frames : Nat → Nat → Pixel .u64) (lists : List (List (Nat × Pixel .u64))),
        (∀ i, (h : i < lists.length) →
          KeepsAbove mask fx.nm.npix wtmax (frames i) (lists.get ⟨i, h⟩)) →
        ∀ i, i < lists.length → ∀ b,
          clipExactPowder (fun i => fixedPowder fx (frames i)) lists wtmax fx.toScipy i b =
            fixedPowder fx (fun p => clip wtmax (frames i p)) b := by
  intro h
  have hkept : ∀ i, (h : i < [[(0, topBit 0)]].length) →
      KeepsAbove (fun p => decide (p < 2)) 2 8 topBit ([[(0, topBit 0)]].get ⟨i, h⟩) := by
    intro i hi
    obtain rfl : i = 0 := by simpa using hi
    exact topBit_kept
  have hclip := h twoRuns _ (fun p => twoRuns_column_nil) 0 8 (by decide) (by decide)
    (fun _ => topBit) [[(0, topBit 0)]] hkept 0 (by decide) 0
  exact absurd hclip (by decide +kernel)

end Bslz4ToSparse.Conveyor
