import Bslz4ToSparse.Matrix.Fixed
import Bslz4ToSparse.Matrix.Quantise
import Mathlib.Analysis.SpecialFunctions.Log.Base

/-!
# Preparing a fixed-point matrix (src/_matrix.py)

`_fixed_point_bits` chooses the scale from the largest weight, the largest sum of the
weights of a bin and the largest pixel, so that the sums of a frame fit 64 bits before
the residuals are moved. It computes in float64, and `np.log2` rounds: near a power of two
the number of bits can be one more than the exact logarithms give. Both are parameters.
-/

namespace Bslz4ToSparse.Matrix

open Foundation

/-- Why `fixed_point_matrix` refuses. -/
inductive FixedPointError where
  | wbits                     -- neither 16 nor 32
  | maskSize (sizes : MaskSize)
  | dtype (t : Dtype)         -- not an integer pixel type
  | maxval (maxval : ℤ)       -- `maxval + 1` has no logarithm or is no float64
  | noRoom (bits : ℤ)         -- fewer than 4 fractional bits
  | weights (why : QuantiseError)
  deriving DecidableEq, Repr

/-- The values of the entries of a bin. -/
def binTotal {D : Type} [Zero D] [Add D] (bins : List Nat) (xs : List D) (b : Nat) : D :=
  (((bins.zip xs).filter (·.1 == b)).map Prod.snd).sum

/-- One more than the largest pixel value. -/
def pixelValues (t : Dtype) : Option ℤ → ℚ
  | none => 2 ^ (t.bits - if t.signed then 1 else 0)
  | some maxval => maxval + 1

/-- float64 as `_fixed_point_bits` uses it: how a result is rounded, and `np.log2`. -/
structure Float64 where
  round : ℚ → ℚ
  log2 : ℚ → ℚ

namespace Float64

variable (f : Float64)

/-- `1e-30`. -/
def tiny : ℚ := f.round (1 / 10 ^ 30)

/-- `pbits`. -/
def pbits (t : Dtype) : Option ℤ → ℚ
  | none => ((t.bits - if t.signed then 1 else 0 : Nat) : ℚ)
  | some maxval => f.log2 (f.round (maxval + 1))

end Float64

namespace NormalMatrix

variable (m : NormalMatrix ℚ) (f : Float64)

/-- The largest weight, 1 for no entries. -/
def wmax : ℚ := reduce max 1 (m.data.map abs)

/-- The sums of the weights of the bins (`np.bincount`, in the order of the entries). -/
def rowsum : List ℚ :=
  (List.range m.nbins).map fun bin =>
    (((m.indices.zip (m.data.map abs)).filter (·.1 == bin)).map Prod.snd).foldl
      (fun s w => f.round (s + w)) 0

def rmax : ℚ := reduce max 1 (m.rowsum f)

/-- The weights fit their integers. -/
def bFit (wbits : Nat) : ℤ := ⌊f.log2 (f.round ((2 ^ wbits - 1) / max m.wmax f.tiny))⌋

/-- The weights times the pixels of a bin fit 62 bits. -/
def bSum (pbits : ℚ) : ℤ := ⌊f.round (f.round (62 - pbits) - f.log2 (max (m.rmax f) f.tiny))⌋

/-- `_fixed_point_bits`. -/
def fixedPointBits (t : Dtype) (wbits : Nat) (maxval : Option ℤ) : Except FixedPointError ℤ :=
  if t.isFloat then .error (.dtype t)
  else if pixelValues t maxval ≤ 0 ∨ 2 ^ 1024 - 2 ^ 970 ≤ pixelValues t maxval then
    .error (.maxval (maxval.getD 0))
  else
    let b := min (min (m.bFit f wbits) (m.bSum f (f.pbits t maxval))) 40
    if b < 4 then .error (.noRoom b) else .ok b

/-- The largest sum of the weights of a bin. -/
def largestSum : ℚ := reduce max 1 ((List.range m.nbins).map (binTotal m.indices (m.data.map abs)))

/-- The second limit without rounding. -/
def exactBSum (values : ℚ) : ℤ := Int.log 2 (2 ^ 62 / (values * max m.largestSum (1 / 10 ^ 30)))

end NormalMatrix

/-- The type of the stored weights. -/
def storedType (wbits : Nat) : Dtype := if wbits = 16 then .u16 else .u32

/-- The `FixedPointMatrix` that `fixed_point_matrix` makes; `scale` is `2 ** nbits`. -/
structure PreparedMatrix (w : Nat) extends FixedPointMatrix ℚ w where
  nbits : ℤ
  dtype : Dtype
  maxval : Option ℤ

theorem length_quantise {m : NormalMatrix ℚ} {b : ℤ} {t : Dtype} {stored : List (Pixel t)}
    (h : m.quantise b t = .ok stored) : stored.length = m.indices.length := by
  have hlen := congrArg List.length (NormalMatrix.quantise_eq h)
  rwa [List.length_map, NormalMatrix.intended, NormalMatrix.length_rounded, List.length_map,
    List.length_map, m.length_data] at hlen

theorem bits_storedType (wbits : Nat) : (storedType wbits).bits = 16 ∨ (storedType wbits).bits = 32 := by
  unfold storedType
  split
  · exact Or.inl rfl
  · exact Or.inr rfl

/-- The weights stored with `b` fractional bits. -/
def prepare (nm : NormalMatrix ℚ) (b : ℤ) (wbits : Nat) (t : Dtype) (maxval : Option ℤ) :
    Except FixedPointError (PreparedMatrix (storedType wbits).bits) :=
  match h : nm.quantise b (storedType wbits) with
  | .error why => .error (.weights why)
  | .ok data => .ok {
      nm, data
      length_data := length_quantise h
      wbits := bits_storedType wbits
      nbits := b
      dtype := t
      maxval }

/-- `fixed_point_matrix`. -/
def fixedPointMatrix (f : Float64) (m : NormalMatrix ℚ) (mask : List (BitVec 8)) (t : Dtype)
    (maxval : Option ℤ) (wbits : Nat) : Except FixedPointError (PreparedMatrix (storedType wbits).bits) :=
  if wbits ≠ 16 ∧ wbits ≠ 32 then .error .wbits
  else do
    let nm ← (foldMask m mask).mapError .maskSize
    let b ← nm.fixedPointBits f t wbits maxval
    prepare nm b wbits t maxval

/-! ## The logarithms -/

/-- `floor(log2(x))`. -/
theorem log_eq_floor {x : ℚ} (h : 0 < x) : Int.log 2 x = ⌊Real.logb 2 x⌋ := by
  have hreal : (0 : ℝ) < (x : ℝ) := by exact_mod_cast h
  have hcast : Int.log 2 x = Int.log 2 (x : ℝ) := by
    apply eq_of_forall_le_iff
    intro k
    rw [← Int.zpow_le_iff_le_log (by norm_num) h, ← Int.zpow_le_iff_le_log (by norm_num) hreal,
      ← Rat.cast_le (K := ℝ), Rat.cast_zpow, Rat.cast_natCast]
  have hfloor := Real.floor_logb_natCast (b := 2) hreal.le
  rw [hcast, ← hfloor, Nat.cast_ofNat]

/-- The second limit without rounding, as the source writes it. -/
theorem exactBSum_eq_floor (m : NormalMatrix ℚ) {values : ℚ} (h : 0 < values) :
    m.exactBSum values =
      ⌊62 - Real.logb 2 values - Real.logb 2 (max m.largestSum (1 / 10 ^ 30) : ℚ)⌋ := by
  have hr : (0 : ℚ) < max m.largestSum (1 / 10 ^ 30) := lt_max_of_lt_right (by norm_num)
  have hv : (values : ℝ) ≠ 0 := by exact_mod_cast h.ne'
  have hr' : ((max m.largestSum (1 / 10 ^ 30) : ℚ) : ℝ) ≠ 0 := by exact_mod_cast hr.ne'
  have hpow : Real.logb 2 (2 ^ 62 : ℝ) = 62 := by
    rw [Real.logb_pow, Real.logb_self_eq_one (by norm_num), mul_one]
    norm_num
  rw [NormalMatrix.exactBSum, log_eq_floor (div_pos (by norm_num) (mul_pos h hr))]
  congr 1
  rw [Rat.cast_div, Rat.cast_mul, Real.logb_div (by norm_num) (mul_ne_zero hv hr'),
    Real.logb_mul hv hr', Rat.cast_pow, Rat.cast_ofNat, hpow, sub_sub]

/-! ## The sums of the bins -/

theorem fixedPointMatrix_eq {f : Float64} {m : NormalMatrix ℚ} {mask : List (BitVec 8)} {t : Dtype}
    {maxval : Option ℤ} {wbits : Nat} {fx : PreparedMatrix (storedType wbits).bits}
    (h : fixedPointMatrix f m mask t maxval wbits = .ok fx) :
    fx.nm.fixedPointBits f t wbits maxval = .ok fx.nbits ∧
      fx.nm.quantise fx.nbits (storedType wbits) = .ok fx.data := by
  unfold fixedPointMatrix at h
  split at h
  · exact absurd h (by simp)
  cases hfold : foldMask m mask with
  | error e => simp [hfold, Except.mapError, bind, Except.bind] at h
  | ok nm =>
    cases hbits : nm.fixedPointBits f t wbits maxval with
    | error e => simp [hfold, hbits, Except.mapError, bind, Except.bind] at h
    | ok b =>
      simp only [hfold, hbits, Except.mapError, bind, Except.bind, prepare] at h
      split at h
      · exact absurd h (by simp)
      · next data hq =>
        rw [← Except.ok.inj h]
        exact ⟨hbits, hq⟩

section Totals

variable {D : Type} [AddCommMonoid D]

theorem binTotal_cons (bin : Nat) (bins : List Nat) (x : D) (xs : List D) (b : Nat) :
    binTotal (bin :: bins) (x :: xs) b = (if bin = b then x else 0) + binTotal bins xs b := by
  unfold binTotal
  rw [List.zip_cons_cons]
  by_cases h : bin = b
  · rw [List.filter_cons_of_pos (by simpa using h), List.map_cons, List.sum_cons, if_pos h]
  · rw [List.filter_cons_of_neg (by simpa using h), if_neg h, zero_add]

theorem binTotal_map {F : Type} (f : F → D) (bins : List Nat) (xs : List F) (b : Nat) :
    binTotal bins (xs.map f) b = (((bins.zip xs).filter (·.1 == b)).map fun e => f e.2).sum := by
  rw [binTotal, List.zip_map_right, List.filter_map, List.map_map]
  rfl

/-- Adding to one entry adds to its bin. -/
theorem binTotal_modify {bins : List Nat} {xs : List D} (h : bins.length = xs.length) {i : Nat}
    (hi : i < xs.length) (d : D) (b : Nat) :
    binTotal bins (xs.modify i (· + d)) b =
      binTotal bins xs b + if bins.getD i 0 = b then d else 0 := by
  induction xs generalizing bins i with
  | nil => exact absurd hi (Nat.not_lt_zero i)
  | cons x xs ih =>
    cases bins with
    | nil => exact absurd h (by simp)
    | cons bin bins =>
      cases i with
      | zero =>
        rw [List.modify_zero_cons, binTotal_cons, binTotal_cons, List.getD_cons_zero]
        by_cases hb : bin = b
        · simp only [if_pos hb, add_right_comm]
        · simp only [if_neg hb, add_zero]
      | succ i =>
        rw [List.modify_succ_cons, binTotal_cons, binTotal_cons, List.getD_cons_succ,
          ih (Nat.succ.inj h) (Nat.lt_of_succ_lt_succ hi), add_assoc]

end Totals

namespace NormalMatrix

variable {F : Type} {m : NormalMatrix F} {D : Type}

/-- The totals of the bins, pixel by pixel. -/
theorem binTotal_eq_sum [AddCommMonoid D] {xs : List D} (h : xs.length = m.indices.length) (b : Nat) :
    binTotal m.indices xs b = ((List.range m.npix).map fun p =>
      binTotal (Foundation.segment m.ptr m.indices p) (Foundation.segment m.ptr xs p) b).sum := by
  have hall := flatMap_segment m.ptr (m.indices.zip xs) m.npix m.indptr_zero m.indptr_mono
  rw [List.take_of_length_le (by rw [List.length_zip, h, Nat.min_self]; exact m.indptr_last.ge)] at hall
  rw [binTotal, sum_map_filter, ← hall, sum_map_flatMap]
  refine congrArg List.sum (List.map_congr_left fun p _ => ?_)
  rw [zip_segment, binTotal, sum_map_filter]

/-- A product with a frame of one value, as the total of a bin. -/
theorem product_eq_binTotal [NonUnitalNonAssocSemiring D] (weight : F → D) (c : D) (b : Nat) :
    m.product weight (fun _ => c) b = binTotal m.indices (m.data.map fun d => weight d * c) b := by
  rw [binTotal_eq_sum (by rw [List.length_map, m.length_data])]
  refine congrArg List.sum (List.map_congr_left fun p _ => ?_)
  rw [columnSum, column, zip_segment, map_segment, binTotal, sum_map_filter, List.zip_map_right,
    List.map_map]
  refine congrArg List.sum (List.map_congr_left fun e _ => ?_)
  by_cases h : b = e.1
  · simp [single, h]
  · simp [single, h, Ne.symm h]

/-- With weights that are not negative, larger pixels give larger sums. -/
theorem product_mono (weight : F → ℤ) (hweight : ∀ d, 0 ≤ weight d) {v w : Nat → ℤ}
    (hv : ∀ p, p < m.npix → v p ≤ w p) (b : Nat) : m.product weight v b ≤ m.product weight w b := by
  refine List.sum_le_sum fun p hp => ?_
  refine List.sum_le_sum fun e _ => ?_
  unfold single
  split
  · exact mul_le_mul_of_nonneg_left (hv p (List.mem_range.mp hp)) (hweight _)
  · exact le_rfl

end NormalMatrix

/-! ## The residuals -/

/-- The largest pixel value between 0 and `maxval`. -/
def largestPixel (t : Dtype) : Option ℤ → ℤ
  | none => t.largest
  | some maxval => min maxval t.largest

theorem largestPixel_lt (t : Dtype) (maxval : Option ℤ) :
    ((largestPixel t maxval + 1 : ℤ) : ℚ) ≤ pixelValues t maxval := by
  cases maxval with
  | none => simp [largestPixel, pixelValues, Dtype.largest]
  | some v =>
    simp only [largestPixel, pixelValues, Int.cast_add, Int.cast_one]
    have hle : min v t.largest ≤ v := min_le_left _ _
    gcongr

theorem largest_pos (t : Dtype) : 0 < t.largest := by
  cases t <;> decide

theorem largestPixel_nonneg {t : Dtype} {maxval : Option ℤ} (h : 0 < pixelValues t maxval) :
    0 ≤ largestPixel t maxval := by
  cases maxval with
  | none => exact (largest_pos t).le
  | some v =>
    have hv : 0 < v + 1 := by
      rw [pixelValues] at h
      exact_mod_cast h
    exact le_min (by omega) (largest_pos t).le

namespace NormalMatrix

variable (m : NormalMatrix ℚ)

/-- The weights that are not below 0, scaled. -/
def scaled (b : ℤ) : List ℚ := (m.data.map fun d => max d 0).map (· * 2 ^ b)

/-- The sum of the rounded weights of a bin, without residuals. -/
def roundedTotal (b : ℤ) (bin : Nat) : ℤ := binTotal m.indices ((m.scaled b).map rint) bin

/-- The residuals that `_quantise` moves onto the weights of a bin: those of the pixels whose
first largest weight is in the bin. -/
def movedTotal (b : ℤ) (bin : Nat) : ℤ :=
  ((List.range m.npix).map fun p =>
    if 0 < m.count p ∧ (Foundation.segment m.ptr m.indices p).getD
        (firstLargest (Foundation.segment m.ptr (m.scaled b) p)) 0 = bin then
      m.residual (m.scaled b) p else 0).sum

/-- What the scale leaves of the 64 bits when every pixel has the value `top`. -/
def room (b top : ℤ) (bin : Nat) : ℤ := 2 ^ 63 - 1 - top * m.roundedTotal b bin

/-- The residuals fit what the scale leaves. -/
def ResidualsFit (b top : ℤ) : Prop :=
  ∀ bin, bin < m.nbins → top * m.movedTotal b bin ≤ m.room b top bin

instance (b top : ℤ) : Decidable (m.ResidualsFit b top) :=
  inferInstanceAs (Decidable (∀ bin, bin < m.nbins → _))

variable {m}

@[simp] theorem length_scaled (b : ℤ) : (m.scaled b).length = m.indices.length := by
  rw [scaled, List.length_map, List.length_map, m.length_data]

/-- The stored weights of a bin are its rounded ones and the residuals. -/
theorem binTotal_intended (b : ℤ) (bin : Nat) :
    binTotal m.indices (m.intended b) bin = m.roundedTotal b bin + m.movedTotal b bin := by
  have hlen := m.length_scaled b
  have hint : m.intended b = m.rounded (m.scaled b) := rfl
  rw [hint, roundedTotal, binTotal_eq_sum (by rw [length_rounded, hlen]),
    binTotal_eq_sum (by rw [List.length_map, hlen]), movedTotal, ← List.sum_map_add]
  refine congrArg List.sum (List.map_congr_left fun p hp => ?_)
  have hlt := List.mem_range.mp hp
  have hcol := length_segment_of hlen hlt
  have hbins := length_segment_of (rfl : m.indices.length = _) hlt
  rw [segment_rounded hlen hlt, map_segment]
  by_cases hcount : 0 < m.count p
  · rw [binTotal_modify (by rw [List.length_map, hcol, hbins])]
    · simp only [hcount, true_and]
    · rw [List.length_map, hcol]
      exact firstLargest_column hlen (mem_nonempty.mpr ⟨hlt, hcount⟩)
  · have hempty : Foundation.segment m.ptr (m.scaled b) p = [] :=
      List.length_eq_zero_iff.mp (by omega)
    rw [if_neg fun h => hcount h.1, hempty, add_zero]
    rfl

/-- A pixel of one bin has no residual. -/
theorem residual_single {w : List ℚ} (h : w.length = m.indices.length) {p : Nat} (hp : p < m.npix)
    (hcount : m.count p ≤ 1) : m.residual w p = 0 := by
  have hlen := length_segment_of h hp
  rw [residual]
  rcases hw : Foundation.segment m.ptr w p with _ | ⟨x, _ | ⟨y, xs⟩⟩
  · simp
  · simp
  · rw [hw, List.length_cons, List.length_cons] at hlen
    omega

theorem roundedTotal_eq (b : ℤ) (bin : Nat) :
    m.roundedTotal b bin =
      (((m.indices.zip m.data).filter (·.1 == bin)).map fun e => rint (max e.2 0 * 2 ^ b)).sum := by
  rw [roundedTotal, scaled, List.map_map, List.map_map, binTotal_map]
  rfl

theorem roundedTotal_nonneg (b : ℤ) (bin : Nat) : 0 ≤ m.roundedTotal b bin := by
  rw [roundedTotal_eq]
  refine List.sum_nonneg fun x hx => ?_
  obtain ⟨e, -, rfl⟩ := List.mem_map.mp hx
  exact rint_nonneg (mul_nonneg (le_max_right _ _) (zpow_pos (by norm_num) b).le)

/-- Rounding at most doubles the sum of a bin. -/
theorem roundedTotal_le (b : ℤ) (bin : Nat) :
    (m.roundedTotal b bin : ℚ) ≤ 2 * 2 ^ b * binTotal m.indices (m.data.map abs) bin := by
  have hpos : (0 : ℚ) < 2 ^ b := zpow_pos (by norm_num) b
  rw [roundedTotal_eq, binTotal_map, Int.cast_list_sum, List.map_map, ← List.sum_map_mul_left]
  refine List.sum_le_sum fun e _ => ?_
  have hmax : max e.2 0 ≤ |e.2| := max_le (le_abs_self _) (abs_nonneg _)
  calc ((rint (max e.2 0 * 2 ^ b) : ℤ) : ℚ) ≤ 2 * (max e.2 0 * 2 ^ b) :=
        rint_le_two_mul (mul_nonneg (le_max_right _ _) hpos.le)
    _ ≤ 2 * (|e.2| * 2 ^ b) := by gcongr
    _ = 2 * 2 ^ b * |e.2| := by ring

/-- What the chosen bits are for. -/
theorem fixedPointBits_eq {f : Float64} {t : Dtype} {wbits : Nat} {maxval : Option ℤ} {b : ℤ}
    (h : m.fixedPointBits f t wbits maxval = .ok b) :
    t.isFloat = false ∧ 0 < pixelValues t maxval := by
  unfold fixedPointBits at h
  split at h
  · exact absurd h (by simp)
  next hfloat =>
  split at h
  · exact absurd h (by simp)
  next hvalues => exact ⟨by simpa using hfloat, not_le.mp fun hle => hvalues (.inl hle)⟩

theorem le_largestSum {bin : Nat} (h : bin < m.nbins) :
    binTotal m.indices (m.data.map abs) bin ≤ max m.largestSum (1 / 10 ^ 30) :=
  (le_reduce_max 1 (List.mem_map.mpr ⟨bin, List.mem_range.mpr h, rfl⟩)).trans (le_max_left _ _)

/-- Without residuals, a scale within the exact limit rules out overflow. -/
theorem room_nonneg {t : Dtype} {maxval : Option ℤ} {b : ℤ} (hvalues : 0 < pixelValues t maxval)
    (hb : b ≤ m.exactBSum (pixelValues t maxval)) {bin : Nat} (hbin : bin < m.nbins) :
    0 ≤ m.room b (largestPixel t maxval) bin := by
  set r := max m.largestSum (1 / 10 ^ 30) with hr
  have hrpos : 0 < r := lt_max_of_lt_right (by norm_num)
  have htotal := m.roundedTotal_nonneg b bin
  have hpow : (2 : ℚ) ^ b * (pixelValues t maxval * r) ≤ 2 ^ 62 := by
    have hlog : (2 : ℚ) ^ m.exactBSum (pixelValues t maxval) ≤
        2 ^ 62 / (pixelValues t maxval * r) := by
      exact_mod_cast Int.zpow_log_le_self (b := 2) (by norm_num)
        (div_pos (by norm_num) (mul_pos hvalues hrpos))
    rw [← le_div_iff₀ (mul_pos hvalues hrpos)]
    exact (zpow_le_zpow_right₀ (by norm_num) hb).trans hlog
  have hsum : (m.roundedTotal b bin : ℚ) * (largestPixel t maxval + 1 : ℤ) ≤ 2 ^ 63 := by
    calc (m.roundedTotal b bin : ℚ) * (largestPixel t maxval + 1 : ℤ)
        ≤ 2 * 2 ^ b * r * pixelValues t maxval := by
          refine mul_le_mul ?_ (largestPixel_lt t maxval) ?_ (by positivity)
          · exact (m.roundedTotal_le b bin).trans
              (mul_le_mul_of_nonneg_left (le_largestSum hbin) (by positivity))
          · exact_mod_cast (largestPixel_nonneg hvalues).trans (Int.le_add_one le_rfl)
      _ = 2 * (2 ^ b * (pixelValues t maxval * r)) := by ring
      _ ≤ 2 ^ 63 := by linarith
  have hint : m.roundedTotal b bin * (largestPixel t maxval + 1) ≤ 2 ^ 63 := by exact_mod_cast hsum
  rw [room]
  rcases htotal.eq_or_lt with h0 | hpos
  · rw [← h0, mul_zero]
    norm_num
  · have hexp : m.roundedTotal b bin * (largestPixel t maxval + 1) =
        largestPixel t maxval * m.roundedTotal b bin + m.roundedTotal b bin := by ring
    omega

end NormalMatrix

/-! ## The powder of a frame -/

/-- The sum of integer weight times pixel fits a signed 64-bit integer in every bin, for every
frame with pixels from 0 to `top`. -/
def SumsFit {w : Nat} (fx : FixedPointMatrix ℚ w) (t : Dtype) (top : ℤ) : Prop :=
  ∀ frame : Nat → Pixel t, (∀ p, p < fx.nm.npix → 0 ≤ (frame p).value ∧ (frame p).value ≤ top) →
    ∀ b, b < fx.nm.nbins →
      -2 ^ 63 ≤ fx.toScipy.product BitVec.toInt (fun p => (frame p).value) b ∧
        fx.toScipy.product BitVec.toInt (fun p => (frame p).value) b < 2 ^ 63

theorem stored_toNat (wbits : Nat) (d : BitVec (storedType wbits).bits) :
    Pixel.value (t := storedType wbits) d = (d.toNat : ℤ) := by
  have hsigned : (storedType wbits).signed = false := by
    unfold storedType
    split <;> rfl
  rw [Pixel.value, hsigned]
  rfl

theorem binTotal_mul {F : Type} (f : F → ℤ) (c : ℤ) (bins : List Nat) (xs : List F) (b : Nat) :
    binTotal bins (xs.map fun d => f d * c) b = c * binTotal bins (xs.map f) b := by
  rw [binTotal_map, binTotal_map, List.sum_map_mul_right, mul_comm]

/-- The largest sum of a bin is that of a frame with the largest pixels. -/
theorem product_top {wbits : Nat} {b : ℤ} {fx : FixedPointMatrix ℚ (storedType wbits).bits}
    (h : fx.nm.quantise b (storedType wbits) = .ok fx.data) (top : ℤ) (bin : Nat) :
    fx.weights.product (fun d => (d.toNat : ℤ)) (fun _ => top) bin =
      top * fx.nm.roundedTotal b bin + top * fx.nm.movedTotal b bin := by
  have hstored := NormalMatrix.quantise_eq h
  have hvalues : fx.weights.data.map (fun d => (d.toNat : ℤ)) = fx.nm.intended b := by
    rw [← hstored]
    exact List.map_congr_left fun d _ => (stored_toNat wbits d).symm
  rw [NormalMatrix.product_eq_binTotal, binTotal_mul, hvalues, ← mul_add,
    ← NormalMatrix.binTotal_intended]
  rfl

theorem sumsFit_iff {wbits : Nat} {b : ℤ} {fx : FixedPointMatrix ℚ (storedType wbits).bits}
    (h : fx.nm.quantise b (storedType wbits) = .ok fx.data) {t : Dtype} {top : ℤ} (h0 : 0 ≤ top)
    (htop : top ≤ t.largest) : SumsFit fx t top ↔ fx.nm.ResidualsFit b top := by
  have hsum := product_top h top
  constructor
  · intro hfit bin hbin
    have hvalue := Pixel.value_ofInt h0 htop
    obtain ⟨-, hlt⟩ := hfit (fun _ => BitVec.ofInt t.bits top)
      (fun _ _ => ⟨by rw [hvalue]; exact h0, hvalue.le⟩) bin hbin
    rw [toScipy_product, hvalue, hsum] at hlt
    rw [NormalMatrix.room]
    omega
  · intro hres frame hframe bin hbin
    have hlow := fx.weights.product_mono (fun d => (d.toNat : ℤ)) (fun d => Int.natCast_nonneg _)
      (v := fun _ => 0) (fun p hp => (hframe p hp).1) bin
    have hhigh := fx.weights.product_mono (fun d => (d.toNat : ℤ)) (fun d => Int.natCast_nonneg _)
      (w := fun _ => top) (fun p hp => (hframe p hp).2) bin
    have hzero : fx.weights.product (fun d => (d.toNat : ℤ)) (fun _ => 0) bin = 0 := by
      rw [product_top h 0, zero_mul, zero_mul, add_zero]
    have hroom := hres bin hbin
    rw [NormalMatrix.room] at hroom
    rw [toScipy_product]
    rw [hzero] at hlow
    rw [hsum] at hhigh
    omega

/-- Rounding to 53 bits, and the two logarithms that `thirds` asks `np.log2` for. -/
def sixtyFourths : Float64 where
  round x :=
    let unit : ℚ := 2 ^ (Int.log 2 |x| - 52)
    rint (x / unit) * unit
  log2 x := if x = 1 / 64 then -6 else 2674012278727595 / 2 ^ 46

/-- One pixel in three bins; each weight is below half a unit of the scale. -/
def thirds : NormalMatrix ℚ where
  data := [1 / 64, 1 / 64, 1 / 64]
  indices := [0, 1, 2]
  indptr := [0, 3]
  nbins := 3
  npix := 1
  length_data := rfl
  length_indptr := rfl
  indptr_zero := rfl
  indptr_mono := by decide
  indptr_last := rfl
  indices_lt := threeIndices_lt
  nbins_lt := threeBins_lt
  entries_lt := threeEntries_lt

/-- Whether the residuals fit in what `fixed_point_matrix` makes of it, with 32-bit weights. -/
def thirdsFit (t : Dtype) : Option Bool :=
  (fixedPointMatrix sixtyFourths thirds [1#8] t none 32).toOption.map fun fx =>
    decide (fx.nm.ResidualsFit fx.nbits (largestPixel t none))

theorem thirdsFit_eq {t : Dtype} {fits : Bool} (h : thirdsFit t = some fits) :
    ∃ fx, fixedPointMatrix sixtyFourths thirds [1#8] t none 32 = .ok fx ∧
      decide (fx.nm.ResidualsFit fx.nbits (largestPixel t none)) = fits := by
  unfold thirdsFit at h
  cases hfx : fixedPointMatrix sixtyFourths thirds [1#8] t none 32 with
  | error e =>
    rw [hfx] at h
    exact absurd h (by simp [Except.toOption])
  | ok fx =>
    rw [hfx] at h
    exact ⟨fx, rfl, Option.some.inj h⟩

end Bslz4ToSparse.Matrix
