import Bslz4ToSparse.Foundation.Loops
import Bslz4ToSparse.Dot.Rounding
import Bslz4ToSparse.Matrix.Quantise
import Bslz4ToSparse.Pipeline.Request

/-!
# Cuts and thresholds (src/_toppix.py, src/__init__.py)

The cut and the thresholds come as Python numbers. For the C driver they become 64-bit
integers; what cannot be compared exactly there is left to the comparison in `float64`.
The pixels are integers.
-/

namespace Bslz4ToSparse.TopPixels

open Dot Matrix Pipeline

/-- A rational number with a significand of 53 bits. -/
def IsDouble (q : ℚ) : Prop := ∃ m e : ℤ, m.natAbs < 2 ^ 53 ∧ q = m * 2 ^ e

/-- A `float64` that is not a NaN. -/
inductive Double where
  | negInf
  | finite (q : ℚ) (isDouble : IsDouble q)
  | posInf

/-- A Python or numpy number. -/
inductive Number where
  | int (n : ℤ)
  | float (x : Double)
  | nan

/-- `v > x`. -/
def Double.below (x : Double) (v : ℚ) : Bool :=
  match x with
  | negInf => true
  | finite q _ => decide (q < v)
  | posInf => false

/-! ## The cut -/

inductive CutError where
  | size (values : Nat)   -- the cut must be one number
  | nan
  | negative              -- error -100
  deriving DecidableEq, Repr

/-- `_cut_array` for the integer pixel types: the cut as a pixel. -/
def cutArray (t : Dtype) (cut : List Number) : Except CutError ℤ :=
  match cut with
  | [c] =>
      let v : Option ℤ := match c with
        | .int n => some n
        | .float (.finite q _) => some ⌊q⌋
        | .float .negInf => some (-2 ^ 70)
        | .float .posInf => some (2 ^ 70)
        | .nan => none
      match v with
      | none => .error .nan
      | some v => if v < 0 then .error .negative else .ok (min v t.largest)
  | cs => .error (.size cs.length)

/-! ## The limit and the thresholds -/

/-- `MAXTHR`. -/
def maxThr : Nat := 16

inductive CheckError where
  | howmany    -- howmany must be None or an integer >= 0
  | overflow   -- an integer beyond the range of a float
  | nan        -- thresholds must not be NaN
  | order      -- at most 16 values, sorted increasing
  deriving DecidableEq, Repr

theorem isDouble_roundTo (n : ℤ) : IsDouble (roundTo 53 n) := by
  obtain ⟨m, e, hm, hround⟩ := roundMagnitude_form (show 0 < 53 by decide) n.natAbs
  refine ⟨n.sign * m, e, ?_, ?_⟩
  · rw [Int.natAbs_mul, Int.natAbs_natCast]
    have hsign : n.sign.natAbs ≤ 1 := by
      rcases Int.sign_trichotomy n with h | h | h <;> rw [h] <;> decide
    exact (Nat.mul_le_mul_right m hsign).trans_lt (by omega)
  · rw [roundTo, hround]
    push_cast
    rw [zpow_natCast, mul_assoc]

/-- `float(t)`. -/
def Number.toDouble : Number → Except CheckError Double
  | .int n =>
      if 2 ^ 1024 ≤ (roundTo 53 n).natAbs then .error .overflow
      else .ok (.finite (roundTo 53 n) (isDouble_roundTo n))
  | .float x => .ok x
  | .nan => .error .nan

/-- An integer that is not negative. -/
def Number.toLimit : Number → Except CheckError Nat
  | .int n => if n < 0 then .error .howmany else .ok n.toNat
  | .float (.finite q _) => if q = ⌊q⌋ ∧ 0 ≤ q then .ok ⌊q⌋.toNat else .error .howmany
  | _ => .error .howmany

/-- `x < y`. -/
def Double.lt : Double → Double → Bool
  | .negInf, .negInf => false
  | .negInf, _ => true
  | .finite p _, .finite q _ => decide (p < q)
  | .finite _ _, .posInf => true
  | _, _ => false

/-- `check` on the thresholds. -/
def checkThresholds (thresholds : List Number) : Except CheckError (List Double) := do
  let ts ← thresholds.mapM Number.toDouble
  if maxThr < ts.length ∨ (ts.zip ts.tail).any fun e => e.2.lt e.1 then .error .order else return ts

/-- `check`. -/
def check (howmany : Option Number) (thresholds : Option (List Number)) :
    Except CheckError (Option Nat × Option (List Double)) := do
  let limit ← howmany.mapM Number.toLimit
  let ts ← thresholds.mapM checkThresholds
  return (limit, ts)

/-! ## What C is given -/

/-- A threshold: an integer of the default ladder, or a `float64`. -/
inductive Threshold where
  | int (n : ℤ)
  | float (x : Double)

/-- `default_thresholds`. -/
def defaultThresholds (cut : ℤ) : List Threshold :=
  (List.range maxThr).map fun i => .int (max cut 1 * 2 ^ i)

/-- A pixel value above a threshold. -/
def Threshold.selects : Threshold → ℤ → Bool
  | .int n, v => decide (n < v)
  | .float x, v => x.below v

/-- `_above`: both are converted to `float64`. -/
def Threshold.above : Threshold → ℤ → Bool
  | .int n, v => decide (roundTo 53 n < roundTo 53 v)
  | .float x, v => x.below (roundTo 53 v)

/-- The larger integers that C is not given. -/
def big : ℤ := 2 ^ 62

/-- One threshold of `_effective`. -/
def effectiveOne (t : Dtype) (cut : ℤ) : Threshold → Option ℤ
  | .float .negInf => some cut
  | .float .posInf => if 8 ≤ t.size then none else some big
  | .float (.finite q _) =>
      if big < ⌊q⌋ then if 8 ≤ t.size then none else some (max cut big) else some (max cut ⌊q⌋)
  | .int n => if big < n then if 8 ≤ t.size then none else some (max cut big) else some (max cut n)

/-- `_effective` for integer pixels. -/
def effective (t : Dtype) (cut : ℤ) (thr : List Threshold) : Option (List ℤ) :=
  thr.mapM (effectiveOne t cut)

/-- The thresholds of a request. -/
def requestThresholds (thresholds : Option (List Double)) (cut : ℤ) : List Threshold :=
  match thresholds with
  | none => defaultThresholds cut
  | some ts => ts.map .float

/-- `Request`; `top` goes to C, `out` comes back from it. -/
structure Request where
  howmany : Option Nat
  cut : ℤ
  thr : List Threshold
  top : List ℤ
  out : List ℤ
  native : Bool

/-- An integer that an `int64` array does not take. -/
structure Int64Overflow where
  value : ℤ
  deriving DecidableEq, Repr

/-- `np.array(values, np.int64)`. -/
def int64Array (values : List ℤ) : Except Int64Overflow (List ℤ) :=
  match values.find? fun v => !(decide (-2 ^ 63 ≤ v) && decide (v < 2 ^ 63)) with
  | some v => .error ⟨v⟩
  | none => .ok values

/-- `Request.__init__`. -/
def Request.make (howmany : Option Nat) (thresholds : Option (List Double)) (cut : ℤ) (t : Dtype)
    (nframes : Nat) : Except Int64Overflow Request :=
  let thr := requestThresholds thresholds cut
  match howmany.bind fun n => (effective t cut thr).map fun eff => (n, eff) with
  | none => .ok ⟨howmany, cut, thr, [], [], false⟩
  | some (n, eff) => do
      let top ← int64Array ([min (n : ℤ) (2 ^ 31 - 1), (eff.length : ℤ)] ++ eff)
      return ⟨howmany, cut, thr, top, List.replicate (2 * nframes) 0, true⟩

/-- `bslz4_top`, as the C entry points read it from the array. -/
def Request.cTop (r : Request) : Top := ⟨r.top.getD 0 0, r.top.getD 1 0, fun k => r.top.getD (k + 2) 0⟩

/-! ## The comparison in C -/

theorem value_le_largest {t : Dtype} (v : Pixel t) : v.value ≤ t.largest := by
  rw [Pixel.value, Dtype.largest]
  split
  · have hlt := BitVec.toInt_lt (x := v)
    omega
  · have hlt := v.isLt
    rw [Nat.sub_zero]
    have hcast : (v.toNat : ℤ) < ((2 ^ t.bits : Nat) : ℤ) := by exact_mod_cast hlt
    push_cast at hcast
    omega

theorem maxValue_eq {t : Dtype} (ht : t.isFloat = false) :
    maxValue t = if t.size < 8 then some t.largest else none := by
  cases t with
  | f32 | f64 => exact absurd ht (by decide)
  | _ => rfl

theorem ofInteger_eq {t : Dtype} (ht : t.isFloat = false) (v : ℤ) :
    ofInteger t v = BitVec.ofInt t.bits v := by
  cases t with
  | f32 | f64 => exact absurd ht (by decide)
  | _ => rfl

theorem largest_le {t : Dtype} (ht : t.isFloat = false) :
    if t.size < 8 then t.largest < 2 ^ 32 else 2 ^ 63 - 1 ≤ t.largest := by
  cases t with
  | f32 | f64 => exact absurd ht (by decide)
  | _ => decide

/-- The comparison with an integer that the pixel type holds. -/
theorem above_ofInteger {t : Dtype} (ht : t.isFloat = false) {n : ℤ} (h0 : 0 ≤ n) (h : n ≤ t.largest)
    (v : Pixel t) : above (some (ofInteger t n)) v = decide (n < v.value) := by
  rw [above, Option.any_some, Pixel.gt, ht, ofInteger_eq ht, Pixel.value_ofInt h0 h]
  rfl

/-- `bslz4_filter_gt` compares with the threshold itself. -/
theorem filter_spec {t : Dtype} (ht : t.isFloat = false) (top : Top) (level : Nat)
    (h0 : 0 ≤ top.thr level) (h63 : top.thr level < 2 ^ 63) (v : Pixel t) :
    above (top.filterCut t level) v = decide (top.thr level < v.value) := by
  have hlargest := largest_le ht
  have hv := value_le_largest v
  rw [Top.filterCut, maxValue_eq ht]
  split at hlargest
  · next hsize =>
    rw [if_pos hsize, Option.any_some]
    by_cases hle : t.largest ≤ top.thr level
    · rw [decide_eq_true hle, if_pos rfl, decide_eq_false (by omega)]
      rfl
    · rw [decide_eq_false hle, if_neg (by decide)]
      exact above_ofInteger ht h0 (by omega) v
  · next hsize =>
    rw [if_neg hsize, Option.any_none, if_neg (by decide)]
    exact above_ofInteger ht h0 (by omega) v

/-- Above the cut, an effective threshold selects what the threshold selects. -/
theorem effectiveOne_spec {t : Dtype} (ht : t.isFloat = false) {cut : ℤ} {x : Threshold} {e : ℤ}
    (h : effectiveOne t cut x = some e) {v : Pixel t} (hv : cut < v.value) :
    decide (e < v.value) = x.selects v.value := by
  have hlargest := largest_le ht
  have hle := value_le_largest v
  have hsmall : ¬ 8 ≤ t.size → ¬ big < v.value := by
    intro hsize
    rw [if_pos (by omega)] at hlargest
    rw [big]
    omega
  cases x with
  | int n =>
    rw [effectiveOne] at h
    rw [Threshold.selects, decide_eq_decide]
    split at h
    · next hbig =>
      split at h
      · exact absurd h (by simp)
      · next hsize =>
        have hnot := hsmall hsize
        rw [← Option.some.inj h]
        omega
    · rw [← Option.some.inj h]
      omega
  | float x =>
    cases x with
    | negInf =>
      rw [effectiveOne] at h
      rw [← Option.some.inj h, decide_eq_true hv]
      rfl
    | posInf =>
      rw [effectiveOne] at h
      split at h
      · exact absurd h (by simp)
      · next hsize =>
        rw [← Option.some.inj h, decide_eq_false (hsmall hsize)]
        rfl
    | finite q hq =>
      have hfloor : ⌊q⌋ < v.value ↔ q < v.value := Int.floor_lt
      rw [effectiveOne] at h
      rw [Threshold.selects, Double.below, decide_eq_decide, ← hfloor]
      split at h
      · next hbig =>
        split at h
        · exact absurd h (by simp)
        · next hsize =>
          have hnot := hsmall hsize
          rw [← Option.some.inj h]
          omega
      · rw [← Option.some.inj h]
        omega

/-! ## The comparison in numpy -/

/-- The smallest pixel value above the cut and a threshold that is not infinite is above the
threshold in `float64` too. -/
def Threshold.Separated (t : Dtype) (cut : ℤ) : Threshold → Prop
  | .int n => max cut n + 1 ≤ t.largest → roundTo 53 n < roundTo 53 (max cut n + 1)
  | .float (.finite q _) =>
      max cut ⌊q⌋ + 1 ≤ t.largest → q < (roundTo 53 (max cut ⌊q⌋ + 1) : ℤ)
  | _ => True

/-- A pixel value is not rounded across a `float64`. -/
theorem roundTo_le_double {v : ℤ} (hv : 0 ≤ v) {q : ℚ} (hq : IsDouble q) (h : (v : ℚ) ≤ q) :
    ((roundTo 53 v : ℤ) : ℚ) ≤ q := by
  obtain ⟨m, e, hm, rfl⟩ := hq
  obtain ⟨a, rfl⟩ := Int.eq_ofNat_of_zero_le hv
  by_cases ha : a < 2 ^ 53
  · rw [roundTo_eq (by simpa using ha)]
    exact h
  · -- a large number with 53 bits is an integer, and rounding leaves it alone
    have hlarge : (2 : ℚ) ^ 53 ≤ m * 2 ^ e := by
      refine le_trans ?_ h
      exact_mod_cast not_lt.mp ha
    have hm0 : 0 ≤ m := by
      by_contra hneg
      have hprod : (m : ℚ) * 2 ^ e < 0 :=
        mul_neg_of_neg_of_pos (by exact_mod_cast not_le.mp hneg) (zpow_pos (by norm_num) e)
      linarith
    have he : 0 ≤ e := by
      by_contra hneg
      have hpow : (2 : ℚ) ^ e ≤ 1 := zpow_le_one_of_nonpos₀ (by norm_num) (by omega)
      have hmq : (m : ℚ) < 2 ^ 53 := by
        have hlt : m < 2 ^ 53 := by omega
        exact_mod_cast hlt
      have hprod : (m : ℚ) * 2 ^ e ≤ m := mul_le_of_le_one_right (by exact_mod_cast hm0) hpow
      linarith
    obtain ⟨b, rfl⟩ := Int.eq_ofNat_of_zero_le hm0
    obtain ⟨k, rfl⟩ := Int.eq_ofNat_of_zero_le he
    rw [roundTo_natCast]
    have hab : a ≤ b * 2 ^ k := by
      rw [zpow_natCast] at h
      exact_mod_cast h
    have hle := (roundMagnitude_mono (k := 53) (by decide) hab).trans_eq
      (roundMagnitude_mul (by simpa using hm))
    rw [zpow_natCast]
    exact_mod_cast hle

/-- The pixel of a value of the type. -/
theorem exists_pixel {t : Dtype} {v : ℤ} (h0 : 0 ≤ v) (h : v ≤ t.largest) :
    ∃ p : Pixel t, p.value = v := ⟨_, Pixel.value_ofInt h0 h⟩

/-- A comparison that rounds only the pixel: it agrees with the exact one when it does for the
smallest value above both. -/
theorem rounded_spec {t : Dtype} {cut n : ℤ} (hcut : 0 ≤ cut) {P : ℤ → Prop}
    (hmono : ∀ v w : ℤ, v ≤ w → P v → P w)
    (hbelow : ∀ v : ℤ, 0 ≤ v → v ≤ n → ¬ P (roundTo 53 v)) :
    (∀ v : Pixel t, cut < v.value → (P (roundTo 53 v.value) ↔ n < v.value)) ↔
      (max cut n + 1 ≤ t.largest → P (roundTo 53 (max cut n + 1))) := by
  constructor
  · intro h hle
    obtain ⟨p, hp⟩ := exists_pixel (t := t) (v := max cut n + 1) (by omega) hle
    have hspec := (h p (by omega)).mpr (by omega)
    rwa [hp] at hspec
  · intro h v hv
    have hle := value_le_largest v
    constructor
    · intro hgt
      by_contra hn
      exact hbelow v.value (by omega) (by omega) hgt
    · intro hn
      exact hmono _ _ (roundTo_mono (by decide) (by omega) (by omega)) (h (by omega))

/-- Above the cut, `_above` selects what the threshold selects exactly when the threshold is separated
from the pixels. -/
theorem above_spec {t : Dtype} {cut : ℤ} (hcut : 0 ≤ cut) (x : Threshold) :
    (∀ v : Pixel t, cut < v.value → x.above v.value = x.selects v.value) ↔ x.Separated t cut := by
  cases x with
  | int n =>
    have h := rounded_spec (t := t) hcut (n := n) (P := fun w => roundTo 53 n < w)
      (fun v w hvw hv => hv.trans_le hvw)
      (fun v h0 hn => not_lt.mpr (roundTo_mono (by decide) h0 hn))
    simpa only [Threshold.above, Threshold.selects, Threshold.Separated, decide_eq_decide] using h
  | float x =>
    cases x with
    | negInf => exact ⟨fun _ => trivial, fun _ _ _ => rfl⟩
    | posInf => exact ⟨fun _ => trivial, fun _ _ _ => rfl⟩
    | finite q hq =>
      have h := rounded_spec (t := t) hcut (n := ⌊q⌋) (P := fun w => q < w)
        (fun v w hvw hv => hv.trans_le (by exact_mod_cast hvw))
        (fun v h0 hn => not_lt.mpr (roundTo_le_double h0 hq (Int.le_floor.mp hn)))
      simp only [Int.floor_lt] at h
      simpa only [Threshold.above, Threshold.selects, Double.below, Threshold.Separated,
        decide_eq_decide] using h

/-! ## The request -/

/-- A threshold that C is not given as it is. -/
def Threshold.tooLarge : Threshold → Prop
  | .int n => big < n
  | .float (.finite q _) => big < ⌊q⌋
  | .float .posInf => True
  | .float .negInf => False

/-- The request is made; the comparisons in C, when it is native, and in numpy select above the cut
what the thresholds select. -/
def Faithful (t : Dtype) (howmany : Option Nat) (thresholds : Option (List Double)) (cut : ℤ)
    (nframes : Nat) : Prop :=
  ∃ r, Request.make howmany thresholds cut t nframes = .ok r ∧
    (r.native = true → ∀ k x, r.thr[k]? = some x → ∀ v : Pixel t, cut < v.value →
      Pipeline.above (r.cTop.filterCut t k) v = x.selects v.value) ∧
    ∀ x ∈ r.thr, ∀ v : Pixel t, cut < v.value → x.above v.value = x.selects v.value

theorem largest_nonneg (t : Dtype) : 0 ≤ t.largest := by
  rw [Dtype.largest]
  have hpow : (1 : ℤ) ≤ 2 ^ (t.bits - if t.signed then 1 else 0) := one_le_pow₀ (by decide)
  omega

/-- The cut that is accepted is a pixel value. -/
theorem cutArray_bounds {t : Dtype} {c : List Number} {cut : ℤ} (h : cutArray t c = .ok cut) :
    0 ≤ cut ∧ cut ≤ t.largest := by
  have h0 := largest_nonneg t
  unfold cutArray at h
  split at h
  · dsimp only at h
    split at h
    · cases h
    · next v hv =>
      split at h
      · cases h
      · cases h
        omega
  · cases h

/-- An effective threshold lies between the cut and what C is given at most. -/
theorem effectiveOne_bounds {t : Dtype} (ht : t.isFloat = false) {cut : ℤ} (hcut : cut ≤ t.largest)
    {x : Threshold} {e : ℤ} (h : effectiveOne t cut x = some e) : cut ≤ e ∧ e ≤ max cut big := by
  have hlargest := largest_le ht
  have hsmall : ¬ 8 ≤ t.size → cut ≤ big := by
    intro hsize
    rw [if_pos (by omega)] at hlargest
    rw [big]
    omega
  rcases x with n | _ | ⟨q, hq⟩ | _
  all_goals rw [effectiveOne] at h
  · split_ifs at h <;> rw [← Option.some.inj h] <;> omega
  · rw [← Option.some.inj h]
    omega
  · split_ifs at h <;> rw [← Option.some.inj h] <;> omega
  · split_ifs at h with hsize
    have hle := hsmall hsize
    rw [← Option.some.inj h]
    omega

/-- The thresholds that C is not given. -/
theorem effectiveOne_none {t : Dtype} {cut : ℤ} {x : Threshold} :
    effectiveOne t cut x = none ↔ 8 ≤ t.size ∧ x.tooLarge := by
  rcases x with n | _ | ⟨q, hq⟩ | _
  all_goals rw [effectiveOne, Threshold.tooLarge]
  · split_ifs with hbig hsize <;> simp_all
  · simp
  · split_ifs with hbig hsize <;> simp_all
  · split_ifs with hsize <;> simp_all

theorem effective_none {t : Dtype} {cut : ℤ} {thr : List Threshold} :
    effective t cut thr = none ↔ 8 ≤ t.size ∧ ∃ x ∈ thr, x.tooLarge := by
  rw [effective, Foundation.mapM_none]
  simp only [effectiveOne_none]
  constructor
  · rintro ⟨x, hx, hsize, hlarge⟩
    exact ⟨hsize, x, hx, hlarge⟩
  · rintro ⟨hsize, x, hx, hlarge⟩
    exact ⟨x, hx, hsize, hlarge⟩

/-- The levels of C are the thresholds. -/
theorem effective_level {t : Dtype} {cut : ℤ} {thr : List Threshold} {eff : List ℤ}
    (h : effective t cut thr = some eff) {k : Nat} {x : Threshold} (hx : thr[k]? = some x) :
    ∃ e, eff[k]? = some e ∧ effectiveOne t cut x = some e := by
  obtain ⟨hlen, hall⟩ := List.forall₂_iff_get.mp (Foundation.mapM_some h)
  obtain ⟨hk, hget⟩ := List.getElem?_eq_some_iff.mp hx
  have hk' : k < eff.length := hlen ▸ hk
  refine ⟨eff[k], List.getElem?_eq_getElem hk', ?_⟩
  rw [← hget]
  exact hall k hk hk'

theorem mem_effective {t : Dtype} {cut : ℤ} {thr : List Threshold} {eff : List ℤ}
    (h : effective t cut thr = some eff) {e : ℤ} (he : e ∈ eff) :
    ∃ x ∈ thr, effectiveOne t cut x = some e := by
  obtain ⟨hlen, hall⟩ := List.forall₂_iff_get.mp (Foundation.mapM_some h)
  obtain ⟨k, hk', rfl⟩ := List.getElem_of_mem he
  have hk : k < thr.length := hlen ▸ hk'
  exact ⟨thr[k], List.getElem_mem hk, hall k hk hk'⟩

theorem int64Array_eq_ok {values l : List ℤ} :
    int64Array values = .ok l ↔ l = values ∧ ∀ v ∈ values, -2 ^ 63 ≤ v ∧ v < 2 ^ 63 := by
  rw [int64Array]
  split
  · next v hv =>
    have hfound := List.find?_some hv
    have hmem := List.mem_of_find?_eq_some hv
    simp only [Bool.not_eq_true', Bool.and_eq_false_iff, decide_eq_false_iff_not] at hfound
    constructor
    · rintro ⟨⟩
    · rintro ⟨-, hall⟩
      have hrange := hall v hmem
      omega
  · next hnone =>
    rw [List.find?_eq_none] at hnone
    constructor
    · intro h
      cases h
      refine ⟨rfl, ?_⟩
      intro v hv
      simpa using hnone v hv
    · rintro ⟨rfl, -⟩
      rfl

/-- The thresholds that `check` lets through. -/
theorem checkThresholds_ok {ts : List Number} {ds : List Double} (h : checkThresholds ts = .ok ds) :
    (ds.IsChain fun x y => y.lt x = false) ∧ ds.length ≤ maxThr := by
  rw [checkThresholds] at h
  cases hes : ts.mapM Number.toDouble with
  | error e =>
    rw [hes] at h
    cases h
  | ok es =>
    rw [hes] at h
    change (if _ then _ else _) = _ at h
    split at h
    · cases h
    · next hcond =>
      cases h
      obtain ⟨hlen, hany⟩ := not_or.mp hcond
      refine ⟨?_, not_lt.mp hlen⟩
      rw [List.isChain_iff_getElem]
      intro k hk
      rw [Bool.not_eq_true, List.any_eq_false] at hany
      have hmem : (ds[k], ds[k + 1]) ∈ ds.zip ds.tail := by
        rw [List.mem_iff_getElem]
        refine ⟨k, by rw [List.length_zip, List.length_tail]; omega, ?_⟩
        rw [List.getElem_zip, List.getElem_tail]
      exact Bool.eq_false_iff.mpr (hany _ hmem)

/-- `check` lets at most `MAXTHR` thresholds through, in order. -/
theorem check_thresholds {howmany : Option Number} {thresholds : Option (List Number)}
    {limit : Option Nat} {thr : Option (List Double)} (h : check howmany thresholds = .ok (limit, thr)) :
    ∀ ds ∈ thr, (ds.IsChain fun x y => y.lt x = false) ∧ ds.length ≤ maxThr := by
  cases hlimit : howmany.mapM Number.toLimit with
  | error e =>
    rw [check, hlimit] at h
    cases h
  | ok n =>
    rw [check, hlimit] at h
    cases thresholds with
    | none =>
      cases h
      intro ds hds
      cases hds
    | some ts =>
      cases hthr : checkThresholds ts with
      | error e =>
        rw [Option.mapM_some, hthr] at h
        cases h
      | ok es =>
        rw [Option.mapM_some, hthr] at h
        cases h
        intro ds hds
        cases hds
        exact checkThresholds_ok hthr

theorem check_length {howmany : Option Number} {thresholds : Option (List Number)}
    {limit : Option Nat} {thr : Option (List Double)} (h : check howmany thresholds = .ok (limit, thr))
    (cut : ℤ) : (requestThresholds thr cut).length ≤ maxThr := by
  cases hthr : thr with
  | none => rw [requestThresholds, defaultThresholds, List.length_map, List.length_range]
  | some ds =>
    rw [requestThresholds, List.length_map]
    exact (check_thresholds h ds hthr).2

section request

variable {t : Dtype} {thresholds : Option (List Double)} {cut : ℤ} {nframes : Nat}

/-- The selection is left to numpy. -/
theorem make_numpy {howmany : Option Nat}
    (h : howmany = none ∨ effective t cut (requestThresholds thresholds cut) = none) :
    Request.make howmany thresholds cut t nframes =
      .ok ⟨howmany, cut, requestThresholds thresholds cut, [], [], false⟩ := by
  have hnone : (howmany.bind fun n =>
      (effective t cut (requestThresholds thresholds cut)).map fun eff => (n, eff)) = none := by
    rcases h with rfl | h
    · rfl
    · rw [h]
      cases howmany <;> rfl
  rw [Request.make, hnone]

/-- The selection is C's. -/
theorem make_native {n : Nat} {eff : List ℤ}
    (h : effective t cut (requestThresholds thresholds cut) = some eff) :
    Request.make (some n) thresholds cut t nframes =
      (int64Array ([min (n : ℤ) (2 ^ 31 - 1), (eff.length : ℤ)] ++ eff)).map fun top =>
        ⟨some n, cut, requestThresholds thresholds cut, top, List.replicate (2 * nframes) 0, true⟩ := by
  rw [Request.make, Option.bind_some, h]
  rfl

/-- The request is made unless a `uint64` cut that no `int64` holds is to be given to C. -/
theorem make_isOk (howmany : Option Nat) (nframes : Nat) (ht : t.isFloat = false) (h0 : 0 ≤ cut)
    (hcut : cut ≤ t.largest) (hlen : (requestThresholds thresholds cut).length ≤ maxThr) :
    (∃ r, Request.make howmany thresholds cut t nframes = .ok r) ↔
      howmany = none ∨ cut < 2 ^ 63 ∨ requestThresholds thresholds cut = [] ∨
        ∃ x ∈ requestThresholds thresholds cut, x.tooLarge := by
  have hlargest := largest_le ht
  have hbig : big < 2 ^ 63 := by decide
  cases howmany with
  | none => simp [make_numpy]
  | some n =>
    cases heff : effective t cut (requestThresholds thresholds cut) with
    | none =>
      have hlarge := (effective_none.mp heff).2
      simp [make_numpy (Or.inr heff), hlarge]
    | some eff =>
      have hforall := List.forall₂_iff_get.mp (Foundation.mapM_some heff)
      have hlimit : maxThr < 2 ^ 63 := by decide
      rw [make_native heff]
      constructor
      · rintro ⟨r, hr⟩
        by_cases hne : requestThresholds thresholds cut = []
        · exact Or.inr (Or.inr (Or.inl hne))
        · -- every level is at least the cut, and the array holds them
          obtain ⟨x, hx⟩ := List.exists_mem_of_ne_nil _ hne
          obtain ⟨k, hk⟩ := List.getElem?_of_mem hx
          obtain ⟨e, he, hone⟩ := effective_level heff hk
          have hbound := effectiveOne_bounds ht hcut hone
          cases htop : int64Array ([min (n : ℤ) (2 ^ 31 - 1), (eff.length : ℤ)] ++ eff) with
          | error v =>
            rw [htop] at hr
            cases hr
          | ok top =>
            have hrange := (int64Array_eq_ok.mp htop).2 e
              (List.mem_append_right _ (List.mem_of_getElem? he))
            exact Or.inr (Or.inl (by omega))
      · intro hfits
        have hall : ∀ v ∈ [min (n : ℤ) (2 ^ 31 - 1), (eff.length : ℤ)] ++ eff,
            -2 ^ 63 ≤ v ∧ v < 2 ^ 63 := by
          intro v hv
          rcases List.mem_append.mp hv with hv | hv
          · simp only [List.mem_cons, List.not_mem_nil, or_false] at hv
            omega
          · obtain ⟨x, hx, hone⟩ := mem_effective heff hv
            have hbound := effectiveOne_bounds ht hcut hone
            have hcut63 : cut < 2 ^ 63 := by
              rcases hfits with hnone | hlt | hnil | hlarge
              · cases hnone
              · exact hlt
              · rw [hnil] at hx
                cases hx
              · -- a threshold that is too large is left out for the 64-bit types only
                have hsize : t.size < 8 := not_le.mp fun h8 => by
                  rw [effective_none.mpr ⟨h8, hlarge⟩] at heff
                  cases heff
                rw [if_pos hsize] at hlargest
                omega
            omega
        rw [int64Array_eq_ok.mpr ⟨rfl, hall⟩]
        exact ⟨_, rfl⟩

theorem make_thr {howmany : Option Nat} {r : Request}
    (h : Request.make howmany thresholds cut t nframes = .ok r) :
    r.thr = requestThresholds thresholds cut := by
  cases howmany with
  | none =>
    rw [make_numpy (Or.inl rfl)] at h
    cases h
    rfl
  | some n =>
    cases heff : effective t cut (requestThresholds thresholds cut) with
    | none =>
      rw [make_numpy (Or.inr heff)] at h
      cases h
      rfl
    | some eff =>
      rw [make_native heff] at h
      cases htop : int64Array ([min (n : ℤ) (2 ^ 31 - 1), (eff.length : ℤ)] ++ eff) with
      | error v =>
        rw [htop] at h
        cases h
      | ok top =>
        rw [htop] at h
        cases h
        rfl

/-- In a native request, level `k` of C is the effective threshold `k`. -/
theorem make_level {howmany : Option Nat} {r : Request}
    (h : Request.make howmany thresholds cut t nframes = .ok r) (hnative : r.native = true) {k : Nat}
    {x : Threshold} (hx : r.thr[k]? = some x) :
    effectiveOne t cut x = some (r.cTop.thr k) ∧ r.cTop.thr k < 2 ^ 63 := by
  rw [make_thr h] at hx
  cases howmany with
  | none =>
    rw [make_numpy (Or.inl rfl)] at h
    cases h
    cases hnative
  | some n =>
    cases heff : effective t cut (requestThresholds thresholds cut) with
    | none =>
      rw [make_numpy (Or.inr heff)] at h
      cases h
      cases hnative
    | some eff =>
      rw [make_native heff] at h
      cases htop : int64Array ([min (n : ℤ) (2 ^ 31 - 1), (eff.length : ℤ)] ++ eff) with
      | error v =>
        rw [htop] at h
        cases h
      | ok top =>
        rw [htop] at h
        cases h
        obtain ⟨rfl, hrange⟩ := int64Array_eq_ok.mp htop
        obtain ⟨e, he, hone⟩ := effective_level heff hx
        have hthr : Top.thr (Request.cTop ⟨some n, cut, requestThresholds thresholds cut,
            [min (n : ℤ) (2 ^ 31 - 1), (eff.length : ℤ)] ++ eff, List.replicate (2 * nframes) 0,
            true⟩) k = e := by
          change ([min (n : ℤ) (2 ^ 31 - 1), (eff.length : ℤ)] ++ eff).getD (k + 2) 0 = e
          rw [List.getD_append_right _ _ _ _ (by simp), List.getD_eq_getElem?_getD]
          change eff[k]?.getD 0 = e
          rw [he]
          rfl
        rw [hthr]
        exact ⟨hone, (hrange e (List.mem_append_right _ (List.mem_of_getElem? he))).2⟩

/-- For pixels of less than 64 bits every limit goes to C. -/
theorem make_small (ht8 : t.size < 8) {n : Nat} {r : Request}
    (h : Request.make (some n) thresholds cut t nframes = .ok r) :
    ∃ eff, effective t cut (requestThresholds thresholds cut) = some eff ∧
      r = ⟨some n, cut, requestThresholds thresholds cut,
        [min (n : ℤ) (2 ^ 31 - 1), (eff.length : ℤ)] ++ eff, List.replicate (2 * nframes) 0, true⟩ := by
  cases heff : effective t cut (requestThresholds thresholds cut) with
  | none =>
    have hsize := (effective_none.mp heff).1
    omega
  | some eff =>
    rw [make_native heff] at h
    cases htop : int64Array ([min (n : ℤ) (2 ^ 31 - 1), (eff.length : ℤ)] ++ eff) with
    | error v =>
      rw [htop] at h
      cases h
    | ok top =>
      rw [htop] at h
      cases h
      obtain ⟨rfl, -⟩ := int64Array_eq_ok.mp htop
      exact ⟨eff, rfl, rfl⟩

end request

/-- Faithful is the request that is made, with thresholds apart from the pixels in `float64`. -/
theorem request_faithful_iff {t : Dtype} (ht : t.isFloat = false) {c : List Number} {cut : ℤ}
    (hcut : cutArray t c = .ok cut) {howmany : Option Number} {thresholds : Option (List Number)}
    {limit : Option Nat} {thr : Option (List Double)}
    (hcheck : check howmany thresholds = .ok (limit, thr)) (nframes : Nat) :
    Faithful t limit thr cut nframes ↔
      (limit = none ∨ cut < 2 ^ 63 ∨ requestThresholds thr cut = [] ∨
        ∃ x ∈ requestThresholds thr cut, x.tooLarge) ∧
      ∀ x ∈ requestThresholds thr cut, x.Separated t cut := by
  obtain ⟨h0, hlargest⟩ := cutArray_bounds hcut
  have hok := make_isOk limit nframes ht h0 hlargest (check_length hcheck cut)
  rw [← hok]
  constructor
  · rintro ⟨r, hr, -, habove⟩
    constructor
    · exact ⟨r, hr⟩
    · intro x hx
      rw [← make_thr hr] at hx
      exact (above_spec h0 x).mp (habove x hx)
  · rintro ⟨⟨r, hr⟩, hseparated⟩
    refine ⟨r, hr, ?_, ?_⟩
    · intro hnative k x hx v hv
      obtain ⟨hone, hlt⟩ := make_level hr hnative hx
      have hle := (effectiveOne_bounds ht hlargest hone).1
      rw [filter_spec ht _ _ (by omega) hlt]
      exact effectiveOne_spec ht hone hv
    · intro x hx
      rw [make_thr hr] at hx
      exact (above_spec h0 x).mpr (hseparated x hx)

theorem isDouble_one : IsDouble 1 := ⟨1, 0, by decide, by norm_num⟩

/-- A cut of 3 and the threshold 1.0, below the cut. -/
theorem request_faithful_iff_below :
    cutArray .u64 [.int 3] = .ok 3 ∧
      check (some (.int 10)) (some [.float (.finite 1 isDouble_one)]) =
        .ok (some 10, some [.finite 1 isDouble_one]) ∧
      Faithful .u64 (some 10) (some [.finite 1 isDouble_one]) 3 1 := by
  have hcut : cutArray .u64 [.int 3] = .ok 3 := rfl
  have hcheck : check (some (.int 10)) (some [.float (.finite 1 isDouble_one)]) =
      .ok (some 10, some [.finite 1 isDouble_one]) := rfl
  refine ⟨hcut, hcheck, (request_faithful_iff rfl hcut hcheck 1).mpr ?_⟩
  constructor
  · exact Or.inr (Or.inl (by decide))
  · intro x hx
    rw [requestThresholds, List.map_singleton, List.mem_singleton] at hx
    rw [hx, Threshold.Separated, Int.floor_one]
    intro _
    have h4 : roundTo 53 (max 3 1 + 1) = 4 := by decide
    rw [h4]
    norm_num

/-- The cut `2 ^ 63` of `uint64` pixels fits no `int64`: with the threshold 1.0 the request fails. -/
theorem request_overflows :
    cutArray .u64 [.int (2 ^ 63)] = .ok (2 ^ 63) ∧
      check (some (.int 10)) (some [.float (.finite 1 isDouble_one)]) =
        .ok (some 10, some [.finite 1 isDouble_one]) ∧
      ¬ Faithful .u64 (some 10) (some [.finite 1 isDouble_one]) (2 ^ 63) 1 := by
  refine ⟨by decide, rfl, ?_⟩
  rintro ⟨r, hr, -⟩
  have heff : effective .u64 (2 ^ 63) (requestThresholds (some [.finite 1 isDouble_one]) (2 ^ 63)) =
      some [2 ^ 63] := by
    have hone : effectiveOne .u64 (2 ^ 63) (.float (.finite 1 isDouble_one)) = some (2 ^ 63) := by
      rw [effectiveOne, Int.floor_one]
      decide
    rw [requestThresholds, List.map_singleton, effective, List.mapM_cons, hone]
    rfl
  rw [make_native heff] at hr
  cases hr

/-- The pixel `2 ^ 53 + 1` is not above the threshold `2 ^ 53` in `float64`. -/
theorem not_separated : ¬ (Threshold.int (2 ^ 53)).Separated .u64 0 := by
  intro h
  exact absurd (h (by decide)) (by decide)

end Bslz4ToSparse.TopPixels
