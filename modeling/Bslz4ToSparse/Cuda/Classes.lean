import Bslz4ToSparse.Cuda.Lists
import Bslz4ToSparse.TopPixels.Streaming

/-!
# The two classes (src/cuda/_gpu.py, src/__init__.py)

A class with integer pixels of at most 32 bits, on the GPU and on the CPU: how the cut, the limit
and the thresholds of the user come to the kernels and to the driver, and the list and the count
that a frame gets.
-/

namespace Bslz4ToSparse.Cuda

open Foundation TopPixels
open Lz4 (Byte)

variable {t : Dtype}

/-- What the user sets up and asks for. The cut is a Python number that is not a NaN; limit and
thresholds are as `check` leaves them (`check_thresholds`). -/
structure Settings (t : Dtype) where
  npix : Nat
  mask : Nat → Byte
  cut : Threshold
  howmany : Option Nat
  thresholds : Option (List Double)
  integer : t.isFloat = false
  small : t.size ≤ 4
  bytes_lt : npix * t.size < 2 ^ 31
  sorted : ∀ ts ∈ thresholds, ts.IsChain fun x y => y.lt x = false
  length_le : ∀ ts ∈ thresholds, ts.length ≤ maxThr

/-! ## The GPU -/

/-- A number that numpy takes for an object. -/
structure ObjectNumber where
  value : ℤ
  deriving DecidableEq, Repr

/-- Within `2.0 ** 62` on both sides. -/
def clamp (n : ℤ) : ℤ := max (min n big) (-big)

/-- `_cut` for integer pixels. `np.floor` gives a `float64`. -/
def deviceCut : Threshold → Except ObjectNumber ℤ
  | .int n => if -2 ^ 63 ≤ n ∧ n < 2 ^ 64 then .ok (clamp (Dot.roundTo 53 n)) else .error ⟨n⟩
  | .float (.finite q _) => .ok (clamp ⌊q⌋)
  | .float .posInf => .ok big
  | .float .negInf => .ok (-big)

theorem isDouble_scale {q : ℚ} (h : IsDouble q) (i : Nat) : IsDouble (q * 2 ^ i) := by
  obtain ⟨m, e, hm, rfl⟩ := h
  refine ⟨m, e + i, hm, ?_⟩
  rw [zpow_add₀ (by norm_num), zpow_natCast]
  ring

/-- `x * 2 ** i`. -/
def scale (i : Nat) : Threshold → Threshold
  | .int n => .int (n * 2 ^ i)
  | .float (.finite q h) =>
      if 2 ^ 1024 ≤ q * 2 ^ i then .float .posInf
      else if q * 2 ^ i ≤ -2 ^ 1024 then .float .negInf
      else .float (.finite (q * 2 ^ i) (isDouble_scale h i))
  | x => x

/-- `max(cut, 1)`. -/
def atLeastOne : Threshold → Threshold
  | .int n => .int (max n 1)
  | .float (.finite q h) => if q < 1 then .int 1 else .float (.finite q h)
  | .float .posInf => .float .posInf
  | .float .negInf => .int 1

/-- `default_thresholds` of any cut. -/
def ladder (cut : Threshold) : List Threshold := (List.range maxThr).map fun i => scale i (atLeastOne cut)

namespace Settings

variable (s : Settings t)

/-- `cap`: the indices and the values take no more than the bytes of a frame. -/
def cap : Nat := s.npix * t.size / (4 + t.size)

/-- `_fallback`. -/
def fallback : Bool :=
  match s.howmany with
  | none => true
  | some h => decide (s.cap < h)

/-- `_hm`. -/
def hm : Nat := if s.fallback then s.cap else s.howmany.getD 0

/-- `_thr_call`. -/
def thrCall : List Threshold :=
  match s.thresholds with
  | none => ladder s.cut
  | some ts => ts.map .float

/-- The thresholds on the device. -/
def deviceThr : Except ObjectNumber (List ℤ) :=
  if s.fallback then .ok [] else s.thrCall.mapM deviceCut

/-- `_launch` on a batch of frames. -/
structure Launched (g : Batch t) : Prop where
  npix : g.npix = s.npix
  mask : ∀ p, p < s.npix → g.mask p = s.mask p
  cut : deviceCut s.cut = .ok g.cut
  thr : s.deviceThr = .ok g.thr
  howmany : g.howmany = s.hm
  fallback : g.fallback = s.fallback

/-- What `_host_list` finds in the dense frame. -/
def hostPixels (frame : Nat → Pixel t) : List (Pixel t × Nat) :=
  ((List.range s.npix).filter fun p => s.cut.above (frame p).value && decide (s.mask p ≠ 0#8)).map
    fun p => (frame p, p)

/-- `_host_list`: the list and `last_nabove`. -/
def hostList (frame : Nat → Pixel t) : List (Pixel t × Nat) × Nat :=
  match s.howmany with
  | none => (s.hostPixels frame, (s.hostPixels frame).length)
  | some h =>
      let r := topPixels (s.hostPixels frame) h s.thrCall
      (r.kept, r.nabove)

/-- `_fetch`: the list of frame `im` and its `last_nabove`. -/
def fetch {g : Batch t} (l : Lists g) (im : Nat) : List (Pixel t × Nat) × Nat :=
  if l.level im < 0 then s.hostList (g.frame im)
  else
    ((List.range (l.npx im)).map fun r => l.out (sumBelow l.npx im + r),
      l.npxl ((l.level im).toNat * g.n + im))

end Settings

/-! ## The CPU -/

/-- A Python number as the user gives it. -/
def number : Threshold → Number
  | .int n => .int n
  | .float x => .float x

/-- `Request.finish` on one frame: the driver's list and count, or the numpy version. -/
def finish (r : Request) (list : List (Pixel t × Nat)) (nabove : Nat) : List (Pixel t × Nat) × Nat :=
  match r.howmany with
  | none => (list, list.length)
  | some h =>
      if r.native then (list, nabove)
      else
        let s := topPixels list h r.thr
        (s.kept, s.nabove)

namespace Settings

variable {nij : Nat} {D : Type} (s : Settings t)

/-- A call of the driver from the CPU class, with any pipeline that goes with the mask. -/
structure Called (cut : ℤ) (r : Request) (q : Pipeline.Call t s.npix D) : Prop where
  cutArray : cutArray t [number s.cut] = .ok cut
  made : ∃ nframes, Request.make s.howmany s.thresholds cut t nframes = .ok r
  mask : q.mask = s.mask
  unmasked : q.pipe.mask = .none → ∀ p, p < s.npix → s.mask p ≠ 0#8
  cutPixel : q.cutPixel = BitVec.ofInt t.bits cut
  top : q.top = if r.native then some r.cTop else none

/-- The list of a frame and its `last_nabove`, from what the driver lists of its pixels. -/
def called (r : Request) (q : Pipeline.Call t s.npix D) (frame : Nat → Pixel t) :
    List (Pixel t × Nat) × Nat :=
  finish r (swapped (q.kept (q.settled frame s.npix).2)) (q.counted (q.settled frame s.npix).2)

end Settings

/-! ## The lists of the GPU -/

theorem clamp_lt {n v : ℤ} (hv : v.natAbs < 2 ^ 32) : clamp n < v ↔ n < v := by
  rw [clamp, big]
  omega

/-- A number that came to the device selects what it selects in `float64`. -/
theorem deviceCut_spec (ht : t.size ≤ 4) {x : Threshold} {e : ℤ} (h : deviceCut x = .ok e) (v : Pixel t) :
    above v e = x.above v.value := by
  have hv := natAbs_lt_of_small ht v
  have hround : Dot.roundTo 53 v.value = v.value := Dot.roundTo_eq (by omega)
  rw [above]
  rcases x with n | _ | ⟨q, hq⟩ | _
  · rw [deviceCut] at h
    split at h
    · cases h
      rw [Threshold.above, hround, decide_eq_decide]
      exact clamp_lt hv
    · cases h
  · cases h
    rw [Threshold.above, Double.below, decide_eq_true_iff, big]
    omega
  · cases h
    rw [Threshold.above, Double.below, hround, decide_eq_decide, clamp_lt hv, Int.floor_lt]
  · cases h
    rw [Threshold.above, Double.below, decide_eq_false_iff_not, big]
    omega

namespace Settings

variable {s : Settings t} {g : Batch t}

theorem hostPixels_eq (h : s.Launched g) (im : Nat) : s.hostPixels (g.frame im) = g.framePixels im := by
  rw [hostPixels, Batch.framePixels, Batch.pixels, h.npix]
  congr 1
  apply List.filter_congr
  intro p hp
  have hzero : g.levelCut 0 = g.cut := if_pos rfl
  rw [Batch.sel, hzero, Bool.and_self, h.mask p (List.mem_range.mp hp), deviceCut_spec s.small h.cut]

/-- The thresholds on the device select what the thresholds of the call select. -/
theorem thrCall_device (h : s.Launched g) (hfallback : s.fallback = false) :
    List.Forall₂ (fun x y => ∀ v : Pixel t, x.above v.value = y.above v.value) g.thresholds s.thrCall := by
  have hthr := h.thr
  rw [deviceThr, hfallback, if_neg (by decide)] at hthr
  rw [Batch.thresholds, List.forall₂_map_left_iff]
  refine (mapM_ok hthr).flip.imp fun e x hx v => ?_
  rw [g.above_int, deviceCut_spec s.small hx]

theorem hm_eq {n : Nat} (hn : s.howmany = some n) (hfallback : s.fallback = false) : s.hm = n := by
  rw [hm, hfallback, if_neg (by decide), hn]
  rfl

/-- The list of a frame on the GPU is the one that is made on the host. -/
theorem fetch_eq_hostList (h : s.Launched g) (l : Lists g)
    (hfits : ∀ im, im < g.n → sumBelow g.listLength im < 2 ^ 32) {im : Nat} (him : im < g.n)
    (herr : g.err im = 0) : s.fetch l im = s.hostList (g.frame im) := by
  have hoff : ∀ im, im < g.n → l.imgoff im = sumBelow l.npx im := fun im him =>
    l.imgoff_of_fits him (hfits im him)
  rw [fetch]
  split
  · rfl
  · next hlevel =>
    have hdevice : l.level im ≠ -1 := by omega
    have hnot := l.not_onHost him herr hdevice
    have hkept : ((List.range (l.npx im)).map fun r => l.out (sumBelow l.npx im + r)) =
        (g.selected im).kept := by
      apply List.ext_getElem?
      intro r
      by_cases hr : r < l.npx im
      · rw [l.out_eq hoff him herr hnot hr, List.getElem?_map, List.getElem?_range hr]
        rfl
      · have hlength := l.length_eq him herr hnot
        rw [List.getElem?_eq_none (by simp; omega), List.getElem?_eq_none (by omega)]
    rw [hkept, (l.count_eq him herr hnot).1, hostList]
    cases hfallback : s.fallback with
    | true =>
      -- the frame fits the lists of the device: nothing is left out
      have hall : (g.framePixels im).length ≤ g.howmany := by
        by_contra hmore
        exact hnot ⟨by rw [h.fallback, hfallback], not_le.mp hmore⟩
      rw [Batch.selected, topPixels_all hall, hostPixels_eq h]
      cases hn : s.howmany with
      | none => rfl
      | some n =>
        have hcap : s.cap < n := by
          rw [fallback, hn] at hfallback
          exact of_decide_eq_true hfallback
        have hhm : g.howmany = s.cap := by
          rw [h.howmany, hm, hfallback, if_pos rfl]
        dsimp only
        rw [topPixels_all (by omega)]
    | false =>
      cases hn : s.howmany with
      | none =>
        rw [fallback, hn] at hfallback
        cases hfallback
      | some n =>
        have hthr : List.Forall₂ (fun x y => ∀ p ∈ g.framePixels im, x.above p.1.value = y.above p.1.value)
            g.thresholds s.thrCall := by
          refine (thrCall_device h hfallback).imp ?_
          intro _ _ hxy p _
          exact hxy p.1
        have hsame := topPixels_congr hthr n
        have hhm : g.howmany = n := h.howmany.trans (hm_eq hn hfallback)
        dsimp only
        rw [Batch.selected, hhm, hostPixels_eq h, hsame.1, hsame.2]

end Settings

/-! ## The list of the CPU -/

/-- The cut of the driver, in `float64`. -/
theorem cutArray_number {cut : Threshold} {c : ℤ} (ht : t.isFloat = false) (hsmall : t.size ≤ 4)
    (h : cutArray t [number cut] = .ok c) (v : Pixel t) : decide (c < v.value) = cut.above v.value := by
  have hv := natAbs_lt_of_small hsmall v
  have hle := value_le_largest v
  have hlargest := largest_le ht
  rw [if_pos (by omega)] at hlargest
  rcases cut with n | _ | ⟨q, hq⟩ | _
  · rw [above_int_of_small (by omega), decide_eq_decide]
    simp only [cutArray, number] at h
    split at h
    · cases h
    · cases h
      omega
  · simp only [cutArray, number] at h
    cases h
  · rw [Threshold.above, Double.below, Dot.roundTo_eq (show v.value.natAbs < 2 ^ 53 by omega), decide_eq_decide,
      ← Int.floor_lt]
    simp only [cutArray, number] at h
    split at h
    · cases h
    · cases h
      omega
  · rw [Threshold.above, Double.below, decide_eq_false_iff_not]
    simp only [cutArray, number] at h
    cases h
    omega

/-- A threshold as an integer that the device takes. -/
def Double.level : Double → ℤ
  | .negInf => -big
  | .finite q _ => clamp ⌊q⌋
  | .posInf => big

theorem level_mono {x y : Double} (h : y.lt x = false) : Double.level x ≤ Double.level y := by
  rcases x with _ | ⟨p, hp⟩ | _
  all_goals rcases y with _ | ⟨q, hq⟩ | _
  all_goals simp only [Double.lt, Double.level, clamp, big, decide_eq_false_iff_not, not_lt,
    Bool.true_eq_false] at h ⊢
  all_goals try omega
  have hfloor := Int.floor_le_floor h
  omega

theorem deviceCut_float (x : Double) : deviceCut (.float x) = .ok (Double.level x) := by
  rcases x with _ | ⟨q, hq⟩ | _ <;> rfl

/-- What C is given for a threshold of the user. -/
theorem effectiveOne_float (ht : t.isFloat = false) (hsmall : t.size ≤ 4) {c : ℤ} (h0 : 0 ≤ c)
    (hc : c ≤ t.largest) (x : Double) : effectiveOne t c (.float x) = some (max c (Double.level x)) := by
  have hlargest := largest_le ht
  rw [if_pos (by omega)] at hlargest
  rcases x with _ | ⟨q, hq⟩ | _
  all_goals rw [effectiveOne, Double.level]
  · rw [big, max_eq_left (by omega)]
  · rw [clamp, big, if_neg (show ¬ 8 ≤ t.size by omega)]
    split
    · rw [min_eq_right (by omega)]
      rfl
    · congr 1
      omega
  · rw [if_neg (by omega), max_eq_right (by rw [big]; omega)]

theorem effectiveOne_int (hsmall : t.size ≤ 4) (c n : ℤ) :
    effectiveOne t c (.int n) = some (max c (min n big)) := by
  rw [effectiveOne, if_neg (show ¬ 8 ≤ t.size by omega)]
  split
  · rw [min_eq_right (by omega)]
  · rw [min_eq_left (by omega)]

theorem getElem?_defaultThresholds {c : ℤ} {k : Nat} {x : Threshold} (h : (defaultThresholds c)[k]? = some x) :
    k < maxThr ∧ x = .int (max c 1 * 2 ^ k) := by
  obtain ⟨hk, rfl⟩ := List.getElem?_eq_some_iff.mp h
  rw [defaultThresholds, List.length_map, List.length_range] at hk
  refine ⟨hk, ?_⟩
  simp only [defaultThresholds, List.getElem_map, List.getElem_range]

namespace Settings

variable {D : Type} {s : Settings t} {c : ℤ} {r : Request} {q : Pipeline.Call t s.npix D}

/-- The thresholds come to C in order. -/
theorem effective_mono (ht : t.isFloat = false) (hsmall : t.size ≤ 4) (h0 : 0 ≤ c) (hc : c ≤ t.largest)
    {k : Nat} {x y : Threshold} (hx : (requestThresholds s.thresholds c)[k]? = some x)
    (hy : (requestThresholds s.thresholds c)[k + 1]? = some y) {e f : ℤ}
    (he : effectiveOne t c x = some e) (hf : effectiveOne t c y = some f) : e ≤ f := by
  cases hts : s.thresholds with
  | none =>
    rw [hts] at hx hy
    rw [(getElem?_defaultThresholds hx).2] at he
    rw [(getElem?_defaultThresholds hy).2] at hf
    rw [effectiveOne_int hsmall] at he hf
    have hpow : max c 1 * 2 ^ k ≤ max c 1 * 2 ^ (k + 1) :=
      mul_le_mul_of_nonneg_left (pow_le_pow_right₀ (by norm_num) (Nat.le_succ k)) (by omega)
    cases he
    cases hf
    omega
  | some ts =>
    rw [hts, requestThresholds, List.getElem?_map] at hx hy
    obtain ⟨a, ha, rfl⟩ := Option.map_eq_some_iff.mp hx
    obtain ⟨b, hb, rfl⟩ := Option.map_eq_some_iff.mp hy
    obtain ⟨hk, rfl⟩ := List.getElem?_eq_some_iff.mp ha
    obtain ⟨hk', rfl⟩ := List.getElem?_eq_some_iff.mp hb
    have hchain := List.isChain_iff_getElem.mp (s.sorted ts hts) k hk'
    have hmono := level_mono hchain
    rw [effectiveOne_float ht hsmall h0 hc] at he hf
    cases he
    cases hf
    omega

/-- What the driver gets with a limit. -/
theorem called_top (h : s.Called c r q) {n : Nat} (hn : s.howmany = some n) :
    q.top = some r.cTop ∧ r.howmany = some n ∧ r.native = true ∧
      r.cTop.howmany = min (n : ℤ) (2 ^ 31 - 1) ∧
      r.cTop.nthr.toNat = (requestThresholds s.thresholds c).length ∧
      r.thr = requestThresholds s.thresholds c := by
  obtain ⟨nframes, hmade⟩ := h.made
  have hsmall := s.small
  have hthr := make_thr hmade
  rw [hn] at hmade
  obtain ⟨eff, heff, rfl⟩ := make_small (by omega) hmade
  have hlen := (List.forall₂_iff_get.mp (mapM_some heff)).1
  refine ⟨h.top, rfl, rfl, rfl, ?_, hthr⟩
  rw [hlen]
  rfl

/-- The driver's levels, above the cut. -/
theorem called_level (h : s.Called c r q) {n : Nat} (hn : s.howmany = some n) {k : Nat} {x : Threshold}
    (hx : (requestThresholds s.thresholds c)[k]? = some x) :
    effectiveOne t c x = some (r.cTop.thr k) ∧ c ≤ r.cTop.thr k ∧ r.cTop.thr k < 2 ^ 63 := by
  obtain ⟨nframes, hmade⟩ := h.made
  obtain ⟨-, -, hnative, -, -, hthr⟩ := called_top h hn
  obtain ⟨hone, hlt⟩ := make_level hmade hnative (by rwa [hthr])
  obtain ⟨-, hlargest⟩ := cutArray_bounds h.cutArray
  exact ⟨hone, (effectiveOne_bounds s.integer hlargest hone).1, hlt⟩

theorem called_cut (h : s.Called c r q) : q.cutPixel.value = c := by
  obtain ⟨h0, hlargest⟩ := cutArray_bounds h.cutArray
  rw [h.cutPixel]
  exact Pixel.value_ofInt h0 hlargest

/-- A driver's limit is the user's. -/
theorem called_limit (h : s.Called c r q) {top : Pipeline.Top} (htop : q.top = some top) :
    ∃ n, s.howmany = some n ∧ top = r.cTop := by
  cases hn : s.howmany with
  | none =>
    obtain ⟨nframes, hmade⟩ := h.made
    rw [hn, make_numpy (Or.inl rfl)] at hmade
    have hnone := h.top
    cases hmade
    rw [hnone] at htop
    cases htop
  | some n => exact ⟨n, rfl, Option.some.inj (htop.symm.trans (called_top h hn).1)⟩

/-- The CPU class keeps the driver's rules. -/
theorem called_ascending (h : s.Called c r q) : Ascending q := by
  obtain ⟨h0, hlargest⟩ := cutArray_bounds h.cutArray
  have hcut := called_cut h
  refine ⟨s.integer, by rw [hcut]; exact h0, ?_, ?_⟩
  · intro top htop k hk
    obtain ⟨n, hn, rfl⟩ := called_limit h htop
    obtain ⟨-, -, -, -, hlen, -⟩ := called_top h hn
    rw [hlen] at hk
    rw [hcut]
    exact (called_level h hn (List.getElem?_eq_getElem hk)).2
  · intro top htop k hk
    obtain ⟨n, hn, rfl⟩ := called_limit h htop
    obtain ⟨-, -, -, -, hlen, -⟩ := called_top h hn
    rw [hlen] at hk
    have hx := List.getElem?_eq_getElem (Nat.lt_of_succ_lt hk)
    have hy := List.getElem?_eq_getElem hk
    exact effective_mono s.integer s.small h0 hlargest hx hy (called_level h hn hx).1 (called_level h hn hy).1

/-- The unmasked pixels above the cut are those of the host. -/
theorem abovePixels_eq (h : s.Called c r q) (frame : Nat → Pixel t) :
    abovePixels q frame = s.hostPixels frame := by
  have hcut := called_cut h
  have hmask : ∀ p, p < s.npix → Steps.maskOk q.emask p = decide (s.mask p ≠ 0#8) := by
    intro p hp
    rw [Pipeline.Call.emask]
    split
    · next hnone => exact (decide_eq_true (h.unmasked hnone p hp)).symm
    · rw [Steps.maskOk, h.mask, Bool.eq_iff_iff, bne_iff_ne, decide_eq_true_iff]
  rw [abovePixels, hostPixels, Pipeline.candidates_eq, List.filter_map, List.filter_filter, swapped,
    List.map_map]
  have hfilter : ((List.range s.npix).filter fun e =>
      (q.test 0 ∘ fun e => (e + 0, frame (e + 0))) e && Steps.maskOk q.emask (e + 0)) =
      (List.range s.npix).filter fun p => s.cut.above (frame p).value && decide (s.mask p ≠ 0#8) := by
    apply List.filter_congr
    intro p hp
    rw [Function.comp, Nat.add_zero, hmask p (List.mem_range.mp hp), Pipeline.Call.test,
      cutAt_zero s.integer, hcut, cutArray_number s.integer s.small h.cutArray]
  rw [hfilter]
  rfl

/-- The list of a frame from the CPU class is that of `top_pixels`, with the thresholds that come from the
cut as a pixel. -/
def cpuList (s : Settings t) (c : ℤ) (frame : Nat → Pixel t) : List (Pixel t × Nat) × Nat :=
  match s.howmany with
  | none => (s.hostPixels frame, (s.hostPixels frame).length)
  | some h =>
      let r := topPixels (s.hostPixels frame) h (requestThresholds s.thresholds c)
      (r.kept, r.nabove)

theorem sameLevels (h : s.Called c r q) {n : Nat} (hn : s.howmany = some n) :
    SameLevels q (requestThresholds s.thresholds c) := by
  obtain ⟨htop, -, -, -, hlen, -⟩ := called_top h hn
  refine ⟨by rw [Ascending.levels_eq htop, hlen], ?_⟩
  intro k x hx v hv
  have hcut := called_cut h
  have hsmall := natAbs_lt_of_small s.small v
  obtain ⟨hone, hle, hlt⟩ := called_level h hn hx
  have hk := (List.getElem?_eq_some_iff.mp hx).1
  rw [(called_ascending h).cutAt htop (by rw [hlen]; exact hk)]
  rw [cutAt_zero s.integer, hcut, decide_eq_true_iff] at hv
  have hselects := effectiveOne_spec s.integer hone hv
  rw [hselects]
  rcases x with m | y
  · exact above_int_of_small (by omega)
  · rw [Threshold.above, Threshold.selects, Dot.roundTo_eq (by omega)]

theorem called_eq_cpuList (h : s.Called c r q) (frame : Nat → Pixel t) :
    s.called r q frame = s.cpuList c frame := by
  have hpixels := abovePixels_eq h frame
  have hsteady := (called_ascending h).steady
  rw [called, cpuList, finish]
  cases hn : s.howmany with
  | none =>
    obtain ⟨nframes, hmade⟩ := h.made
    have htop := h.top
    rw [hn, make_numpy (Or.inl rfl)] at hmade
    cases hmade
    have hlevel : (q.settled frame s.npix).1 = 0 := by
      have hle : (q.settled frame s.npix).1 ≤ q.levels :=
        (settledLevel_spec q.test q.full q.levels (q.candidates frame 0 s.npix)).1
      rw [Ascending.levels_none htop] at hle
      exact Nat.le_zero.mp hle
    have hlist : swapped (q.kept (q.settled frame s.npix).2) = abovePixels q frame := by
      rw [Pipeline.Call.kept, htop, abovePixels]
      change swapped ((q.candidates frame 0 s.npix).filter (q.test (q.settled frame s.npix).1)) = _
      rw [hlevel]
    dsimp only
    rw [hlist, hpixels]
  | some n =>
    obtain ⟨htop, hhowmany, hnative, hlimit, -, -⟩ := called_top h hn
    have h0 : 0 ≤ r.cTop.howmany := by omega
    have hselect := settled_topPixels hsteady htop h0 (sameLevels h hn) frame
    have hcount : q.counted (q.settled frame s.npix).2 = (q.settled frame s.npix).2.length := by
      rw [Pipeline.Call.counted, htop]
    -- a frame has fewer pixels than the largest limit of C
    have hsame : topPixels (s.hostPixels frame) r.cTop.howmany.toNat (requestThresholds s.thresholds c) =
        topPixels (s.hostPixels frame) n (requestThresholds s.thresholds c) := by
      by_cases hlarge : (n : ℤ) ≤ 2 ^ 31 - 1
      · rw [hlimit, min_eq_left hlarge, Int.toNat_natCast]
      · have hlength : (s.hostPixels frame).length ≤ s.npix := by
          rw [hostPixels, List.length_map]
          exact (List.length_filter_le _ _).trans_eq List.length_range
        have hbytes := s.bytes_lt
        have hsize := Nat.mul_le_mul_left s.npix (show 1 ≤ t.size from t.size_pos)
        rw [topPixels_all (by omega), topPixels_all (by omega)]
    rw [hhowmany]
    dsimp only
    rw [if_pos hnative, hcount, ← hsame, ← hpixels, hselect]

end Settings

end Bslz4ToSparse.Cuda
