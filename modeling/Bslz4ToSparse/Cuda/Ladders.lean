import Bslz4ToSparse.Cuda.Classes

/-!
# Where the classes select alike

Both classes make the same list of the same thresholds. The default thresholds are a ladder from
the cut on: the GPU class takes the user's cut for it, the CPU class the cut as a pixel.
-/

namespace Bslz4ToSparse.Cuda

open Foundation TopPixels
open Lz4 (Byte)

variable {t : Dtype}

/-! ## The ladder of a cut -/

/-- The largest integer that is not above a rung. -/
def rung (cut : Threshold) (i : Nat) : ℤ :=
  match cut with
  | .int n => max n 1 * 2 ^ i
  | .float (.finite q _) => ⌊max q 1 * 2 ^ i⌋
  | .float .posInf => big
  | .float .negInf => 2 ^ i

theorem above_atRung (ht : t.size ≤ 4) (cut : Threshold) (i : Nat) (v : Pixel t) :
    (scale i (atLeastOne cut)).above v.value = decide (rung cut i < v.value) := by
  have hv := natAbs_lt_of_small ht v
  have hround : Dot.roundTo 53 v.value = v.value := Dot.roundTo_eq (by omega)
  rcases cut with n | _ | ⟨q, hq⟩ | _
  · exact above_int_of_small (by omega)
  · rw [atLeastOne, scale, one_mul]
    exact above_int_of_small (by omega)
  · rw [atLeastOne, rung]
    split
    · next hlt =>
      rw [scale, above_int_of_small (by omega), max_eq_right hlt.le, decide_eq_decide]
      have hfloor : ⌊(1 : ℚ) * 2 ^ i⌋ = 1 * 2 ^ i := by
        rw [one_mul, one_mul]
        exact_mod_cast Int.floor_natCast (R := ℚ) (2 ^ i)
      rw [hfloor]
    · next hge =>
      have hpos : 1 ≤ q := not_lt.mp hge
      have hpow : (0 : ℚ) < 2 ^ i := by positivity
      rw [max_eq_left hpos, scale]
      split
      · next hlarge =>
        -- beyond a float64: above every pixel either way
        rw [Threshold.above, Double.below, eq_comm, decide_eq_false_iff_not, not_lt]
        apply Int.le_floor.mpr
        refine le_trans ?_ hlarge
        have hmono : (2 : ℤ) ^ 32 ≤ 2 ^ 1024 := pow_le_pow_right₀ (by norm_num) (by decide)
        have hcast : v.value ≤ (2 : ℤ) ^ 1024 := le_trans (by omega) hmono
        exact_mod_cast hcast
      · rw [if_neg]
        · rw [Threshold.above, Double.below, hround, decide_eq_decide, Int.floor_lt]
        · intro hneg
          have hprod : 0 ≤ q * 2 ^ i := mul_nonneg (by linarith) hpow.le
          have hlarge : (0 : ℚ) < 2 ^ 1024 := by positivity
          exact absurd hneg (not_le.mpr ((neg_lt_zero.mpr hlarge).trans_le hprod))
  · change false = decide (big < v.value)
    rw [eq_comm, decide_eq_false_iff_not, big]
    omega

theorem getElem?_ladder {cut x : Threshold} {k : Nat} (h : (ladder cut)[k]? = some x) :
    k < maxThr ∧ x = scale k (atLeastOne cut) := by
  obtain ⟨hk, rfl⟩ := List.getElem?_eq_some_iff.mp h
  rw [ladder, List.length_map, List.length_range] at hk
  refine ⟨hk, ?_⟩
  simp only [ladder, List.getElem_map, List.getElem_range]

theorem rung_mono (cut : Threshold) {i j : Nat} (h : i ≤ j) : rung cut i ≤ rung cut j := by
  have hpow : (2 : ℤ) ^ i ≤ 2 ^ j := pow_le_pow_right₀ (by norm_num) h
  rcases cut with n | _ | ⟨q, hq⟩ | _
  · exact mul_le_mul_of_nonneg_left hpow (by omega)
  · exact hpow
  · apply Int.floor_le_floor
    have hone : (1 : ℚ) ≤ max q 1 := le_max_right q 1
    exact mul_le_mul_of_nonneg_left (pow_le_pow_right₀ (by norm_num) h) (by linarith)
  · exact le_rfl

/-- A rung as the device takes it. -/
def deviceRung (cut : Threshold) (i : Nat) : ℤ :=
  match cut with
  | .int n => clamp (Dot.roundTo 53 (max n 1 * 2 ^ i))
  | .float (.finite q _) => if q < 1 then clamp (Dot.roundTo 53 (1 * 2 ^ i)) else clamp ⌊q * 2 ^ i⌋
  | .float .posInf => big
  | .float .negInf => clamp (Dot.roundTo 53 (1 * 2 ^ i))

theorem deviceCut_int {n e : ℤ} (h : deviceCut (.int n) = .ok e) : e = clamp (Dot.roundTo 53 n) := by
  rw [deviceCut] at h
  split at h
  · cases h
    rfl
  · cases h

theorem deviceCut_rung {cut : Threshold} {i : Nat} {e : ℤ}
    (h : deviceCut (scale i (atLeastOne cut)) = .ok e) : e = deviceRung cut i := by
  rcases cut with n | _ | ⟨q, hq⟩ | _
  · exact deviceCut_int h
  · exact deviceCut_int h
  · rw [atLeastOne] at h
    rw [deviceRung]
    split at h
    · next hlt =>
      rw [if_pos hlt]
      exact deviceCut_int h
    · next hge =>
      have hpos : 1 ≤ q := not_lt.mp hge
      have hpow : (0 : ℚ) < 2 ^ i := by positivity
      rw [if_neg hge]
      rw [scale] at h
      split at h
      · next hlarge =>
        cases h
        have hfloor : (2 ^ 1024 : ℤ) ≤ ⌊q * 2 ^ i⌋ := Int.le_floor.mpr (by exact_mod_cast hlarge)
        have hbig : big ≤ 2 ^ 1024 := pow_le_pow_right₀ (by norm_num) (by decide)
        rw [clamp, min_eq_right (hbig.trans hfloor)]
        rfl
      · rw [if_neg] at h
        · cases h
          rfl
        · intro hneg
          have hprod : 0 ≤ q * 2 ^ i := mul_nonneg (by linarith) hpow.le
          have hlarge : (0 : ℚ) < 2 ^ 1024 := by positivity
          exact absurd hneg (not_le.mpr ((neg_lt_zero.mpr hlarge).trans_le hprod))
  · cases h
    rfl

theorem clamp_mono {m n : ℤ} (h : m ≤ n) : clamp m ≤ clamp n := by
  rw [clamp, clamp]
  omega

theorem deviceRung_mono (cut : Threshold) {i j : Nat} (h : i ≤ j) : deviceRung cut i ≤ deviceRung cut j := by
  have hint : ∀ n : ℤ, 0 ≤ n → clamp (Dot.roundTo 53 (n * 2 ^ i)) ≤ clamp (Dot.roundTo 53 (n * 2 ^ j)) := by
    intro n hn
    apply clamp_mono
    apply Dot.roundTo_mono (by decide) (by positivity)
    exact mul_le_mul_of_nonneg_left (pow_le_pow_right₀ (by norm_num) h) hn
  rcases cut with n | _ | ⟨q, hq⟩ | _
  · exact hint _ (by omega)
  · exact hint 1 (by decide)
  · rw [deviceRung, deviceRung]
    split
    · exact hint 1 (by decide)
    · next hge =>
      apply clamp_mono
      apply Int.floor_le_floor
      exact mul_le_mul_of_nonneg_left (pow_le_pow_right₀ (by norm_num) h) (by linarith)
  · exact le_rfl

/-! ## What is to be compared -/

namespace Settings

variable {D : Type} (s : Settings t)

/-- The number of unmasked pixels. -/
def unmasked : Nat := rank (fun p => decide (s.mask p ≠ 0#8)) s.npix

/-- A run on each class: the call is made on the GPU, and every good frame of a batch whose lists fit
gets the list and the count that the CPU class gives its pixels. -/
structure SameSelection : Prop where
  launched : ∃ cut thr, deviceCut s.cut = .ok cut ∧ s.deviceThr = .ok thr
  same : ∀ g : Batch t, s.Launched g → ∀ l : Lists g, (∀ im, im < g.n → sumBelow g.listLength im < 2 ^ 32) →
    ∀ im, im < g.n → g.err im = 0 → ∀ (D : Type) (c : ℤ) (r : Request) (q : Pipeline.Call t s.npix D),
      s.Called c r q → s.fetch l im = s.called r q (g.frame im)

variable {s}

theorem length_hostPixels_le (frame : Nat → Pixel t) : (s.hostPixels frame).length ≤ s.unmasked := by
  rw [hostPixels, List.length_map, unmasked, ← length_filter_range]
  rw [show (List.range s.npix).filter (fun p => s.cut.above (frame p).value && decide (s.mask p ≠ 0#8)) =
    ((List.range s.npix).filter fun p => decide (s.mask p ≠ 0#8)).filter
      (fun p => s.cut.above (frame p).value) from by rw [List.filter_filter]]
  exact List.length_filter_le _ _

theorem length_thrCall_le : s.thrCall.length ≤ maxThr := by
  rw [thrCall]
  split
  · rw [ladder, List.length_map, List.length_range]
  · next ts hts =>
    rw [List.length_map]
    exact s.length_le ts hts

theorem deviceThr_length {thr : List ℤ} (h : s.deviceThr = .ok thr) : thr.length ≤ maxThr := by
  rw [deviceThr] at h
  split at h
  · cases h
    exact Nat.zero_le _
  · rw [← (mapM_ok h).length_eq]
    exact length_thrCall_le

theorem deviceThr_sorted {thr : List ℤ} (h : s.deviceThr = .ok thr) : thr.Pairwise (· ≤ ·) := by
  rw [deviceThr] at h
  split at h
  · cases h
    exact List.Pairwise.nil
  · obtain ⟨hlen, hget⟩ := List.forall₂_iff_get.mp (mapM_ok h)
    simp only [List.get_eq_getElem] at hget
    rw [← List.isChain_iff_pairwise, List.isChain_iff_getElem]
    intro k hk
    have hx := hget k (by omega) (by omega)
    have hy := hget (k + 1) (by omega) hk
    have hxs : s.thrCall[k]? = some s.thrCall[k] := List.getElem?_eq_getElem (by omega)
    have hys : s.thrCall[k + 1]? = some s.thrCall[k + 1] := List.getElem?_eq_getElem (by omega)
    generalize s.thrCall[k] = x at hx hxs
    generalize s.thrCall[k + 1] = y at hy hys
    cases hts : s.thresholds with
    | none =>
      rw [thrCall, hts] at hxs hys
      rw [(getElem?_ladder hxs).2] at hx
      rw [(getElem?_ladder hys).2] at hy
      rw [deviceCut_rung hx, deviceCut_rung hy]
      exact deviceRung_mono _ (Nat.le_succ k)
    | some ts =>
      rw [thrCall, hts, List.getElem?_map] at hxs hys
      obtain ⟨a, ha, rfl⟩ := Option.map_eq_some_iff.mp hxs
      obtain ⟨b, hb, rfl⟩ := Option.map_eq_some_iff.mp hys
      obtain ⟨hlt, rfl⟩ := List.getElem?_eq_some_iff.mp ha
      obtain ⟨hlt', rfl⟩ := List.getElem?_eq_some_iff.mp hb
      have hmono := level_mono (List.isChain_iff_getElem.mp (s.sorted ts hts) k hlt')
      rw [deviceCut_float] at hx hy
      rw [← Except.ok.inj hx, ← Except.ok.inj hy]
      exact hmono

/-- A batch of one frame. -/
theorem exists_launched {cut : ℤ} {thr : List ℤ} (hcut : deviceCut s.cut = .ok cut)
    (hthr : s.deviceThr = .ok thr) (frame : Nat → Pixel t) :
    ∃ g : Batch t, s.Launched g ∧ g.n = 1 ∧ g.err 0 = 0 ∧ g.frame 0 = frame := by
  have hbytes := s.bytes_lt
  refine ⟨{
    dense := frame
    strideEl := s.npix
    npix := s.npix
    n := 1
    err := fun _ => 0
    mask := s.mask
    cut
    thr
    howmany := s.hm
    fallback := s.fallback
    integer := s.integer
    small := s.small
    bytes_lt := by omega
    thr_sorted := deviceThr_sorted hthr
    thr_length := deviceThr_length hthr }, ⟨rfl, fun _ _ => rfl, hcut, hthr, rfl, rfl⟩, rfl, rfl, ?_⟩
  funext p
  rw [Batch.frame, Nat.zero_mul, Nat.zero_add]

/-- A call of the driver. -/
theorem exists_called {c : ℤ} (hcut : cutArray t [number s.cut] = .ok c) :
    ∃ (r : Request) (q : Pipeline.Call t s.npix Unit), s.Called c r q := by
  obtain ⟨h0, hlargest⟩ := cutArray_bounds hcut
  have htop := largest_le s.integer
  have hsmall := s.small
  rw [if_pos (by omega)] at htop
  have hlen : (requestThresholds s.thresholds c).length ≤ maxThr := by
    cases hts : s.thresholds with
    | none => rw [requestThresholds, defaultThresholds, List.length_map, List.length_range]
    | some ts =>
      rw [requestThresholds, List.length_map]
      exact s.length_le ts hts
  obtain ⟨r, hr⟩ := (make_isOk s.howmany 1 s.integer h0 hlargest hlen).mpr (Or.inr (Or.inl (by omega)))
  exact ⟨r, {
    chunks := ⟨1, fun _ => [], Pipeline.oneFrame_lt, fun _ => by simp⟩
    mask := s.mask
    cut := [BitVec.ofInt t.bits c]
    pipe := ⟨.lz4Stock, .pixel, .kcb, .scalar, fun h => Bool.noConfusion h, fun h => absurd rfl h⟩
    dot := none
    top := if r.native then some r.cTop else none
    workspaceLen := 0 }, hcut, ⟨1, hr⟩, rfl, fun h => Steps.MaskStep.noConfusion h, rfl, rfl⟩

/-- The classes select alike when the call is made on the GPU and the lists of `top_pixels` are alike for
every frame. -/
theorem sameSelection_iff_lists {c : ℤ} (hcut : cutArray t [number s.cut] = .ok c) :
    s.SameSelection ↔ (∃ cut thr, deviceCut s.cut = .ok cut ∧ s.deviceThr = .ok thr) ∧
      ∀ frame : Nat → Pixel t, s.hostList frame = s.cpuList c frame := by
  constructor
  · intro h
    refine ⟨h.launched, fun frame => ?_⟩
    obtain ⟨cut, thr, hdcut, hdthr⟩ := h.launched
    obtain ⟨g, hg, hn, herr, hframe⟩ := exists_launched hdcut hdthr frame
    obtain ⟨l⟩ := Lists.exists g
    obtain ⟨r, q, hq⟩ := exists_called hcut
    have hfits : ∀ im, im < g.n → sumBelow g.listLength im < 2 ^ 32 := by
      intro im him
      obtain rfl : im = 0 := by omega
      exact Nat.two_pow_pos 32
    have hsame := h.same g hg l hfits 0 (by omega) herr Unit c r q hq
    rwa [fetch_eq_hostList hg l hfits (by omega) herr, called_eq_cpuList hq, hframe] at hsame
  · rintro ⟨hlaunched, hlists⟩
    refine ⟨hlaunched, ?_⟩
    intro g hg l hfits im him herr D c' r q hq
    obtain rfl : c = c' := Except.ok.inj (hcut.symm.trans hq.cutArray)
    rw [fetch_eq_hostList hg l hfits him herr, called_eq_cpuList hq, hlists]

/-! ## The call on the GPU -/

/-- numpy takes the cut, and the last rung of its ladder where that goes to the device. -/
def Launchable (s : Settings t) : Prop :=
  ∀ n, s.cut = .int n → n < 2 ^ 64 ∧
    (s.fallback = false → s.thresholds = none → max n 1 * 2 ^ 15 < 2 ^ 64)

theorem launchable_iff {c : ℤ} (hcut : cutArray t [number s.cut] = .ok c) :
    (∃ cut thr, deviceCut s.cut = .ok cut ∧ s.deviceThr = .ok thr) ↔ s.Launchable := by
  constructor
  · rintro ⟨cut, thr, hdcut, hdthr⟩ n hn
    constructor
    · rw [hn, deviceCut] at hdcut
      split at hdcut
      · next hrange => exact hrange.2
      · cases hdcut
    · intro hfallback hnone
      rw [deviceThr, hfallback, if_neg (by decide), thrCall, hnone, hn] at hdthr
      obtain ⟨hlen, hget⟩ := List.forall₂_iff_get.mp (mapM_ok hdthr)
      have hladder : (ladder (.int n)).length = maxThr := by rw [ladder, List.length_map, List.length_range]
      have hlast := hget 15 (by rw [hladder]; decide) (by rw [← hlen, hladder]; decide)
      rw [List.get_eq_getElem] at hlast
      have hx := (getElem?_ladder (List.getElem?_eq_getElem (show 15 < (ladder (.int n)).length by
        rw [hladder]; decide))).2
      rw [hx] at hlast
      change deviceCut (.int (max n 1 * 2 ^ 15)) = _ at hlast
      rw [deviceCut] at hlast
      split at hlast
      · next hrange => exact hrange.2
      · cases hlast
  · intro h
    have hdcut : ∃ cut, deviceCut s.cut = .ok cut := by
      cases hs : s.cut with
      | int n =>
        have hlt := (h n hs).1
        rw [hs] at hcut
        simp only [cutArray, number] at hcut
        split at hcut
        · cases hcut
        · exact ⟨_, by rw [deviceCut, if_pos ⟨by omega, hlt⟩]⟩
      | float x => exact ⟨_, deviceCut_float x⟩
    obtain ⟨cut, hdcut⟩ := hdcut
    have hdthr : ∃ thr, s.deviceThr = .ok thr := by
      rw [deviceThr]
      cases hfallback : s.fallback with
      | true => exact ⟨[], rfl⟩
      | false =>
        apply mapM_exists_ok
        intro x hx
        cases hts : s.thresholds with
        | some ts =>
          rw [thrCall, hts] at hx
          obtain ⟨y, -, rfl⟩ := List.mem_map.mp hx
          exact ⟨_, deviceCut_float y⟩
        | none =>
          rw [thrCall, hts] at hx
          obtain ⟨k, hk⟩ := List.getElem?_of_mem hx
          obtain ⟨hlt, rfl⟩ := getElem?_ladder hk
          have hpow : (2 : ℤ) ^ k ≤ 2 ^ 15 := pow_le_pow_right₀ (by norm_num) (by rw [maxThr] at hlt; omega)
          have hpos : (0 : ℤ) < 2 ^ k := by positivity
          -- an integer rung is at most the last one
          have hint : ∀ m : ℤ, 1 ≤ m → m * 2 ^ 15 < 2 ^ 64 → ∃ y, deviceCut (.int (m * 2 ^ k)) = .ok y := by
            intro m hm hlarge
            have hle := mul_le_mul_of_nonneg_left hpow (show 0 ≤ m by omega)
            have h0 : 0 ≤ m * 2 ^ k := mul_nonneg (by omega) hpos.le
            exact ⟨_, by rw [deviceCut, if_pos ⟨by omega, by omega⟩]⟩
          rcases hs : s.cut with n | _ | ⟨q, hq⟩ | _
          · exact hint _ (le_max_right n 1) ((h n hs).2 hfallback hts)
          · exact hint 1 le_rfl (by norm_num)
          · rw [atLeastOne]
            split
            · exact hint 1 le_rfl (by norm_num)
            · rw [scale]
              split
              · exact ⟨_, deviceCut_float _⟩
              · split <;> exact ⟨_, deviceCut_float _⟩
          · exact ⟨_, deviceCut_float _⟩
    obtain ⟨thr, hdthr⟩ := hdthr
    exact ⟨cut, thr, hdcut, hdthr⟩

/-! ## The ladders -/

/-- The rungs that matter are the same for the pixel type; a limit below 2 can only stop at the last
one. -/
def LaddersAlike (s : Settings t) (c : ℤ) (n : Nat) : Prop :=
  ∀ i, i < maxThr → (n < 2 → i + 1 = maxThr) → min t.largest (rung s.cut i) = min t.largest (max c 1 * 2 ^ i)

theorem small_largest (s : Settings t) : 1 ≤ t.largest ∧ t.largest < 2 ^ 32 := by
  have ht := s.integer
  have hsmall := s.small
  have hlargest := largest_le ht
  rw [if_pos (by omega)] at hlargest
  refine ⟨?_, hlargest⟩
  cases t with
  | f32 | f64 => exact absurd ht (by decide)
  | _ => decide

/-- The CPU class's ladder is not above the GPU class's, and both begin at the cut. -/
theorem rung_ge {c : ℤ} (hcut : cutArray t [number s.cut] = .ok c) {i : Nat} (hi : i < maxThr) :
    max c 1 * 2 ^ i ≤ rung s.cut i ∧ min t.largest (rung s.cut 0) = min t.largest (max c 1) := by
  obtain ⟨h1, h32⟩ := s.small_largest
  have hpos : (0 : ℤ) < 2 ^ i := by positivity
  have hle : ∀ m : ℤ, c ≤ m → max c 1 * 2 ^ i ≤ max m 1 * 2 ^ i := fun m hm =>
    mul_le_mul_of_nonneg_right (by omega) hpos.le
  rcases hs : s.cut with n | _ | ⟨q, hq⟩ | _
  all_goals rw [hs] at hcut
  all_goals simp only [cutArray, number] at hcut
  · split at hcut
    · cases hcut
    cases hcut
    simp only [rung]
    refine ⟨hle n (min_le_left _ _), ?_⟩
    rw [pow_zero, mul_one]
    omega
  · rw [if_pos (by norm_num)] at hcut
    cases hcut
  · split at hcut
    · cases hcut
    cases hcut
    simp only [rung]
    have hmax : max ((min ⌊q⌋ t.largest : ℤ) : ℚ) 1 ≤ max q 1 := by
      refine max_le_max ?_ le_rfl
      exact (Int.cast_le.mpr (min_le_left ⌊q⌋ t.largest)).trans (Int.floor_le q)
    refine ⟨?_, ?_⟩
    · apply Int.le_floor.mpr
      push_cast
      exact mul_le_mul_of_nonneg_right (by push_cast at hmax; exact hmax) (by positivity)
    · have hfloor : ⌊max q 1⌋ = max ⌊q⌋ 1 := by
        rcases le_total q 1 with hq1 | hq1
        · have hmono := Int.floor_le_floor hq1
          rw [Int.floor_one] at hmono
          rw [max_eq_right hq1, max_eq_right hmono, Int.floor_one]
        · have hmono := Int.floor_le_floor hq1
          rw [Int.floor_one] at hmono
          rw [max_eq_left hq1, max_eq_left hmono]
      rw [pow_zero, mul_one, hfloor]
      omega
  · rw [if_neg (by norm_num)] at hcut
    cases hcut
    simp only [rung]
    have hpow : (2 : ℤ) ^ i ≤ 2 ^ 15 := pow_le_pow_right₀ (by norm_num) (by rw [maxThr] at hi; omega)
    have hprod : max (min (2 ^ 70) t.largest) 1 * 2 ^ i ≤ 2 ^ 32 * 2 ^ 15 :=
      mul_le_mul (by omega) hpow hpos.le (by norm_num)
    rw [big]
    constructor
    · exact hprod.trans (by norm_num)
    · omega

/-- A pixel is above two rungs alike when they are the same for the pixel type. -/
theorem above_alike {c : ℤ} {i : Nat} (halike : min t.largest (rung s.cut i) = min t.largest (max c 1 * 2 ^ i))
    (v : Pixel t) :
    (scale i (atLeastOne s.cut)).above v.value = (Threshold.int (max c 1 * 2 ^ i)).above v.value := by
  have hv := natAbs_lt_of_small s.small v
  have hle := value_le_largest v
  rw [above_atRung s.small, above_int_of_small (by omega), decide_eq_decide]
  omega

theorem countAbove_anti {pixels : List (Pixel t × Nat)} {x y : Threshold}
    (h : ∀ v : Pixel t, y.above v.value = true → x.above v.value = true) :
    countAbove pixels y ≤ countAbove pixels x := List.countP_mono_left fun p _ hp => h p.1 hp

theorem ladder_getLast? (cut : Threshold) : (ladder cut).getLast? = some (scale 15 (atLeastOne cut)) := rfl

theorem defaultThresholds_getLast? (c : ℤ) :
    (defaultThresholds c).getLast? = some (.int (max c 1 * 2 ^ 15)) := rfl

theorem above_int_small (n : ℤ) (u : Pixel t) (hsmall : t.size ≤ 4) :
    (Threshold.int n).above u.value = decide (n < u.value) := by
  have hu := natAbs_lt_of_small hsmall u
  exact above_int_of_small (by omega)

/-- The last rung leaves the fewest pixels. -/
theorem defaultThresholds_anti (s : Settings t) {c : ℤ} {pixels : List (Pixel t × Nat)} {y : Threshold}
    (hy : y ∈ defaultThresholds c) :
    countAbove pixels (.int (max c 1 * 2 ^ 15)) ≤ countAbove pixels y := by
  obtain ⟨k, hk⟩ := List.getElem?_of_mem hy
  obtain ⟨hlt, rfl⟩ := getElem?_defaultThresholds hk
  apply countAbove_anti
  intro v hv
  rw [above_int_small _ v s.small, decide_eq_true_iff] at hv ⊢
  refine lt_of_le_of_lt ?_ hv
  exact mul_le_mul_of_nonneg_left (pow_le_pow_right₀ (by norm_num) (by rw [maxThr] at hlt; omega)) (by omega)

/-- Ladders that are alike select alike. -/
theorem topPixels_alike {c : ℤ} {n : Nat} (halike : s.LaddersAlike c n) (pixels : List (Pixel t × Nat)) :
    (topPixels pixels n (ladder s.cut)).kept = (topPixels pixels n (defaultThresholds c)).kept ∧
      (topPixels pixels n (ladder s.cut)).nabove = (topPixels pixels n (defaultThresholds c)).nabove := by
  by_cases hn : n < 2
  · rcases le_or_gt pixels.length n with hall | hmore
    · rw [topPixels_all hall, topPixels_all hall]
      exact ⟨rfl, rfl⟩
    · -- only the last rung
      have hlast := halike 15 (by decide) fun _ => rfl
      have hfilter : (pixels.filter fun p => (scale 15 (atLeastOne s.cut)).above p.1.value) =
          pixels.filter fun p => (Threshold.int (max c 1 * 2 ^ 15)).above p.1.value :=
        List.filter_congr fun p _ => above_alike hlast p.1
      have hgpu := topPixels_last (show n ≤ 1 by omega) hmore (ladder_getLast? s.cut) (by
        intro y hy
        obtain ⟨k, hk⟩ := List.getElem?_of_mem hy
        obtain ⟨hlt, rfl⟩ := getElem?_ladder hk
        apply countAbove_anti
        intro v hv
        rw [above_atRung s.small, decide_eq_true_iff] at hv ⊢
        exact (rung_mono s.cut (show k ≤ 15 by rw [maxThr] at hlt; omega)).trans_lt hv)
      have hcpu := topPixels_last (show n ≤ 1 by omega) hmore (defaultThresholds_getLast? c)
        fun y hy => s.defaultThresholds_anti hy
      rw [hgpu.1, hgpu.2, hcpu.1, hcpu.2, countAbove_eq, countAbove_eq, hfilter]
      exact ⟨rfl, rfl⟩
  · apply topPixels_congr
    rw [ladder, defaultThresholds, List.forall₂_map_left_iff, List.forall₂_map_right_iff,
      List.forall₂_same]
    intro i hi p _
    exact above_alike (halike i (List.mem_range.mp hi) fun h => absurd h hn) p.1

/-! ## A frame that tells two ladders apart -/

/-- The first `m` unmasked pixels have the value `v`, the others `w`. -/
def twoValues (s : Settings t) (m : Nat) (v w : ℤ) (p : Nat) : Pixel t :=
  if rank (fun p => decide (s.mask p ≠ 0#8)) p < m then BitVec.ofInt t.bits v else BitVec.ofInt t.bits w

section

variable {c : ℤ} {m : Nat} {v w : ℤ}

theorem hostPixels_twoValues (hcut : cutArray t [number s.cut] = .ok c) (hv : c < v) (hw : c < w)
    (hvl : v ≤ t.largest) (hwl : w ≤ t.largest) :
    s.hostPixels (s.twoValues m v w) =
      ((List.range s.npix).filter fun p => decide (s.mask p ≠ 0#8)).map fun p => (s.twoValues m v w p, p) := by
  obtain ⟨h0, -⟩ := cutArray_bounds hcut
  rw [hostPixels]
  congr 1
  apply List.filter_congr
  intro p _
  rw [← cutArray_number s.integer s.small hcut, decide_eq_true, Bool.true_and]
  rw [twoValues]
  split
  · rw [Pixel.value_ofInt (by omega) hvl]
    exact hv
  · rw [Pixel.value_ofInt (by omega) hwl]
    exact hw

theorem length_twoValues (hcut : cutArray t [number s.cut] = .ok c) (hv : c < v) (hw : c < w)
    (hvl : v ≤ t.largest) (hwl : w ≤ t.largest) :
    (s.hostPixels (s.twoValues m v w)).length = s.unmasked := by
  rw [hostPixels_twoValues hcut hv hw hvl hwl, List.length_map, length_filter_range, unmasked]

/-- The pixels above a threshold that lets `v` through, or `v` and `w`, or neither. -/
theorem countAbove_twoValues (hcut : cutArray t [number s.cut] = .ok c) (hv : c < v) (hw : c < w)
    (hvl : v ≤ t.largest) (hwl : w ≤ t.largest) {x : Threshold} {n : ℤ}
    (hx : ∀ u : Pixel t, x.above u.value = decide (n < u.value)) (hwv : w ≤ v) :
    countAbove (s.hostPixels (s.twoValues m v w)) x =
      if n < w then s.unmasked else if n < v then min m s.unmasked else 0 := by
  obtain ⟨h0, -⟩ := cutArray_bounds hcut
  have hvalue : ∀ p, x.above (s.twoValues m v w p).value =
      if rank (fun p => decide (s.mask p ≠ 0#8)) p < m then decide (n < v) else decide (n < w) := by
    intro p
    rw [hx, twoValues]
    split
    · rw [Pixel.value_ofInt (by omega) hvl]
    · rw [Pixel.value_ofInt (by omega) hwl]
  rw [countAbove_eq, hostPixels_twoValues hcut hv hw hvl hwl, List.filter_map, List.length_map,
    List.filter_filter, length_filter_range, unmasked]
  split
  · next hn =>
    apply rank_congr
    intro p _
    rw [Function.comp, hvalue, decide_eq_true hn, decide_eq_true (by omega), ite_self, Bool.true_and]
  · next hn =>
    split
    · next hnv =>
      rw [← rank_take]
      apply rank_congr
      intro p _
      rw [Function.comp, hvalue, decide_eq_true hnv, decide_eq_false hn, Bool.and_comm]
      congr 1
    · next hnv =>
      rw [rank_eq_zero]
      intro p _
      rw [Function.comp, hvalue, decide_eq_false hnv, decide_eq_false hn, ite_self, Bool.false_and]

end

/-- The classes count alike in every frame. -/
def CountAlike (s : Settings t) (c : ℤ) (n : Nat) : Prop :=
  ∀ frame : Nat → Pixel t, (topPixels (s.hostPixels frame) n (ladder s.cut)).nabove =
    (topPixels (s.hostPixels frame) n (defaultThresholds c)).nabove

section

variable {c : ℤ} {n : Nat}

theorem max_le_rung (c : ℤ) (k : Nat) : c ≤ max c 1 * 2 ^ k := by
  have hpos : (0 : ℤ) < 2 ^ k := by positivity
  have hmul := le_mul_of_one_le_right (show 0 ≤ max c 1 by omega) (show (1 : ℤ) ≤ 2 ^ k by omega)
  omega

/-- Every pixel just above the last rung of the CPU class. -/
theorem last_rung_alike (hcut : cutArray t [number s.cut] = .ok c) (hn : n < s.unmasked) (hn2 : n < 2)
    (h : s.CountAlike c n) : min t.largest (rung s.cut 15) = min t.largest (max c 1 * 2 ^ 15) := by
  by_contra hne
  obtain ⟨hge, -⟩ := rung_ge hcut (show 15 < maxThr by decide)
  have hc := max_le_rung c 15
  have hv : max c 1 * 2 ^ 15 + 1 ≤ t.largest := by omega
  have hframe := h (s.twoValues 0 (max c 1 * 2 ^ 15 + 1) (max c 1 * 2 ^ 15 + 1))
  have hlength := length_twoValues (s := s) (m := 0) hcut (by omega) (by omega) hv hv
  have hcount := fun {x : Threshold} {a : ℤ} (hx : ∀ u : Pixel t, x.above u.value = decide (a < u.value)) =>
    countAbove_twoValues (s := s) (m := 0) hcut (by omega) (by omega) hv hv hx (le_refl (max c 1 * 2 ^ 15 + 1))
  have hgpu := topPixels_last (show n ≤ 1 by omega) (by rw [hlength]; exact hn) (ladder_getLast? s.cut) (by
    intro y _
    rw [hcount (above_atRung s.small s.cut 15), if_neg (by omega), if_neg (by omega)]
    exact Nat.zero_le _)
  have hcpu := topPixels_last (show n ≤ 1 by omega) (by rw [hlength]; exact hn)
    (defaultThresholds_getLast? c) fun y hy => s.defaultThresholds_anti hy
  rw [hgpu.2, hcpu.2, hcount (above_atRung s.small s.cut 15), if_neg (by omega), if_neg (by omega),
    hcount (fun u => above_int_small _ u s.small), if_pos (by omega)] at hframe
  omega

/-- One pixel less than the limit just above a rung, the others on it: `top_pixels` stops at that rung. -/
theorem nabove_twoValues (hcut : cutArray t [number s.cut] = .ok c) (hn : n < s.unmasked) (hn2 : 2 ≤ n)
    {b : ℤ} (hcb : c < b) (hb : b + 1 ≤ t.largest) {A : List Threshold} {a : Nat → ℤ} {k : Nat}
    (hk : k < A.length)
    (hA : ∀ j y, A[j]? = some y → ∀ u : Pixel t, y.above u.value = decide (a j < u.value))
    (hbefore : ∀ j, j < k → a j < b) (hat : b ≤ a k) :
    (topPixels (s.hostPixels (s.twoValues (n - 1) (b + 1) b)) n A).nabove = if a k < b + 1 then n - 1 else 0 := by
  have hcount := fun {x : Threshold} {a : ℤ} (hx : ∀ u : Pixel t, x.above u.value = decide (a < u.value)) =>
    countAbove_twoValues (s := s) (m := n - 1) hcut (show c < b + 1 by omega) hcb hb (by omega) hx (by omega)
  have hlength := length_twoValues (s := s) (m := n - 1) hcut (show c < b + 1 by omega) hcb hb (by omega)
  have hx : A[k]? = some A[k] := List.getElem?_eq_getElem hk
  have happlied : applied (s.hostPixels (s.twoValues (n - 1) (b + 1) b)) n A = A[k]? := by
    apply find?_or_getLast? hk
    · intro j hj y hy
      rw [hcount (hA j y hy), if_pos (hbefore j hj)]
      exact decide_eq_false (by omega)
    · left
      intro y hy
      rw [hcount (hA k y hy), if_neg (by omega)]
      apply decide_eq_true
      split <;> omega
  rw [hx] at happlied
  rw [topPixels_applied (by rw [hlength]; exact hn) happlied]
  dsimp only
  rw [← countAbove_eq, hcount (hA k _ hx), if_neg (by omega), min_eq_left (by omega)]

/-- Ladders that differ select other pixels of some frame. -/
theorem rungs_alike (hcut : cutArray t [number s.cut] = .ok c) (hn : n < s.unmasked) (hn2 : 2 ≤ n)
    (h : s.CountAlike c n) {k : Nat} (hk : k < maxThr) :
    min t.largest (rung s.cut k) = min t.largest (max c 1 * 2 ^ k) := by
  obtain ⟨h1, -⟩ := s.small_largest
  -- up to the lowest rung where they would differ they are the same
  induction k using Nat.strong_induction_on with
  | _ k ih =>
  by_contra hne
  obtain ⟨hge, hzero⟩ := rung_ge hcut hk
  have hkpos : 0 < k := by
    by_contra h0
    obtain rfl : k = 0 := by omega
    rw [pow_zero, mul_one] at hne
    exact hne hzero
  have hcw : c < max c 1 * 2 ^ k := by
    have hpow : (2 : ℤ) ^ 1 ≤ 2 ^ k := pow_le_pow_right₀ (by norm_num) hkpos
    have hmul := mul_le_mul_of_nonneg_left hpow (show 0 ≤ max c 1 by omega)
    omega
  have hstrict : ∀ j, j < k → max c 1 * 2 ^ j < max c 1 * 2 ^ k := fun j hj =>
    mul_lt_mul_of_pos_left (pow_lt_pow_right₀ (by norm_num) hj) (by omega)
  have hgpu := nabove_twoValues (s := s) (a := rung s.cut) (k := k) hcut hn hn2 hcw (by omega)
    (A := ladder s.cut) (by rw [ladder, List.length_map, List.length_range]; exact hk)
    (fun j y hy => by rw [(getElem?_ladder hy).2]; exact above_atRung s.small s.cut j)
    (fun j hj => by
      have halike := ih j hj (by omega)
      have hlt := hstrict j hj
      omega) hge
  have hcpu := nabove_twoValues (s := s) (a := fun j => max c 1 * 2 ^ j) (k := k) hcut hn hn2 hcw (by omega)
    (A := defaultThresholds c) (by rw [defaultThresholds, List.length_map, List.length_range]; exact hk)
    (fun j y hy => by rw [(getElem?_defaultThresholds hy).2]; exact fun u => above_int_small _ u s.small)
    hstrict le_rfl
  have hboth := h (s.twoValues (n - 1) (max c 1 * 2 ^ k + 1) (max c 1 * 2 ^ k))
  rw [hgpu, hcpu, if_neg (by omega), if_pos (by omega)] at hboth
  omega

/-- Where the classes count alike, their ladders are alike. -/
theorem CountAlike.ladders (hcut : cutArray t [number s.cut] = .ok c) (hn : n < s.unmasked)
    (h : s.CountAlike c n) : s.LaddersAlike c n := by
  intro i hi hlast
  by_cases hn2 : n < 2
  · obtain rfl : i = 15 := Nat.succ.inj (hlast hn2)
    exact last_rung_alike hcut hn hn2 h
  · exact rungs_alike hcut hn (by omega) h hi

end

/-- The settings for which the classes select alike. -/
structure Alike (s : Settings t) (c : ℤ) : Prop where
  launchable : s.Launchable
  ladders : s.thresholds = none → ∀ n, s.howmany = some n → n < s.unmasked → s.LaddersAlike c n

theorem hostList_eq_cpuList {c : ℤ}
    (h : s.thresholds = none → ∀ n, s.howmany = some n → n < s.unmasked → s.LaddersAlike c n)
    (frame : Nat → Pixel t) : s.hostList frame = s.cpuList c frame := by
  rw [hostList, cpuList]
  cases hn : s.howmany with
  | none => rfl
  | some n =>
    dsimp only
    cases hts : s.thresholds with
    | some ts => rw [thrCall, hts, requestThresholds]
    | none =>
      rw [thrCall, hts, requestThresholds]
      dsimp only
      by_cases hmore : n < s.unmasked
      · obtain ⟨hkept, hcount⟩ := topPixels_alike (h hts n hn hmore) (s.hostPixels frame)
        rw [hkept, hcount]
      · have hle := length_hostPixels_le (s := s) frame
        rw [topPixels_all (by omega), topPixels_all (by omega)]

theorem countAlike_of_lists {c : ℤ} (hts : s.thresholds = none) {n : Nat} (hn : s.howmany = some n)
    (h : ∀ frame : Nat → Pixel t, s.hostList frame = s.cpuList c frame) : s.CountAlike c n := by
  intro frame
  have hsame := h frame
  rw [hostList, cpuList, hn, thrCall, hts, requestThresholds] at hsame
  exact (Prod.mk.inj hsame).2

/-- The classes select alike exactly when numpy takes the numbers of the call and the default ladders,
where they are used, are alike for the pixel type. -/
theorem sameSelection_iff {c : ℤ} (hcut : cutArray t [number s.cut] = .ok c) :
    s.SameSelection ↔ s.Alike c := by
  rw [sameSelection_iff_lists hcut, launchable_iff hcut]
  constructor
  · rintro ⟨hlaunch, hlists⟩
    exact ⟨hlaunch, fun hts n hn hmore => (countAlike_of_lists hts hn hlists).ladders hcut hmore⟩
  · rintro ⟨hlaunch, hladders⟩
    exact ⟨hlaunch, hostList_eq_cpuList hladders⟩

/-- A whole number as the cut makes the same ladder in both classes. -/
theorem laddersAlike_int {k c : ℤ} (hs : s.cut = .int k) (hcut : cutArray t [number s.cut] = .ok c) (n : Nat) :
    s.LaddersAlike c n := by
  intro i _ _
  obtain ⟨h1, -⟩ := s.small_largest
  have hpow : (1 : ℤ) ≤ 2 ^ i := one_le_pow₀ (by norm_num)
  rw [hs] at hcut ⊢
  simp only [cutArray, number] at hcut
  split at hcut
  · cases hcut
  · cases hcut
    change min t.largest (max k 1 * 2 ^ i) = _
    rcases le_total k t.largest with hle | hge
    · rw [min_eq_left hle]
    · -- both above every pixel
      have hmul := le_mul_of_one_le_right (show 0 ≤ max k 1 by omega) hpow
      have hmul' := le_mul_of_one_le_right (show 0 ≤ max t.largest 1 by omega) hpow
      rw [min_eq_right hge]
      omega

theorem no_thresholds {P : List Double → Prop} : ∀ ts ∈ (none : Option (List Double)), P ts := by
  intro ts hts
  cases hts

theorem byte_integer : Dtype.u8.isFloat = false := rfl

theorem byte_small : Dtype.u8.size ≤ 4 := by decide

theorem sixteen_lt : 16 * Dtype.u8.size < 2 ^ 31 := by decide

/-- 16 unmasked pixels of one byte and at most two of them, with the default thresholds. -/
def sixteen (cut : Threshold) : Settings .u8 where
  npix := 16
  mask := fun _ => 1#8
  cut
  howmany := some 2
  thresholds := none
  integer := byte_integer
  small := byte_small
  bytes_lt := sixteen_lt
  sorted := no_thresholds
  length_le := no_thresholds

theorem unmasked_sixteen (cut : Threshold) : (sixteen cut).unmasked = 16 := rank_eq_self fun _ _ => rfl

theorem sameSelection_iff_three :
    cutArray .u8 [number (sixteen (.int 3)).cut] = .ok 3 ∧ (sixteen (.int 3)).SameSelection := by
  have hcut : cutArray .u8 [number (sixteen (.int 3)).cut] = .ok 3 := rfl
  refine ⟨hcut, (sameSelection_iff hcut).mpr ⟨?_, fun _ n _ _ => laddersAlike_int rfl hcut n⟩⟩
  intro n hn
  cases hn
  exact ⟨by decide, fun _ _ => by decide⟩

theorem isDouble_fiveHalves : IsDouble (5 / 2) := ⟨5, -1, by decide, by norm_num⟩

/-- The cut 2.5. -/
def twoAndHalf : Threshold := .float (.finite (5 / 2) isDouble_fiveHalves)

/-- With the cut 2.5 the second threshold is 5 on the GPU and 4 on the CPU. -/
theorem differ_at_fraction :
    cutArray .u8 [number twoAndHalf] = .ok 2 ∧ ¬ (sixteen twoAndHalf).SameSelection := by
  have hfloor : ⌊(5 / 2 : ℚ)⌋ = 2 := by norm_num [Int.floor_eq_iff]
  have hcut : cutArray .u8 [number twoAndHalf] = .ok 2 := by
    simp only [cutArray, number, twoAndHalf, hfloor]
    rfl
  refine ⟨hcut, fun h => ?_⟩
  obtain ⟨-, hlists⟩ := (sameSelection_iff_lists (s := sixteen twoAndHalf) hcut).mp h
  have halike := (countAlike_of_lists (s := sixteen twoAndHalf) rfl rfl hlists).ladders hcut
    (by rw [unmasked_sixteen]; decide) 1 (by decide) (by decide)
  have hrung : rung (sixteen twoAndHalf).cut 1 = 5 := by
    change ⌊max (5 / 2 : ℚ) 1 * 2 ^ 1⌋ = 5
    norm_num
  rw [hrung] at halike
  exact absurd halike (by decide)

end Settings

end Bslz4ToSparse.Cuda
