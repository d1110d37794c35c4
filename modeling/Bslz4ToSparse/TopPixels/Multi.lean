import Bslz4ToSparse.Pipeline.Selection
import Bslz4ToSparse.Pipeline.Sparsify

/-!
# A call of the class (src/__init__.py, src/_toppix.py, src/bslz4_to_sparse.c)

`multi` and `from_frames`: the cut and the limit as Python numbers, the arrays that C is given, the
driver, and what is made of its lists afterwards.
-/

namespace Bslz4ToSparse.TopPixels

open Foundation Pipeline Steps
open Lz4 (plainDecode)

variable {t : Dtype} {nij : Nat} {D : Type}

/-! ## The call -/

/-- `top_from_args`. -/
def topFromArgs (top : List ℤ) : Except Err (Option Top) :=
  let ntop := top.length
  if ntop = 0 then .ok none
  else if ntop < 2 ∨ top.getD 0 0 < 0 ∨ 2 ^ 31 - 1 < top.getD 0 0 ∨ top.getD 1 0 < 0 ∨
      (ntop : ℤ) - 2 < top.getD 1 0 then .error .badThreshold
  else .ok (some ⟨top.getD 0 0, top.getD 1 0, fun k => top.getD (k + 2) 0⟩)

/-- `Request.finish` on a frame: its list, the level where it ended and its count. No threshold is the
cut of the call. -/
def Request.finish (r : Request) (list : List (Pixel t × Nat)) (level nabove : Nat) : Selected t :=
  match r.howmany with
  | none => ⟨list, none, list.length⟩
  | some howmany =>
      if r.native then
        ⟨list, if level = 0 then none else r.thr[min (level - 1) (r.thr.length - 1)]?, nabove⟩
      else if howmany < list.length then topPixels list howmany r.thr
      else ⟨list, none, list.length⟩

inductive MultiError where
  | cut (e : CutError)
  | thresholds (e : Int64Overflow)
  | driver (e : Err)
  deriving DecidableEq, Repr

/-- `_run`, for integer pixels, with what `check` has left of the limit and the thresholds: the lists of
the frames, `last_cut` and `last_nabove`. -/
def multi (E : Platform) (q : Call t nij D) (limit : Option Nat) (thresholds : Option (List Double))
    (cut : List Number) (s : RunState t D) : Except MultiError (RunState t D × (Nat → Selected t)) := do
  let c ← (cutArray t cut).mapError .cut
  let req ← (Request.make limit thresholds c t q.chunks.nframes).mapError .thresholds
  let top ← (topFromArgs req.top).mapError .driver
  let r ← (run E (q.select [BitVec.ofInt t.bits c] top) s).mapError .driver
  return (r, fun f => req.finish (swapped (r.out nij f).entries) (r.level f) (r.nabove f))

/-! ## What is meant -/

/-- The unmasked pixels above the cut, in pixel order. -/
def unmaskedAbove (q : Call t nij D) (c : ℤ) (F : Nat → Pixel t) : List (Pixel t × Nat) :=
  ((List.range nij).filter fun p => q.mask p != 0#8 && decide (c < (F p).value)).map fun p => (F p, p)

/-- What a frame comes to, from its unmasked pixels above the cut. -/
def limited (limit : Option Nat) (thr : List Threshold) (pixels : List (Pixel t × Nat)) : Selected t :=
  match limit with
  | none => ⟨pixels, none, pixels.length⟩
  | some howmany => topPixels pixels howmany thr

/-- The class has made room for the batch. -/
structure Prepared (q : Call t nij D) (blocksize : Nat) : Prop where
  small : nij * t.size ≤ 2 ^ 31 - 1
  layout : ∀ d ∈ q.dot, badLayout (blocksize / t.size) d.2 = false
  workspace : workspaceBytes q ⟨nij * t.size, blocksize⟩ ≤ q.workspaceLen

theorem length_unmaskedAbove (q : Call t nij D) (c : ℤ) (F : Nat → Pixel t) :
    (unmaskedAbove q c F).length ≤ nij := by
  rw [unmaskedAbove, List.length_map]
  exact (List.length_filter_le _ _).trans_eq List.length_range

/-! ## The thresholds come to C in order -/

theorem effectiveOne_int_mono {c n m e f : ℤ} (h : n ≤ m) (he : effectiveOne t c (.int n) = some e)
    (hf : effectiveOne t c (.int m) = some f) : e ≤ f := by
  rw [effectiveOne] at he hf
  split_ifs at he hf <;> rw [← Option.some.inj he, ← Option.some.inj hf] <;> omega

theorem effectiveOne_float_mono (ht : t.isFloat = false) {c e f : ℤ} (hc : c ≤ t.largest) {x y : Double}
    (h : y.lt x = false) (he : effectiveOne t c (.float x) = some e)
    (hf : effectiveOne t c (.float y) = some f) : e ≤ f := by
  have hle := (effectiveOne_bounds ht hc hf).1
  rcases x with _ | ⟨p, hp⟩ | _
  · rw [effectiveOne] at he
    rwa [← Option.some.inj he]
  · rcases y with _ | ⟨q, hq⟩ | _
    · simp [Double.lt] at h
    · have hfloor : ⌊p⌋ ≤ ⌊q⌋ := Int.floor_le_floor (by simpa [Double.lt] using h)
      rw [effectiveOne] at he hf
      split_ifs at he hf <;> rw [← Option.some.inj he, ← Option.some.inj hf] <;> omega
    · have hbound := (effectiveOne_bounds ht hc he).2
      rw [effectiveOne] at hf
      split_ifs at hf with hsize
      have hbig := Option.some.inj hf
      omega
  · rcases y with _ | ⟨q, hq⟩ | _
    · simp [Double.lt] at h
    · simp [Double.lt] at h
    · exact (Option.some.inj (he.symm.trans hf)).le

section

variable {howmany : Option Number} {thresholds : Option (List Number)} {limit : Option Nat}
  {thr : Option (List Double)} {c : ℤ}

theorem effective_mono (ht : t.isFloat = false) (hcheck : check howmany thresholds = .ok (limit, thr))
    (hc : c ≤ t.largest) {k : Nat} {x y : Threshold} (hx : (requestThresholds thr c)[k]? = some x)
    (hy : (requestThresholds thr c)[k + 1]? = some y) {e f : ℤ} (he : effectiveOne t c x = some e)
    (hf : effectiveOne t c y = some f) : e ≤ f := by
  cases hthr : thr with
  | none =>
    rw [hthr, requestThresholds, defaultThresholds, List.getElem?_map] at hx hy
    obtain ⟨i, hi, rfl⟩ := Option.map_eq_some_iff.mp hx
    obtain ⟨j, hj, rfl⟩ := Option.map_eq_some_iff.mp hy
    obtain ⟨hk, rfl⟩ := List.getElem?_eq_some_iff.mp hi
    obtain ⟨hk', rfl⟩ := List.getElem?_eq_some_iff.mp hj
    rw [List.getElem_range] at he hf
    have hpow : max c 1 * 2 ^ k ≤ max c 1 * 2 ^ (k + 1) :=
      mul_le_mul_of_nonneg_left (pow_le_pow_right₀ (by norm_num) (Nat.le_succ k)) (by omega)
    exact effectiveOne_int_mono hpow he hf
  | some ts =>
    rw [hthr, requestThresholds, List.getElem?_map] at hx hy
    obtain ⟨a, ha, rfl⟩ := Option.map_eq_some_iff.mp hx
    obtain ⟨b, hb, rfl⟩ := Option.map_eq_some_iff.mp hy
    obtain ⟨hk, rfl⟩ := List.getElem?_eq_some_iff.mp ha
    obtain ⟨hk', rfl⟩ := List.getElem?_eq_some_iff.mp hb
    have hchain := List.isChain_iff_getElem.mp (check_thresholds hcheck ts hthr).1 k hk'
    exact effectiveOne_float_mono ht hc hchain he hf

/-- Either numpy is left with the selection, or C gets the limit and a level for each threshold. -/
theorem make_cases {nframes : Nat} {r : Request} (h : Request.make limit thr c t nframes = .ok r) :
    r = ⟨limit, c, requestThresholds thr c, [], [], false⟩ ∨
      ∃ n eff, limit = some n ∧ effective t c (requestThresholds thr c) = some eff ∧
        r = ⟨some n, c, requestThresholds thr c, [min (n : ℤ) (2 ^ 31 - 1), (eff.length : ℤ)] ++ eff,
          List.replicate (2 * nframes) 0, true⟩ := by
  cases limit with
  | none =>
    rw [make_numpy (Or.inl rfl)] at h
    exact Or.inl (Except.ok.inj h).symm
  | some n =>
    cases heff : effective t c (requestThresholds thr c) with
    | none =>
      rw [make_numpy (Or.inr heff)] at h
      exact Or.inl (Except.ok.inj h).symm
    | some eff =>
      rw [make_native heff] at h
      cases htop : int64Array ([min (n : ℤ) (2 ^ 31 - 1), (eff.length : ℤ)] ++ eff) with
      | error v =>
        rw [htop] at h
        cases h
      | ok top =>
        rw [htop] at h
        obtain ⟨rfl, -⟩ := int64Array_eq_ok.mp htop
        exact Or.inr ⟨n, eff, rfl, rfl, (Except.ok.inj h).symm⟩

/-- C reads the array that the request has made. -/
theorem topFromArgs_made {nframes : Nat} {r : Request} (h : Request.make limit thr c t nframes = .ok r) :
    topFromArgs r.top = .ok (if r.native then some r.cTop else none) := by
  rcases make_cases h with rfl | ⟨n, eff, -, -, rfl⟩
  · rfl
  · have hlen : ([min (n : ℤ) (2 ^ 31 - 1), (eff.length : ℤ)] ++ eff).length = eff.length + 2 := by
      simp
    have hhowmany : ([min (n : ℤ) (2 ^ 31 - 1), (eff.length : ℤ)] ++ eff).getD 0 0 =
      min (n : ℤ) (2 ^ 31 - 1) := rfl
    have hnthr : ([min (n : ℤ) (2 ^ 31 - 1), (eff.length : ℤ)] ++ eff).getD 1 0 = (eff.length : ℤ) := rfl
    unfold topFromArgs
    dsimp only
    rw [hlen, hhowmany, hnthr, if_neg (by omega), if_neg (by push_cast; omega), if_pos rfl]
    rfl

/-! ## The levels of the driver -/

/-- The driver is called with the request. -/
structure Asked (q : Call t nij D) (r : Request) (c : ℤ) : Prop where
  cut : q.cutPixel.value = c
  top : q.top = if r.native then some r.cTop else none

section

variable {nframes : Nat} {r : Request} {q : Call t nij D} (ht : t.isFloat = false)
  (hcheck : check howmany thresholds = .ok (limit, thr)) (h0 : 0 ≤ c) (hc : c ≤ t.largest)
  (hmade : Request.make limit thr c t nframes = .ok r) (hask : Asked q r c)

include hmade hask

theorem Asked.native {top : Top} (htop : q.top = some top) : r.native = true ∧ top = r.cTop := by
  have hnative := hask.top.symm.trans htop
  split at hnative
  · next hn => exact ⟨hn, (Option.some.inj hnative).symm⟩
  · cases hnative

/-- What a native request has. -/
theorem Asked.spec (hnative : r.native = true) :
    ∃ n, limit = some n ∧ r.howmany = some n ∧ r.thr = requestThresholds thr c ∧
      r.cTop.howmany = min (n : ℤ) (2 ^ 31 - 1) ∧ r.cTop.nthr = (r.thr.length : ℤ) := by
  rcases make_cases hmade with rfl | ⟨n, eff, hn, heff, rfl⟩
  · cases hnative
  · refine ⟨n, hn, rfl, rfl, rfl, ?_⟩
    have hlen := (List.forall₂_iff_get.mp (mapM_some heff)).1
    change ((eff.length : ℤ)) = _
    rw [hlen]

include ht hcheck h0 hc

/-- The driver's thresholds do not decrease, from the cut on. -/
theorem Asked.ascending : Ascending q := by
  have hget : ∀ top, q.top = some top → ∀ k, k < top.nthr.toNat → top = r.cTop ∧ r.native = true ∧
      ∃ x, r.thr[k]? = some x := by
    intro top htop k hk
    obtain ⟨hnative, rfl⟩ := Asked.native hmade hask htop
    obtain ⟨n, -, -, -, -, hnthr⟩ := Asked.spec hmade hask hnative
    rw [hnthr, Int.toNat_natCast] at hk
    exact ⟨rfl, hnative, _, List.getElem?_eq_getElem hk⟩
  refine ⟨ht, by rw [hask.cut]; exact h0, ?_, ?_⟩
  · intro top htop k hk
    obtain ⟨rfl, hnative, x, hx⟩ := hget top htop k hk
    obtain ⟨hone, hlt⟩ := make_level hmade hnative hx
    rw [hask.cut]
    exact ⟨(effectiveOne_bounds ht hc hone).1, hlt⟩
  · intro top htop k hk
    obtain ⟨-, -, y, hy⟩ := hget top htop (k + 1) hk
    obtain ⟨rfl, hnative, x, hx⟩ := hget top htop k (by omega)
    have hone := (make_level hmade hnative hx).1
    have hnext := (make_level hmade hnative hy).1
    rw [make_thr hmade] at hx hy
    exact effective_mono ht hcheck hc hx hy hone hnext

/-- The levels select what the thresholds do. -/
theorem Asked.sameLevels (hnative : r.native = true)
    (hseparated : ∀ x ∈ requestThresholds thr c, x.Separated t c) : SameLevels q r.thr := by
  have htop : q.top = some r.cTop := by
    rw [hask.top, if_pos hnative]
  obtain ⟨n, -, -, hthr, -, hnthr⟩ := Asked.spec hmade hask hnative
  have hascending := Asked.ascending ht hcheck h0 hc hmade hask
  have hlevels : q.levels = r.thr.length := by
    rw [Ascending.levels_eq htop, hnthr, Int.toNat_natCast]
  refine ⟨hlevels.symm, ?_⟩
  intro k x hx v hv
  have hk := (List.getElem?_eq_some_iff.mp hx).1
  rw [cutAt_zero ht, hask.cut, decide_eq_true_iff] at hv
  have hmem : x ∈ requestThresholds thr c := hthr ▸ List.mem_of_getElem? hx
  rw [hascending.cutAt htop (by rw [hnthr, Int.toNat_natCast]; exact hk),
    effectiveOne_spec ht (make_level hmade hnative hx).1 hv]
  exact (above_spec h0 x).mpr (hseparated x hmem) v hv

end

/-- What the driver keeps of a frame before the limit. -/
theorem abovePixels_eq (ht : t.isFloat = false) {q : Call t nij D} (hmask : q.MaskFits)
    (hcut : q.cutPixel.value = c) (F : Nat → Pixel t) : abovePixels q F = unmaskedAbove q c F := by
  have hsel : ∀ p, p < nij → maskOk q.emask p = (q.mask p != 0#8) := by
    intro p hp
    unfold Call.emask
    split
    · next hnone => simpa [maskOk] using (hmask hnone p hp)
    · rfl
  rw [abovePixels, unmaskedAbove, candidates_eq, List.filter_map, List.filter_filter, swapped,
    List.map_map]
  congr 1
  apply List.filter_congr
  intro p hp
  rw [Function.comp, Nat.add_zero, hsel p (List.mem_range.mp hp), Call.test, cutAt_zero ht, hcut,
    Bool.and_comm]

/-- `top_pixels` and its caller leave a short list alone. -/
theorem finish_numpy {r : Request} (hnumpy : r.native = false) (list : List (Pixel t × Nat))
    (level nabove : Nat) : r.finish list level nabove = limited r.howmany r.thr list := by
  unfold Request.finish limited
  cases r.howmany with
  | none => rfl
  | some n =>
    dsimp only
    rw [if_neg (by rw [hnumpy]; decide)]
    split
    · rfl
    · next hle => exact (topPixels_all (not_lt.mp hle) r.thr).symm

/-- A limit that no frame reaches. -/
theorem limited_min {n : Nat} {thr : List Threshold} {pixels : List (Pixel t × Nat)}
    (h : pixels.length ≤ 2 ^ 31 - 1) :
    topPixels pixels (min (n : ℤ) (2 ^ 31 - 1)).toNat thr = topPixels pixels n thr := by
  by_cases hlarge : (n : ℤ) ≤ 2 ^ 31 - 1
  · rw [min_eq_left hlarge, Int.toNat_natCast]
  · rw [topPixels_all (by omega), topPixels_all (by omega)]

section

variable {nframes : Nat} {r : Request} {q : Call t nij D} (ht : t.isFloat = false)
  (hcheck : check howmany thresholds = .ok (limit, thr)) (h0 : 0 ≤ c) (hc : c ≤ t.largest)
  (hmade : Request.make limit thr c t nframes = .ok r) (hask : Asked q r c)
  (hmask : q.MaskFits) (hsmall : nij ≤ 2 ^ 31 - 1)
  (hseparated : r.native = true → ∀ x ∈ requestThresholds thr c, x.Separated t c)

include ht hcheck h0 hc hmade hask hmask hsmall hseparated

/-- The selection inside the driver's loop, or in numpy after it, is the one that is meant. -/
theorem Asked.finish (F : Nat → Pixel t) :
    r.finish (swapped (q.kept (q.settled F nij).2)) (q.settled F nij).1 (q.counted (q.settled F nij).2) =
      limited limit (requestThresholds thr c) (unmaskedAbove q c F) := by
  have hpixels := abovePixels_eq ht hmask hask.cut F
  cases hnative : r.native with
  | false =>
    have htop : q.top = none := by
      rw [hask.top, hnative]
      rfl
    have hlist : swapped (q.kept (q.settled F nij).2) = unmaskedAbove q c F := by
      rw [settled_plain htop hmask, Call.sparse, swapped, List.map_map, unmaskedAbove, ← hask.cut]
      congr 1
      apply List.filter_congr
      intro p _
      rw [Pixel.gt, ht]
      rfl
    have hsame : r.howmany = limit ∧ r.thr = requestThresholds thr c := by
      rcases make_cases hmade with rfl | ⟨n, eff, -, -, rfl⟩
      · exact ⟨rfl, rfl⟩
      · cases hnative
    rw [finish_numpy hnative, hlist, hsame.1, hsame.2]
  | true =>
    have htop : q.top = some r.cTop := by
      rw [hask.top, if_pos hnative]
    obtain ⟨n, hn, hhowmany, hthr, hlimit, -⟩ := Asked.spec hmade hask hnative
    have hascending := Asked.ascending ht hcheck h0 hc hmade hask
    have hlevels := Asked.sameLevels ht hcheck h0 hc hmade hask hnative (hseparated hnative)
    have hpos : 0 ≤ r.cTop.howmany := by
      rw [hlimit]
      omega
    have hselect := settled_topPixels hascending.steady htop hpos hlevels F
    have hlength := length_unmaskedAbove q c F
    rw [hpixels, hlimit, limited_min (hlength.trans hsmall)] at hselect
    have hcounted : q.counted (q.settled F nij).2 = (q.settled F nij).2.length := by
      rw [Call.counted, htop]
    have hle : (q.settled F nij).1 ≤ r.thr.length := by
      rw [hlevels.length]
      exact (settledLevel_spec q.test q.full q.levels (q.candidates F 0 nij)).1
    unfold Request.finish limited
    rw [hhowmany, hn, ← hthr]
    dsimp only
    rw [hselect, hcounted, if_pos hnative]
    split
    · rfl
    · rw [min_eq_left (by omega)]

end

end

/-- Pixels of at most 32 bits are compared in `float64` as they are. -/
theorem separated_of_small (hsmall : t.size ≤ 4) {c : ℤ} (h0 : 0 ≤ c) (x : Threshold) : x.Separated t c := by
  refine (above_spec h0 x).mp fun v _ => ?_
  have hv := natAbs_lt_of_small hsmall v
  rcases x with n | y
  · exact above_int_of_small (by omega)
  · rw [Threshold.above, Threshold.selects, Dot.roundTo_eq (by omega)]

/-! ## A batch -/

section

variable {E : Platform} (hK : E.kernels.Inverse)
  (hlz4 : ∀ src planes, plainDecode planes.length src = some planes →
    E.codecs.lz4DecompressSafe src planes.length = some planes)
  (ht : t.isFloat = false) {q : Call t nij D} {blocksize : Nat} {F : Nat → Nat → Pixel t}
  (h : BatchOf E.codecs q blocksize F) (hprepared : Prepared q blocksize)
  {howmany : Option Number} {thresholds : Option (List Number)} {limit : Option Nat}
  {thr : Option (List Double)} (hcheck : check howmany thresholds = .ok (limit, thr))
  {cut : List Number} {c : ℤ} (hcut : cutArray t cut = .ok c)

include hprepared hcut in
/-- The driver's arguments are in order. -/
theorem admissible_select {req : Request} (hmade : Request.make limit thr c t q.chunks.nframes = .ok req)
    {top : Option Top} (htop : top = if req.native then some req.cTop else none) (ht : t.isFloat = false) :
    Asked (q.select [BitVec.ofInt t.bits c] top) req c ∧
      Admissible (q.select [BitVec.ofInt t.bits c] top) blocksize := by
  obtain ⟨h0, hc⟩ := cutArray_bounds hcut
  have hvalue : Pixel.value (t := t) (BitVec.ofInt t.bits c) = c := Pixel.value_ofInt h0 hc
  have hask : Asked (q.select [BitVec.ofInt t.bits c] top) req c := ⟨hvalue, htop⟩
  refine ⟨hask, rfl, ?_, ?_, hprepared.small, hprepared.layout, hprepared.workspace⟩
  · unfold validCut
    rw [ht]
    change decide (0 ≤ Pixel.value (t := t) (BitVec.ofInt t.bits c)) = true
    rw [hvalue]
    exact decide_eq_true h0
  · intro top' htop'
    obtain ⟨hnative, rfl⟩ := Asked.native hmade hask htop'
    obtain ⟨n, -, -, -, hlimit, hnthr⟩ := Asked.spec hmade hask hnative
    omega

include hK hlz4 ht h hprepared hcheck hcut

/-- What comes back of a batch, from the levels and lists that its frames settle on. -/
theorem multi_settles {req : Request} (hmade : Request.make limit thr c t q.chunks.nframes = .ok req)
    {top : Option Top} (htop : top = if req.native then some req.cTop else none)
    (hguard : Guarded (q.select [BitVec.ofInt t.bits c] top) blocksize F) (s : RunState t D) :
    ∃ r selected, run E (q.select [BitVec.ofInt t.bits c] top) s = .ok r ∧
      multi E q limit thr cut s = .ok (r, selected) ∧
      ∀ f, f < q.chunks.nframes → selected f =
        req.finish (swapped ((q.select [BitVec.ofInt t.bits c] top).kept
            ((q.select [BitVec.ofInt t.bits c] top).settled (F f) nij).2))
          ((q.select [BitVec.ofInt t.bits c] top).settled (F f) nij).1
          ((q.select [BitVec.ofInt t.bits c] top).counted
            ((q.select [BitVec.ofInt t.bits c] top).settled (F f) nij).2) := by
  obtain ⟨h0, hc⟩ := cutArray_bounds hcut
  obtain ⟨hask, ha⟩ := admissible_select hprepared hcut hmade htop ht
  have hsteady := (Asked.ascending ht hcheck h0 hc hmade hask).steady
  have hbatch : BatchOf E.codecs (q.select [BitVec.ofInt t.bits c] top) blocksize F :=
    ⟨h.nframes, h.whole, h.chunks, h.uncompressed⟩
  obtain ⟨r, hr, hsettles⟩ := run_settles hK hlz4 hbatch ha hsteady hguard s
  refine ⟨r, fun f => req.finish (swapped (r.out nij f).entries) (r.level f) (r.nabove f), hr, ?_, ?_⟩
  · have hargs := topFromArgs_made hmade
    rw [← htop] at hargs
    unfold multi
    rw [hcut]
    change ((Request.make limit thr c t q.chunks.nframes).mapError MultiError.thresholds >>= _) = _
    rw [hmade]
    change ((topFromArgs req.top).mapError MultiError.driver >>= _) = _
    rw [hargs]
    change ((run E (q.select [BitVec.ofInt t.bits c] top) s).mapError MultiError.driver >>= _) = _
    rw [hr]
    rfl
  · intro f hf
    have hframe := hsettles f hf
    dsimp only
    rw [hframe.list, hframe.level, hframe.nabove]

end

/-- A batch through the class: every frame comes to `top_pixels` on its unmasked pixels above the
cut, whether C or numpy selects, with the threshold that was applied and the count above it. -/
theorem multi_exact (E : Platform) (hK : E.kernels.Inverse)
    (hlz4 : ∀ src planes, plainDecode planes.length src = some planes →
      E.codecs.lz4DecompressSafe src planes.length = some planes)
    (ht : t.isFloat = false) (q : Call t nij D) (blocksize : Nat) (F : Nat → Nat → Pixel t)
    (h : BatchOf E.codecs q blocksize F) (hprepared : Prepared q blocksize) (hmask : q.MaskFits)
    {howmany : Option Number} {thresholds : Option (List Number)} {limit : Option Nat}
    {thr : Option (List Double)} (hcheck : check howmany thresholds = .ok (limit, thr))
    {cut : List Number} {c : ℤ} (hcut : cutArray t cut = .ok c)
    (hfits : limit = none ∨ c < 2 ^ 63 ∨ requestThresholds thr c = [] ∨
      ∃ x ∈ requestThresholds thr c, x.tooLarge)
    (hseparated : limit ≠ none → ∀ x ∈ requestThresholds thr c, x.Separated t c)
    (hguard : ∀ top, Guarded (q.select [BitVec.ofInt t.bits c] top) blocksize F) (s : RunState t D) :
    ∃ r selected, multi E q limit thr cut s = .ok (r, selected) ∧ ∀ f, f < q.chunks.nframes →
      selected f = limited limit (requestThresholds thr c) (unmaskedAbove q c (F f)) := by
  obtain ⟨h0, hc⟩ := cutArray_bounds hcut
  obtain ⟨req, hmade⟩ := (make_isOk limit q.chunks.nframes ht h0 hc (check_length hcheck c)).mpr hfits
  obtain ⟨r, selected, -, hmulti, hselected⟩ :=
    multi_settles hK hlz4 ht h hprepared hcheck hcut hmade rfl (hguard _) s
  refine ⟨r, selected, hmulti, fun f hf => ?_⟩
  have hask := (admissible_select hprepared hcut hmade rfl ht).1
  have hnij : nij ≤ 2 ^ 31 - 1 := (Nat.le_mul_of_pos_right nij t.size_pos).trans hprepared.small
  have hnative : req.native = true → ∀ x ∈ requestThresholds thr c, x.Separated t c := by
    intro hnative
    obtain ⟨n, hn, -⟩ := Asked.spec hmade hask hnative
    exact hseparated (by rw [hn]; simp)
  rw [hselected f hf]
  exact Asked.finish ht hcheck h0 hc hmade hask hmask hnij hnative (F f)

/-- Pixel `p` has the value `p`. -/
def rising : Nat → Pixel .u16 := fun p => BitVec.ofNat 16 p

theorem rising_length (_ : Nat) : (pixelBytes rising 0 8).length < 2 ^ 31 := by decide

/-- One plain frame of eight pixels. -/
def risingCall : Call .u16 8 Unit where
  chunks := ⟨1, fun _ => pixelBytes rising 0 8, oneFrame_lt, rising_length⟩
  mask := fun _ => 1#8
  cut := [0#16]
  pipe := ⟨.pixels, .pixel, .kcb, .scalar, fun _ => rfl, scalar_simd⟩
  dot := none
  top := none
  workspaceLen := 73728

theorem risingCall_batch : BatchOf Platform.plain.codecs risingCall defaultBlockBytes fun _ => rising where
  nframes := Nat.one_pos
  whole := by decide
  chunks := fun h => by cases h
  uncompressed := fun _ => ⟨rfl, fun _ _ => rfl⟩

theorem risingCall_prepared : Prepared risingCall defaultBlockBytes where
  small := by decide
  layout := fun _ h => by cases h
  workspace := Nat.le_of_ble_eq_true rfl

/-- At most two of the seven pixels above 0. -/
theorem multi_exact_rising :
    ∃ r selected, multi .plain risingCall (some 2) none [.int 0] (.filled 1#8 ()) = .ok (r, selected) ∧
      ∀ f, f < 1 → selected f = limited (some 2) (requestThresholds none 0) (unmaskedAbove risingCall 0 rising) :=
  multi_exact .plain Kernels.scalarOnly_inverse (fun _ _ h => h) rfl risingCall defaultBlockBytes
    (fun _ => rising) risingCall_batch risingCall_prepared (fun h => by cases h)
    (show check (some (.int 2)) none = .ok (some 2, none) from rfl) rfl (Or.inr (Or.inl (by decide)))
    (fun _ x _ => separated_of_small (by decide) le_rfl x)
    (fun _ => guarded_of_value Untranspose.noConfusion _ _) _

end Bslz4ToSparse.TopPixels
