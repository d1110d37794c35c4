import Bslz4ToSparse.Pipeline.Streaming
import Bslz4ToSparse.TopPixels.Oracle

/-!
# The driver's selection is `top_pixels`

The driver raises the level of a frame while its list grows. For integer pixels and thresholds that
do not decrease from the cut on, this is `top_pixels` on the pixels above the cut.
-/

namespace Bslz4ToSparse.TopPixels

open Foundation Pipeline Steps

variable {t : Dtype} {nij : Nat} {D : Type}

/-! ## The thresholds of a call -/

/-- The collects compare with the threshold itself. -/
theorem cutAt_spec (ht : t.isFloat = false) {q : Call t nij D} {top : Top} (htop : q.top = some top)
    (level : Nat) (h0 : 0 ≤ top.thr level) (h63 : top.thr level < 2 ^ 63) (v : Pixel t) :
    above (q.cutAt (level + 1)) v = decide (top.thr level < v.value) := by
  have hlargest := largest_le ht
  have hv := value_le_largest v
  have hthr : (q.top.map Top.thr).getD (fun _ => 0) level = top.thr level := by
    rw [htop]
    rfl
  rw [Call.cutAt]
  simp only [hthr, ht, Bool.false_eq_true, if_false, maxValue_eq ht]
  split at hlargest
  · next hsize =>
    rw [if_pos hsize, Option.any_some]
    by_cases hlt : t.largest < top.thr level
    · rw [decide_eq_true hlt, if_pos rfl, decide_eq_false (by omega)]
      rfl
    · rw [decide_eq_false hlt, if_neg (by decide)]
      exact above_ofInteger ht h0 (by omega) v
  · next hsize =>
    rw [if_neg hsize, Option.any_none, if_neg (by decide)]
    exact above_ofInteger ht h0 (by omega) v

theorem cutAt_zero (ht : t.isFloat = false) (q : Call t nij D) (v : Pixel t) :
    above (q.cutAt 0) v = decide (q.cutPixel.value < v.value) := by
  rw [Call.cutAt, above, Option.any_some, Pixel.gt, ht]
  rfl

/-- Integer thresholds that do not decrease, from a cut that is not negative on. -/
structure Ascending (q : Call t nij D) : Prop where
  integer : t.isFloat = false
  cut : 0 ≤ q.cutPixel.value
  thr : ∀ top ∈ q.top, ∀ k, k < top.nthr.toNat → q.cutPixel.value ≤ top.thr k ∧ top.thr k < 2 ^ 63
  sorted : ∀ top ∈ q.top, ∀ k, k + 1 < top.nthr.toNat → top.thr k ≤ top.thr (k + 1)

namespace Ascending

variable {q : Call t nij D}

theorem cutAt (h : Ascending q) {top : Top} (htop : q.top = some top) {k : Nat} (hk : k < top.nthr.toNat)
    (v : Pixel t) : above (q.cutAt (k + 1)) v = decide (top.thr k < v.value) := by
  obtain ⟨hle, hlt⟩ := h.thr top htop k hk
  exact cutAt_spec h.integer htop k (h.cut.trans hle) hlt v

theorem levels_eq {top : Top} (htop : q.top = some top) : q.levels = top.nthr.toNat := by
  rw [Call.levels, htop]
  rfl

theorem levels_none (htop : q.top = none) : q.levels = 0 := by
  rw [Call.levels, htop]
  rfl

theorem low (h : Ascending q) (ht : t = .u16) {level : Nat} (hlevel : level ≤ q.levels) {v : Pixel t}
    (hv : v.toNat < 256) : aboveCut (q.lowCut level) v = above (q.cutAt level) v := by
  have hvalue : ∀ v : Pixel t, v.value = v.toNat := by
    intro v
    rw [Pixel.value, if_neg (by rw [ht]; decide)]
  have hcut : q.cutPixel.toNat < 2 ^ 16 := by
    have hlt := q.cutPixel.isLt
    have hbits : t.bits = 16 := by rw [ht]; rfl
    simp only [hbits] at hlt
    exact hlt
  cases level with
  | zero =>
    rw [cutAt_zero h.integer, aboveCut, hvalue, hvalue, decide_eq_decide, Call.lowCut]
    omega
  | succ k =>
    cases htop : q.top with
    | none =>
      rw [levels_none htop] at hlevel
      omega
    | some top =>
      rw [levels_eq htop] at hlevel
      obtain ⟨hle, -⟩ := h.thr top htop k hlevel
      have h0 := h.cut
      have hthr : (q.top.map Top.thr).getD (fun _ => 0) k = top.thr k := by
        rw [htop]
        rfl
      rw [h.cutAt htop hlevel, aboveCut, hvalue, decide_eq_decide, Call.lowCut]
      simp only [hthr]
      split
      · omega
      · omega

/-- The levels of such a call are what the driver takes them for. -/
theorem steady (h : Ascending q) : q.Steady where
  filter := by
    intro top htop k hk v
    obtain ⟨hle, hlt⟩ := h.thr top htop k hk
    rw [h.cutAt htop hk, filter_spec h.integer top k (h.cut.trans hle) hlt]
  low := fun ht _ hlevel _ hv => h.low ht hlevel hv
  strict := by
    intro k hk v hv
    cases htop : q.top with
    | none =>
      rw [levels_none htop] at hk
      omega
    | some top =>
      rw [levels_eq htop] at hk
      rw [h.cutAt htop hk, decide_eq_true_iff] at hv
      cases k with
      | zero =>
        have hle := (h.thr top htop 0 hk).1
        rw [cutAt_zero h.integer]
        exact decide_eq_true (by omega)
      | succ k =>
        have hle := h.sorted top htop k hk
        rw [h.cutAt htop (by omega)]
        exact decide_eq_true (by omega)
  nonzero := by
    intro v hv
    have hcut := h.cut
    rw [cutAt_zero h.integer, decide_eq_true_iff] at hv
    by_contra hzero
    have hvalue := Pixel.value_eq_zero h.integer (Bool.eq_false_iff.mpr hzero)
    omega

end Ascending

/-! ## The selection -/

/-- An entry of a list with the pixel first. -/
def swapped (l : List (Nat × Pixel t)) : List (Pixel t × Nat) := l.map Prod.swap

/-- The unmasked pixels above the cut. -/
def abovePixels (q : Call t nij D) (px : Nat → Pixel t) : List (Pixel t × Nat) :=
  swapped ((q.candidates px 0 nij).filter (q.test 0))

theorem swapped_filter (f : Nat × Pixel t → Bool) (g : Pixel t × Nat → Bool) (l : List (Nat × Pixel t))
    (h : ∀ e ∈ l, g e.swap = f e) : (swapped l).filter g = swapped (l.filter f) := by
  rw [swapped, List.filter_map, swapped]
  congr 1
  exact List.filter_congr h

section

variable {q : Call t nij D} {top : Top} {thr : List Threshold} {px : Nat → Pixel t}

theorem over_zero (htop : q.top = some top) (h0 : 0 ≤ top.howmany) (n : Nat) :
    q.full 0 n = decide (top.howmany.toNat < n) := by
  rw [Call.full, htop, Option.any_some, Top.over, if_pos rfl, decide_eq_decide]
  omega

theorem over_succ (htop : q.top = some top) (h0 : 0 ≤ top.howmany) (k n : Nat) :
    q.full (k + 1) n = !decide (n < top.howmany.toNat) := by
  rw [Call.full, htop, Option.any_some, Top.over, if_neg (by omega)]
  by_cases hlt : n < top.howmany.toNat
  · rw [decide_eq_true hlt, decide_eq_false (by omega)]
    rfl
  · rw [decide_eq_false hlt, decide_eq_true (by omega)]
    rfl

theorem length_swapped (l : List (Nat × Pixel t)) : (swapped l).length = l.length := List.length_map _

/-- The thresholds of `top_pixels` select what the levels of the driver do. -/
structure SameLevels (q : Call t nij D) (thr : List Threshold) : Prop where
  length : thr.length = q.levels
  selects : ∀ k x, thr[k]? = some x → ∀ v : Pixel t, above (q.cutAt 0) v = true →
    x.above v.value = above (q.cutAt (k + 1)) v

/-- Above threshold `k` are the entries of level `k + 1`. -/
theorem SameLevels.filter_above (hthr : SameLevels q thr) (h : q.Steady) {k : Nat} {x : Threshold}
    (hx : thr[k]? = some x) :
    ((abovePixels q px).filter fun p => x.above p.1.value) =
      swapped ((q.candidates px 0 nij).filter (q.test (k + 1))) := by
  have hk : k < q.levels := hthr.length ▸ (List.getElem?_eq_some_iff.mp hx).1
  have hswap : ((abovePixels q px).filter fun p => x.above p.1.value) =
      swapped (((q.candidates px 0 nij).filter (q.test 0)).filter (q.test (k + 1))) := by
    apply swapped_filter
    intro e he
    exact hthr.selects k x hx e.2 (List.mem_filter.mp he).2
  rw [hswap, List.filter_filter]
  congr 1
  apply List.filter_congr
  intro e _
  cases hlist : q.test (k + 1) e with
  | false => rfl
  | true => rw [test_of_le h.strict_test (Nat.zero_le (k + 1)) hk hlist, Bool.and_self]

theorem SameLevels.countAbove (hthr : SameLevels q thr) (h : q.Steady) (htop : q.top = some top)
    (h0 : 0 ≤ top.howmany) {k : Nat} {x : Threshold} (hx : thr[k]? = some x) :
    decide (countAbove (abovePixels q px) x < top.howmany.toNat) =
      !q.full (k + 1) ((q.candidates px 0 nij).filter (q.test (k + 1))).length := by
  rw [countAbove_eq, hthr.filter_above h hx, over_succ htop h0, Bool.not_not, length_swapped]

theorem swapped_kept (htop : q.top = some top) (l : List (Nat × Pixel t)) :
    swapped (q.kept l) = (swapped l).take top.howmany.toNat := by
  rw [Call.kept, htop, swapped, swapped, List.map_take]

/-- The threshold of the level where a frame ends up is the one that `top_pixels` applies. -/
theorem SameLevels.applied (hthr : SameLevels q thr) (h : q.Steady) (htop : q.top = some top)
    (h0 : 0 ≤ top.howmany) {level : Nat} (hlevel : (q.settled px nij).1 = level + 1) :
    level < thr.length ∧
      applied (abovePixels q px) top.howmany.toNat thr = thr[level]? := by
  obtain ⟨hle, hbelow, hstop⟩ := settledLevel_spec q.test q.full q.levels (q.candidates px 0 nij)
  change (q.settled px nij).1 ≤ _ at hle
  change ∀ k, k < (q.settled px nij).1 → _ at hbelow
  change (q.settled px nij).1 = _ ∨ q.full (q.settled px nij).1 _ = _ at hstop
  rw [hlevel] at hle hbelow hstop
  have hlen := hthr.length
  refine ⟨by omega, find?_or_getLast? (by omega) ?_ ?_⟩
  · intro j hj x hx
    rw [hthr.countAbove h htop h0 hx, hbelow (j + 1) (by omega)]
    rfl
  · rcases hstop with hlast | hstop
    · right
      omega
    · left
      intro x hx
      rw [hthr.countAbove h htop h0 hx]
      have hsame : settledLevel q.test q.full q.levels (q.candidates px 0 nij) = level + 1 := hlevel
      rw [hsame] at hstop
      rw [hstop]
      rfl

/-- What a driver with a limit selects: `top_pixels`, where the thresholds select the same. -/
theorem settled_topPixels (h : q.Steady) (htop : q.top = some top) (h0 : 0 ≤ top.howmany)
    (hthr : SameLevels q thr) (px : Nat → Pixel t) :
    topPixels (abovePixels q px) top.howmany.toNat thr =
      ⟨swapped (q.kept (q.settled px nij).2),
        if (q.settled px nij).1 = 0 then none else thr[(q.settled px nij).1 - 1]?,
        (q.settled px nij).2.length⟩ := by
  have hlength : (abovePixels q px).length = ((q.candidates px 0 nij).filter (q.test 0)).length :=
    length_swapped _
  have hlist : (q.settled px nij).2 = (q.candidates px 0 nij).filter (q.test (q.settled px nij).1) := rfl
  rw [swapped_kept htop, hlist]
  obtain ⟨-, hbelow, hstop⟩ := settledLevel_spec q.test q.full q.levels (q.candidates px 0 nij)
  change ∀ k, k < (q.settled px nij).1 → _ at hbelow
  cases hlevel : (q.settled px nij).1 with
  | zero =>
    have hsame : settledLevel q.test q.full q.levels (q.candidates px 0 nij) = 0 := hlevel
    rw [if_pos rfl]
    change _ = (⟨(abovePixels q px).take top.howmany.toNat, none, _⟩ : Selected t)
    rcases le_or_gt (abovePixels q px).length top.howmany.toNat with hall | hmore
    · rw [topPixels_all hall, List.take_of_length_le hall, hlength]
    · -- too many, and no threshold to go to
      rw [hsame, over_zero htop h0, ← hlength, decide_eq_true hmore] at hstop
      have hnil : thr = [] := by
        have hn := hstop.resolve_right (by simp)
        have hlen := hthr.length
        exact List.length_eq_zero_iff.mp (by omega)
      rw [hnil, topPixels_none hmore, hlength]
  | succ level =>
    have hmore : top.howmany.toNat < (abovePixels q px).length := by
      have hover := hbelow 0 (by omega)
      rw [over_zero htop h0, ← hlength] at hover
      exact of_decide_eq_true hover
    obtain ⟨hlt, happlied⟩ := hthr.applied h htop h0 hlevel
    have hget : thr[level]? = some thr[level] := List.getElem?_eq_getElem hlt
    rw [hget] at happlied
    rw [topPixels_applied hmore happlied, hthr.filter_above h hget, if_neg (by omega), Nat.add_sub_cancel,
      hget, length_swapped]

end

end Bslz4ToSparse.TopPixels
