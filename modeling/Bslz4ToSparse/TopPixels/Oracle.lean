import Bslz4ToSparse.TopPixels.Thresholds

/-!
# Limiting the pixels of a frame (`top_pixels`, src/_toppix.py)

The list holds the pixels above the cut with their indices, in pixel order.
-/

namespace Bslz4ToSparse.TopPixels

variable {t : Dtype}

/-- What is left of a frame: the pixels, the threshold that was applied if any, and the number of
pixels above it. -/
structure Selected (t : Dtype) where
  kept : List (Pixel t × Nat)
  cut : Option Threshold
  nabove : Nat

/-- `np.count_nonzero(_above(v, t))`. -/
def countAbove (pixels : List (Pixel t × Nat)) (x : Threshold) : Nat :=
  pixels.countP fun p => x.above p.1.value

/-- The first threshold with fewer than `howmany` pixels above it, else the last one. -/
def applied (pixels : List (Pixel t × Nat)) (howmany : Nat) (thresholds : List Threshold) :
    Option Threshold :=
  (thresholds.find? fun x => decide (countAbove pixels x < howmany)).or thresholds.getLast?

/-- `top_pixels`. -/
def topPixels (pixels : List (Pixel t × Nat)) (howmany : Nat) (thresholds : List Threshold) : Selected t :=
  if pixels.length ≤ howmany then ⟨pixels, none, pixels.length⟩
  else
    match applied pixels howmany thresholds with
    | none => ⟨pixels.take howmany, none, pixels.length⟩
    | some x =>
        let above := pixels.filter fun p => x.above p.1.value
        ⟨above.take howmany, some x, above.length⟩

/-- A pixel of at most 32 bits. -/
theorem natAbs_lt_of_small (h : t.size ≤ 4) (v : Pixel t) : v.value.natAbs < 2 ^ 32 :=
  v.value_natAbs_lt.trans_le (Nat.pow_le_pow_right (by decide) (by rw [Dtype.bits]; omega))

/-- Small values are compared in `float64` as they are. -/
theorem above_int_of_small {c v : ℤ} (hv : v.natAbs < 2 ^ 53) :
    (Threshold.int c).above v = decide (c < v) := by
  rw [Threshold.above, Dot.roundTo_eq hv, decide_eq_decide]
  have hlarge : 2 ^ 53 ≤ c.natAbs → 2 ^ 53 ≤ Dot.roundMagnitude 53 c.natAbs := by
    intro hc
    have hmono := Dot.roundMagnitude_mono (k := 53) (by decide) hc
    rwa [show (2 : Nat) ^ 53 = 1 * 2 ^ 53 from rfl, Dot.roundMagnitude_mul (by decide)] at hmono
  by_cases hc : c.natAbs < 2 ^ 53
  · rw [Dot.roundTo_eq hc]
  · have hle := hlarge (not_lt.mp hc)
    rcases lt_or_ge c 0 with hneg | hpos
    · rw [Dot.roundTo, Int.sign_eq_neg_one_of_neg hneg]
      omega
    · rw [Dot.roundTo, Int.sign_eq_one_of_pos (by omega)]
      omega

theorem topPixels_all {pixels : List (Pixel t × Nat)} {howmany : Nat} (h : pixels.length ≤ howmany)
    (thresholds : List Threshold) : topPixels pixels howmany thresholds = ⟨pixels, none, pixels.length⟩ :=
  if_pos h

theorem topPixels_none {pixels : List (Pixel t × Nat)} {howmany : Nat} (h : howmany < pixels.length) :
    topPixels pixels howmany [] = ⟨pixels.take howmany, none, pixels.length⟩ :=
  if_neg (not_le.mpr h)

theorem topPixels_applied {pixels : List (Pixel t × Nat)} {howmany : Nat} {thresholds : List Threshold}
    {x : Threshold} (h : howmany < pixels.length) (hx : applied pixels howmany thresholds = some x) :
    topPixels pixels howmany thresholds =
      ⟨(pixels.filter fun p => x.above p.1.value).take howmany, some x,
        (pixels.filter fun p => x.above p.1.value).length⟩ := by
  rw [topPixels, if_neg (not_le.mpr h), hx]

theorem countAbove_eq (pixels : List (Pixel t × Nat)) (x : Threshold) :
    countAbove pixels x = (pixels.filter fun p => x.above p.1.value).length := List.countP_eq_length_filter

/-- The first element with a property, else the last one. -/
theorem find?_or_getLast? {α : Type} {P : α → Bool} {l : List α} {m : Nat} (hm : m < l.length)
    (hbefore : ∀ j, j < m → ∀ x, l[j]? = some x → P x = false)
    (hstop : (∀ x, l[m]? = some x → P x = true) ∨ m + 1 = l.length) :
    (l.find? P).or l.getLast? = l[m]? := by
  have hget : l[m]? = some l[m] := List.getElem?_eq_getElem hm
  cases hP : P l[m] with
  | true =>
    have hfind : l.find? P = some l[m] := by
      rw [List.find?_eq_some_iff_getElem]
      refine ⟨hP, m, hm, rfl, fun j hj => ?_⟩
      rw [hbefore j hj l[j] (List.getElem?_eq_getElem (by omega))]
      rfl
    rw [hfind, hget]
    rfl
  | false =>
    have hlast : m + 1 = l.length := by
      rcases hstop with h | h
      · rw [h _ hget] at hP
        cases hP
      · exact h
    have hfind : l.find? P = none := by
      rw [List.find?_eq_none]
      intro x hx hPx
      obtain ⟨j, hj⟩ := List.getElem?_of_mem hx
      have hlt := (List.getElem?_eq_some_iff.mp hj).1
      rcases Nat.lt_succ_iff_lt_or_eq.mp (show j < m + 1 by omega) with hjm | rfl
      · rw [hbefore j hjm x hj] at hPx
        cases hPx
      · rw [Option.some.inj (hj.symm.trans hget), hP] at hPx
        cases hPx
    rw [hfind, List.getLast?_eq_getElem?, ← hlast]
    rfl

/-- In two lists whose elements have the property alike, that element stands at the same place. -/
theorem find?_or_getLast?_place {α : Type} {P : α → Bool} {A B : List α}
    (h : List.Forall₂ (fun x y => P x = P y) A B) (hpos : 0 < A.length) :
    ∃ m, m < A.length ∧ (A.find? P).or A.getLast? = A[m]? ∧ (B.find? P).or B.getLast? = B[m]? := by
  obtain ⟨hlen, hsame⟩ := List.forall₂_iff_get.mp h
  simp only [List.get_eq_getElem] at hsame
  refine ⟨min (A.findIdx P) (A.length - 1), by omega, ?_, ?_⟩
  · apply find?_or_getLast? (by omega)
    · intro j hj x hx
      obtain ⟨hlt, rfl⟩ := List.getElem?_eq_some_iff.mp hx
      exact List.not_of_lt_findIdx (by omega)
    · by_cases hfound : A.findIdx P < A.length
      · left
        intro x hx
        rw [Nat.min_eq_left (by omega), List.getElem?_eq_getElem hfound] at hx
        rw [← Option.some.inj hx]
        exact List.findIdx_getElem
      · right
        omega
  · apply find?_or_getLast? (by omega)
    · intro j hj y hy
      obtain ⟨hlt, rfl⟩ := List.getElem?_eq_some_iff.mp hy
      rw [← hsame j (by omega) hlt]
      exact List.not_of_lt_findIdx (by omega)
    · by_cases hfound : A.findIdx P < A.length
      · left
        intro y hy
        rw [Nat.min_eq_left (by omega)] at hy
        obtain ⟨hlt, rfl⟩ := List.getElem?_eq_some_iff.mp hy
        rw [← hsame _ hfound hlt]
        exact List.findIdx_getElem
      · right
        omega

/-- Thresholds that select the same of the pixels of a frame. -/
theorem topPixels_congr {pixels : List (Pixel t × Nat)} {A B : List Threshold}
    (h : List.Forall₂ (fun x y => ∀ p ∈ pixels, x.above p.1.value = y.above p.1.value) A B) (howmany : Nat) :
    (topPixels pixels howmany A).kept = (topPixels pixels howmany B).kept ∧
      (topPixels pixels howmany A).nabove = (topPixels pixels howmany B).nabove := by
  have hcount : List.Forall₂ (fun x y => decide (countAbove pixels x < howmany) =
      decide (countAbove pixels y < howmany)) A B := by
    refine h.imp fun x y hxy => ?_
    rw [countAbove_eq, countAbove_eq, List.filter_congr hxy]
  rcases le_or_gt pixels.length howmany with hall | hmore
  · rw [topPixels_all hall, topPixels_all hall]
    exact ⟨rfl, rfl⟩
  · rcases Nat.eq_zero_or_pos A.length with hA | hpos
    · have hB := h.length_eq
      rw [hA] at hB
      rw [List.length_eq_zero_iff.mp hA, List.length_eq_zero_iff.mp hB.symm]
      exact ⟨rfl, rfl⟩
    · obtain ⟨hlen, hsame⟩ := List.forall₂_iff_get.mp h
      obtain ⟨m, hm, hA, hB⟩ := find?_or_getLast?_place hcount hpos
      rw [List.getElem?_eq_getElem hm] at hA
      rw [List.getElem?_eq_getElem (hlen ▸ hm)] at hB
      have hfilter := List.filter_congr (hsame m hm (hlen ▸ hm))
      simp only [List.get_eq_getElem] at hfilter
      rw [topPixels_applied hmore hA, topPixels_applied hmore hB, hfilter]
      exact ⟨rfl, rfl⟩

/-- With a limit below 2 only the last threshold matters: any other that is applied leaves nothing, and so
does the last one then. -/
theorem topPixels_last {pixels : List (Pixel t × Nat)} {howmany : Nat} (hle : howmany ≤ 1)
    (hmore : howmany < pixels.length) {A : List Threshold} {x : Threshold} (hx : A.getLast? = some x)
    (hlast : ∀ y ∈ A, countAbove pixels x ≤ countAbove pixels y) :
    (topPixels pixels howmany A).kept = (pixels.filter fun p => x.above p.1.value).take howmany ∧
      (topPixels pixels howmany A).nabove = countAbove pixels x := by
  cases hfind : A.find? fun x => decide (countAbove pixels x < howmany) with
  | none =>
    rw [topPixels_applied hmore (x := x) (by rw [applied, hfind, hx]; rfl), countAbove_eq]
    exact ⟨rfl, rfl⟩
  | some y =>
    have hy : countAbove pixels y = 0 := by
      have hlt := of_decide_eq_true (List.find?_some (p := fun x => decide (countAbove pixels x < howmany)) hfind)
      omega
    have hx0 : countAbove pixels x = 0 := by
      have hmono := hlast y (List.mem_of_find?_eq_some hfind)
      omega
    rw [topPixels_applied hmore (x := y) (by rw [applied, hfind]; rfl)]
    rw [countAbove_eq, List.length_eq_zero_iff] at hy
    have hxnil := hx0
    rw [countAbove_eq, List.length_eq_zero_iff] at hxnil
    rw [hy, hxnil, hx0, List.take_nil]
    exact ⟨rfl, rfl⟩

/-- The limit holds. -/
theorem topPixels_length_le (pixels : List (Pixel t × Nat)) (howmany : Nat) (thresholds : List Threshold) :
    (topPixels pixels howmany thresholds).kept.length ≤ howmany := by
  rw [topPixels]
  split
  · next h => exact h
  · split <;> simp

end Bslz4ToSparse.TopPixels
