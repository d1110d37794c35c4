import Mathlib.Data.List.Basic

/-!
# Selections that get stricter

A list is kept at a level of a family of tests, each stricter than the one before. While there
is too much in it, it goes on to the next level. Elements that come later are tested at the level
reached so far, and nothing depends on when the levels were changed.
-/

namespace Bslz4ToSparse.Foundation

variable {α : Type}

section

variable (test : Nat → α → Bool) (full : Nat → Nat → Bool)

/-- At most `left` levels up. -/
def climbFrom : Nat → Nat → List α → Nat × List α
  | 0, level, l => (level, l)
  | left + 1, level, l =>
      if full level l.length then climbFrom left (level + 1) (l.filter (test (level + 1)))
      else (level, l)

/-- At most up to level `n`. -/
def climb (n : Nat) (s : Nat × List α) : Nat × List α := climbFrom test full (n - s.1) s.1 s.2

/-- Elements arrive, and are tested at the level reached by then. -/
def climbOn (n : Nat) (s : Nat × List α) (xs : List α) : Nat × List α :=
  let s := climb test full n s
  (s.1, s.2 ++ xs.filter (test s.1))

/-- The level where a whole list ends up. -/
def settledLevel (n : Nat) (xs : List α) : Nat :=
  ((List.range n).find? fun k => !full k (xs.filter (test k)).length).getD n

/-- The elements so far at the level reached, with too many at every level below it. -/
structure Reached (n : Nat) (xs : List α) (s : Nat × List α) : Prop where
  le : s.1 ≤ n
  list : s.2 = xs.filter (test s.1)
  over_below : ∀ k, k < s.1 → full k (xs.filter (test k)).length = true

end

variable {test : Nat → α → Bool} {full : Nat → Nat → Bool} {n : Nat}

/-- Too many at every level below, and not at the level itself unless it is the last one. -/
theorem settledLevel_spec (test : Nat → α → Bool) (full : Nat → Nat → Bool) (n : Nat) (xs : List α) :
    settledLevel test full n xs ≤ n ∧
      (∀ k, k < settledLevel test full n xs → full k (xs.filter (test k)).length = true) ∧
      (settledLevel test full n xs = n ∨
        full (settledLevel test full n xs)
          (xs.filter (test (settledLevel test full n xs))).length = false) := by
  rw [settledLevel]
  cases hfind : (List.range n).find? fun k => !full k (xs.filter (test k)).length with
  | none =>
    rw [Option.getD_none]
    refine ⟨Nat.le_refl n, fun k hk => ?_, Or.inl rfl⟩
    simpa using List.find?_eq_none.mp hfind k (List.mem_range.mpr hk)
  | some k =>
    rw [Option.getD_some]
    obtain ⟨hstop, hmem, hbelow⟩ := List.find?_range_eq_some.mp hfind
    refine ⟨Nat.le_of_lt (List.mem_range.mp hmem), fun j hj => ?_, Or.inr ?_⟩
    · simpa using hbelow j hj
    · simpa using hstop

theorem filter_stricter (hstrict : ∀ k, k < n → ∀ x, test (k + 1) x = true → test k x = true) {k : Nat}
    (hk : k < n) (xs : List α) : (xs.filter (test k)).filter (test (k + 1)) = xs.filter (test (k + 1)) := by
  rw [List.filter_filter]
  apply List.filter_congr
  intro x _
  cases h : test (k + 1) x with
  | false => rfl
  | true => rw [hstrict k hk x h, Bool.and_self]

theorem test_of_le (hstrict : ∀ k, k < n → ∀ x, test (k + 1) x = true → test k x = true) {j k : Nat} (hjk : j ≤ k)
    (hk : k ≤ n) {x : α} (h : test k x = true) : test j x = true := by
  induction hjk with
  | refl => exact h
  | step _ ih => exact ih (by omega) (hstrict _ hk x h)

namespace Reached

variable {xs : List α} {s : Nat × List α}

theorem start (test : Nat → α → Bool) (full : Nat → Nat → Bool) (n : Nat) :
    Reached test full n [] (0, []) :=
  ⟨Nat.zero_le n, rfl, fun k hk => absurd hk (Nat.not_lt_zero k)⟩

theorem climbFrom (hstrict : ∀ k, k < n → ∀ x, test (k + 1) x = true → test k x = true) {left level : Nat}
    {l : List α} (hleft : left = n - level) (h : Reached test full n xs (level, l)) :
    Reached test full n xs (climbFrom test full left level l) := by
  induction left generalizing level l with
  | zero => exact h
  | succ left ih =>
    rw [Foundation.climbFrom]
    split
    · next hover =>
      apply ih (by omega)
      constructor
      · change level + 1 ≤ n
        omega
      · have hlist : l = xs.filter (test level) := h.list
        rw [hlist, filter_stricter hstrict (by omega)]
      · intro k hk
        rcases Nat.lt_succ_iff_lt_or_eq.mp hk with hlt | rfl
        · exact h.over_below k hlt
        · have hlist : l = xs.filter (test k) := h.list
          rwa [← hlist]
    · exact h

theorem climb (hstrict : ∀ k, k < n → ∀ x, test (k + 1) x = true → test k x = true)
    (h : Reached test full n xs s) : Reached test full n xs (climb test full n s) :=
  Reached.climbFrom hstrict rfl h

/-- More elements do not take a level back. -/
theorem append (hmono : ∀ k a b, a ≤ b → full k a = true → full k b = true)
    (h : Reached test full n xs s) (ys : List α) :
    Reached test full n (xs ++ ys) (s.1, s.2 ++ ys.filter (test s.1)) := by
  constructor
  · exact h.le
  · rw [List.filter_append, ← h.list]
  · intro k hk
    refine hmono k _ _ ?_ (h.over_below k hk)
    rw [List.filter_append, List.length_append]
    exact Nat.le_add_right _ _

theorem climbOn (hstrict : ∀ k, k < n → ∀ x, test (k + 1) x = true → test k x = true)
    (hmono : ∀ k a b, a ≤ b → full k a = true → full k b = true)
    (h : Reached test full n xs s) (ys : List α) :
    Reached test full n (xs ++ ys) (climbOn test full n s ys) :=
  (h.climb hstrict).append hmono ys

/-- After any number of arrivals. -/
theorem foldl_climbOn (hstrict : ∀ k, k < n → ∀ x, test (k + 1) x = true → test k x = true)
    (hmono : ∀ k a b, a ≤ b → full k a = true → full k b = true)
    (h : Reached test full n xs s) (yss : List (List α)) :
    Reached test full n (xs ++ yss.flatten) (yss.foldl (Foundation.climbOn test full n) s) := by
  induction yss generalizing xs s with
  | nil => simpa using h
  | cons ys yss ih =>
    have hnext := ih (h.climbOn hstrict hmono ys)
    rwa [List.append_assoc] at hnext

/-- Where nothing is full the limit any more, or at the last level, the level is that of the whole
list. -/
theorem level_eq (h : Reached test full n xs s)
    (hstop : s.1 = n ∨ full s.1 s.2.length = false) : s.1 = settledLevel test full n xs := by
  obtain ⟨hle, hbelow, hsettled⟩ := settledLevel_spec test full n xs
  rcases Nat.lt_trichotomy s.1 (settledLevel test full n xs) with hlt | heq | hgt
  · have hover := hbelow s.1 hlt
    rw [← h.list] at hover
    rcases hstop with hlast | hstop
    · omega
    · rw [hover] at hstop
      cases hstop
  · exact heq
  · have hover := h.over_below _ hgt
    have hle' := h.le
    rcases hsettled with hlast | hsettled
    · omega
    · rw [hover] at hsettled
      cases hsettled

end Reached

theorem climbFrom_stop (test : Nat → α → Bool) (full : Nat → Nat → Bool) (left level : Nat) (l : List α) :
    (climbFrom test full left level l).1 = level + left ∨
      full (climbFrom test full left level l).1 (climbFrom test full left level l).2.length = false := by
  induction left generalizing level l with
  | zero => exact Or.inl rfl
  | succ left ih =>
    rw [climbFrom]
    split
    · rcases ih (level + 1) (l.filter (test (level + 1))) with h | h
      · left
        rw [h]
        omega
      · exact Or.inr h
    · next hover => exact Or.inr (Bool.eq_false_iff.mpr hover)

/-- However the elements arrive, they end up at the level of the whole list. -/
theorem climb_foldl_climbOn (hstrict : ∀ k, k < n → ∀ x, test (k + 1) x = true → test k x = true)
    (hmono : ∀ k a b, a ≤ b → full k a = true → full k b = true) (xss : List (List α)) :
    climb test full n (xss.foldl (climbOn test full n) (0, [])) =
      (settledLevel test full n xss.flatten,
        xss.flatten.filter (test (settledLevel test full n xss.flatten))) := by
  have hreached := (Reached.start test full n).foldl_climbOn hstrict hmono xss
  rw [List.nil_append] at hreached
  have hclimb := hreached.climb hstrict
  have hlevel := hclimb.level_eq ?_
  · refine Prod.ext hlevel ?_
    rw [hclimb.list, hlevel]
  · have hle := hreached.le
    rcases climbFrom_stop test full (n - (xss.foldl (climbOn test full n) (0, [])).1)
      (xss.foldl (climbOn test full n) (0, [])).1 (xss.foldl (climbOn test full n) (0, [])).2 with h | h
    · left
      rw [climb, h]
      omega
    · exact Or.inr h

end Bslz4ToSparse.Foundation
