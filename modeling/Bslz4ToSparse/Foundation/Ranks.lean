import Bslz4ToSparse.Foundation.Bits
import Mathlib.Data.Nat.Count

/-!
# Ranks

The rank of a position is the number of selected positions before it. A warp finds the ranks
of its lanes from a ballot.
-/

namespace Bslz4ToSparse.Foundation

/-- The number of selected positions below `n`. -/
def rank (f : Nat → Bool) (n : Nat) : Nat := Nat.count (fun k => f k = true) n

@[simp] theorem rank_zero (f : Nat → Bool) : rank f 0 = 0 := Nat.count_zero _

theorem rank_succ (f : Nat → Bool) (n : Nat) : rank f (n + 1) = rank f n + if f n then 1 else 0 :=
  Nat.count_succ _ n

theorem rank_add (f : Nat → Bool) (a b : Nat) : rank f (a + b) = rank f a + rank (fun k => f (a + k)) b :=
  Nat.count_add _ a b

theorem rank_mono (f : Nat → Bool) {m n : Nat} (h : m ≤ n) : rank f m ≤ rank f n :=
  Nat.count_monotone _ h

theorem rank_le (f : Nat → Bool) (n : Nat) : rank f n ≤ n := Nat.count_le _

theorem rank_lt {f : Nat → Bool} {m n : Nat} (hm : f m = true) (h : m < n) : rank f m < rank f n :=
  Nat.count_strict_mono hm h

theorem rank_inj {f : Nat → Bool} {m n : Nat} (hm : f m = true) (hn : f n = true)
    (h : rank f m = rank f n) : m = n := Nat.count_injective hm hn h

theorem rank_congr {f g : Nat → Bool} {n : Nat} (h : ∀ k, k < n → f k = g k) : rank f n = rank g n := by
  induction n with
  | zero => rfl
  | succ n ih =>
    rw [rank_succ, rank_succ, ih fun k hk => h k (by omega), h n (Nat.lt_succ_self n)]

theorem rank_eq_zero {f : Nat → Bool} {n : Nat} : rank f n = 0 ↔ ∀ k, k < n → f k = false := by
  rw [rank, Nat.count_iff_forall_not]
  simp

theorem rank_eq_self {f : Nat → Bool} {n : Nat} (h : ∀ k, k < n → f k = true) : rank f n = n :=
  Nat.count_iff_forall.mpr h

/-- A selection that stops at `m`. -/
theorem rank_of_le {f : Nat → Bool} {m n : Nat} (h : ∀ k, m ≤ k → f k = false) (hmn : m ≤ n) :
    rank f n = rank f m := by
  obtain ⟨d, rfl⟩ := Nat.exists_eq_add_of_le hmn
  rw [rank_add, rank_eq_zero.mpr fun k _ => h (m + k) (by omega), Nat.add_zero]

/-- The first `m` selected positions. -/
theorem rank_take (f : Nat → Bool) (m n : Nat) :
    rank (fun k => f k && decide (rank f k < m)) n = min m (rank f n) := by
  induction n with
  | zero => simp
  | succ n ih =>
    rw [rank_succ, ih, rank_succ]
    cases f n with
    | false => simp
    | true =>
      simp only [Bool.true_and, decide_eq_true_eq, if_true]
      split <;> omega

theorem length_filter_range (f : Nat → Bool) (n : Nat) : ((List.range n).filter f).length = rank f n := by
  induction n with
  | zero => rfl
  | succ n ih =>
    rw [List.range_succ, List.filter_append, List.length_append, ih, rank_succ]
    cases h : f n <;> simp [h]

/-- A selected position stands at its rank. -/
theorem getElem?_filter_range {f : Nat → Bool} {n p : Nat} (hp : p < n) (hf : f p = true) :
    ((List.range n).filter f)[rank f p]? = some p := by
  induction n with
  | zero => omega
  | succ n ih =>
    rw [List.range_succ, List.filter_append]
    rcases Nat.lt_succ_iff_lt_or_eq.mp hp with hlt | rfl
    · rw [List.getElem?_append_left (by rw [length_filter_range]; exact rank_lt hf hlt)]
      exact ih hlt
    · rw [List.getElem?_append_right (by rw [length_filter_range]), length_filter_range, Nat.sub_self]
      simp [hf]

/-- Every rank below the number of selected positions is that of one of them. -/
theorem exists_rank {f : Nat → Bool} {n r : Nat} (hr : r < rank f n) : ∃ p, p < n ∧ f p = true ∧ rank f p = r := by
  induction n with
  | zero => simp at hr
  | succ n ih =>
    rw [rank_succ] at hr
    by_cases hlt : r < rank f n
    · obtain ⟨p, hp, hf, heq⟩ := ih hlt
      exact ⟨p, by omega, hf, heq⟩
    · cases hf : f n with
      | true =>
        rw [hf, if_pos rfl] at hr
        exact ⟨n, Nat.lt_succ_self n, hf, by omega⟩
      | false =>
        rw [hf, if_neg (by decide)] at hr
        omega

/-! ## Ballots -/

theorem popcount_gather_rank (w : Nat) (f : Nat → Bool) : popcount (gather w f) = rank f w := by
  rw [popcount, setBits_gather, length_filter_range]

theorem lanesBelow_getLsbD : ∀ lane, lane < 32 → ∀ k, k < 32 →
    ((1#32 <<< lane) - 1#32).getLsbD k = decide (k < lane) := by decide +kernel

/-- The lanes below `lane`. -/
theorem popcount_lanesBelow (f : Nat → Bool) {lane : Nat} (hlane : lane < 32) :
    popcount (gather 32 f &&& ((1#32 <<< lane) - 1#32)) = rank f lane := by
  have hmask : (1#32 <<< lane) - 1#32 = gather 32 fun k => decide (k < lane) := by
    refine BitVec.eq_of_getLsbD_eq fun k hk => ?_
    rw [lanesBelow_getLsbD lane hlane k hk, getLsbD_gather, decide_eq_true hk, Bool.true_and]
  rw [hmask, gather_and, popcount_gather_rank]
  have hstop : rank (fun k => f k && decide (k < lane)) 32 = rank (fun k => f k && decide (k < lane)) lane :=
    rank_of_le (fun k hk => by rw [decide_eq_false (by omega), Bool.and_false]) hlane.le
  rw [hstop]
  apply rank_congr
  intro k hk
  rw [decide_eq_true hk, Bool.and_true]

end Bslz4ToSparse.Foundation
