import Bslz4ToSparse.Foundation.Ragged

/-!
# Reductions over the pieces of a ragged array

Array code reduces over the pieces of a flat list by giving the positions at which they
start, writes through a list of positions, and finds the first element of every run of
equal keys by comparing neighbours. Over the pieces that are not empty each of these is
a map.
-/

namespace Bslz4ToSparse.Foundation

variable {α β γ : Type}

/-- `f` over the elements, from left to right; `d` for none. -/
def reduce (f : α → α → α) (d : α) : List α → α
  | [] => d
  | x :: xs => xs.foldl f x

/-- `ufunc.reduceat`: `f` from each position up to the next one, and from the last one to the
end. A position that is not below the next one gives its own element. -/
def reduceat (f : α → α → α) (d : α) (xs : List α) : List Nat → List α
  | [] => []
  | [i] => [reduce f d (xs.drop i)]
  | i :: j :: idx =>
      (if i < j then reduce f d ((xs.drop i).take (j - i)) else xs.getD i d) ::
        reduceat f d xs (j :: idx)

/-- `r[ks] = vs`. -/
def scatter (r : List α) (ks : List Nat) (vs : List α) : List α :=
  (ks.zip vs).foldl (fun r e => r.set e.1 e.2) r

/-- The elements whose key differs from that of the element before, which has the key `prev`. -/
def runHeadsAfter [DecidableEq γ] (key : β → γ) (prev : γ) : List β → List β
  | [] => []
  | x :: xs =>
      if key x = prev then runHeadsAfter key (key x) xs else x :: runHeadsAfter key (key x) xs

/-- The first element and those whose key differs from the one before. -/
def runHeads [DecidableEq γ] (key : β → γ) : List β → List β
  | [] => []
  | x :: xs => x :: runHeadsAfter key (key x) xs

/-- The position of the first of the largest. -/
def firstLargest [LinearOrder α] (xs : List α) : Nat :=
  xs.findIdx fun x => xs.all fun y => decide (y ≤ x)

theorem reduce_add [AddMonoid α] (xs : List α) : reduce (· + ·) 0 xs = xs.sum := by
  cases xs with
  | nil => rfl
  | cons x xs => rw [List.sum_eq_foldl, List.foldl_cons, zero_add]; rfl

theorem getD_map_zero [Zero α] [Zero β] {f : α → β} (hf : f 0 = 0) (xs : List α) (k : Nat) :
    (xs.map f).getD k 0 = f (xs.getD k 0) := by
  rw [← hf]
  exact List.getD_map xs 0 f

theorem sum_modify [AddCommMonoid α] {xs : List α} {i : Nat} (hi : i < xs.length) (d : α) :
    (xs.modify i (· + d)).sum = xs.sum + d := by
  induction xs generalizing i with
  | nil => exact absurd hi (Nat.not_lt_zero i)
  | cons x xs ih =>
    cases i with
    | zero => rw [List.modify_zero_cons, List.sum_cons, List.sum_cons, add_right_comm]
    | succ i =>
      rw [List.modify_succ_cons, List.sum_cons, List.sum_cons, ih (Nat.lt_of_succ_lt_succ hi), add_assoc]

theorem findIdx_congr {P Q : α → Bool} {xs : List α} (h : ∀ x ∈ xs, P x = Q x) :
    xs.findIdx P = xs.findIdx Q := by
  induction xs with
  | nil => rfl
  | cons x xs ih =>
    rw [List.findIdx_cons, List.findIdx_cons, h x List.mem_cons_self,
      ih fun y hy => h y (List.mem_cons_of_mem x hy)]

section Largest

variable [LinearOrder α]

theorem le_foldl_max (x : α) (xs : List α) : ∀ y ∈ x :: xs, y ≤ xs.foldl max x := by
  induction xs generalizing x with
  | nil =>
    intro y hy
    exact (List.mem_singleton.mp hy).le
  | cons z xs ih =>
    intro y hy
    rw [List.foldl_cons]
    rcases List.mem_cons.mp hy with rfl | hy
    · exact (le_max_left _ z).trans (ih _ _ List.mem_cons_self)
    · rcases List.mem_cons.mp hy with rfl | hy
      · exact (le_max_right _ _).trans (ih _ _ List.mem_cons_self)
      · exact ih _ _ (List.mem_cons_of_mem _ hy)

theorem foldl_max_mem (x : α) (xs : List α) : xs.foldl max x ∈ x :: xs := by
  induction xs generalizing x with
  | nil => exact List.mem_singleton_self x
  | cons z xs ih =>
    rw [List.foldl_cons]
    rcases List.mem_cons.mp (ih (max x z)) with h | h
    · rcases max_choice x z with hm | hm <;> rw [hm] at h ⊢ <;> rw [h] <;> simp
    · exact List.mem_cons_of_mem _ (List.mem_cons_of_mem _ h)

theorem le_reduce_max (d : α) {xs : List α} {y : α} (hy : y ∈ xs) : y ≤ reduce max d xs := by
  cases xs with
  | nil => exact absurd hy List.not_mem_nil
  | cons x xs => exact le_foldl_max x xs y hy

theorem reduce_min_le (d : α) {xs : List α} {y : α} (hy : y ∈ xs) : reduce min d xs ≤ y :=
  @le_reduce_max αᵒᵈ _ d xs y hy

theorem reduce_max_mem (d : α) {xs : List α} (h : xs ≠ []) : reduce max d xs ∈ xs := by
  cases xs with
  | nil => exact absurd rfl h
  | cons x xs => exact foldl_max_mem x xs

theorem reduce_min_mem (d : α) {xs : List α} (h : xs ≠ []) : reduce min d xs ∈ xs :=
  @reduce_max_mem αᵒᵈ _ d xs h

/-- The largest element, found by comparing with the maximum. -/
theorem firstLargest_eq (d : α) (xs : List α) :
    firstLargest xs = xs.findIdx fun x => x == reduce max d xs := by
  refine findIdx_congr fun x hx => ?_
  have hmem := reduce_max_mem d (List.ne_nil_of_mem hx)
  rw [Bool.eq_iff_iff, List.all_eq_true, beq_iff_eq]
  constructor
  · intro h
    exact le_antisymm (le_reduce_max d hx) (of_decide_eq_true (h _ hmem))
  · rintro rfl y hy
    exact decide_eq_true (le_reduce_max d hy)

/-- The position does not depend on the scale. -/
theorem firstLargest_map {δ : Type} [LinearOrder δ] {f : α → δ} (hf : StrictMono f) (xs : List α) :
    firstLargest (xs.map f) = firstLargest xs := by
  rw [firstLargest, firstLargest, List.findIdx_map]
  refine findIdx_congr fun x _ => ?_
  rw [Function.comp_apply, List.all_map]
  congr 1
  funext y
  exact decide_eq_decide.mpr hf.le_iff_le

theorem firstLargest_lt {xs : List α} (h : xs ≠ []) : firstLargest xs < xs.length := by
  cases xs with
  | nil => exact absurd rfl h
  | cons x xs =>
    rw [firstLargest_eq x, List.findIdx_lt_length]
    exact ⟨_, reduce_max_mem x h, beq_self_eq_true _⟩

end Largest

/-- The first position of an interval with a property, when the elements of a list have it. -/
theorem head_filter_range' {P : Nat → Bool} {Q : β → Bool} {a : Nat} {xs : List β}
    (h : ∀ j (hj : j < xs.length), P (a + j) = Q xs[j]) (hex : ∃ x ∈ xs, Q x = true) :
    ((List.range' a xs.length).filter P).head? = some (a + xs.findIdx Q) := by
  induction xs generalizing a with
  | nil => obtain ⟨x, hx, -⟩ := hex; exact absurd hx List.not_mem_nil
  | cons x xs ih =>
    have h0 : P a = Q x := h 0 (Nat.succ_pos _)
    rw [List.length_cons, List.range'_succ, List.findIdx_cons]
    cases hx : Q x with
    | true => rw [List.filter_cons_of_pos (h0.trans hx)]; rfl
    | false =>
      rw [List.filter_cons_of_neg (by rw [h0, hx]; exact Bool.false_ne_true), ih]
      · simp only [cond_false, Option.some.injEq]
        omega
      · intro j hj
        have hnext := h (j + 1) (Nat.succ_lt_succ hj)
        rwa [show a + (j + 1) = a + 1 + j by omega] at hnext
      · obtain ⟨y, hy, hQ⟩ := hex
        refine ⟨y, (List.mem_cons.mp hy).resolve_left ?_, hQ⟩
        rintro rfl
        rw [hx] at hQ
        exact Bool.false_ne_true hQ

/-! ## The pieces that are not empty -/

section Pieces

variable (ptr : Nat → Nat)

/-- The pieces `[s, s + n)` that are not empty. -/
def nonempties (s n : Nat) : List Nat :=
  (List.range' s n).filter fun p => decide (ptr p < ptr (p + 1))

variable {ptr}

theorem mem_nonempties {s n p : Nat} :
    p ∈ nonempties ptr s n ↔ (s ≤ p ∧ p < s + n) ∧ ptr p < ptr (p + 1) := by
  simp [nonempties, List.mem_filter, List.mem_range'_1]

theorem nodup_nonempties (s n : Nat) : (nonempties ptr s n).Nodup :=
  (List.nodup_range' (n := n)).filter _

theorem nonempties_cons {s n : Nat} (h : ptr s < ptr (s + 1)) :
    nonempties ptr s (n + 1) = s :: nonempties ptr (s + 1) n := by
  rw [nonempties, List.range'_succ, List.filter_cons_of_pos (by simpa using h)]
  rfl

theorem nonempties_skip {s n : Nat} (h : ¬ ptr s < ptr (s + 1)) :
    nonempties ptr s (n + 1) = nonempties ptr (s + 1) n := by
  rw [nonempties, List.range'_succ, List.filter_cons_of_neg (by simpa using h)]
  rfl

/-- The first piece that is not empty starts where the pieces start. -/
theorem head_nonempties {s n : Nat} (hmono : ∀ p, s ≤ p → p < s + n → ptr p ≤ ptr (p + 1)) :
    ((nonempties ptr s n).map ptr).headD (ptr (s + n)) = ptr s := by
  induction n generalizing s with
  | zero => rfl
  | succ n ih =>
    have htail := ih (s := s + 1) fun p hp hlt => hmono p (by omega) (by omega)
    by_cases h : ptr s < ptr (s + 1)
    · rw [nonempties_cons h]
      rfl
    · have hle := hmono s le_rfl (by omega)
      rw [nonempties_skip h, show s + (n + 1) = s + 1 + n by omega, htail]
      omega

/-- Reducing at the starts of the pieces that are not empty reduces each of them. -/
theorem reduceat_nonempties (f : α → α → α) (d : α) {xs : List α} {s n : Nat}
    (hmono : ∀ p, s ≤ p → p < s + n → ptr p ≤ ptr (p + 1)) (hend : ptr (s + n) = xs.length) :
    reduceat f d xs ((nonempties ptr s n).map ptr) =
      (nonempties ptr s n).map fun p => reduce f d (segment ptr xs p) := by
  induction n generalizing s with
  | zero => rfl
  | succ n ih =>
    have hmono' : ∀ p, s + 1 ≤ p → p < s + 1 + n → ptr p ≤ ptr (p + 1) :=
      fun p hp hlt => hmono p (by omega) (by omega)
    have hend' : ptr (s + 1 + n) = xs.length := by rw [← hend]; congr 1; omega
    have htail := ih hmono' hend'
    have hhead := head_nonempties hmono'
    by_cases h : ptr s < ptr (s + 1)
    · rw [nonempties_cons h, List.map_cons, List.map_cons, ← htail]
      cases hrest : (nonempties ptr (s + 1) n).map ptr with
      | nil =>
        -- the last piece runs to the end
        rw [hrest, List.headD_nil, hend'] at hhead
        rw [reduceat, reduceat, segment, ← hhead, List.take_of_length_le (by rw [List.length_drop])]
      | cons j idx =>
        rw [hrest, List.headD_cons] at hhead
        rw [reduceat, hhead, if_pos h]
        rfl
    · rw [nonempties_skip h, htail]

/-- What empty pieces do not contribute. -/
theorem flatMap_nonempties (g : Nat → List β) {s n : Nat}
    (h : ∀ p, s ≤ p → p < s + n → ¬ ptr p < ptr (p + 1) → g p = []) :
    (nonempties ptr s n).flatMap g = (List.range' s n).flatMap g := by
  induction n generalizing s with
  | zero => rfl
  | succ n ih =>
    have htail := ih (s := s + 1) fun p hp hlt => h p (by omega) (by omega)
    rw [List.range'_succ, List.flatMap_cons]
    by_cases hs : ptr s < ptr (s + 1)
    · rw [nonempties_cons hs, List.flatMap_cons, htail]
    · rw [nonempties_skip hs, htail, h s le_rfl (by omega) hs, List.nil_append]

end Pieces

/-! ## Writing through positions -/

@[simp] theorem length_scatter (r : List α) (ks : List Nat) (vs : List α) :
    (scatter r ks vs).length = r.length := by
  unfold scatter
  generalize ks.zip vs = es
  induction es generalizing r with
  | nil => rfl
  | cons e es ih => rw [List.foldl_cons, ih, List.length_set]

theorem scatter_of_notMem (r : List α) {ks : List Nat} (vs : List α) (d : α) {k : Nat} (hk : k ∉ ks) :
    (scatter r ks vs).getD k d = r.getD k d := by
  unfold scatter
  have hkeys : ∀ e ∈ ks.zip vs, e.1 ≠ k := by
    intro e he heq
    exact hk (heq ▸ (List.of_mem_zip he).1)
  generalize ks.zip vs = es at hkeys
  induction es generalizing r with
  | nil => rfl
  | cons e es ih =>
    have hne := hkeys e List.mem_cons_self
    rw [List.foldl_cons, ih _ fun e' he' => hkeys e' (List.mem_cons_of_mem e he'),
      List.getD_eq_getElem?_getD, List.getElem?_set_ne hne, List.getD_eq_getElem?_getD]

theorem scatter_map (r : List α) {ps : List β} {k : β → Nat} (v : β → α) (d : α)
    (hnd : (ps.map k).Nodup) {p : β} (hp : p ∈ ps) (hlt : k p < r.length) :
    (scatter r (ps.map k) (ps.map v)).getD (k p) d = v p := by
  induction ps generalizing r with
  | nil => exact absurd hp List.not_mem_nil
  | cons q ps ih =>
    have hcons : scatter r ((q :: ps).map k) ((q :: ps).map v) =
        scatter (r.set (k q) (v q)) (ps.map k) (ps.map v) := rfl
    rw [List.map_cons, List.nodup_cons] at hnd
    rw [hcons]
    by_cases hlater : p ∈ ps
    · exact ih _ hnd.2 hlater (by rwa [List.length_set])
    · obtain rfl : p = q := (List.mem_cons.mp hp).resolve_right hlater
      rw [scatter_of_notMem _ _ _ hnd.1, List.getD_eq_getElem?_getD, List.getElem?_set_self hlt]
      rfl

/-! ## Runs of equal keys -/

section Runs

variable [DecidableEq γ] {key : β → γ}

theorem runHeadsAfter_append {prev : γ} {xs : List β} (h : ∀ x ∈ xs, key x = prev) (ys : List β) :
    runHeadsAfter key prev (xs ++ ys) = runHeadsAfter key prev ys := by
  induction xs with
  | nil => rfl
  | cons x xs ih =>
    have hx := h x List.mem_cons_self
    rw [List.cons_append, runHeadsAfter, if_pos hx, hx, ih fun y hy => h y (List.mem_cons_of_mem x hy)]

theorem runHeadsAfter_flatMap {ps : List γ} {g : γ → List β} (d : β) {prev : γ} (hprev : prev ∉ ps)
    (hnd : ps.Nodup) (hkey : ∀ p ∈ ps, ∀ x ∈ g p, key x = p) (hne : ∀ p ∈ ps, g p ≠ []) :
    runHeadsAfter key prev (ps.flatMap g) = ps.map fun p => (g p).headD d := by
  induction ps generalizing prev with
  | nil => rfl
  | cons p ps ih =>
    rw [List.nodup_cons] at hnd
    have hp := hkey p List.mem_cons_self
    have htail := ih hnd.1 hnd.2 (fun q hq => hkey q (List.mem_cons_of_mem p hq))
      (fun q hq => hne q (List.mem_cons_of_mem p hq))
    rw [List.flatMap_cons, List.map_cons]
    cases hgp : g p with
    | nil => exact absurd hgp (hne p List.mem_cons_self)
    | cons x xs =>
      rw [hgp] at hp
      have hx := hp x List.mem_cons_self
      have hdiff : key x ≠ prev := by
        rw [hx]
        exact fun heq => hprev (heq ▸ List.mem_cons_self)
      rw [List.cons_append, runHeadsAfter, if_neg hdiff, hx,
        runHeadsAfter_append (fun y hy => hp y (List.mem_cons_of_mem x hy)), htail]
      rfl

/-- The heads of runs that have one key each. -/
theorem runHeads_flatMap {ps : List γ} {g : γ → List β} (d : β) (hnd : ps.Nodup)
    (hkey : ∀ p ∈ ps, ∀ x ∈ g p, key x = p) (hne : ∀ p ∈ ps, g p ≠ []) :
    runHeads key (ps.flatMap g) = ps.map fun p => (g p).headD d := by
  cases ps with
  | nil => rfl
  | cons p ps =>
    rw [List.nodup_cons] at hnd
    have hp := hkey p List.mem_cons_self
    rw [List.flatMap_cons, List.map_cons]
    cases hgp : g p with
    | nil => exact absurd hgp (hne p List.mem_cons_self)
    | cons x xs =>
      rw [hgp] at hp
      rw [List.cons_append, runHeads, hp x List.mem_cons_self,
        runHeadsAfter_append (fun y hy => hp y (List.mem_cons_of_mem x hy)),
        runHeadsAfter_flatMap d hnd.1 hnd.2 (fun q hq => hkey q (List.mem_cons_of_mem p hq))
          (fun q hq => hne q (List.mem_cons_of_mem p hq))]
      rfl

end Runs

end Bslz4ToSparse.Foundation
