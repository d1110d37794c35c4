import Mathlib.Data.List.GetD
import Mathlib.Data.List.Flatten
import Mathlib.Algebra.BigOperators.Group.List.Basic
import Mathlib.Tactic.Ring

/-!
# Ragged arrays

A ragged array is a flat list and the offsets at which it is cut into pieces, as a
compressed row or column format stores it. Offsets are either given and checked, or
made from the lengths of the pieces; in both cases the list is the pieces one after
another.
-/

namespace Bslz4ToSparse.Foundation

variable {α β : Type}

/-- The offsets of pieces of the lengths `ns`: 0 and the running sums. -/
def offsets (ns : List Nat) : List Nat := ns.scanl (· + ·) 0

/-- Piece `p` of a list that is cut at `ptr`. -/
def segment (ptr : Nat → Nat) (xs : List α) (p : Nat) : List α :=
  (xs.drop (ptr p)).take (ptr (p + 1) - ptr p)

@[simp] theorem length_offsets (ns : List Nat) : (offsets ns).length = ns.length + 1 := by
  simp [offsets]

theorem getD_scanl_add (ns : List Nat) (a p : Nat) (hp : p ≤ ns.length) :
    (ns.scanl (· + ·) a).getD p 0 = a + (ns.take p).sum := by
  induction ns generalizing a p with
  | nil =>
    obtain rfl : p = 0 := by simpa using hp
    simp
  | cons n ns ih =>
    cases p with
    | zero => simp
    | succ p =>
      rw [List.scanl_cons, List.getD_cons_succ, ih _ _ (by simpa using hp), List.take_succ_cons,
        List.sum_cons, Nat.add_assoc]

theorem getD_offsets (ns : List Nat) {p : Nat} (hp : p ≤ ns.length) :
    (offsets ns).getD p 0 = (ns.take p).sum := by
  rw [offsets, getD_scanl_add ns 0 p hp, Nat.zero_add]

theorem getD_offsets_succ (ns : List Nat) {p : Nat} (hp : p < ns.length) :
    (offsets ns).getD (p + 1) 0 = (offsets ns).getD p 0 + ns.getD p 0 := by
  rw [getD_offsets ns hp, getD_offsets ns hp.le, List.take_succ_eq_append_getElem hp,
    List.sum_append, List.sum_singleton, List.getD_eq_getElem _ _ hp]

theorem getD_offsets_length (ns : List Nat) : (offsets ns).getD ns.length 0 = ns.sum := by
  rw [getD_offsets ns le_rfl, List.take_length]

/-- The pieces of a concatenation, cut at the offsets of their lengths. -/
theorem segment_flatten (cs : List (List α)) {p : Nat} (hp : p < cs.length) :
    segment (fun p => (offsets (cs.map List.length)).getD p 0) cs.flatten p = cs.getD p [] := by
  have hstart : (offsets (cs.map List.length)).getD p 0 = ((cs.take p).flatten).length := by
    rw [getD_offsets _ (by simpa using hp.le), ← List.map_take, List.length_flatten]
  have hlen : (cs.map List.length).getD p 0 = (cs.getD p []).length := by
    simp [List.getD_eq_getElem?_getD, hp]
  have hsplit : cs.flatten = (cs.take p).flatten ++ (cs.getD p [] ++ (cs.drop (p + 1)).flatten) := by
    conv_lhs => rw [← List.take_append_drop p cs, List.flatten_append,
      List.drop_eq_getElem_cons hp, List.flatten_cons]
    rw [List.getD_eq_getElem _ _ hp]
  rw [segment, getD_offsets_succ _ (by simpa using hp), Nat.add_sub_cancel_left, hlen, hstart,
    hsplit, List.drop_left, List.take_left]

/-- Offsets that start at 0, never fall and end at the length cut the whole list. -/
theorem flatMap_segment (ptr : Nat → Nat) (xs : List α) (n : Nat) (h0 : ptr 0 = 0)
    (hmono : ∀ p, p < n → ptr p ≤ ptr (p + 1)) :
    (List.range n).flatMap (segment ptr xs) = xs.take (ptr n) := by
  induction n with
  | zero => simp [h0]
  | succ n ih =>
    have hle := hmono n (Nat.lt_succ_self n)
    rw [List.range_succ, List.flatMap_append, ih (fun p hp => hmono p (by omega)),
      List.flatMap_singleton, segment, ← List.take_add, Nat.add_sub_cancel' hle]

theorem length_segment {ptr : Nat → Nat} {xs : List α} {p : Nat} (hle : ptr p ≤ ptr (p + 1))
    (hend : ptr (p + 1) ≤ xs.length) : (segment ptr xs p).length = ptr (p + 1) - ptr p := by
  rw [segment, List.length_take, List.length_drop]
  omega

theorem getD_segment {ptr : Nat → Nat} (xs : List α) (d : α) {p j : Nat}
    (hj : j < ptr (p + 1) - ptr p) : (segment ptr xs p).getD j d = xs.getD (ptr p + j) d := by
  simp [segment, List.getD_eq_getElem?_getD, hj]

theorem mem_of_mem_segment {ptr : Nat → Nat} {xs : List α} {p : Nat} {x : α}
    (h : x ∈ segment ptr xs p) : x ∈ xs := List.mem_of_mem_drop (List.mem_of_mem_take h)

theorem map_segment (f : α → β) (ptr : Nat → Nat) (xs : List α) (p : Nat) :
    segment ptr (xs.map f) p = (segment ptr xs p).map f := by
  rw [segment, segment, List.map_take, List.map_drop]

theorem zip_segment (ptr : Nat → Nat) (xs : List α) (ys : List β) (p : Nat) :
    segment ptr (xs.zip ys) p = (segment ptr xs p).zip (segment ptr ys p) := by
  simp only [segment, List.zip, List.drop_zipWith, List.take_zipWith]

/-- A piece read by position. -/
theorem map_range'_getD (xs : List α) (d : α) {k n : Nat} (h : k + n ≤ xs.length) :
    (List.range' k n).map (fun j => xs.getD j d) = (xs.drop k).take n := by
  refine List.ext_getElem (by simp; omega) ?_
  intro j h₁ h₂
  have hj : j < n := by simpa using h₁
  simp [List.getD_eq_getElem?_getD, show k + j < xs.length by omega]

/-- Pieces of one length, read by position. -/
theorem getD_flatMap (xs : List α) (f : α → List β) (d : β) (d' : α) {w r k : Nat}
    (hw : ∀ x, (f x).length = w) (hr : r < xs.length) (hk : k < w) :
    (xs.flatMap f).getD (r * w + k) d = (f (xs.getD r d')).getD k d := by
  induction xs generalizing r with
  | nil => exact absurd hr (Nat.not_lt_zero r)
  | cons x xs ih =>
    rw [List.flatMap_cons]
    cases r with
    | zero =>
      rw [Nat.zero_mul, Nat.zero_add, List.getD_append _ _ _ _ (by rwa [hw x])]
      rfl
    | succ r =>
      have hskip : (r + 1) * w + k = (f x).length + (r * w + k) := by rw [hw x]; ring
      rw [List.getD_append_right _ _ _ _ (by omega), hskip, Nat.add_sub_cancel_left,
        ih (Nat.lt_of_succ_lt_succ hr)]
      rfl

/-- Filtering whole pieces. -/
theorem filter_flatMap {xs : List α} {f : α → List β} {p : α → Bool} {q : β → Bool}
    (h : ∀ x ∈ xs, ∀ y ∈ f x, q y = p x) : (xs.flatMap f).filter q = (xs.filter p).flatMap f := by
  induction xs with
  | nil => rfl
  | cons x xs ih =>
    rw [List.flatMap_cons, List.filter_append, ih fun y hy => h y (List.mem_cons_of_mem x hy)]
    have hx := h x List.mem_cons_self
    by_cases hp : p x = true
    · rw [List.filter_cons_of_pos hp, List.flatMap_cons,
        List.filter_eq_self.mpr fun y hy => (hx y hy).trans hp]
    · have hnone : (f x).filter q = [] :=
        List.filter_eq_nil_iff.mpr fun y hy => by rw [hx y hy]; exact hp
      rw [List.filter_cons_of_neg hp, hnone, List.nil_append]

/-! ## Repetition and selection -/

/-- Each of `xs` as often as `ns` says (`np.repeat`). -/
def repeatEach (xs : List α) (ns : List Nat) : List α :=
  (xs.zip ns).flatMap fun x => List.replicate x.2 x.1

/-- The elements at the true positions (`xs[keep]`). -/
def select (keep : List Bool) (xs : List α) : List α :=
  ((keep.zip xs).filter Prod.fst).map Prod.snd

theorem length_repeatEach {xs : List α} {ns : List Nat} (h : xs.length = ns.length) :
    (repeatEach xs ns).length = ns.sum := by
  induction xs generalizing ns with
  | nil =>
    obtain rfl : ns = [] := List.length_eq_zero_iff.mp h.symm
    rfl
  | cons x xs ih =>
    cases ns with
    | nil => simp at h
    | cons n ns =>
      have hlen : xs.length = ns.length := by simpa using h
      rw [List.sum_cons, ← ih hlen]
      simp [repeatEach]

theorem select_replicate_append (b : Bool) (xs : List α) (keep : List Bool) (ys : List α) :
    select (List.replicate xs.length b ++ keep) (xs ++ ys) =
      (if b then xs else []) ++ select keep ys := by
  induction xs with
  | nil => cases b <;> simp
  | cons x xs ih =>
    cases b with
    | true =>
      simp only [if_true] at ih ⊢
      rw [List.length_cons, List.replicate_succ, List.cons_append, List.cons_append, List.cons_append,
        ← ih]
      simp [select]
    | false =>
      simp only [Bool.false_eq_true, if_false, List.nil_append] at ih ⊢
      rw [List.length_cons, List.replicate_succ, List.cons_append, List.cons_append, ← ih]
      simp [select]

theorem length_select_le (keep : List Bool) (xs : List α) :
    (select keep xs).length ≤ xs.length := by
  rw [select, List.length_map]
  exact (List.length_filter_le _ _).trans (by simp)

theorem length_select {keep : List Bool} {xs : List α} (h : keep.length = xs.length) :
    (select keep xs).length = keep.count true := by
  induction keep generalizing xs with
  | nil => rfl
  | cons b keep ih =>
    cases xs with
    | nil => exact absurd h (by simp)
    | cons x xs =>
      have htail := ih (Nat.succ.inj h)
      cases b with
      | true => simpa [select] using htail
      | false => simpa [select] using htail

theorem select_ne_nil {keep : List Bool} {xs : List α} (h : keep.length = xs.length)
    (hany : true ∈ keep) : select keep xs ≠ [] := by
  intro hnil
  have hlen := length_select h
  rw [hnil, List.length_nil] at hlen
  exact absurd (List.count_pos_iff.mpr hany) (by omega)

theorem select_all {keep : List Bool} {xs : List α} (h : keep.length = xs.length)
    (hall : ∀ b ∈ keep, b = true) : select keep xs = xs := by
  rw [select, List.filter_eq_self.mpr fun e he => hall _ (List.of_mem_zip he).1, List.map_snd_zip h.ge]

theorem mem_of_mem_repeatEach {xs : List α} {ns : List Nat} {x : α} (h : x ∈ repeatEach xs ns) :
    x ∈ xs := by
  obtain ⟨e, he, hx⟩ := List.mem_flatMap.mp h
  rw [(List.mem_replicate.mp hx).2]
  exact (List.of_mem_zip he).1

theorem count_repeatEach (ms : List Bool) (ns : List Nat) :
    (repeatEach ms ns).count true = (List.zipWith (fun b n => if b then n else 0) ms ns).sum := by
  induction ms generalizing ns with
  | nil => rfl
  | cons b ms ih =>
    cases ns with
    | nil => rfl
    | cons n ns =>
      have htail := ih ns
      rw [repeatEach] at htail ⊢
      rw [List.zip_cons_cons, List.flatMap_cons, List.count_append, htail, List.zipWith_cons_cons,
        List.sum_cons]
      cases b with
      | true => simp
      | false => simp [List.count_replicate]

/-- No offset is over the last one. -/
theorem offsets_le (ns : List Nat) {p : Nat} (hp : p ≤ ns.length) :
    (offsets ns).getD p 0 ≤ ns.sum := by
  rw [getD_offsets ns hp]
  have hsplit := List.sum_take_add_sum_drop ns p
  omega

theorem mem_of_mem_select {keep : List Bool} {xs : List α} {x : α} (h : x ∈ select keep xs) :
    x ∈ xs := by
  obtain ⟨e, he, rfl⟩ := List.mem_map.mp h
  exact (List.of_mem_zip (List.mem_filter.mp he).1).2

/-- What is selected stands at a true position. -/
theorem exists_of_mem_select {keep : List Bool} {xs : List α} {x : α} (d : α) (h : x ∈ select keep xs) :
    ∃ i, i < keep.length ∧ i < xs.length ∧ keep.getD i false = true ∧ xs.getD i d = x := by
  obtain ⟨e, he, rfl⟩ := List.mem_map.mp h
  obtain ⟨hmem, hkeep⟩ := List.mem_filter.mp he
  obtain ⟨i, hi, rfl⟩ := List.getElem_of_mem hmem
  obtain ⟨hi₁, hi₂⟩ : i < keep.length ∧ i < xs.length := by simpa using hi
  rw [List.getElem_zip] at hkeep ⊢
  exact ⟨i, hi₁, hi₂, (List.getD_eq_getElem _ _ hi₁).trans hkeep, List.getD_eq_getElem _ _ hi₂⟩

theorem zip_select (keep : List Bool) (xs : List α) (ys : List β) :
    (select keep xs).zip (select keep ys) = select keep (xs.zip ys) := by
  induction keep generalizing xs ys with
  | nil => rfl
  | cons b keep ih =>
    cases xs with
    | nil => simp [select]
    | cons x xs =>
      cases ys with
      | nil => simp [select]
      | cons y ys =>
        have h := ih xs ys
        cases b with
        | true => simpa [select] using h
        | false => simpa [select] using h

/-- Keeping or dropping whole pieces. -/
theorem select_repeatEach (ms : List Bool) (cs : List (List α)) (h : ms.length = cs.length) :
    select (repeatEach ms (cs.map List.length)) cs.flatten =
      (List.zipWith (fun m c => if m then c else []) ms cs).flatten := by
  induction ms generalizing cs with
  | nil =>
    obtain rfl : cs = [] := List.length_eq_zero_iff.mp h.symm
    rfl
  | cons m ms ih =>
    cases cs with
    | nil => simp at h
    | cons c cs =>
      have htail := ih cs (by simpa using h)
      rw [List.flatten_cons, List.zipWith_cons_cons, List.flatten_cons, ← htail]
      exact select_replicate_append m c _ _

end Bslz4ToSparse.Foundation
