import Bslz4ToSparse.Foundation.Bits

/-!
# Lists written from the front of two arrays

A collecting loop appends entries to a pair of arrays. Its vector forms store whole
registers and advance by less than their width, so what a step leaves behind the last entry
is not specified; how far it may reach is.
-/

namespace Bslz4ToSparse.Foundation

variable {α P : Type} {w : Nat}

/-! ## One array -/

/-- Store the lanes `xs[0, n)` at `start`. -/
def storeLanes (start n : Nat) (xs : Nat → α) (buf : Nat → α) : Nat → α := fun i =>
  if start ≤ i ∧ i < start + n then xs (i - start) else buf i

/-- The lanes of `xs` whose bits are set in `m`, moved to the front, and `d` behind them. -/
def compress (d : α) (m : BitVec w) (xs : Nat → α) : Nat → α := fun k =>
  (((setBits m)[k]?).map xs).getD d

/-- `buf'` has the entries `xs` from `start` on, and is `buf` outside of `room` cells. -/
structure Fills (buf buf' : Nat → α) (start : Nat) (xs : List α) (room : Nat) : Prop where
  fits : xs.length ≤ room
  inside : ∀ k x, xs[k]? = some x → buf' (start + k) = x
  outside : ∀ i, i < start ∨ start + room ≤ i → buf' i = buf i

namespace Fills

variable {buf buf' buf'' : Nat → α} {start room room' : Nat} {xs ys : List α}

theorem refl (buf : Nat → α) (start room : Nat) : Fills buf buf start [] room :=
  ⟨Nat.zero_le _, by simp, fun _ _ => rfl⟩

theorem mono (h : Fills buf buf' start xs room) (hroom : room ≤ room') :
    Fills buf buf' start xs room' :=
  ⟨h.fits.trans hroom, h.inside, fun i hi => h.outside i (by omega)⟩

theorem append (h₁ : Fills buf buf' start xs room)
    (h₂ : Fills buf' buf'' (start + xs.length) ys room') :
    Fills buf buf'' start (xs ++ ys) (room + room') := by
  have hfits := h₁.fits
  refine ⟨?_, ?_, ?_⟩
  · rw [List.length_append]
    exact Nat.add_le_add h₁.fits h₂.fits
  · intro k x hk
    rcases Nat.lt_or_ge k xs.length with hlt | hge
    · rw [List.getElem?_append_left hlt] at hk
      rw [h₂.outside _ (by omega)]
      exact h₁.inside k x hk
    · rw [List.getElem?_append_right hge] at hk
      have h := h₂.inside _ x hk
      rwa [show start + xs.length + (k - xs.length) = start + k by omega] at h
  · intro i hi
    rw [h₂.outside i (by omega), h₁.outside i (by omega)]

end Fills

/-- Storing the compressed lanes. -/
theorem fills_compress (buf : Nat → α) (start : Nat) (d : α) (m : BitVec w) (xs : Nat → α) :
    Fills buf (storeLanes start w (compress d m xs) buf) start ((setBits m).map xs) w := by
  have hlen := length_setBits_le m
  refine ⟨by rwa [List.length_map], ?_, ?_⟩
  · intro k x hk
    rw [List.getElem?_map] at hk
    have hlt : k < w := by
      rcases Nat.lt_or_ge k w with h | h
      · exact h
      · rw [List.getElem?_eq_none (by omega)] at hk
        cases hk
    rw [storeLanes, if_pos (by omega), Nat.add_sub_cancel_left, compress, hk]
    rfl
  · intro i hi
    rw [storeLanes, if_neg (by omega)]

/-! ## Values and addresses -/

/-- The two arrays and the number of entries kept. -/
structure Sink (P : Type) where
  vals : Nat → P
  adr : Nat → Nat
  npx : Nat

namespace Sink

/-- `vals[npx] = v; adr[npx] = a; npx++`. -/
def put (o : Sink P) (v : P) (a : Nat) : Sink P where
  vals := fun i => if i = o.npx then v else o.vals i
  adr := fun i => if i = o.npx then a else o.adr i
  npx := o.npx + 1

/-- `if (c) …`, with the store inside. -/
def putIf (c : Bool) (v : P) (a : Nat) (o : Sink P) : Sink P := if c then o.put v a else o

/-- The store without a branch: `vals[npx] = v; adr[npx] = a; npx += c`. -/
def putMaybe (c : Bool) (v : P) (a : Nat) (o : Sink P) : Sink P :=
  { o.put v a with npx := o.npx + if c then 1 else 0 }

/-- The entries that are kept. -/
def entries (o : Sink P) : List (Nat × P) := (List.range o.npx).map fun i => (o.adr i, o.vals i)

end Sink

/-- From `o` to `o'` the entries `es` were appended; only `room` cells were written. -/
structure Emits (o o' : Sink P) (es : List (Nat × P)) (room : Nat) : Prop where
  npx : o'.npx = o.npx + es.length
  vals : Fills o.vals o'.vals o.npx (es.map Prod.snd) room
  adr : Fills o.adr o'.adr o.npx (es.map Prod.fst) room

namespace Emits

variable {o o' o'' : Sink P} {es es' : List (Nat × P)} {room room' : Nat}

theorem refl (o : Sink P) (room : Nat) : Emits o o [] room :=
  ⟨rfl, Fills.refl _ _ _, Fills.refl _ _ _⟩

theorem mono (h : Emits o o' es room) (hroom : room ≤ room') : Emits o o' es room' :=
  ⟨h.npx, h.vals.mono hroom, h.adr.mono hroom⟩

theorem append (h₁ : Emits o o' es room) (h₂ : Emits o' o'' es' room') :
    Emits o o'' (es ++ es') (room + room') := by
  have hvals := h₂.vals
  have hadr := h₂.adr
  rw [h₁.npx] at hvals hadr
  refine ⟨?_, ?_, ?_⟩
  · rw [h₂.npx, h₁.npx, List.length_append, Nat.add_assoc]
  · rw [List.map_append]
    exact h₁.vals.append (by rwa [List.length_map])
  · rw [List.map_append]
    exact h₁.adr.append (by rwa [List.length_map])

theorem length_le (h : Emits o o' es room) : es.length ≤ room := by
  have hfits := h.vals.fits
  rwa [List.length_map] at hfits

theorem entries (h : Emits o o' es room) : o'.entries = o.entries ++ es := by
  have hrange : List.range o'.npx = List.range o.npx ++ List.range' o.npx es.length := by
    rw [h.npx, List.range_eq_range', List.range_eq_range',
      show List.range' o.npx es.length = List.range' (0 + o.npx) es.length by rw [Nat.zero_add],
      List.range'_append_1]
  unfold Sink.entries
  rw [hrange, List.map_append]
  congr 1
  · -- what was there before
    refine List.map_congr_left fun i hi => ?_
    have hlt := List.mem_range.mp hi
    rw [h.adr.outside i (Or.inl hlt), h.vals.outside i (Or.inl hlt)]
  · refine List.ext_getElem? fun k => ?_
    rw [List.getElem?_map, List.range'_eq_map_range, List.getElem?_map]
    rcases Nat.lt_or_ge k es.length with hk | hk
    · rw [List.getElem?_range hk, List.getElem?_eq_getElem hk]
      have hadr := h.adr.inside k es[k].1 (by rw [List.getElem?_map, List.getElem?_eq_getElem hk]; rfl)
      have hval := h.vals.inside k es[k].2 (by rw [List.getElem?_map, List.getElem?_eq_getElem hk]; rfl)
      rw [Option.map_some, Option.map_some, hadr, hval]
    · rw [List.getElem?_eq_none (by simpa using hk), List.getElem?_eq_none hk]
      rfl

end Emits

theorem emits_put (o : Sink P) (v : P) (a : Nat) : Emits o (o.put v a) [(a, v)] 1 := by
  have hcol : ∀ {β : Type} (buf : Nat → β) (x : β),
      Fills buf (fun i => if i = o.npx then x else buf i) o.npx [x] 1 := by
    intro β buf x
    refine ⟨le_rfl, ?_, ?_⟩
    · intro k y hk
      cases k with
      | zero => simpa using hk
      | succ k => simp at hk
    · intro i hi
      exact if_neg (by omega)
  exact ⟨rfl, hcol _ _, hcol _ _⟩

theorem emits_putIf (c : Bool) (o : Sink P) (v : P) (a : Nat) :
    Emits o (o.putIf c v a) (if c then [(a, v)] else []) 1 := by
  cases c with
  | true => exact emits_put o v a
  | false => exact Emits.refl o 1

theorem emits_putMaybe (c : Bool) (o : Sink P) (v : P) (a : Nat) :
    Emits o (o.putMaybe c v a) (if c then [(a, v)] else []) 1 := by
  cases c with
  | true => exact emits_put o v a
  | false =>
    have h := emits_put o v a
    exact ⟨rfl, ⟨Nat.zero_le _, by simp, h.vals.outside⟩, ⟨Nat.zero_le _, by simp, h.adr.outside⟩⟩

/-! ## Cells that stay -/

theorem Sink.length_entries (o : Sink P) : o.entries.length = o.npx := by
  simp [Sink.entries]

/-- No cell from `n` on is written. -/
def SameFrom (n : Nat) (o o' : Sink P) : Prop :=
  ∀ i, n ≤ i → o'.vals i = o.vals i ∧ o'.adr i = o.adr i

namespace SameFrom

variable {o o' o'' : Sink P} {n m : Nat}

theorem refl (n : Nat) (o : Sink P) : SameFrom n o o := fun _ _ => ⟨rfl, rfl⟩

theorem mono (h : SameFrom n o o') (hm : n ≤ m) : SameFrom m o o' := fun i hi => h i (hm.trans hi)

theorem trans (h : SameFrom n o o') (h' : SameFrom n o' o'') : SameFrom n o o'' := fun i hi =>
  ⟨(h' i hi).1.trans (h i hi).1, (h' i hi).2.trans (h i hi).2⟩

end SameFrom

theorem Emits.sameFrom {o o' : Sink P} {es : List (Nat × P)} {room n : Nat} (h : Emits o o' es room)
    (hn : o.npx + room ≤ n) : SameFrom n o o' := fun i hi =>
  ⟨h.vals.outside i (Or.inr (hn.trans hi)), h.adr.outside i (Or.inr (hn.trans hi))⟩

/-- A filter in place: the kept entries move to the front, and a cell is written only after it was
read. -/
theorem retain_spec (sel : P → Bool) (o : Sink P) (k : Nat) (hk : k ≤ o.npx) :
    let r := (List.range k).foldl (fun r i => r.putIf (sel (r.vals i)) (r.vals i) (r.adr i))
      { o with npx := 0 }
    r.entries = ((List.range k).map fun i => (o.adr i, o.vals i)).filter (fun e => sel e.2) ∧
      SameFrom k o r := by
  induction k with
  | zero => exact ⟨rfl, SameFrom.refl 0 o⟩
  | succ k ih =>
    obtain ⟨hentries, hsame⟩ := ih (by omega)
    rw [List.range_succ, List.foldl_append, List.foldl_cons, List.foldl_nil]
    generalize (List.range k).foldl (fun r i => r.putIf (sel (r.vals i)) (r.vals i) (r.adr i))
      { o with npx := 0 } = r at hentries hsame
    obtain ⟨hval, hadr⟩ := hsame k le_rfl
    have hemit := emits_putIf (sel (r.vals k)) r (r.vals k) (r.adr k)
    have hle : r.npx ≤ k := by
      rw [← r.length_entries, hentries]
      simpa using List.length_filter_le (fun e : Nat × P => sel e.2)
        ((List.range k).map fun i => (o.adr i, o.vals i))
    constructor
    · rw [hemit.entries, hentries, List.map_append, List.filter_append, hval, hadr]
      congr 1
      by_cases hsel : sel (o.vals k) = true
      · simp [hsel]
      · simp [hsel]
    · exact (hsame.mono (Nat.le_succ k)).trans (hemit.sameFrom (by omega))

/-- A loop whose steps append entries and may carry more than the arrays (`out` reads them). -/
theorem emits_foldl {σ β : Type} (out : σ → Sink P) (step : σ → β → σ) (es : β → List (Nat × P))
    (room : β → Nat) :
    ∀ (l : List β), (∀ b ∈ l, ∀ s, Emits (out s) (out (step s b)) (es b) (room b)) → ∀ s,
      Emits (out s) (out (l.foldl step s)) (l.flatMap es) (l.map room).sum := by
  intro l
  induction l with
  | nil => exact fun _ s => Emits.refl _ _
  | cons b l ih =>
    intro h s
    rw [List.foldl_cons, List.flatMap_cons, List.map_cons, List.sum_cons]
    exact (h b List.mem_cons_self s).append
      (ih (fun b hb => h b (List.mem_cons_of_mem _ hb)) (step s b))

/-! ## Collecting a range of pixels -/

/-- The selected ones of the pixels `[j, j + n)` of a block that starts at pixel `i0`. -/
def collected (sel : Nat → Bool) (px : Nat → P) (i0 j n : Nat) : List (Nat × P) :=
  ((List.range' j n).filter sel).map fun j => (j + i0, px j)

section

variable (sel : Nat → Bool) (px : Nat → P) (i0 : Nat)

theorem collected_append (j m n : Nat) :
    collected sel px i0 j (m + n) = collected sel px i0 j m ++ collected sel px i0 (j + m) n := by
  unfold collected
  rw [← List.range'_append_1, List.filter_append, List.map_append]

theorem collected_congr {sel' : Nat → Bool} {px' : Nat → P} {j n : Nat}
    (h : ∀ k, j ≤ k → k < j + n → sel k = sel' k ∧ px k = px' k) :
    collected sel px i0 j n = collected sel' px' i0 j n := by
  unfold collected
  have hsel : (List.range' j n).filter sel = (List.range' j n).filter sel' :=
    List.filter_congr fun k hk => by
      have hin := List.mem_range'_1.mp hk
      exact (h k hin.1 hin.2).1
  rw [hsel]
  refine List.map_congr_left fun k hk => ?_
  have hin := List.mem_range'_1.mp (List.mem_filter.mp hk).1
  rw [(h k hin.1 hin.2).2]

/-- Pixels numbered from `j` on. -/
theorem collected_shift (j n : Nat) :
    collected sel px i0 j n =
      collected (fun l => sel (j + l)) (fun l => px (j + l)) (i0 + j) 0 n := by
  unfold collected
  rw [List.range'_eq_map_range (s := j), List.range'_eq_map_range (s := 0), List.filter_map,
    List.map_map]
  simp only [Nat.zero_add, List.map_id']
  refine List.map_congr_left fun l _ => ?_
  rw [Function.comp_apply, show j + l + i0 = l + (i0 + j) by omega]

/-- Two adjacent ranges. -/
theorem Emits.next {o o' o'' : Sink P} {j m n k : Nat} (h₁ : Emits o o' (collected sel px i0 j m) m)
    (h₂ : Emits o' o'' (collected sel px i0 (j + m) k) k) (hn : m + k = n) :
    Emits o o'' (collected sel px i0 j n) n := by
  subst hn
  rw [collected_append]
  exact h₁.append h₂

/-- The pixels one after another. -/
theorem emits_lanes {σ : Type} (out : σ → Sink P) (step : σ → Nat → σ) (j n : Nat)
    (h : ∀ k, j ≤ k → k < j + n → ∀ s,
      Emits (out s) (out (step s k)) (if sel k then [(k + i0, px k)] else []) 1) (s : σ) :
    Emits (out s) (out ((List.range' j n).foldl step s)) (collected sel px i0 j n) n := by
  have hfold := emits_foldl out step (fun k => if sel k then [(k + i0, px k)] else [])
    (fun _ => 1) (List.range' j n) (fun k hk s => by
      have hin := List.mem_range'_1.mp hk
      exact h k hin.1 hin.2 s) s
  have hes : (List.range' j n).flatMap (fun k => if sel k then [(k + i0, px k)] else []) =
      collected sel px i0 j n := by
    unfold collected
    generalize List.range' j n = l
    induction l with
    | nil => rfl
    | cons k l ih =>
      by_cases hk : sel k = true
      · simp [hk, ih]
      · simp [hk, ih]
  have hroom : ((List.range' j n).map fun _ => 1).sum = n := by simp
  rwa [hes, hroom] at hfold

/-- Windows of `w` pixels one after another; the last one may be shorter. -/
theorem emits_windows {σ : Type} (out : σ → Sink P) (step : σ → Nat → σ) (w j n : Nat)
    (h : ∀ k, w * k < n → ∀ s, Emits (out s) (out (step s k))
      (collected sel px i0 (j + w * k) (min w (n - w * k))) (min w (n - w * k))) (s : σ) :
    ∀ c, (∀ k, k < c → w * k < n) →
      Emits (out s) (out ((List.range c).foldl step s)) (collected sel px i0 j (min (w * c) n))
        (min (w * c) n) := by
  intro c
  induction c with
  | zero =>
    intro _
    rw [Nat.mul_zero, Nat.zero_min]
    exact Emits.refl _ _
  | succ c ih =>
    intro hc
    have hlt := hc c (Nat.lt_succ_self c)
    have hprev := ih fun k hk => hc k (Nat.lt_succ_of_lt hk)
    have hnext := h c hlt ((List.range c).foldl step s)
    have hsum : min (w * (c + 1)) n = min (w * c) n + min w (n - w * c) := by
      rw [Nat.mul_succ]
      omega
    rw [List.range_succ, List.foldl_append, List.foldl_cons, List.foldl_nil]
    refine Emits.next sel px i0 hprev ?_ hsum.symm
    rwa [Nat.min_eq_left hlt.le]

/-- Groups of `w` pixels one after another. -/
theorem emits_groups {σ : Type} (out : σ → Sink P) (step : σ → Nat → σ) (w j g : Nat) (hw : 0 < w)
    (h : ∀ k, k < g → ∀ s,
      Emits (out s) (out (step s k)) (collected sel px i0 (j + w * k) w) w) (s : σ) :
    Emits (out s) (out ((List.range g).foldl step s)) (collected sel px i0 j (w * g)) (w * g) := by
  have hfull := emits_windows sel px i0 out step w j (w * g) (fun k hk s => by
    have hkg : k < g := Nat.lt_of_mul_lt_mul_left hk
    have hroom : min w (w * g - w * k) = w := by
      rw [← Nat.mul_sub]
      exact Nat.min_eq_left (Nat.le_mul_of_pos_right w (by omega))
    rw [hroom]
    exact h k hkg s) s g (fun k hk => Nat.mul_lt_mul_of_pos_left hk hw)
  rwa [Nat.min_self] at hfull

/-- The selection of a group as a word. -/
theorem map_setBits_gather {β : Type} (f : Nat → β) (j w : Nat) :
    (setBits (gather w fun k => sel (j + k))).map (fun b => f (j + b)) =
      ((List.range' j w).filter sel).map f := by
  rw [setBits_gather, List.range'_eq_map_range, List.filter_map, List.map_map]
  rfl

/-- The bit loop over a group. -/
theorem emits_scanBits {v : Nat} (j w : Nat) {fuel : Nat} {bits : BitVec v}
    (hbits : setBits bits = (List.range w).filter fun k => sel (j + k))
    (hfuel : popcount bits ≤ fuel) (o : Sink P) :
    Emits o (scanBits (fun b o => o.put (px (j + b)) (j + i0 + b)) fuel bits o)
      (collected sel px i0 j w) w := by
  rw [scanBits_eq _ hfuel, hbits, ← setBits_gather]
  have hfold := emits_foldl id (fun (o : Sink P) b => o.put (px (j + b)) (j + i0 + b))
    (fun b => [(j + i0 + b, px (j + b))]) (fun _ => 1) (setBits (gather w fun k => sel (j + k)))
    (fun b _ o => emits_put o _ _) o
  have hes : (setBits (gather w fun k => sel (j + k))).flatMap
      (fun b => [(j + i0 + b, px (j + b))]) = collected sel px i0 j w := by
    rw [← List.map_eq_flatMap, collected,
      ← map_setBits_gather sel (fun k => (k + i0, px k)) j w]
    refine List.map_congr_left fun b _ => ?_
    rw [show j + i0 + b = j + b + i0 by omega]
  rw [hes] at hfold
  refine hfold.mono ?_
  have hlen := length_setBits_le (gather w fun k => sel (j + k))
  simpa using hlen

theorem popcount_gather (j w : Nat) :
    popcount (gather w fun k => sel (j + k)) = (collected sel px i0 j w).length := by
  unfold popcount collected
  rw [← List.length_map (fun b => (j + b + i0, px (j + b)))]
  exact congrArg List.length (map_setBits_gather sel (fun k => (k + i0, px k)) j w)

/-- The compressed addresses of a group. -/
theorem fills_adr (buf : Nat → Nat) (d start j w : Nat) :
    Fills buf (storeLanes start w
        (compress d (gather w fun k => sel (j + k)) fun k => j + i0 + k) buf) start
      ((collected sel px i0 j w).map Prod.fst) w := by
  have hfill := fills_compress buf start d (gather w fun k => sel (j + k)) fun k => j + i0 + k
  have hes : (setBits (gather w fun k => sel (j + k))).map (fun k => j + i0 + k) =
      (collected sel px i0 j w).map Prod.fst := by
    unfold collected
    rw [List.map_map, ← map_setBits_gather sel _ j w]
    refine List.map_congr_left fun b _ => ?_
    simp only [Function.comp_apply]
    omega
  rwa [hes] at hfill

/-- The compressed values of a group. -/
theorem fills_vals (buf : Nat → P) (d : P) (start j w : Nat) :
    Fills buf (storeLanes start w
        (compress d (gather w fun k => sel (j + k)) fun k => px (j + k)) buf) start
      ((collected sel px i0 j w).map Prod.snd) w := by
  have hfill := fills_compress buf start d (gather w fun k => sel (j + k)) fun k => px (j + k)
  have hes : (setBits (gather w fun k => sel (j + k))).map (fun k => px (j + k)) =
      (collected sel px i0 j w).map Prod.snd := by
    unfold collected
    rw [List.map_map, ← map_setBits_gather sel _ j w]
    rfl
  rwa [hes] at hfill

end

end Bslz4ToSparse.Foundation
