import Bslz4ToSparse.Foundation.Levels
import Bslz4ToSparse.Pipeline.Frame

/-!
# The list of a frame

The list of a frame is made while its blocks are decoded, and the level is raised between two
blocks. The blocks do not matter in the end: the list is the one of the decoded frame as a
whole.
-/

namespace Bslz4ToSparse.Pipeline

open Dot Foundation Steps
open Lz4 (Byte)

variable {t : Dtype} {nij : Nat} {D : Type}

/-! ## The decoded frame -/

/-- The blocks of a chunk as far as they are decoded. -/
structure Opened (t : Dtype) where
  pos : Nat
  nbytes : Nat → Nat          -- the compressed sizes
  px : Nat → Pixel t

section

variable (E : Platform) (q : Call t nij D) (g : Geometry) (c : List Byte)

/-- The first `n` blocks. -/
def openBlocks (n : Nat) : Except Err (Opened t) :=
  (List.range n).foldlM (fun o b => do
    let (pos, nbytes, px) ← openBlock E q g c b o.pos
    return {
      pos
      nbytes := Function.update o.nbytes b nbytes
      px := fun p => if p < b * g.blockElems t then o.px p else px (p - b * g.blockElems t) })
    ⟨if q.pixels then 0 else 12, fun _ => 0, fun _ => 0#_⟩

/-- The whole frame; the tail counts as the last block. -/
def openFrame : Except Err (Opened t) := do
  let o ← openBlocks E q g c (g.total / g.blocksize)
  let (pos, nbytes, planes) ← tailPlanes E q g c o.pos
  checkRaw q g c pos
  return {
    pos
    nbytes := Function.update o.nbytes (g.total / g.blocksize) nbytes
    px := fun p => if p < g.tailStart t then o.px p else tailPixels q g c planes (p - g.tailStart t) }

end

namespace Call

variable (q : Call t nij D)

/-- The pixels of the tail. -/
def tailElems (g : Geometry) : Nat := (q.rawBytes g + q.tailBytes g) / t.size

/-- The unmasked pixels `i0 .. i0 + n`. -/
def candidates (px : Nat → Pixel t) (i0 n : Nat) : List (Nat × Pixel t) :=
  collected (maskOk q.emask) px 0 i0 n

/-- The test of a level. -/
def test (level : Nat) (e : Nat × Pixel t) : Bool := above (q.cutAt level) e.2

def full (level n : Nat) : Bool := q.top.any fun top => top.over level n

/-- The number of thresholds. -/
def levels : Nat := (q.top.map fun top => top.nthr.toNat).getD 0

/-- The level and the list of the pixels `i0 .. i0 + n`. -/
def settled (px : Nat → Pixel t) (n : Nat) : Nat × List (Nat × Pixel t) :=
  let xs := q.candidates px 0 n
  let level := settledLevel q.test q.full q.levels xs
  (level, xs.filter (q.test level))

/-- The levels are what the steps take them for: every comparison with a threshold means the same,
no threshold is below the one before or the cut, and zero is never listed. -/
structure Steady : Prop where
  filter : ∀ top ∈ q.top, ∀ k, k < top.nthr.toNat → ∀ v : Pixel t,
    above (top.filterCut t k) v = above (q.cutAt (k + 1)) v
  low : t = .u16 → ∀ level, level ≤ q.levels → ∀ v : Pixel t, v.toNat < 256 →
    aboveCut (q.lowCut level) v = above (q.cutAt level) v
  strict : ∀ k, k < q.levels → ∀ v : Pixel t, above (q.cutAt (k + 1)) v = true →
    above (q.cutAt k) v = true
  nonzero : ∀ v : Pixel t, above (q.cutAt 0) v = true → v.nonzero = true

end Call

variable {E : Platform} {q : Call t nij D} {g : Geometry} {c : List Byte}

theorem candidates_append (px : Nat → Pixel t) (i0 m n : Nat) :
    q.candidates px i0 (m + n) = q.candidates px i0 m ++ q.candidates px (i0 + m) n :=
  collected_append _ _ _ _ _ _

theorem candidates_congr {px px' : Nat → Pixel t} {i0 n : Nat}
    (h : ∀ p, i0 ≤ p → p < i0 + n → px p = px' p) : q.candidates px i0 n = q.candidates px' i0 n := by
  unfold Call.candidates collected
  refine List.map_congr_left fun p hp => ?_
  obtain ⟨hlo, hhi⟩ := List.mem_range'_1.mp (List.mem_of_mem_filter hp)
  rw [h p hlo hhi]

theorem candidates_eq (px : Nat → Pixel t) (i0 n : Nat) :
    q.candidates px i0 n =
      ((List.range n).filter fun e => maskOk q.emask (e + i0)).map fun e => (e + i0, px (e + i0)) := by
  unfold Call.candidates collected
  have hrange : List.range' i0 n = (List.range n).map (· + i0) := by
    rw [List.range'_eq_map_range]
    exact List.map_congr_left fun e _ => Nat.add_comm i0 e
  rw [hrange, List.filter_map, List.map_map]
  rfl

/-- What a block lists. -/
theorem passing_eq {gt : Pixel t → Bool} {T : Nat × Pixel t → Bool} {w : Work t} {px px' : Nat → Pixel t}
    (hsel : ∀ e, e < w.n → selects gt w.mask px' w.i0 e =
      (maskOk q.emask (e + w.i0) && T (e + w.i0, px (e + w.i0))))
    (hpx : ∀ e, e < w.n → maskOk q.emask (e + w.i0) = true → px' e = px (e + w.i0)) :
    passing gt w px' = (q.candidates px w.i0 w.n).filter T := by
  rw [candidates_eq, List.filter_map, List.filter_filter]
  unfold passing collected
  rw [← List.range_eq_range']
  have hfilter : (List.range w.n).filter (selects gt w.mask px' w.i0) =
      (List.range w.n).filter fun e =>
        (T ∘ fun e => (e + w.i0, px (e + w.i0))) e && maskOk q.emask (e + w.i0) := by
    apply List.filter_congr
    intro e he
    rw [hsel e (List.mem_range.mp he), Bool.and_comm, Function.comp]
  rw [hfilter]
  refine List.map_congr_left fun e he => ?_
  obtain ⟨hmem, hok⟩ := List.mem_filter.mp he
  rw [hpx e (List.mem_range.mp hmem) (Bool.and_eq_true _ _ ▸ hok).2]

/-! ## Raising -/

theorem Call.Steady.strict_test (h : q.Steady) :
    ∀ k, k < q.levels → ∀ e, q.test (k + 1) e = true → q.test k e = true :=
  fun k hk e => h.strict k hk e.2

theorem over_mono : ∀ k a b, a ≤ b → q.full k a = true → q.full k b = true := by
  intro k a b hab hover
  unfold Call.full at hover ⊢
  cases htop : q.top with
  | none =>
    rw [htop] at hover
    cases hover
  | some top =>
    rw [htop, Option.any_some] at hover
    rw [Option.any_some]
    unfold Top.over at hover ⊢
    split
    · next hk =>
      rw [if_pos hk, decide_eq_true_iff] at hover
      exact decide_eq_true (by omega)
    · next hk =>
      rw [if_neg hk, decide_eq_true_iff] at hover
      exact decide_eq_true (by omega)

/-- Nothing at or above a level of the call is zero. -/
theorem Call.Steady.test_nonzero (h : q.Steady) {level : Nat} (hlevel : level ≤ q.levels) {v : Pixel t}
    (hv : above (q.cutAt level) v = true) : v.nonzero = true := by
  have hcut : q.test 0 (0, v) = true :=
    test_of_le (fun k hk e => h.strict k hk e.2) (Nat.zero_le level) hlevel hv
  exact h.nonzero v hcut

theorem raiseListFrom_eq {top : Top} (htop : q.top = some top)
    (hfilter : ∀ k, k < top.nthr.toNat → ∀ v : Pixel t,
      above (top.filterCut t k) v = above (q.cutAt (k + 1)) v) {left level : Nat}
    (hleft : level + left ≤ top.nthr.toNat) (l : List (Nat × Pixel t)) :
    top.raiseListFrom left level l = climbFrom q.test q.full left level l := by
  induction left generalizing level l with
  | zero => rfl
  | succ left ih =>
    have hover : q.full level l.length = top.over level l.length := by
      rw [Call.full, htop, Option.any_some]
    have hkeep : keepAbove (top.filterCut t level) l = l.filter (q.test (level + 1)) := by
      unfold keepAbove
      exact List.filter_congr fun e _ => hfilter level (by omega) e.2
    rw [Top.raiseListFrom, climbFrom, hover, hkeep, ih (by omega)]

/-- Raising a frame. -/
theorem raise_eq (h : q.Steady) {a : FrameState t D} (hlevel : a.level ≤ q.levels) :
    ((a.raise q).level, (a.raise q).list) = climb q.test q.full q.levels (a.level, a.list) := by
  unfold FrameState.raise
  cases htop : q.top with
  | none =>
    have hlevels : q.levels = 0 := by rw [Call.levels, htop]; rfl
    rw [hlevels, climb, Nat.zero_sub]
    rfl
  | some top =>
    have hlevels : q.levels = top.nthr.toNat := by rw [Call.levels, htop]; rfl
    rw [climb, hlevels]
    rw [hlevels] at hlevel
    rw [← raiseListFrom_eq htop (h.filter top htop) (by dsimp only; omega)]
    rfl

/-! ## What a block lists -/

theorem zero_not_nonzero : Pixel.nonzero (0#_ : Pixel t) = false := by
  unfold Pixel.nonzero Pixel.magnitude
  split <;> simp

/-- A test that only non-zero pixels pass. -/
theorem not_zero_of {gt : Pixel t → Bool} (h : ∀ v, gt v = true → v.nonzero = true) : gt 0#_ = false := by
  rw [Bool.eq_false_iff]
  intro hzero
  have hnonzero := h _ hzero
  rw [zero_not_nonzero] at hnonzero
  cases hnonzero

/-- The mask is ANDed into the planes. -/
theorem emask_of_maskplanes (h : q.maskplanes g = true) : q.emask = some q.mask := by
  unfold Call.emask
  rw [if_neg]
  intro hnone
  unfold Call.maskplanes at h
  rw [hnone] at h
  simp at h

/-- A test that zero does not pass selects the same of the masked planes as of the pixels. -/
theorem passing_shown {gt : Pixel t → Bool} (hzero : gt 0#_ = false) {b : Nat} {px F : Nat → Pixel t}
    (cut : Option (Pixel t))
    (hF : ∀ e, e < g.blockElems t → F (e + b * g.blockElems t) = px e) :
    passing gt ⟨q.bmask g, b * g.blockElems t, g.blockElems t, cut⟩ (q.shown g b px) =
      (q.candidates F (b * g.blockElems t) (g.blockElems t)).filter fun e => gt e.2 := by
  apply passing_eq
  · intro e he
    dsimp only at he ⊢
    rw [selects, hF e he]
    unfold Call.bmask Call.shown
    by_cases hplanes : q.maskplanes g = true
    · rw [if_pos hplanes, hplanes, emask_of_maskplanes hplanes, Bool.true_and, maskOk, maskOk, Bool.true_and,
        Nat.add_comm e]
      cases hm : q.mask (b * g.blockElems t + e) == 0#8 with
      | true => simp [hzero, bne, hm]
      | false => simp [bne, hm]
    · rw [if_neg hplanes, Bool.eq_false_iff.mpr hplanes, Bool.false_and, if_neg (by decide)]
  · intro e he hok
    dsimp only at he hok ⊢
    rw [hF e he]
    unfold Call.shown
    rw [if_neg]
    intro hmasked
    obtain ⟨hplanes, hm⟩ := (Bool.and_eq_true _ _).mp hmasked
    rw [emask_of_maskplanes hplanes, maskOk, Nat.add_comm, bne, hm] at hok
    cases hok

/-- The test of a fused collect is the test of the level. -/
theorem plainTest_eq (h : q.Steady) {level : Nat} (hlevel : level ≤ q.levels) {fused : Bool} {v : Pixel t}
    (hfused : fused = true → t = .u16 ∧ v.toNat < 256) :
    q.plainTest level fused v = above (q.cutAt level) v := by
  unfold Call.plainTest
  split
  · next hf =>
    obtain ⟨ht, hv⟩ := hfused hf
    exact h.low ht level hlevel v hv
  · rfl

/-- A block without a dot. -/
theorem plainList_eq (h : q.Steady) {level b : Nat} (hlevel : level ≤ q.levels) {px F : Nat → Pixel t}
    (cut : Option (Pixel t))
    (hF : ∀ e, e < g.blockElems t → F (e + b * g.blockElems t) = px e) :
    passing (q.plainTest level (q.fuses (g.blockElems t) true (q.shown g b px)))
        ⟨q.bmask g, b * g.blockElems t, g.blockElems t, cut⟩ (q.shown g b px) =
      (q.candidates F (b * g.blockElems t) (g.blockElems t)).filter (q.test level) := by
  have hzero : above (q.cutAt level) (0#_ : Pixel t) = false :=
    not_zero_of fun v hv => h.test_nonzero hlevel hv
  have hpassing := passing_shown (q := q) (g := g) hzero cut hF
  change _ = (q.candidates F _ _).filter fun e => above (q.cutAt level) e.2
  rw [← hpassing]
  unfold passing collected
  congr 1
  apply List.filter_congr
  intro e he
  have hlt : e < g.blockElems t := by simpa using he
  unfold selects
  rw [plainTest_eq h hlevel]
  intro hfused
  obtain ⟨ht, hlow⟩ := fuses_u16 hfused
  exact ⟨ht, hlow e hlt⟩

/-- A block with a dot: its list of non-zero pixels has all that are above the threshold. -/
theorem dotList_eq (h : q.Steady) {level : Nat} (hlevel : level ≤ q.levels) {w : Work t}
    (hcut : w.cut = q.cutAt level) {sparse : Bool} {px : Nat → Pixel t} {xs : List (Nat × Pixel t)}
    (hnz : passing Pixel.nonzero w px = xs.filter fun e => e.2.nonzero)
    (habove : passing (above w.cut) w px = xs.filter fun e => above w.cut e.2) :
    dotList w sparse px = xs.filter (q.test level) := by
  unfold dotList
  split
  · rw [hnz, keepAbove, List.filter_filter]
    apply List.filter_congr
    intro e _
    rw [Call.test, hcut]
    cases hlist : above (q.cutAt level) e.2 with
    | false => rfl
    | true => rw [h.test_nonzero hlevel hlist, Bool.and_self]
  · rw [habove, hcut]
    rfl

/-- A full block with a dot. -/
theorem dotBlockList_eq (h : q.Steady) {level b : Nat} (hlevel : level ≤ q.levels) {sparse : Bool}
    {px F : Nat → Pixel t} (hF : ∀ e, e < g.blockElems t → F (e + b * g.blockElems t) = px e) :
    dotList ⟨q.bmask g, b * g.blockElems t, g.blockElems t, q.cutAt level⟩ sparse (q.shown g b px) =
      (q.candidates F (b * g.blockElems t) (g.blockElems t)).filter (q.test level) := by
  apply dotList_eq h hlevel rfl
  · exact passing_shown (not_zero_of fun v hv => hv) _ hF
  · exact passing_shown (not_zero_of fun v hv => h.test_nonzero hlevel hv) _ hF

/-! ## The frame -/

/-- The unmasked pixels of the first `b` blocks. -/
def Call.arrivals (q : Call t nij D) (g : Geometry) (px : Nat → Pixel t) (b : Nat) :
    List (List (Nat × Pixel t)) :=
  (List.range b).map fun k => q.candidates px (k * g.blockElems t) (g.blockElems t)

theorem flatten_arrivals (px : Nat → Pixel t) (b : Nat) :
    (q.arrivals g px b).flatten = q.candidates px 0 (b * g.blockElems t) := by
  unfold Call.arrivals
  induction b with
  | zero =>
    rw [Nat.zero_mul]
    rfl
  | succ b ih =>
    rw [List.range_succ, List.map_append, List.flatten_append, ih, Nat.succ_mul, candidates_append,
      Nat.zero_add, List.map_singleton, List.flatten_singleton]

theorem arrivals_congr {px px' : Nat → Pixel t} {b : Nat}
    (h : ∀ p, p < b * g.blockElems t → px p = px' p) : q.arrivals g px b = q.arrivals g px' b := by
  unfold Call.arrivals
  refine List.map_congr_left fun k hk => ?_
  have hmul := Nat.mul_le_mul_right (g.blockElems t) (show k + 1 ≤ b from List.mem_range.mp hk)
  rw [Nat.succ_mul] at hmul
  exact candidates_congr fun p _ hp => h p (by omega)

theorem arrivals_succ (px : Nat → Pixel t) (b : Nat) :
    q.arrivals g px (b + 1) =
      q.arrivals g px b ++ [q.candidates px (b * g.blockElems t) (g.blockElems t)] := by
  unfold Call.arrivals
  rw [List.range_succ, List.map_append, List.map_singleton]

/-- The frame after `b` blocks: the level and the list are those of the pixels decoded so far. -/
structure Streamed (q : Call t nij D) (g : Geometry) (b : Nat) (a : FrameState t D) (o : Opened t) :
    Prop where
  pos : a.pos = o.pos
  nabove : a.nabove = 0
  listed : (a.level, a.list) = (q.arrivals g o.px b).foldl (climbOn q.test q.full q.levels) (0, [])

namespace Streamed

variable {b : Nat} {a : FrameState t D} {o : Opened t}

theorem level_le (h : q.Steady) (hs : Streamed q g b a o) : a.level ≤ q.levels := by
  have hreached := (Reached.start q.test q.full q.levels).foldl_climbOn h.strict_test over_mono
    (q.arrivals g o.px b)
  rw [← hs.listed] at hreached
  exact hreached.le

theorem raise_le (h : q.Steady) (hs : Streamed q g b a o) : (a.raise q).level ≤ q.levels := by
  have hreached := ((Reached.start q.test q.full q.levels).foldl_climbOn h.strict_test over_mono
    (q.arrivals g o.px b)).climb h.strict_test
  rw [← hs.listed, ← raise_eq h (hs.level_le h)] at hreached
  exact hreached.le

/-- The pixels of the next block arrive. -/
theorem arrive (h : q.Steady) (hs : Streamed q g b a o) (ys : List (Nat × Pixel t)) :
    ((a.raise q).level, (a.raise q).list ++ ys.filter (q.test (a.raise q).level)) =
      climbOn q.test q.full q.levels
        ((q.arrivals g o.px b).foldl (climbOn q.test q.full q.levels) (0, [])) ys := by
  rw [← hs.listed, climbOn, ← raise_eq h (hs.level_le h)]

end Streamed

theorem frameBlock_streamed (h : q.Steady) {b : Nat} {a : FrameState t D} {o : Opened t}
    (hs : Streamed q g b a o) :
    Agree (Streamed q g (b + 1)) (frameBlock E q g c b a)
      (do
        let (pos, nbytes, px) ← openBlock E q g c b o.pos
        return {
          pos
          nbytes := Function.update o.nbytes b nbytes
          px := fun p => if p < b * g.blockElems t then o.px p else px (p - b * g.blockElems t) }) := by
  unfold frameBlock
  rw [hs.pos]
  apply Agree.bind_same
  rintro ⟨pos, nbytes, px⟩
  have hs' : Streamed q g b { a with pos } ⟨pos, o.nbytes, o.px⟩ := ⟨rfl, hs.nabove, hs.listed⟩
  have hlevel := hs'.raise_le h
  obtain ⟨hpos, hnabove, -⟩ := raise_keeps (q := q) { a with pos }
  have hzero := hnabove.trans hs.nabove
  set a' := ({ a with pos } : FrameState t D).raise q with ha'
  set F : Nat → Pixel t := fun p =>
    if p < b * g.blockElems t then o.px p else px (p - b * g.blockElems t) with hF
  have hnew : ∀ e, e < g.blockElems t → F (e + b * g.blockElems t) = px e := by
    intro e _
    rw [hF]
    dsimp only
    rw [if_neg (by omega), Nat.add_sub_cancel]
  have hold : q.arrivals g o.px b = q.arrivals g F b := by
    apply arrivals_congr
    intro p hp
    rw [hF]
    dsimp only
    rw [if_pos hp]
  have harrive := hs'.arrive h (q.candidates F (b * g.blockElems t) (g.blockElems t))
  rw [← ha'] at harrive
  dsimp only at harrive
  have hlisted : (q.arrivals g F (b + 1)).foldl (climbOn q.test q.full q.levels) (0, []) =
      (a'.level, a'.list ++
        (q.candidates F (b * g.blockElems t) (g.blockElems t)).filter (q.test a'.level)) := by
    rw [arrivals_succ, List.foldl_append, List.foldl_cons, List.foldl_nil, ← hold, ← harrive]
  dsimp only
  cases hdot : q.dot with
  | none =>
    refine ⟨hpos, hzero, ?_⟩
    dsimp only
    rw [hlisted, plainList_eq h hlevel _ hnew]
  | some d =>
    refine ⟨hpos, hzero, ?_⟩
    rw [hlisted]
    change (a'.level, a'.list ++ dotList ⟨q.bmask g, _, _, q.cutAt a'.level⟩ _ _) = _
    rw [dotBlockList_eq h hlevel hnew]

theorem frameBlocks_streamed (h : q.Steady) (powder : Nat → D) (n : Nat) :
    Agree (Streamed q g n) (frameBlocks E q g c powder n) (openBlocks E q g c n) := by
  unfold frameBlocks openBlocks
  refine foldlM_range_agree (Streamed q g) ⟨rfl, rfl, rfl⟩ ?_
  intro b _ a o hs
  exact frameBlock_streamed h hs

/-- What is left of a list. -/
def Call.kept (q : Call t nij D) (l : List (Nat × Pixel t)) : List (Nat × Pixel t) :=
  match q.top with
  | none => l
  | some top => l.take top.howmany.toNat

/-- The number of pixels above the last threshold. -/
def Call.counted (q : Call t nij D) (l : List (Nat × Pixel t)) : Nat :=
  match q.top with
  | none => 0
  | some _ => l.length

/-- The end of a frame. -/
theorem finish_eq (h : q.Steady) {a : FrameState t D} (hlevel : a.level ≤ q.levels) (hzero : a.nabove = 0) :
    (a.finish q).level = (climb q.test q.full q.levels (a.level, a.list)).1 ∧
      (a.finish q).list = q.kept (climb q.test q.full q.levels (a.level, a.list)).2 ∧
      (a.finish q).nabove = q.counted (climb q.test q.full q.levels (a.level, a.list)).2 := by
  rw [← raise_eq h hlevel]
  unfold FrameState.finish Call.kept Call.counted
  cases htop : q.top with
  | none =>
    have hraise : a.raise q = a := by
      unfold FrameState.raise
      rw [htop]
    dsimp only
    rw [hraise]
    exact ⟨rfl, rfl, hzero⟩
  | some top => exact ⟨rfl, rfl, rfl⟩

/-- What the tail lists. -/
theorem passing_tail {gt : Pixel t → Bool} {i0 n : Nat} {px F : Nat → Pixel t} (cut : Option (Pixel t))
    (hF : ∀ e, e < n → F (e + i0) = px e) :
    passing gt ⟨q.emask, i0, n, cut⟩ px = (q.candidates F i0 n).filter fun e => gt e.2 := by
  apply passing_eq
  · intro e he
    rw [selects, hF e he]
  · intro e he _
    exact (hF e he).symm

/-- The tail with a dot. -/
theorem dotTailList_eq (h : q.Steady) {level i0 n : Nat} (hlevel : level ≤ q.levels) {sparse : Bool}
    {px F : Nat → Pixel t} (hF : ∀ e, e < n → F (e + i0) = px e) :
    dotList ⟨q.emask, i0, n, q.cutAt level⟩ sparse px = (q.candidates F i0 n).filter (q.test level) :=
  dotList_eq h hlevel rfl (passing_tail _ hF) (passing_tail _ hF)

/-- The whole list in one go. -/
theorem climb_arrivals (h : q.Steady) (px : Nat → Pixel t) (n m : Nat) :
    climb q.test q.full q.levels
        (climbOn q.test q.full q.levels
          ((q.arrivals g px n).foldl (climbOn q.test q.full q.levels) (0, []))
          (q.candidates px (n * g.blockElems t) m)) =
      q.settled px (n * g.blockElems t + m) := by
  have hclimb := climb_foldl_climbOn h.strict_test (over_mono (q := q))
    (q.arrivals g px n ++ [q.candidates px (n * g.blockElems t) m])
  rw [List.foldl_append, List.foldl_cons, List.foldl_nil] at hclimb
  rw [hclimb, List.flatten_append, flatten_arrivals, List.flatten_singleton]
  have happend := candidates_append (q := q) px 0 (n * g.blockElems t) m
  rw [Nat.zero_add] at happend
  rw [← happend]
  rfl

/-- The level, the list and the count of a frame are those of its pixels, however the chunk is split
into blocks. -/
structure Finished (q : Call t nij D) (g : Geometry) (a : FrameState t D) (o : Opened t) : Prop where
  level : a.level = (q.settled o.px (g.tailStart t + q.tailElems g)).1
  list : a.list = q.kept (q.settled o.px (g.tailStart t + q.tailElems g)).2
  nabove : a.nabove = q.counted (q.settled o.px (g.tailStart t + q.tailElems g)).2

theorem frameTail_finished (h : q.Steady) {a : FrameState t D} {o : Opened t}
    (hs : Streamed q g (g.total / g.blocksize) a o) :
    Agree (Finished q g) (frameTail E q g c a)
      (do
        let (pos, nbytes, planes) ← tailPlanes E q g c o.pos
        checkRaw q g c pos
        return {
          pos
          nbytes := Function.update o.nbytes (g.total / g.blocksize) nbytes
          px := fun p =>
            if p < g.tailStart t then o.px p else tailPixels q g c planes (p - g.tailStart t) }) := by
  unfold frameTail
  rw [hs.pos]
  apply Agree.bind_same
  rintro ⟨pos, nbytes, planes⟩
  apply Agree.bind_same
  intro _
  have hs' : Streamed q g (g.total / g.blocksize) { a with pos } ⟨pos, o.nbytes, o.px⟩ :=
    ⟨rfl, hs.nabove, hs.listed⟩
  have hlevel := hs'.raise_le h
  obtain ⟨-, hnabove, -⟩ := raise_keeps (q := q) { a with pos }
  have hzero := hnabove.trans hs.nabove
  set a' := ({ a with pos } : FrameState t D).raise q with ha'
  set F : Nat → Pixel t := fun p =>
    if p < g.tailStart t then o.px p else tailPixels q g c planes (p - g.tailStart t) with hF
  have hnew : ∀ e, e < q.tailElems g → F (e + g.tailStart t) = tailPixels q g c planes e := by
    intro e _
    rw [hF]
    dsimp only
    rw [if_neg (by omega), Nat.add_sub_cancel]
  have hold : q.arrivals g o.px (g.total / g.blocksize) = q.arrivals g F (g.total / g.blocksize) := by
    apply arrivals_congr
    intro p hp
    exact (if_pos hp).symm
  have harrive := hs'.arrive h (q.candidates F (g.tailStart t) (q.tailElems g))
  rw [← ha'] at harrive
  have hsettled := climb_arrivals (g := g) h F (g.total / g.blocksize) (q.tailElems g)
  dsimp only at harrive
  change climb _ _ _ (climbOn _ _ _ _ (q.candidates F (g.tailStart t) (q.tailElems g))) =
    q.settled F (g.tailStart t + q.tailElems g) at hsettled
  rw [← hold, ← harrive] at hsettled
  -- the list before the last move
  have hend : ∀ b : FrameState t D, b.level = a'.level → b.nabove = 0 →
      b.list = a'.list ++ (q.candidates F (g.tailStart t) (q.tailElems g)).filter (q.test a'.level) →
      Finished q g (b.finish q) ⟨pos, Function.update o.nbytes (g.total / g.blocksize) nbytes, F⟩ := by
    intro b hb hb0 hlist
    obtain ⟨h₁, h₂, h₃⟩ := finish_eq h (a := b) (by rw [hb]; exact hlevel) hb0
    rw [hb, hlist, hsettled] at h₁ h₂ h₃
    exact ⟨h₁, h₂, h₃⟩
  cases hdot : q.dot with
  | none =>
    apply hend
    · rfl
    · exact hzero
    · change a'.list ++ passing (above (q.cutAt a'.level)) ⟨q.emask, _, q.tailElems g, q.cutAt a'.level⟩ _ = _
      rw [passing_tail _ hnew]
      rfl
  | some d =>
    apply hend
    · rfl
    · exact hzero
    · change a'.list ++ dotList ⟨q.emask, _, q.tailElems g, q.cutAt a'.level⟩ _ _ = _
      rw [dotTailList_eq h hlevel hnew]

/-- What a frame lists. -/
theorem frameRun_finished (h : q.Steady) (powder : Nat → D) :
    Agree (Finished q g) (frameRun E q g c powder) (openFrame E q g c) := by
  unfold frameRun openFrame
  have hblocks := frameBlocks_streamed (E := E) (g := g) (c := c) h powder (g.total / g.blocksize)
  cases ha : frameBlocks E q g c powder (g.total / g.blocksize) with
  | error e =>
    rw [ha] at hblocks
    rw [hblocks.error_left]
    rfl
  | ok a =>
    rw [ha] at hblocks
    obtain ⟨o, ho, hs⟩ := hblocks.ok_left
    rw [ho]
    exact frameTail_finished h hs

end Bslz4ToSparse.Pipeline
