import Bslz4ToSparse.Pipeline.Blocks

/-!
# The driver's loops, frame by frame

The driver takes block `b` of every frame before block `b + 1` of any, all in one workspace and with
the lists of all frames in one pair of arrays. What it gives a frame is what the frame's chunk gives
alone.
-/

namespace Bslz4ToSparse.Pipeline

open Dot Foundation Steps
open Lz4 (Byte)

variable {t : Dtype} {nij : Nat} {D : Type}

/-! ## One frame of the state -/

/-- The driver's state of frame `f` is `a`. -/
structure Carries (nij : Nat) (s : RunState t D) (f : Nat) (a : FrameState t D) : Prop where
  level : s.level f = a.level
  list : (s.out nij f).entries = a.list
  nabove : s.nabove f = a.nabove
  powder : s.powder f = a.powder

/-- Only frame `f` was touched: the other ones have their levels, lists and powders. -/
structure Spares (nij f : Nat) (s s' : RunState t D) : Prop where
  level : ∀ f', f' ≠ f → s'.level f' = s.level f'
  list : ∀ f', f' ≠ f → s.npx f' ≤ nij → (s'.out nij f').entries = (s.out nij f').entries
  nabove : ∀ f', f' ≠ f → s'.nabove f' = s.nabove f'
  powder : ∀ f', f' ≠ f → s'.powder f' = s.powder f'

theorem Carries.npx {s : RunState t D} {f : Nat} {a : FrameState t D} (h : Carries nij s f a) :
    s.npx f = a.list.length := by
  rw [← h.list, Sink.length_entries]
  rfl

namespace Spares

variable {s s' s'' : RunState t D} {f f' : Nat}

theorem refl (nij f : Nat) (s : RunState t D) : Spares nij f s s :=
  ⟨fun _ _ => rfl, fun _ _ _ => rfl, fun _ _ => rfl, fun _ _ => rfl⟩

theorem npx (h : Spares nij f s s') (hf : f' ≠ f) (hle : s.npx f' ≤ nij) : s'.npx f' = s.npx f' := by
  have hlen := congrArg List.length (h.list f' hf hle)
  rwa [Sink.length_entries, Sink.length_entries] at hlen

theorem trans (h : Spares nij f s s') (h' : Spares nij f s' s'') : Spares nij f s s'' where
  level f' hf := (h'.level f' hf).trans (h.level f' hf)
  list f' hf hle := (h'.list f' hf (by rw [h.npx hf hle]; exact hle)).trans (h.list f' hf hle)
  nabove f' hf := (h'.nabove f' hf).trans (h.nabove f' hf)
  powder f' hf := (h'.powder f' hf).trans (h.powder f' hf)

/-- A frame that is not touched stays as it was. -/
theorem carries (h : Spares nij f s s') (hf : f' ≠ f) {a : FrameState t D} (hle : a.list.length ≤ nij)
    (ha : Carries nij s f' a) : Carries nij s' f' a where
  level := (h.level f' hf).trans ha.level
  list := (h.list f' hf (by rw [ha.npx]; exact hle)).trans ha.list
  nabove := (h.nabove f' hf).trans ha.nabove
  powder := (h.powder f' hf).trans ha.powder

end Spares

section

variable {E : Platform} {q : Call t nij D} {g : Geometry} {s : RunState t D} {f : Nat}
  {a : FrameState t D}

/-- The list of a frame replaced inside its window. -/
theorem spares_setOut {o : Sink (Pixel t)} (h : SameFrom nij (s.out nij f) o) :
    Spares nij f s (s.setOut nij f o) :=
  ⟨fun _ _ => rfl, fun _ hf hle => out_setOut_of_ne hf h hle, fun _ _ => rfl, fun _ _ => rfl⟩

theorem length_raise_le (q : Call t nij D) (a : FrameState t D) :
    (a.raise q).list.length ≤ a.list.length := by
  unfold FrameState.raise
  cases q.top with
  | none => exact le_rfl
  | some top => exact top.length_raiseListFrom_le _ _ _

theorem raiseFrame_spec (h : Carries nij s f a) (hle : a.list.length ≤ nij) :
    Carries nij (raiseFrame q f s) f (a.raise q) ∧ Spares nij f s (raiseFrame q f s) := by
  unfold raiseFrame FrameState.raise
  cases q.top with
  | none => exact ⟨h, Spares.refl nij f s⟩
  | some top =>
    obtain ⟨hlevel, hlist, hsame⟩ :=
      top.raiseFrom_spec (top.nthr.toNat - s.level f) (s.level f) (s.out nij f)
    rw [h.list, h.level] at hlevel hlist
    have hwindow : SameFrom nij (s.out nij f) (top.raise (s.level f) (s.out nij f)).2 :=
      hsame.mono (by
        change s.npx f ≤ nij
        rw [h.npx]
        exact hle)
    have hspares := spares_setOut hwindow
    constructor
    · constructor
      · dsimp only
        rw [Function.update_self, Top.raise, h.level]
        exact hlevel
      · change ((s.setOut nij f (top.raise (s.level f) (s.out nij f)).2).out nij f).entries = _
        rw [out_setOut, Top.raise, h.level]
        exact hlist
      · exact h.nabove
      · exact h.powder
    · constructor
      · intro f' hf
        exact Function.update_of_ne hf _ _
      · exact hspares.list
      · exact hspares.nabove
      · exact hspares.powder

/-- A block adds to the list and to the powder. -/
theorem carries_emit (h : Carries nij s f a) {o : Sink (Pixel t)} {es : List (Nat × Pixel t)}
    {room : Nat} (hemits : Emits (s.out nij f) o es room) (hroom : a.list.length + room ≤ nij)
    (ws : Workspace t) (powder : Nat → D) :
    Carries nij { s.setOut nij f o with work := ws, powder := Function.update s.powder f powder } f
        { a with list := a.list ++ es, powder } ∧
      Spares nij f s
        { s.setOut nij f o with work := ws, powder := Function.update s.powder f powder } := by
  have hspares := spares_setOut (hemits.sameFrom (by
    change s.npx f + room ≤ nij
    rw [h.npx]
    exact hroom))
  constructor
  · constructor
    · exact h.level
    · change ((s.setOut nij f o).out nij f).entries = _
      rw [out_setOut, hemits.entries, h.list]
    · exact h.nabove
    · exact Function.update_self _ _ _
  · constructor
    · exact hspares.level
    · exact hspares.list
    · exact hspares.nabove
    · intro f' hf
      exact Function.update_of_ne hf _ _

end

/-! ## One step -/

/-- What the loops rely on: a call that was accepted, with whole blocks, and kernels that undo the
bitshuffle. -/
structure Ready (E : Platform) (q : Call t nij D) (g : Geometry) : Prop where
  kernels : E.kernels.Inverse
  aligned : Aligned t g
  total : g.total = nij * t.size
  small : g.total ≤ 2 ^ 31 - 1
  layout : ∀ d ∈ q.dot, badLayout (g.blockElems t) d.2 = false

namespace Ready

variable {E : Platform} {q : Call t nij D} {g : Geometry}

theorem of_accepted (hK : E.kernels.Inverse) (h : Accepted q g) (hg : Aligned t g) : Ready E q g :=
  ⟨hK, hg, h.total, h.small, h.layout⟩

theorem blocksize_le (h : Ready E q g) {b : Nat} (hb : b < g.total / g.blocksize) :
    g.blocksize ≤ 2 ^ 31 - 1 := by
  have hmul : (b + 1) * g.blocksize ≤ g.total :=
    (Nat.mul_le_mul_right _ hb).trans (Nat.div_mul_le_self _ _)
  rw [Nat.succ_mul] at hmul
  have hsmall := h.small
  omega

/-- The routes of the dot read the pixels of their block and the entries of their list. -/
theorem reads (h : Ready E q g) {route : Route} {dot : DotStep t nij D} (hdot : q.dot = some (route, dot)) :
    Reads dot.kernel (IsDecodeBlock nij (g.blockElems t)) := by
  apply dot.reads
  intro l hl
  have hbad := h.layout (route, dot) hdot
  unfold badLayout at hbad
  rw [hl, Option.any_some] at hbad
  simp only [Bool.or_eq_false_iff, bne_eq_false_iff_eq] at hbad
  exact hbad.1.2

/-- A full block is a decode block. -/
theorem fits (h : Ready E q g) {b : Nat} (hb : b < g.total / g.blocksize) :
    IsDecodeBlock nij (g.blockElems t) (b * g.blockElems t) (g.blockElems t) := by
  have hle := h.aligned.block_le h.total hb
  have hpos := h.aligned.elems_pos
  exact Or.inr ⟨b, rfl, by omega, by omega⟩

end Ready

/-- The step of frame `f` from `s` to `s'` is the one of the frame alone, from at most `m` listed pixels
to at most `m'`. -/
structure Stepped (nij m m' f : Nat) (s : RunState t D) (a : FrameState t D) (s' : RunState t D)
    (a' : FrameState t D) : Prop where
  pos : s'.cursors f = a'.pos
  cursors : ∀ f', f' ≠ f → s'.cursors f' = s.cursors f'
  overread : a'.overread = false → a.overread = false
  carried : a'.overread = false → Carries nij s f a → a.list.length ≤ m →
    Carries nij s' f a' ∧ Spares nij f s s' ∧ a'.list.length ≤ m'

section

variable {E : Platform} {q : Call t nij D} {g : Geometry}

/-- The cursor and the workspace are no part of what a frame has come to. -/
theorem Carries.move {s : RunState t D} {f : Nat} {a : FrameState t D} (h : Carries nij s f a)
    (cursors : Nat → Nat) (work : Workspace t) (pos : Nat) :
    Carries nij { s with cursors, work } f { a with pos } :=
  ⟨h.level, h.list, h.nabove, h.powder⟩

/-- What a block adds after the level was raised. -/
theorem Stepped.emit {m k f : Nat} {s s₂ : RunState t D} {a a₂ : FrameState t D}
    (hpos : s₂.cursors f = a₂.pos) (hcursors : ∀ f', f' ≠ f → s₂.cursors f' = s.cursors f')
    (hover : a₂.overread = a.overread)
    (hraised : Carries nij s f a → a.list.length ≤ m →
      Carries nij s₂ f a₂ ∧ Spares nij f s s₂ ∧ a₂.list.length ≤ m) (hroom : m + k ≤ nij)
    (o : Sink (Pixel t)) (es : List (Nat × Pixel t)) {powder : Nat → D} (p : Nat → D) (past : Bool)
    (ws : Workspace t) (hstep : Carries nij s₂ f a₂ → past = false →
      Emits (s₂.out nij f) o es k ∧ powder = p) :
    Stepped nij m (m + k) f s a
      { s₂.setOut nij f o with work := ws, powder := Function.update s₂.powder f powder }
      { a₂ with list := a₂.list ++ es, powder := p, overread := a₂.overread || past } where
  pos := hpos
  cursors := hcursors
  overread hno := by
    rw [← hover]
    exact (Bool.or_eq_false_iff.mp hno).1
  carried hno hc hlen := by
    obtain ⟨hcarries, hspares, hlen'⟩ := hraised hc hlen
    obtain ⟨hemits, rfl⟩ := hstep hcarries (Bool.or_eq_false_iff.mp hno).2
    obtain ⟨hcarries', hspares'⟩ := carries_emit hcarries hemits (by omega) ws powder
    refine ⟨⟨hcarries'.level, hcarries'.list, hcarries'.nabove, hcarries'.powder⟩,
      hspares.trans hspares', ?_⟩
    have hadded := hemits.length_le
    rw [List.length_append]
    omega

/-- A full block. -/
theorem blockStep_agree (h : Ready E q g) {b f : Nat} (hb : b < g.total / g.blocksize)
    {s : RunState t D} {a : FrameState t D} (hpos : s.cursors f = a.pos) :
    Agree (Stepped nij (b * g.blockElems t) (b * g.blockElems t + g.blockElems t) f s a)
      (blockStep E q g b s f) (frameBlock E q g (q.chunks.bytes f) b a) := by
  have hg := h.aligned
  have hle := hg.block_le h.total hb
  unfold blockStep frameBlock
  rw [← hpos]
  apply (decodeStep_spec (b := b) (fun _ => h.blocksize_le hb) s).bind
  intro r x hr
  obtain ⟨s₁, nbytes, nzEnd⟩ := r
  obtain ⟨pos, nbytes', px⟩ := x
  obtain ⟨⟨mem, hs₁⟩, hnbytes, hplanes⟩ := hr
  dsimp only at hs₁ hnbytes hplanes ⊢
  subst hnbytes
  subst hs₁
  obtain ⟨mem', hmask, hmasked⟩ := maskStep_spec hg hplanes
  rw [hmask]
  dsimp only
  set s₂ : RunState t D := { s with
    cursors := Function.update s.cursors f pos
    work := { s.work with mem := mem' } } with hs₂
  set a₂ : FrameState t D := { a with pos } with ha₂
  have hwork : (raiseFrame q f s₂).work = s₂.work := raiseFrame_work
  have hcursors : (raiseFrame q f s₂).cursors = s₂.cursors := raiseFrame_cursors
  obtain ⟨hposition, -, hover⟩ : (a₂.raise q).pos = a₂.pos ∧ (a₂.raise q).nabove = a₂.nabove ∧
    (a₂.raise q).overread = a.overread := raise_keeps a₂
  have hcur : (raiseFrame q f s₂).cursors f = (a₂.raise q).pos := by
    rw [hcursors, hposition]
    exact Function.update_self _ _ _
  have hother : ∀ f', f' ≠ f → (raiseFrame q f s₂).cursors f' = s.cursors f' := by
    intro f' hf
    rw [hcursors]
    exact Function.update_of_ne hf _ _
  have hholds : Holds q g f (b * g.blockElems t) nzEnd (raiseFrame q f s₂).work.mem (q.shown g b px) := by
    rw [hwork]
    exact hmasked
  -- the level and the list before the block is collected
  have hraised : Carries nij s f a → a.list.length ≤ b * g.blockElems t →
      Carries nij (raiseFrame q f s₂) f (a₂.raise q) ∧ Spares nij f s (raiseFrame q f s₂) ∧
        (a₂.raise q).list.length ≤ b * g.blockElems t := by
    intro hc hlen
    obtain ⟨hcarries, hspares⟩ := raiseFrame_spec (q := q)
      (hc.move (Function.update s.cursors f pos) { s.work with mem := mem' } pos)
      (show a.list.length ≤ nij by omega)
    exact ⟨hcarries, ⟨hspares.level, hspares.list, hspares.nabove, hspares.powder⟩,
      (length_raise_le q a₂).trans hlen⟩
  set s₃ := raiseFrame q f s₂ with hs₃
  set a₃ := a₂.raise q with ha₃
  cases hdot : q.dot with
  | none =>
    dsimp only
    obtain ⟨ws', o', hr, hemits⟩ := plainBlock_spec h.kernels hg
      (w := ⟨q.bmask g, b * g.blockElems t, g.blockElems t, q.cutAt (s₃.level f)⟩)
      rfl (q.lowCut (s₃.level f)) nbytes (s₃.out nij f) hholds
    rw [hr]
    have hstepped := Stepped.emit hcur hother hover hraised hle o'
      (passing (q.plainTest a₃.level (q.fuses (g.blockElems t) true (q.shown g b px)))
        ⟨q.bmask g, b * g.blockElems t, g.blockElems t, q.cutAt a₃.level⟩ (q.shown g b px))
      a₃.powder
      (q.overreads (g.blockElems t) (q.lowCut a₃.level)
        (q.fuses (g.blockElems t) true (q.shown g b px))) ws'
      fun hc hno => ⟨?_, hc.powder⟩
    · rw [Function.update_eq_self] at hstepped
      exact hstepped
    · rw [hc.level] at hemits
      have hlist := hemits hno
      unfold Call.plainTest
      split
      · next hfuses =>
        rw [hfuses, if_pos rfl] at hlist
        exact hlist
      · next hfuses =>
        rw [if_neg hfuses] at hlist
        exact hlist
  | some d =>
    obtain ⟨route, dot⟩ := d
    dsimp only
    obtain ⟨ws', o', powder', hr, hemits⟩ := dotBlock_spec h.kernels hg (h.reads hdot)
      (blockSparse q g route nbytes)
      (w := ⟨q.bmask g, b * g.blockElems t, g.blockElems t, q.cutAt (s₃.level f)⟩)
      rfl (h.fits hb) nbytes (s₃.out nij f) (s₃.powder f) hholds
    rw [hr]
    refine Stepped.emit hcur hother hover hraised hle _ _ _ _ ws' fun hc hno => ?_
    rw [hc.level, hc.powder] at hemits
    exact hemits hno

/-! ## The tail -/

/-- The last block ends on a whole group of 8 pixels. -/
theorem tailBytes_whole (q : Call t nij D) (g : Geometry) : ∃ c, q.tailBytes g = 8 * c * t.size := by
  unfold Call.tailBytes
  split
  · exact ⟨0, by omega⟩
  · exact ⟨g.total % g.blocksize / (8 * t.size), by unfold tailBlock; ring⟩

theorem tail_size (h : Ready E q g) : g.total % g.blocksize = nij % g.blockElems t * t.size := by
  rw [h.total, h.aligned.size_eq, Nat.mul_mod_mul_right]

theorem tail_start (h : Ready E q g) : g.tailStart t = nij / g.blockElems t * g.blockElems t := by
  unfold Geometry.tailStart
  rw [h.total]
  nth_rewrite 1 [h.aligned.size_eq]
  rw [Nat.mul_div_mul_right _ _ t.size_pos]

theorem tailBytes_le (q : Call t nij D) (g : Geometry) : q.tailBytes g ≤ g.total % g.blocksize := by
  unfold Call.tailBytes
  split
  · exact Nat.zero_le _
  · exact tailBlock_le _ _

/-- The pixels of the tail. -/
theorem tail_elems (h : Ready E q g) :
    (q.rawBytes g + q.tailBytes g) / t.size = nij % g.blockElems t := by
  have hle := tailBytes_le q g
  unfold Call.rawBytes
  rw [Nat.sub_add_cancel hle, tail_size h, Nat.mul_div_cancel _ t.size_pos]

theorem tail_end (h : Ready E q g) : g.tailStart t + nij % g.blockElems t = nij := by
  rw [tail_start h, Nat.mul_comm]
  exact Nat.div_add_mod nij (g.blockElems t)

/-- The tail is a decode block. -/
theorem Ready.tail_fits (h : Ready E q g) :
    IsDecodeBlock nij (g.blockElems t) (g.tailStart t) (nij % g.blockElems t) := by
  have hend := tail_end h
  have hlt := Nat.mod_lt nij h.aligned.elems_pos
  rcases Nat.eq_zero_or_pos (nij % g.blockElems t) with hzero | hpos
  · exact Or.inl hzero
  · exact Or.inr ⟨_, tail_start h, by omega, by omega⟩

/-- The last block decoded: its pixels stand at the front of the pixel block. -/
structure TailDecoded (q : Call t nij D) (g : Geometry) (f : Nat) (s : RunState t D)
    (r : RunState t D × Nat) (x : Nat × Nat × List Byte) : Prop where
  state : ∃ work, r.1 = { s with cursors := Function.update s.cursors f x.1, work }
  nbytes : r.2 = x.2.1
  pixels : ∀ e, e < q.tailBytes g / t.size →
    pixelAt t r.1.work.block e = planePixel t (bytesOf x.2.2) (q.tailBytes g / t.size) e

theorem tailBlockStep_agree (h : Ready E q g) (f : Nat) (s : RunState t D) :
    Agree (TailDecoded q g f s) (tailBlockStep E q g f s)
      (tailPlanes E q g (q.chunks.bytes f) (s.cursors f)) := by
  unfold tailBlockStep tailPlanes
  dsimp only
  split
  · next hzero =>
    refine ⟨⟨s.work, ?_⟩, rfl, fun e he => ?_⟩
    · rw [Function.update_eq_self]
    · rw [hzero, Nat.zero_div] at he
      exact absurd he (Nat.not_lt_zero e)
  · apply Agree.bind_same
    intro nbytes
    cases decodePlain E.codecs (tailDecode q.pipe.decode)
      (blockBytes (q.chunks.bytes f) (s.cursors f) nbytes) (q.tailBytes g) with
    | none => rfl
    | some planes =>
      dsimp only
      apply Agree.bind_same
      intro _
      obtain ⟨c, hc⟩ := tailBytes_whole q g
      have hne : q.tailBytes g / t.size = 8 * c := by rw [hc, Nat.mul_div_cancel _ t.size_pos]
      set raw := copyTo s.work.mem 0 (q.tailBytes g) (bytesOf planes) with hraw
      obtain ⟨out, scratch, hr, hout⟩ := (untransposeBackend_spec h.kernels
        (tailUntranspose q.pipe.untranspose) raw (offset raw g.blocksize) (q.tailBytes g / t.size)
        t.size).1 (by rw [hne]; exact Nat.dvd_mul_right 8 c)
      rw [hr]
      refine ⟨⟨_, rfl⟩, rfl, fun e he => ?_⟩
      have hplanes : ∀ i, i < q.tailBytes g / t.size * t.size → raw i = bytesOf planes i := by
        intro i hi
        rw [hne, ← hc] at hi
        rw [hraw, copyTo, if_pos ⟨Nat.zero_le i, by omega⟩, Nat.sub_zero]
      have h8 : 8 ∣ q.tailBytes g / t.size := by
        rw [hne]
        exact Nat.dvd_mul_right 8 c
      rw [← (hout.congr h8 hplanes).pixel he]
      apply pixelAt_congr
      intro k hk
      have hmul := Nat.mul_le_mul_right t.size (show e + 1 ≤ q.tailBytes g / t.size from he)
      rw [Nat.succ_mul, hne, ← hc] at hmul
      dsimp only
      rw [copyTo, if_pos ⟨Nat.zero_le _, by omega⟩, Nat.sub_zero]

/-- The raw bytes put behind the pixels of the last block. -/
structure RawDone (q : Call t nij D) (g : Geometry) (f : Nat) (s s' : RunState t D) : Prop where
  state : ∃ block, s' = { s with work := { s.work with block } }
  front : ∀ i, i < q.tailBytes g → s'.work.block i = s.work.block i
  back : q.pixels = false → ∀ i, i < q.rawBytes g → s'.work.block (q.tailBytes g + i) =
    bytesOf ((q.chunks.bytes f).drop ((q.chunks.bytes f).length - q.rawBytes g)) i

theorem rawStep_agree (q : Call t nij D) (g : Geometry) (f : Nat) (s : RunState t D) :
    Agree (fun s' _ => RawDone q g f s s') (rawStep q g f s)
      (checkRaw q g (q.chunks.bytes f) (s.cursors f)) := by
  unfold rawStep checkRaw
  dsimp only
  split
  · next hnone =>
    refine ⟨⟨s.work.block, rfl⟩, fun _ _ => rfl, fun hq i hi => ?_⟩
    rcases hnone with hzero | hpixels
    · omega
    · rw [hq] at hpixels
      cases hpixels
  · cases refuse (decide ((q.chunks.bytes f).length < q.rawBytes g) ||
      decide ((q.chunks.bytes f).length - q.rawBytes g < s.cursors f)) Err.corruptChunk with
    | error e => rfl
    | ok u =>
      refine ⟨⟨_, rfl⟩, fun i hi => ?_, fun _ i hi => ?_⟩
      · exact if_neg (by omega)
      · exact (if_pos ⟨by omega, by omega⟩).trans (by rw [Nat.add_sub_cancel_left])

/-- The pixels of the tail, as the collect finds them. -/
theorem tail_pixels (h : Ready E q g) {f : Nat} {s s₁ s₂ : RunState t D} {nbytes : Nat}
    {x : Nat × Nat × List Byte} (hblock : TailDecoded q g f s (s₁, nbytes) x)
    (hraw : RawDone q g f s₁ s₂) {e : Nat} (he : e < nij % g.blockElems t) :
    (if q.pixels then framePixels q f (g.tailStart t) else pixelAt t s₂.work.block) e =
      tailPixels q g (q.chunks.bytes f) x.2.2 e := by
  unfold tailPixels
  cases hq : q.pixels with
  | true => rfl
  | false =>
    rw [if_neg (by decide), if_neg (by decide)]
    obtain ⟨c, hc⟩ := tailBytes_whole q g
    have hne : q.tailBytes g / t.size = 8 * c := by rw [hc, Nat.mul_div_cancel _ t.size_pos]
    have hsize : q.tailBytes g + q.rawBytes g = nij % g.blockElems t * t.size := by
      rw [← tail_size h]
      have hle := tailBytes_le q g
      unfold Call.rawBytes
      omega
    have hmul := Nat.mul_le_mul_right t.size (show e + 1 ≤ nij % g.blockElems t from he)
    rw [Nat.succ_mul] at hmul
    split
    · next hlt =>
      rw [← hblock.pixels e hlt]
      apply pixelAt_congr
      intro k hk
      rw [hne] at hlt
      have hend := Nat.mul_le_mul_right t.size (show e + 1 ≤ 8 * c from hlt)
      rw [Nat.succ_mul, ← hc] at hend
      exact hraw.front _ (by omega)
    · next hge =>
      rw [hne] at hge ⊢
      obtain ⟨d, rfl⟩ : ∃ d, e = 8 * c + d := ⟨e - 8 * c, by omega⟩
      rw [Nat.add_sub_cancel_left]
      refine gather_congr fun k hk => ?_
      have hlt : k / 8 < t.size := by
        simp only [Dtype.bits] at hk
        omega
      rw [Nat.add_mul, ← hc, Nat.add_assoc, hraw.back hq]
      rw [Nat.add_mul, ← hc] at hmul
      omega

/-- The end of a frame. -/
theorem endFrame_spec (htop : ∀ top ∈ q.top, 0 ≤ top.howmany) {f : Nat} {s : RunState t D}
    {a : FrameState t D} (h : Carries nij s f a) (hle : a.list.length ≤ nij) :
    Carries nij (endFrame q f s) f (a.finish q) ∧ Spares nij f s (endFrame q f s) := by
  unfold endFrame FrameState.finish
  cases hq : q.top with
  | none => exact ⟨h, Spares.refl nij f s⟩
  | some top =>
    have hhow := htop top (Option.mem_def.mpr hq)
    obtain ⟨hcarries, hspares⟩ := raiseFrame_spec (q := q) h hle
    have hlen := (length_raise_le q a).trans hle
    dsimp only
    set s₁ := raiseFrame q f s with hs₁
    set a₁ := a.raise q with ha₁
    have hnpx := hcarries.npx
    constructor
    · refine ⟨hcarries.level, ?_, ?_, hcarries.powder⟩
      · -- the first `howmany` entries
        rw [← hcarries.list]
        unfold Sink.entries RunState.out
        dsimp only
        rw [← List.map_take, List.take_range]
        have hcount : (if top.howmany < (s₁.npx f : Int)
            then Function.update s₁.npx f top.howmany.toNat else s₁.npx) f =
            min top.howmany.toNat (s₁.npx f) := by
          split
          · rw [Function.update_self]
            omega
          · omega
        rw [hcount]
      · dsimp only
        rw [Function.update_self, hnpx]
    · have hother : ∀ f', f' ≠ f → (if top.howmany < (s₁.npx f : Int)
          then Function.update s₁.npx f top.howmany.toNat else s₁.npx) f' = s₁.npx f' := by
        intro f' hf
        split
        · exact Function.update_of_ne hf _ _
        · rfl
      refine ⟨hspares.level, fun f' hf hnpx' => ?_, fun f' hf => ?_, hspares.powder⟩
      · rw [← hspares.list f' hf hnpx']
        unfold Sink.entries RunState.out
        dsimp only
        rw [hother f' hf]
      · exact (Function.update_of_ne hf _ _).trans (hspares.nabove f' hf)

theorem finish_keeps (q : Call t nij D) (a : FrameState t D) :
    (a.finish q).pos = a.pos ∧ (a.finish q).overread = a.overread ∧
      (a.finish q).list.length ≤ a.list.length := by
  unfold FrameState.finish
  cases q.top with
  | none => exact ⟨rfl, rfl, le_rfl⟩
  | some top =>
    obtain ⟨hpos, -, hover⟩ := raise_keeps (q := q) a
    refine ⟨hpos, hover, ?_⟩
    dsimp only
    rw [List.length_take]
    exact (Nat.min_le_right _ _).trans (length_raise_le q a)

/-- What the tail adds after the level was raised. -/
theorem Stepped.finish (htop : ∀ top ∈ q.top, 0 ≤ top.howmany) {m k f : Nat}
    {s s₂ : RunState t D} {a a₂ : FrameState t D} (hpos : s₂.cursors f = a₂.pos)
    (hcursors : ∀ f', f' ≠ f → s₂.cursors f' = s.cursors f') (hover : a₂.overread = a.overread)
    (hraised : Carries nij s f a → a.list.length ≤ m →
      Carries nij s₂ f a₂ ∧ Spares nij f s s₂ ∧ a₂.list.length ≤ m) (hroom : m + k ≤ nij)
    (o : Sink (Pixel t)) (es : List (Nat × Pixel t)) {powder : Nat → D} (p : Nat → D)
    (ws : Workspace t)
    (hstep : Carries nij s₂ f a₂ → Emits (s₂.out nij f) o es k ∧ powder = p) :
    Stepped nij m nij f s a
      (endFrame q f
        { s₂.setOut nij f o with work := ws, powder := Function.update s₂.powder f powder })
      (({ a₂ with list := a₂.list ++ es, powder := p } : FrameState t D).finish q) := by
  obtain ⟨hpos', hover', hlen⟩ :=
    finish_keeps q ({ a₂ with list := a₂.list ++ es, powder := p } : FrameState t D)
  refine ⟨?_, fun f' hf => ?_, fun hno => ?_, fun _ hc hm => ?_⟩
  · rw [endFrame_cursors, hpos']
    exact hpos
  · rw [endFrame_cursors]
    exact hcursors f' hf
  · rw [← hover, ← hno, hover']
  · obtain ⟨hcarries, hspares, hm'⟩ := hraised hc hm
    obtain ⟨hemits, rfl⟩ := hstep hcarries
    obtain ⟨hcarries', hspares'⟩ := carries_emit hcarries hemits (by omega) ws powder
    have hadded := hemits.length_le
    rw [List.length_append] at hlen
    obtain ⟨hcarries'', hspares''⟩ := endFrame_spec htop hcarries' (by
      dsimp only
      rw [List.length_append]
      omega)
    exact ⟨hcarries'', (hspares.trans hspares').trans hspares'', by omega⟩

/-- The tail. -/
theorem tailStep_agree (h : Ready E q g) (htop : ∀ top ∈ q.top, 0 ≤ top.howmany) {f : Nat}
    {s : RunState t D} {a : FrameState t D} (hpos : s.cursors f = a.pos) :
    Agree (Stepped nij (g.tailStart t) nij f s a) (tailStep E q g s f)
      (frameTail E q g (q.chunks.bytes f) a) := by
  have hend := tail_end h
  unfold tailStep frameTail
  rw [← hpos]
  apply (tailBlockStep_agree h f s).bind
  intro r x hblock
  obtain ⟨s₁, nbytes⟩ := r
  obtain ⟨pos, nbytes', planes⟩ := x
  obtain ⟨work, hs₁⟩ := hblock.state
  obtain rfl : nbytes = nbytes' := hblock.nbytes
  have hcheck : s₁.cursors f = pos := by
    rw [show s₁ = _ from hs₁]
    exact Function.update_self _ _ _
  dsimp only
  rw [← hcheck]
  apply (rawStep_agree q g f s₁).bind
  intro s₂ u hraw
  obtain ⟨block, hs₂⟩ := hraw.state
  dsimp only at hs₁
  have hpixels : ∀ e, e < nij % g.blockElems t →
      (if q.pixels then framePixels q f (g.tailStart t) else pixelAt t s₂.work.block) e =
        tailPixels q g (q.chunks.bytes f) planes e := fun e he => tail_pixels h hblock hraw he
  have hwork : (raiseFrame q f s₂).work = s₂.work := raiseFrame_work
  have hcursors : (raiseFrame q f s₂).cursors = s₂.cursors := raiseFrame_cursors
  set a₂ : FrameState t D := { a with pos := s₁.cursors f } with ha₂
  obtain ⟨hposition, -, hover⟩ : (a₂.raise q).pos = a₂.pos ∧ (a₂.raise q).nabove = a₂.nabove ∧
    (a₂.raise q).overread = a.overread := raise_keeps a₂
  have hcur : (raiseFrame q f s₂).cursors f = (a₂.raise q).pos := by
    rw [hcursors, hposition, hs₂]
  have hother : ∀ f', f' ≠ f → (raiseFrame q f s₂).cursors f' = s.cursors f' := by
    intro f' hf
    rw [hcursors, hs₂, hs₁]
    exact Function.update_of_ne hf _ _
  -- the level and the list before the tail is collected
  have hraised : Carries nij s f a → a.list.length ≤ g.tailStart t →
      Carries nij (raiseFrame q f s₂) f (a₂.raise q) ∧ Spares nij f s (raiseFrame q f s₂) ∧
        (a₂.raise q).list.length ≤ g.tailStart t := by
    intro hc hlen
    have hmoved : Carries nij s₂ f a₂ := by
      rw [hs₂, hs₁]
      exact hc.move _ _ _
    have hsame : Spares nij f s s₂ := by
      rw [hs₂, hs₁]
      exact ⟨fun _ _ => rfl, fun _ _ _ => rfl, fun _ _ => rfl, fun _ _ => rfl⟩
    obtain ⟨hcarries, hspares⟩ := raiseFrame_spec (q := q) hmoved (show a.list.length ≤ nij by omega)
    exact ⟨hcarries, hsame.trans hspares, (length_raise_le q a₂).trans hlen⟩
  rw [← hwork] at hpixels
  rw [tail_elems h]
  set s₃ := raiseFrame q f s₂ with hs₃
  set a₃ := a₂.raise q with ha₃
  cases hdot : q.dot with
  | none =>
    have hstepped := Stepped.finish htop hcur hother hover hraised hend.le
      (sparseBlock q.pipe.collect ⟨q.emask, g.tailStart t, nij % g.blockElems t, q.cutAt (s₃.level f)⟩
        (if q.pixels then framePixels q f (g.tailStart t) else pixelAt t s₃.work.block) (s₃.out nij f))
      (passing (above (q.cutAt a₃.level))
        ⟨q.emask, g.tailStart t, nij % g.blockElems t, q.cutAt a₃.level⟩
        (tailPixels q g (q.chunks.bytes f) planes))
      a₃.powder s₃.work fun hc => ⟨?_, hc.powder⟩
    · rw [Function.update_eq_self] at hstepped
      exact hstepped
    · rw [hc.level]
      have hemits := sparseBlock_emits q.pipe.collect
        ⟨q.emask, g.tailStart t, nij % g.blockElems t, q.cutAt a₃.level⟩
        (if q.pixels then framePixels q f (g.tailStart t) else pixelAt t s₃.work.block) (s₃.out nij f)
      rwa [passing_congr hpixels fun _ _ => rfl] at hemits
  | some d =>
    obtain ⟨route, dot⟩ := d
    apply Stepped.finish htop hcur hother hover hraised hend.le
    intro hc
    rw [hc.level, hc.powder]
    obtain ⟨hemits, hpowder⟩ := sparseDotBlock_spec (h.reads hdot) q.pipe.collect
      (tailSparse q g route nbytes)
      (w := ⟨q.emask, g.tailStart t, nij % g.blockElems t, q.cutAt a₃.level⟩) h.tail_fits hpixels
      s₃.work (s₃.out nij f) a₃.powder
    exact ⟨hemits, funext fun i => congrArg dot.finish (congrFun hpowder i)⟩

/-! ## All frames -/

/-- The frames from `k` on are where their chunks have come to, and as long as no frame over-read, every
frame has its level, its list and its powder. `m f` bounds the list of frame `f`. -/
structure Simulates (q : Call t nij D) (m : Nat → Nat) (s : RunState t D) (a : Nat → FrameState t D) :
    Prop where
  pos : ∀ f, f < q.chunks.nframes → s.cursors f = (a f).pos
  carried : (∀ f, f < q.chunks.nframes → (a f).overread = false) → ∀ f, f < q.chunks.nframes →
    Carries nij s f (a f) ∧ (a f).list.length ≤ m f

theorem Simulates.mono {m m' : Nat → Nat} {s : RunState t D} {a : Nat → FrameState t D}
    (h : Simulates q m s a) (hm : ∀ f, f < q.chunks.nframes → m f ≤ m' f) : Simulates q m' s a :=
  ⟨h.pos, fun hno f hf => ⟨(h.carried hno f hf).1, (h.carried hno f hf).2.trans (hm f hf)⟩⟩

/-- A step of one frame keeps the other ones. -/
theorem Simulates.step {m : Nat → Nat} {m' f : Nat} {s s' : RunState t D} {a : Nat → FrameState t D}
    {x : FrameState t D} (h : Simulates q m s a) (hf : f < q.chunks.nframes)
    (hm : ∀ f', m f' ≤ nij) (hstep : Stepped nij (m f) m' f s (a f) s' x) :
    Simulates q (Function.update m f m') s' (Function.update a f x) := by
  constructor
  · intro f' hf'
    by_cases heq : f' = f
    · subst heq
      rw [Function.update_self]
      exact hstep.pos
    · rw [Function.update_of_ne heq, hstep.cursors f' heq]
      exact h.pos f' hf'
  · intro hno
    have hx : x.overread = false := by
      have hself := hno f hf
      rwa [Function.update_self] at hself
    have hbefore : ∀ f', f' < q.chunks.nframes → (a f').overread = false := by
      intro f' hf'
      by_cases heq : f' = f
      · subst heq
        exact hstep.overread hx
      · have hother := hno f' hf'
        rwa [Function.update_of_ne heq] at hother
    obtain ⟨hc, hlen⟩ := h.carried hbefore f hf
    obtain ⟨hcarries, hspares, hlen'⟩ := hstep.carried hx hc hlen
    intro f' hf'
    by_cases heq : f' = f
    · subst heq
      rw [Function.update_self, Function.update_self]
      exact ⟨hcarries, hlen'⟩
    · rw [Function.update_of_ne heq, Function.update_of_ne heq]
      obtain ⟨hc', hlen''⟩ := h.carried hbefore f' hf'
      exact ⟨hspares.carries heq (hlen''.trans (hm f')) hc', hlen''⟩

/-- A turn of every frame. -/
theorem round_agree {m m' : Nat} (hm : m ≤ nij) (hm' : m' ≤ nij)
    {step : RunState t D → Nat → Except Err (RunState t D)}
    {alone : Nat → FrameState t D → Except Err (FrameState t D)}
    (hstep : ∀ f, f < q.chunks.nframes → ∀ s a, s.cursors f = a.pos →
      Agree (Stepped nij m m' f s a) (step s f) (alone f a))
    {s : RunState t D} {a : Nat → FrameState t D} (h : Simulates q (fun _ => m) s a) :
    Agree (Simulates q fun _ => m') ((List.range q.chunks.nframes).foldlM step s)
      (round q.chunks.nframes alone a) := by
  have hloop := foldlM_range_agree (f := step) (g := turn alone) (n := q.chunks.nframes)
    (fun k s a => Simulates q (fun f => if f < k then m' else m) s a) (s := s) (t := a)
    (by simpa using h) ?_
  · apply hloop.mono
    intro s a hs
    apply hs.mono
    intro f hf
    rw [if_pos hf]
  · intro k hk s a hs
    unfold turn
    have hmk : (if k < k then m' else m) = m := if_neg (Nat.lt_irrefl k)
    apply (hstep k hk s (a k) (hs.pos k hk)).map_right
    intro s' x hx
    rw [← hmk] at hx
    have hnext := hs.step hk (fun f => by split <;> assumption) hx
    apply hnext.mono
    intro f _
    by_cases heq : f = k
    · subst heq
      rw [Function.update_self, if_pos (Nat.lt_succ_self f)]
    · rw [Function.update_of_ne heq]
      exact (if_congr (by omega) rfl rfl).le

/-- The blocks and the tails of all frames, next to those of each frame alone. -/
theorem runTails_agree (h : Ready E q g) (htop : ∀ top ∈ q.top, 0 ≤ top.howmany) (s : RunState t D) :
    Agree (Simulates q fun _ => nij) (runTails E q g s q.chunks.nframes)
      ((rounds q.chunks.nframes (g.total / g.blocksize)
        (fun b f => frameBlock E q g (q.chunks.bytes f) b) fun f => startFrame q (s.powder f)).bind
          (round q.chunks.nframes fun f => frameTail E q g (q.chunks.bytes f))) := by
  have hend := tail_end h
  have hblocks : Agree (Simulates q fun _ => g.tailStart t)
      ((List.range (g.total / g.blocksize)).foldlM (blockRow E q g) (startRun q s))
      (rounds q.chunks.nframes (g.total / g.blocksize)
        (fun b f => frameBlock E q g (q.chunks.bytes f) b) fun f => startFrame q (s.powder f)) := by
    unfold rounds
    apply foldlM_range_agree fun b s a => Simulates q (fun _ => b * g.blockElems t) s a
    · refine ⟨fun f _ => rfl, fun _ f _ => ⟨⟨rfl, rfl, rfl, ?_⟩, Nat.zero_le _⟩⟩
      unfold startRun startFrame
      cases q.dot with
      | none => rfl
      | some d => rfl
    · intro b hb s a hs
      have hle := h.aligned.block_le h.total hb
      rw [Nat.succ_mul]
      exact round_agree (by omega) hle (fun f _ s a hpos => blockStep_agree h hb hpos) hs
  unfold runTails
  apply hblocks.bind
  intro s a hs
  exact round_agree (by omega) le_rfl (fun f _ s a hpos => tailStep_agree h htop hpos) hs

/-- The frames of a run, each from its own chunk alone. -/
theorem frames_apart (E : Platform) (q : Call t nij D) (g : Geometry) (s : RunState t D) :
    Apart q.chunks.nframes (fun f => startFrame q (s.powder f))
      (fun f => frameRun E q g (q.chunks.bytes f) (s.powder f))
      ((rounds q.chunks.nframes (g.total / g.blocksize)
        (fun b f => frameBlock E q g (q.chunks.bytes f) b) fun f => startFrame q (s.powder f)).bind
          (round q.chunks.nframes fun f => frameTail E q g (q.chunks.bytes f))) :=
  (rounds_apart _ _ _ _).round _

theorem run_ready (hK : E.kernels.Inverse) (ha : accept q = .ok g) (hg : Aligned t g) :
    Ready E q g ∧ ∀ top ∈ q.top, 0 ≤ top.howmany := by
  have hacc := accept_ok.mp ha
  exact ⟨Ready.of_accepted hK hacc hg, fun top htop => (hacc.top top htop).1⟩

theorem run_eq (ha : accept q = .ok g) (s : RunState t D) :
    run E q s = runTails E q g s q.chunks.nframes := by
  unfold run
  rw [ha]
  rfl

/-- What a frame has come to after a run that went through: it is what its chunk gives alone, provided
that no frame over-read. -/
theorem run_frames (hK : E.kernels.Inverse) (ha : accept q = .ok g) (hg : Aligned t g)
    {s s' : RunState t D} (h : run E q s = .ok s') :
    ∃ a : Nat → FrameState t D,
      (∀ f, f < q.chunks.nframes → frameRun E q g (q.chunks.bytes f) (s.powder f) = .ok (a f)) ∧
      ((∀ f, f < q.chunks.nframes → (a f).overread = false) →
        ∀ f, f < q.chunks.nframes → Carries nij s' f (a f)) := by
  obtain ⟨hready, htop⟩ := run_ready (E := E) hK ha hg
  have hagree := runTails_agree hready htop s
  rw [run_eq ha] at h
  rw [h] at hagree
  obtain ⟨a, halone, hs⟩ := hagree.ok_left
  refine ⟨a, ((frames_apart E q g s a).mp halone).1, fun hno f hf => (hs.carried hno f hf).1⟩

/-- A run goes through exactly when every frame does. -/
theorem run_ok_iff (hK : E.kernels.Inverse) (ha : accept q = .ok g) (hg : Aligned t g)
    (s : RunState t D) :
    (∃ s', run E q s = .ok s') ↔ ∀ f, f < q.chunks.nframes →
      ∃ a, frameRun E q g (q.chunks.bytes f) (s.powder f) = .ok a := by
  constructor
  · intro h f hf
    obtain ⟨s', hs'⟩ := h
    obtain ⟨a, halone, -⟩ := run_frames hK ha hg hs'
    exact ⟨a f, halone f hf⟩
  · intro h
    obtain ⟨hready, htop⟩ := run_ready (E := E) hK ha hg
    have hagree := runTails_agree hready htop s
    choose x hx using h
    have halone := (frames_apart E q g s
      fun f => if hf : f < q.chunks.nframes then x f hf else startFrame q (s.powder f)).mpr
      ⟨fun f hf => by rw [dif_pos hf]; exact hx f hf, fun f hf => dif_neg (by omega)⟩
    rw [halone] at hagree
    obtain ⟨s', hs', -⟩ := hagree.ok_right
    exact ⟨s', (run_eq ha s).trans hs'⟩

end

end Bslz4ToSparse.Pipeline
