import Bslz4ToSparse.Pipeline.LowPlanesCalls
import Bslz4ToSparse.Pipeline.Overread

/-!
# Frames do not see one another

The workspace is never cleared, and every frame of a batch goes through it. What a run gives a frame
depends on the frame's chunk alone: not on what the workspace held, nor on the frames before it.
The vsx collect is the exception, where it reads bytes behind the planes of a block.
-/

namespace Bslz4ToSparse.Pipeline

open Dot Foundation Steps
open Lz4 (Byte)

variable {t : Dtype} {nij : Nat} {D : Type}

/-- The same call on another batch. -/
def Call.onBatch (q : Call t nij D) (chunks : Chunks) (workspaceLen : Nat) : Call t nij D :=
  { q with chunks, workspaceLen }

/-- What two runs give a frame each is the same; there is a powder with a dot only. -/
structure SameOutcome (nij : Nat) (dotted : Bool) (f f' : Nat) (r r' : RunState t D) : Prop where
  npx : r.npx f = r'.npx f'
  list : (r.out nij f).entries = (r'.out nij f').entries
  level : r.level f = r'.level f'
  nabove : r.nabove f = r'.nabove f'
  powder : dotted = true → r.powder f = r'.powder f'

/-! ## A frame without a dot does not look at the powder -/

section

variable {E : Platform} {q : Call t nij D} {g : Geometry} {c : List Byte}

/-- The powders may differ, where there is no dot. -/
structure SameBut (q : Call t nij D) (a a' : FrameState t D) : Prop where
  pos : a.pos = a'.pos
  level : a.level = a'.level
  list : a.list = a'.list
  nabove : a.nabove = a'.nabove
  overread : a.overread = a'.overread
  powder : q.dot.isSome = true → a.powder = a'.powder

namespace SameBut

variable {a a' : FrameState t D}

theorem raise (h : SameBut q a a') : SameBut q (a.raise q) (a'.raise q) := by
  unfold FrameState.raise
  cases q.top with
  | none => exact h
  | some top =>
    rw [h.level, h.list]
    exact ⟨h.pos, rfl, rfl, h.nabove, h.overread, h.powder⟩

theorem finish (h : SameBut q a a') : SameBut q (a.finish q) (a'.finish q) := by
  unfold FrameState.finish
  cases q.top with
  | none => exact h
  | some top =>
    have hraise := h.raise
    dsimp only
    rw [hraise.list]
    exact ⟨hraise.pos, hraise.level, rfl, rfl, hraise.overread, hraise.powder⟩

theorem move (h : SameBut q a a') (pos : Nat) : SameBut q { a with pos } { a' with pos } :=
  ⟨rfl, h.level, h.list, h.nabove, h.overread, h.powder⟩

end SameBut

theorem frameBlock_sameBut {b : Nat} {a a' : FrameState t D} (h : SameBut q a a') :
    Agree (SameBut q) (frameBlock E q g c b a) (frameBlock E q g c b a') := by
  unfold frameBlock
  rw [h.pos]
  apply Agree.bind_same
  intro x
  obtain ⟨pos, nbytes, px⟩ := x
  have hraise := (h.move pos).raise
  dsimp only
  rw [hraise.level, hraise.list, hraise.overread]
  cases hdot : q.dot with
  | none =>
    exact ⟨hraise.pos, rfl, rfl, hraise.nabove, rfl, fun hsome => hraise.powder hsome⟩
  | some d =>
    rw [hraise.powder (by rw [hdot]; rfl)]
    exact ⟨hraise.pos, rfl, rfl, hraise.nabove, rfl, fun _ => rfl⟩

theorem frameTail_sameBut {a a' : FrameState t D} (h : SameBut q a a') :
    Agree (SameBut q) (frameTail E q g c a) (frameTail E q g c a') := by
  unfold frameTail
  rw [h.pos]
  apply Agree.bind_same
  intro x
  obtain ⟨pos, nbytes, planes⟩ := x
  apply Agree.bind_same
  intro _
  have hraise := (h.move pos).raise
  dsimp only
  rw [hraise.level, hraise.list]
  cases hdot : q.dot with
  | none =>
    apply SameBut.finish
    exact ⟨hraise.pos, rfl, rfl, hraise.nabove, hraise.overread, fun hsome => hraise.powder hsome⟩
  | some d =>
    rw [hraise.powder (by rw [hdot]; rfl)]
    apply SameBut.finish
    exact ⟨hraise.pos, rfl, rfl, hraise.nabove, hraise.overread, fun _ => rfl⟩

/-- A frame from two powders. -/
theorem frameRun_sameBut (powder powder' : Nat → D) :
    Agree (SameBut q) (frameRun E q g c powder) (frameRun E q g c powder') := by
  have hstart : SameBut q (startFrame q powder) (startFrame q powder') := by
    refine ⟨rfl, rfl, rfl, rfl, rfl, fun hsome => ?_⟩
    unfold startFrame
    cases hdot : q.dot with
    | none =>
      rw [hdot] at hsome
      cases hsome
    | some d => rfl
  unfold frameRun frameBlocks
  apply Agree.bind
  · exact foldlM_range_agree (fun _ => SameBut q) hstart fun b _ a a' h => frameBlock_sameBut h
  · exact fun a a' h => frameTail_sameBut h

/-! ## The geometry of a batch -/

theorem readGeometry_pixels (hq : q.pixels = true) (h : readGeometry q = .ok g) :
    g.blocksize = defaultBlockBytes := by
  unfold readGeometry at h
  rw [hq, if_pos rfl] at h
  obtain ⟨-, h⟩ := refuse_bind_ok.mp h
  obtain ⟨-, -, h⟩ := bind_eq_ok.mp h
  obtain rfl := Except.ok.inj h
  rfl

/-- An accepted batch with whole groups of 8 pixels. -/
theorem aligned_of_accept (ha : accept q = .ok g) {f : Nat} (hf : f < q.chunks.nframes)
    (h8 : q.pixels = false → 8 * t.size ∣ headerBlocksize (q.chunks.bytes f)) : Aligned t g := by
  have hgeom := (accept_ok.mp ha).geometry
  cases hq : q.pixels with
  | false =>
    have hhead := checkFrames_ok.mp ((readGeometry_chunks hq).mp hgeom)
    have hbs := hhead.blocksize f hf
    constructor
    · rw [← hbs]
      exact headerBlocksize_pos _
    · rw [← hbs]
      exact h8 hq
  | true =>
    have hbs := readGeometry_pixels hq hgeom
    refine ⟨by rw [hbs]; decide, ?_⟩
    rw [hbs]
    change 8 * t.size ∣ 8192
    rcases t.size_cases with h | h | h | h <;> rw [h] <;> decide

/-- Two batches with one chunk in common have the same geometry. -/
theorem geometry_of_accept (ha : accept q = .ok g) {f : Nat} (hf : f < q.chunks.nframes)
    {q' : Call t nij D} {g' : Geometry} {f' : Nat} (ha' : accept q' = .ok g')
    (hf' : f' < q'.chunks.nframes) (hp : q.pixels = q'.pixels)
    (hsame : q.chunks.bytes f = q'.chunks.bytes f') : g = g' := by
  have htotal := (accept_ok.mp ha).total.trans (accept_ok.mp ha').total.symm
  have hgeom := (accept_ok.mp ha).geometry
  have hgeom' := (accept_ok.mp ha').geometry
  have hblocksize : g.blocksize = g'.blocksize := by
    cases hq : q.pixels with
    | false =>
      have hhead := checkFrames_ok.mp ((readGeometry_chunks hq).mp hgeom)
      have hhead' := checkFrames_ok.mp ((readGeometry_chunks (hp ▸ hq)).mp hgeom')
      rw [← hhead.blocksize f hf, ← hhead'.blocksize f' hf', hsame]
    | true =>
      rw [readGeometry_pixels hq hgeom, readGeometry_pixels (hp ▸ hq) hgeom']
  obtain ⟨total, blocksize⟩ := g
  obtain ⟨total', blocksize'⟩ := g'
  dsimp only at htotal hblocksize
  rw [htotal, hblocksize]

end

/-- A frame of a run that went through has the same list, level, counts and powder wherever its chunk
stands in a batch, and whatever the workspace holds, as long as no block over-reads. -/
theorem frame_isolated (E : Platform) (hK : E.kernels.Inverse) (q : Call t nij D) (chunks : Chunks)
    (workspaceLen : Nat) {f f' : Nat} (hf : f < q.chunks.nframes) (hf' : f' < chunks.nframes)
    (hsame : q.chunks.bytes f = chunks.bytes f')
    (h8 : q.pixels = false → 8 * t.size ∣ headerBlocksize (q.chunks.bytes f))
    (hclean : NoOverread E q) (hclean' : NoOverread E (q.onBatch chunks workspaceLen))
    (s s' : RunState t D) :
    ∀ r r', run E q s = .ok r → run E (q.onBatch chunks workspaceLen) s' = .ok r' →
      SameOutcome nij q.dot.isSome f f' r r' := by
  intro r r' hr hr'
  set q' := q.onBatch chunks workspaceLen with hq'
  obtain ⟨g, ha, -⟩ := bind_eq_ok.mp hr
  obtain ⟨g', ha', -⟩ := bind_eq_ok.mp hr'
  obtain rfl : g = g' := geometry_of_accept ha hf ha' hf' rfl hsame
  have hg := aligned_of_accept ha hf h8
  obtain ⟨a, halone, hcarried⟩ := run_frames hK ha hg hr
  obtain ⟨a', halone', hcarried'⟩ := run_frames hK ha' hg hr'
  have hc := hcarried (fun k hk => overread_eq_false (hclean g ha k hk) (halone k hk)) f hf
  have hc' := hcarried' (fun k hk => overread_eq_false (hclean' g ha' k hk) (halone' k hk)) f' hf'
  -- both frames are what the chunk gives alone
  have halone' : frameRun E q g (q.chunks.bytes f) (s'.powder f') = .ok (a' f') := by
    rw [hsame]
    exact halone' f' hf'
  have hbut := frameRun_sameBut (E := E) (q := q) (g := g) (c := q.chunks.bytes f) (s.powder f)
    (s'.powder f')
  rw [halone f hf, halone'] at hbut
  constructor
  · rw [hc.npx, hc'.npx, hbut.list]
  · rw [hc.list, hc'.list, hbut.list]
  · rw [hc.level, hc'.level, hbut.level]
  · rw [hc.nabove, hc'.nabove, hbut.nabove]
  · intro hsome
    rw [hc.powder, hc'.powder, hbut.powder hsome]

/-! ## A block of 8 pixels -/

/-- A chunk of 8 pixels in one block: the first pixel is 1, and the decoder stores two bytes. -/
def eightPixels : List Byte :=
  [0#8, 0#8, 0#8, 0#8, 0#8, 0#8, 0#8, 16#8, 0#8, 0#8, 0#8, 16#8,
    0#8, 0#8, 0#8, 16#8, 0x20#8, 1#8, 0#8, 1#8, 0#8, 0xA0#8, 0#8, 0#8, 0#8, 0#8, 0#8, 0#8, 0#8, 0#8,
    0#8, 0#8]

/-- `n` times this chunk. -/
def eightPixelsBatch (n : Nat) (h : n < 2 ^ 31) : Chunks where
  nframes := n
  bytes := fun _ => eightPixels
  nframes_lt := h
  length_lt := fun _ => by decide

theorem scalar_simd : Collect.scalar ≠ .scalar → Dtype.u16 = .u16 ∨ Dtype.u16 = .u32 :=
  fun _ => .inl rfl

def eightPixelsCall (untranspose : Untranspose) : Call .u16 8 Unit where
  chunks := eightPixelsBatch 1 oneFrame_lt
  mask := fun _ => 1#8
  cut := [0#16]
  pipe := ⟨.lz4Zero, .pixel, untranspose, .scalar, fun _ => rfl, scalar_simd⟩
  dot := none
  top := none
  workspaceLen := 48

/-- A workspace where every byte is `b`. -/
def RunState.filled (b : Byte) (powder : D) : RunState t D :=
  { RunState.zeros powder with work := ⟨fun _ => b, fun _ => b, fun _ => 0, fun _ => 0#_⟩ }

theorem frame_isolated_eightPixels :
    (run .plain (eightPixelsCall .kcb) (.filled 1#8 ())).toBool = true ∧
      ∀ r r', run .plain (eightPixelsCall .kcb) (.filled 1#8 ()) = .ok r →
        run .plain ((eightPixelsCall .kcb).onBatch (eightPixelsBatch 2 twoFrames_lt) 48) (.zeros ()) =
          .ok r' →
        SameOutcome 8 false 0 1 r r' :=
  ⟨by decide +kernel, frame_isolated .plain Kernels.scalarOnly_inverse (eightPixelsCall .kcb)
    (eightPixelsBatch 2 twoFrames_lt) 48 (by decide) (by decide) rfl (fun _ => by decide)
    (noOverread_of_value (by decide)) (noOverread_of_value (by decide)) _ _⟩

/-- The vsx collect lists what the workspace held behind the two bytes. -/
theorem workspace_leaks :
    Platform.plain.kernels.Inverse ∧ 8 * Dtype.size .u16 ∣ headerBlocksize eightPixels ∧
      ¬ ∀ r r', run .plain (eightPixelsCall .lowplanesVsx) (.zeros ()) = .ok r →
        run .plain (eightPixelsCall .lowplanesVsx) (.filled 1#8 ()) = .ok r' →
        SameOutcome 8 false 0 0 r r' := by
  refine ⟨Kernels.scalarOnly_inverse, by decide, fun h => ?_⟩
  have hzeros : (run .plain (eightPixelsCall .lowplanesVsx) (.zeros ())).map (fun r => r.npx 0) =
      .ok 1 := by decide +kernel
  have hones : (run .plain (eightPixelsCall .lowplanesVsx) (.filled 1#8 ())).map (fun r => r.npx 0) =
      .ok 8 := by decide +kernel
  cases hr : run .plain (eightPixelsCall .lowplanesVsx) (.zeros ()) with
  | error e =>
    rw [hr] at hzeros
    cases hzeros
  | ok r =>
    cases hr' : run .plain (eightPixelsCall .lowplanesVsx) (.filled 1#8 ()) with
    | error e =>
      rw [hr'] at hones
      cases hones
    | ok r' =>
      have hnpx := (h r r' hr hr').npx
      rw [hr] at hzeros
      rw [hr'] at hones
      have hone : r.npx 0 = 1 := Except.ok.inj hzeros
      have height : r'.npx 0 = 8 := Except.ok.inj hones
      omega

end Bslz4ToSparse.Pipeline
