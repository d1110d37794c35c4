import Bslz4ToSparse.Pipeline.Request
import Bslz4ToSparse.Steps.LowPlanes

/-!
# The driver (src/pipeline/driver.c)

The loop over the blocks of a batch of frames. Every block of every frame goes through the same
workspace; the list, the level, the cursor and the powder are a frame's own. The output arrays
of all frames lie behind one another, `nij` entries each.
-/

namespace Bslz4ToSparse.Pipeline

open Dot Foundation Steps
open Lz4 (Byte)

variable {t : Dtype} {nij : Nat} {D : Type}

/-! ## The state -/

/-- The workspace. -/
structure Workspace (t : Dtype) where
  mem : Memory                -- `raw` at 0, the scratch at `blocksize`
  block : Memory
  tidx : Nat → Nat
  tval : Nat → Pixel t

/-- What the driver reads and writes besides its arguments. -/
structure RunState (t : Dtype) (D : Type) where
  work : Workspace t
  vals : Nat → Pixel t        -- `outpx`
  adr : Nat → Nat             -- `output_adr`
  npx : Nat → Nat
  cursors : Nat → Nat
  level : Nat → Nat           -- one more than `level[f]`: 0 is the call's cut
  nabove : Nat → Nat
  powder : Nat → Nat → D

/-- The output arrays from frame `f` on. -/
def RunState.out (s : RunState t D) (nij f : Nat) : Sink (Pixel t) where
  vals := fun i => s.vals (f * nij + i)
  adr := fun i => s.adr (f * nij + i)
  npx := s.npx f

def RunState.setOut (s : RunState t D) (nij f : Nat) (o : Sink (Pixel t)) : RunState t D :=
  { s with
    vals := fun i => if f * nij ≤ i then o.vals (i - f * nij) else s.vals i
    adr := fun i => if f * nij ≤ i then o.adr (i - f * nij) else s.adr i
    npx := Function.update s.npx f o.npx }

/-- `raw` and the scratch behind it. -/
def joinMem (blocksize : Nat) (raw scratch : Memory) : Memory := fun i =>
  if i < blocksize then raw i else scratch (i - blocksize)

/-! ## The collect and dot kernels (src/steps/kernels.cpp) -/

/-- What a kernel is handed besides its pixels (`bslz4_work`). -/
structure Work (t : Dtype) where
  mask : Mask
  i0 : Nat
  n : Nat
  cut : Option (Pixel t)

/-- `bslz4_sparse_block`. -/
def sparseBlock (collect : Collect) (w : Work t) (px : Nat → Pixel t) (o : Sink (Pixel t)) :
    Sink (Pixel t) :=
  match w.cut with
  | none => o
  | some cut => collectGt t collect w.mask px w.i0 w.n cut o

/-- The last loop of the sparse routes: the listed pixels above the cut. -/
def copyAbove (cut : Option (Pixel t)) (l : PixelList (Pixel t)) (o : Sink (Pixel t)) :
    Sink (Pixel t) :=
  (List.range l.nz).foldl (fun o kk => o.putIf (above cut (l.tval kk)) (l.tval kk) (l.tidx kk)) o

/-- The lists of the workspace with `nz` entries. -/
def Workspace.list (ws : Workspace t) (nz : Nat) : PixelList (Pixel t) := ⟨ws.tidx, ws.tval, nz⟩

/-- `bslz4_sparse_dot_block`, on a block or with a list that was made before. -/
def sparseDotBlock (K : DotKernel (Pixel t) D) (collect : Collect) (sparse : Bool) (w : Work t)
    (px : Nat → Pixel t) (ws : Workspace t) (o : Sink (Pixel t)) (powder : Nat → D) :
    Workspace t × Sink (Pixel t) × (Nat → D) :=
  if sparse then
    let l := collectNz t collect w.mask px w.i0 w.n ⟨ws.tval, ws.tidx, 0⟩
    let ws := { ws with tidx := l.adr, tval := l.vals }
    (ws, copyAbove w.cut (ws.list l.npx) o, K.sparse w.i0 w.n (ws.list l.npx) powder)
  else (ws, sparseBlock collect w px o, K.dense px w.i0 w.n powder)

/-- `bslz4_filter_gt`: in place. -/
def filterGt (cut : Option (Pixel t)) (o : Sink (Pixel t)) : Sink (Pixel t) :=
  (List.range o.npx).foldl (fun r i => r.putIf (above cut (r.vals i)) (r.vals i) (r.adr i))
    { o with npx := 0 }

/-! ## Raising a level -/

/-- Over the limit: more than `howmany` at the cut, `howmany` or more at a threshold. -/
def Top.over (top : Top) (level n : Nat) : Bool :=
  if level = 0 then decide (top.howmany < n) else decide (top.howmany ≤ n)

/-- The loop of `top_raise` with `left` thresholds to go. -/
def Top.raiseFrom (top : Top) : Nat → Nat → Sink (Pixel t) → Nat × Sink (Pixel t)
  | 0, level, o => (level, o)
  | left + 1, level, o =>
      if top.over level o.npx then
        raiseFrom top left (level + 1) (filterGt (top.filterCut t level) o)
      else (level, o)

/-- `top_raise`. -/
def Top.raise (top : Top) (level : Nat) (o : Sink (Pixel t)) : Nat × Sink (Pixel t) :=
  top.raiseFrom (top.nthr.toNat - level) level o

def raiseFrame (q : Call t nij D) (f : Nat) (s : RunState t D) : RunState t D :=
  match q.top with
  | none => s
  | some top =>
      let r := top.raise (s.level f) (s.out nij f)
      { s.setOut nij f r.2 with level := Function.update s.level f r.1 }

/-! ## One block -/

/-- The size of the block at `pos`, where it stays inside the chunk. -/
def readSize (c : List Byte) (pos : Nat) : Except Err Nat := do
  refuse (decide (c.length < pos + 4)) .corruptChunk
  refuse (decide (c.length < pos + 4 + readBe32 c pos)) .corruptChunk
  return readBe32 c pos

/-- The compressed bytes of the block at `pos`. -/
def blockBytes (c : List Byte) (pos nbytes : Nat) : List Byte := (c.drop (pos + 4)).take nbytes

/-- The block of frame `f` decoded into `raw`: its compressed size and `nz_end`. -/
def decodeStep (E : Platform) (q : Call t nij D) (g : Geometry) (f : Nat) (s : RunState t D) :
    Except Err (RunState t D × Nat × Nat) :=
  if q.pixels then return (s, 0, g.blocksize)
  else do
    let c := q.chunks.bytes f
    let pos := s.cursors f
    let nbytes ← readSize c pos
    let (mem, nzEnd) ← decodeBlock E.codecs E.sse2 q.pipe.decode (blockBytes c pos nbytes)
      s.work.mem g.blocksize
    return ({ s with
      cursors := Function.update s.cursors f (pos + nbytes + 4)
      work := { s.work with mem } }, nbytes, nzEnd)

/-- `emask`. -/
def Call.emask (q : Call t nij D) : Mask := if q.pipe.mask = .none then none else some q.mask

/-- `maskplanes`: the mask is ANDed into the planes. -/
def Call.maskplanes (q : Call t nij D) (g : Geometry) : Bool :=
  !q.pixels && q.pipe.mask == .planes && decide (g.blockElems t ≤ maskplaneMaxElems) &&
    g.blockElems t % 64 == 0

/-- `bmask`: the mask that is still to be tested. -/
def Call.bmask (q : Call t nij D) (g : Geometry) : Mask := if q.maskplanes g then none else q.emask

/-- The packed mask of block `b`, and whether nothing of it is masked. -/
def Call.maskbits (q : Call t nij D) (E : Platform) (g : Geometry) (b : Nat) :
    (Nat → BitVec 64) × Bool :=
  packMask E.avx512 (offset q.mask (b * g.blockElems t)) (g.blockElems t)

/-- The planes masked. -/
def maskStep (E : Platform) (q : Call t nij D) (g : Geometry) (b nzEnd : Nat) (s : RunState t D) :
    RunState t D :=
  if q.maskplanes g && !(q.maskbits E g b).2 then
    { s with work := { s.work with
      mem := maskPlanes E.avx512 s.work.mem (q.maskbits E g b).1 (g.blockElems t / 8) nzEnd } }
  else s

/-- `bslz4_untranspose_full`. -/
def untransposeFull (E : Platform) (p : Pipe t) (blocksize ne nzEnd : Nat) (ws : Workspace t) :
    Except Err (Workspace t) :=
  let scratch := offset ws.mem blocksize
  let backend := fun raw scratch =>
    match untransposeBackend E.kernels p.untranspose raw scratch ne t.size with
    | none => .error .untranspose
    | some (out, scratch) => .ok { ws with
        mem := joinMem blocksize raw scratch
        block := copyTo ws.block 0 (ne * t.size) out }
  if p.untranspose.lowplanes then
    match lowplanesBlock E.kernels p.untranspose ws.block ws.mem scratch ne nzEnd with
    | (some block, raw, scratch) => .ok { ws with mem := joinMem blocksize raw scratch, block }
    | (none, raw, scratch) => backend raw scratch
  else
    backend (if nzEnd < ne * t.size then zeroFill ws.mem nzEnd (ne * t.size - nzEnd) else ws.mem)
      scratch

/-- The pixels of frame `f` from pixel `i0` on, where they lie. -/
def framePixels (q : Call t nij D) (f i0 : Nat) : Nat → Pixel t :=
  pixelAt t (offset (bytesOf (q.chunks.bytes f)) (i0 * t.size))

/-- The pixels of a full block: untransposed, or the frame's own. -/
def blockPixels (E : Platform) (q : Call t nij D) (g : Geometry) (f i0 nzEnd : Nat)
    (ws : Workspace t) : Except Err (Workspace t × (Nat → Pixel t)) :=
  if q.pixels then return (ws, framePixels q f i0)
  else do
    let ws ← untransposeFull E q.pipe g.blocksize (g.blockElems t) nzEnd ws
    return (ws, pixelAt t ws.block)

/-- The untranspose and the collect fused, for the blocks that need only the list. -/
def fusedList (E : Platform) (q : Call t nij D) (g : Geometry) (w : Work t)
    (lowCut nbytes nzEnd : Nat) (sparse : Bool) (ws : Workspace t) (o : Sink (Pixel t)) :
    Except Err (Workspace t × Option (Sink (Pixel t))) :=
  if q.pipe.untranspose.lowplanes && sparse && !q.pixels then do
    let (raw, scratch, found) ← lowplanesList E.kernels q.pipe.untranspose ws.mem
      (offset ws.mem g.blocksize) w.n nzEnd nbytes g.blocksize w.mask w.i0 lowCut o
    return ({ ws with mem := joinMem g.blocksize raw scratch }, found)
  else return (ws, none)

/-- A block of a plain sparsify. -/
def plainBlock (E : Platform) (q : Call t nij D) (g : Geometry) (f : Nat) (w : Work t)
    (lowCut nbytes nzEnd : Nat) (ws : Workspace t) (o : Sink (Pixel t)) :
    Except Err (Workspace t × Sink (Pixel t)) := do
  let (ws, found) ← fusedList E q g w lowCut nbytes nzEnd true ws o
  match found with
  | some o => return (ws, o)
  | none =>
      let (ws, px) ← blockPixels E q g f w.i0 nzEnd ws
      return (ws, sparseBlock q.pipe.collect w px o)

/-- A block with a dot. The fused list is the one of the non-zero pixels. -/
def dotBlock (E : Platform) (q : Call t nij D) (g : Geometry) (K : DotKernel (Pixel t) D)
    (sparse : Bool) (f : Nat) (w : Work t) (nbytes nzEnd : Nat) (ws : Workspace t)
    (o : Sink (Pixel t)) (powder : Nat → D) :
    Except Err (Workspace t × Sink (Pixel t) × (Nat → D)) := do
  let (ws, found) ← fusedList E q g w 0 nbytes nzEnd sparse ws ⟨ws.tval, ws.tidx, 0⟩
  match found with
  | some l =>
      let ws := { ws with tidx := l.adr, tval := l.vals }
      return (ws, copyAbove w.cut (ws.list l.npx) o, K.sparse w.i0 w.n (ws.list l.npx) powder)
  | none =>
      let (ws, px) ← blockPixels E q g f w.i0 nzEnd ws
      return sparseDotBlock K q.pipe.collect sparse w px ws o powder

/-- Whether a full block takes the sparse route. Nothing says how sparse uncompressed pixels are. -/
def blockSparse (q : Call t nij D) (g : Geometry) (route : Route) (nbytes : Nat) : Bool :=
  if q.pixels then route == .sparse else route.takesList nbytes t.size g.blocksize

/-- Block `b` of frame `f`. -/
def blockStep (E : Platform) (q : Call t nij D) (g : Geometry) (b : Nat) (s : RunState t D)
    (f : Nat) : Except Err (RunState t D) := do
  let (s, nbytes, nzEnd) ← decodeStep E q g f s
  let s := maskStep E q g b nzEnd s
  -- the previous block may have taken the frame's list over the limit
  let s := raiseFrame q f s
  let w : Work t :=
    ⟨q.bmask g, b * g.blockElems t, g.blockElems t, q.cutAt (s.level f)⟩
  match q.dot with
  | none =>
      let (ws, o) ← plainBlock E q g f w (q.lowCut (s.level f)) nbytes nzEnd s.work (s.out nij f)
      return { s.setOut nij f o with work := ws }
  | some (route, dot) =>
      let (ws, o, powder) ← dotBlock E q g dot.kernel (blockSparse q g route nbytes) f w nbytes
        nzEnd s.work (s.out nij f) (s.powder f)
      return { s.setOut nij f o with work := ws, powder := Function.update s.powder f powder }

/-! ## The tail -/

/-- The bytes of the last, shorter block; what uncompressed pixels have left is raw. -/
def Call.tailBytes (q : Call t nij D) (g : Geometry) : Nat :=
  if q.pixels then 0 else tailBlock t.size (g.total % g.blocksize)

/-- The bytes that are stored raw at the end of a chunk. -/
def Call.rawBytes (q : Call t nij D) (g : Geometry) : Nat := g.total % g.blocksize - q.tailBytes g

def tailDecode (decode : Decode) : Decode := if decode = .zstd then .zstd else .lz4Stock

def tailUntranspose (u : Untranspose) : Untranspose := if u.lowplanes then .kcb else u

/-- The last block of frame `f` in the pixel block, and its compressed size. -/
def tailBlockStep (E : Platform) (q : Call t nij D) (g : Geometry) (f : Nat) (s : RunState t D) :
    Except Err (RunState t D × Nat) :=
  let size := q.tailBytes g
  if size = 0 then return (s, 0)
  else do
    let c := q.chunks.bytes f
    let pos := s.cursors f
    let nbytes ← readSize c pos
    match decodePlain E.codecs (tailDecode q.pipe.decode) (blockBytes c pos nbytes) size with
    | none => .error .decompress
    | some planes =>
        refuse (planes.length != size) .decompress
        let raw := copyTo s.work.mem 0 size (bytesOf planes)
        match untransposeBackend E.kernels (tailUntranspose q.pipe.untranspose) raw
          (offset raw g.blocksize) (size / t.size) t.size with
        | none => .error .untranspose
        | some (out, scratch) =>
            return ({ s with
              cursors := Function.update s.cursors f (pos + nbytes + 4)
              work := { s.work with
                mem := joinMem g.blocksize raw scratch
                block := copyTo s.work.block 0 size out } }, nbytes)

/-- The raw bytes of frame `f` behind the last block. -/
def rawStep (q : Call t nij D) (g : Geometry) (f : Nat) (s : RunState t D) :
    Except Err (RunState t D) :=
  let rem := q.rawBytes g
  if rem = 0 ∨ q.pixels then return s
  else do
    let c := q.chunks.bytes f
    refuse (decide (c.length < rem) || decide (c.length - rem < s.cursors f)) .corruptChunk
    return { s with work := { s.work with
      block := copyTo s.work.block (q.tailBytes g) rem (bytesOf (c.drop (c.length - rem))) } }

/-- Whether the tail takes the sparse route: a pure raw remainder is cheap either way. -/
def tailSparse (q : Call t nij D) (g : Geometry) (route : Route) (nbytes : Nat) : Bool :=
  if q.pixels then route == .sparse
  else if q.tailBytes g = 0 then route != .dense
  else route.takesList nbytes t.size (q.tailBytes g)

/-- The end of frame `f`: the last move to a threshold, then at most `howmany` pixels. -/
def endFrame (q : Call t nij D) (f : Nat) (s : RunState t D) : RunState t D :=
  match q.top with
  | none => s
  | some top =>
      let s := raiseFrame q f s
      { s with
        nabove := Function.update s.nabove f (s.npx f)
        npx := if top.howmany < s.npx f then Function.update s.npx f top.howmany.toNat else s.npx }

/-- The tail of frame `f`. -/
def tailStep (E : Platform) (q : Call t nij D) (g : Geometry) (s : RunState t D) (f : Nat) :
    Except Err (RunState t D) := do
  let (s, nbytes) ← tailBlockStep E q g f s
  let s ← rawStep q g f s
  let s := raiseFrame q f s
  let i0 := g.total / g.blocksize * g.blockElems t
  let w : Work t := ⟨q.emask, i0, (q.rawBytes g + q.tailBytes g) / t.size, q.cutAt (s.level f)⟩
  let px := if q.pixels then framePixels q f i0 else pixelAt t s.work.block
  match q.dot with
  | none => return endFrame q f (s.setOut nij f (sparseBlock q.pipe.collect w px (s.out nij f)))
  | some (route, dot) =>
      let (ws, o, powder) := sparseDotBlock dot.kernel q.pipe.collect (tailSparse q g route nbytes)
        w px s.work (s.out nij f) (s.powder f)
      return endFrame q f { s.setOut nij f o with
        work := ws, powder := Function.update s.powder f fun i => dot.finish (powder i) }

/-! ## What the steps leave alone -/

section

variable {q : Call t nij D} {g : Geometry} {s : RunState t D} {f : Nat}

@[simp] theorem setOut_cursors (o : Sink (Pixel t)) : (s.setOut nij f o).cursors = s.cursors := rfl

@[simp] theorem raiseFrame_cursors : (raiseFrame q f s).cursors = s.cursors := by
  unfold raiseFrame
  cases q.top with
  | none => rfl
  | some top => rfl

@[simp] theorem raiseFrame_work : (raiseFrame q f s).work = s.work := by
  unfold raiseFrame
  cases q.top with
  | none => rfl
  | some top => rfl

@[simp] theorem endFrame_cursors : (endFrame q f s).cursors = s.cursors := by
  unfold endFrame
  cases q.top with
  | none => rfl
  | some top => exact raiseFrame_cursors

@[simp] theorem maskStep_cursors {E : Platform} {b : Nat} (nzEnd : Nat) :
    (maskStep E q g b nzEnd s).cursors = s.cursors := by
  unfold maskStep
  split
  · rfl
  · rfl

end

/-! ## The call -/

/-- Block `b` of every frame. -/
def blockRow (E : Platform) (q : Call t nij D) (g : Geometry) (s : RunState t D) (b : Nat) :
    Except Err (RunState t D) :=
  (List.range q.chunks.nframes).foldlM (blockStep E q g b) s

/-- The state before the first block; the workspace and the lists hold anything. -/
def startRun (q : Call t nij D) (s : RunState t D) : RunState t D :=
  { s with
    npx := fun _ => 0
    cursors := fun _ => if q.pixels then 0 else 12
    level := fun _ => 0
    nabove := fun _ => 0
    powder := match q.dot with
      | none => s.powder
      | some (_, dot) => fun _ _ => dot.zero }

/-- The first `b` blocks of every frame, then block `b` of the first `f` frames. -/
def runTo (E : Platform) (q : Call t nij D) (g : Geometry) (s : RunState t D) (b f : Nat) :
    Except Err (RunState t D) := do
  let s ← (List.range b).foldlM (blockRow E q g) (startRun q s)
  (List.range f).foldlM (blockStep E q g b) s

/-- The tail of the first `f` frames, after all full blocks. -/
def runTails (E : Platform) (q : Call t nij D) (g : Geometry) (s : RunState t D) (f : Nat) :
    Except Err (RunState t D) := do
  let s ← (List.range (g.total / g.blocksize)).foldlM (blockRow E q g) (startRun q s)
  (List.range f).foldlM (tailStep E q g) s

/-- `bslz4_driver_run`. -/
def run (E : Platform) (q : Call t nij D) (s : RunState t D) : Except Err (RunState t D) := do
  let g ← accept q
  runTails E q g s q.chunks.nframes

end Bslz4ToSparse.Pipeline
