import Bslz4ToSparse.Pipeline.Outputs
import Bslz4ToSparse.Steps.LowPlanesExact

/-!
# One frame alone

What a frame's chunk gives, without the workspace and without the other frames: the pixels of
a block as its codec and the inverse bitshuffle give them, and the list, the level and the powder
that they lead to. The driver's loops are compared with this.
-/

namespace Bslz4ToSparse.Pipeline

open Dot Foundation Steps
open Lz4 (Byte)

variable {t : Dtype} {nij : Nat} {D : Type}

/-- What a frame has come to. `overread` records a call of the vsx collect that looked at bytes
behind a plane. -/
structure FrameState (t : Dtype) (D : Type) where
  pos : Nat
  level : Nat
  list : List (Nat × Pixel t)
  nabove : Nat
  powder : Nat → D
  overread : Bool

/-! ## Pixels -/

/-- Block `b` of the chunk `c`, whose size stands at `pos`: where the next one is, its compressed
size and its pixels. -/
def openBlock (E : Platform) (q : Call t nij D) (g : Geometry) (c : List Byte) (b pos : Nat) :
    Except Err (Nat × Nat × (Nat → Pixel t)) :=
  if q.pixels then
    return (pos, 0, pixelAt t (offset (bytesOf c) (b * g.blockElems t * t.size)))
  else do
    let nbytes ← readSize c pos
    match planesOf E.codecs q.pipe.decode (blockBytes c pos nbytes) g.blocksize with
    | none => .error .decompress
    | some planes =>
        return (pos + nbytes + 4, nbytes, planePixel t (bytesOf planes) (g.blockElems t))

/-- The last, shorter block. -/
def tailPlanes (E : Platform) (q : Call t nij D) (g : Geometry) (c : List Byte) (pos : Nat) :
    Except Err (Nat × Nat × List Byte) :=
  if q.tailBytes g = 0 then return (pos, 0, [])
  else do
    let nbytes ← readSize c pos
    match decodePlain E.codecs (tailDecode q.pipe.decode) (blockBytes c pos nbytes)
      (q.tailBytes g) with
    | none => .error .decompress
    | some planes =>
        refuse (planes.length != q.tailBytes g) .decompress
        return (pos + nbytes + 4, nbytes, planes)

/-- The raw bytes fit behind the last block. -/
def checkRaw (q : Call t nij D) (g : Geometry) (c : List Byte) (pos : Nat) : Except Err Unit :=
  if q.rawBytes g = 0 ∨ q.pixels then return ()
  else refuse (decide (c.length < q.rawBytes g) || decide (c.length - q.rawBytes g < pos)) .corruptChunk

/-- The first pixel of the tail. -/
def Geometry.tailStart (g : Geometry) (t : Dtype) : Nat := g.total / g.blocksize * g.blockElems t

/-- The pixels of the tail. -/
def tailPixels (q : Call t nij D) (g : Geometry) (c planes : List Byte) (e : Nat) : Pixel t :=
  if q.pixels then pixelAt t (offset (bytesOf c) (g.tailStart t * t.size)) e
  else if e < q.tailBytes g / t.size then planePixel t (bytesOf planes) (q.tailBytes g / t.size) e
  else pixelAt t (bytesOf (c.drop (c.length - q.rawBytes g))) (e - q.tailBytes g / t.size)

/-- The pixels of block `b` as the mask step leaves them. -/
def Call.shown (q : Call t nij D) (g : Geometry) (b : Nat) (px : Nat → Pixel t) (e : Nat) :
    Pixel t :=
  if q.maskplanes g && q.mask (b * g.blockElems t + e) == 0#8 then 0#_ else px e

/-! ## A block -/

/-- The list of a block is made from its low planes. -/
def Call.fuses (q : Call t nij D) (ne : Nat) (sparse : Bool) (px : Nat → Pixel t) : Bool :=
  !q.pixels && sparse && takesBlock q.pipe.untranspose ne &&
    (List.range ne).all fun e => decide ((px e).toNat < 256)

theorem takesBlock_lowplanes {value : Untranspose} {ne : Nat} (h : takesBlock value ne = true) :
    value.lowplanes = true := by
  cases value with
  | lowplanesVbmi | lowplanesAvx2 | lowplanesVsx | lowplanesC => rfl
  | kcb | neon | scalar => cases h

/-- Such a block has 16-bit pixels, all below 256. -/
theorem fuses_u16 {q : Call t nij D} {ne : Nat} {sparse : Bool} {px : Nat → Pixel t}
    (h : q.fuses ne sparse px = true) : t = .u16 ∧ ∀ e, e < ne → (px e).toNat < 256 := by
  unfold Call.fuses at h
  simp only [Bool.and_eq_true] at h
  obtain ⟨⟨-, htakes⟩, hlow⟩ := h
  refine ⟨q.pipe.lowplanes_u16 (takesBlock_lowplanes htakes), fun e he => ?_⟩
  exact of_decide_eq_true (List.all_eq_true.mp hlow e (List.mem_range.mpr he))

/-- The vsx collect takes groups of 64 pixels of a block that does not consist of such. -/
def Call.overreads (q : Call t nij D) (ne cut : Nat) (fused : Bool) : Bool :=
  fused && q.pipe.untranspose == .lowplanesVsx && ne % 64 != 0 && decide (cut < 255)

/-- The pixels of a block that pass. -/
def passing (gt : Pixel t → Bool) (w : Work t) (px : Nat → Pixel t) : List (Nat × Pixel t) :=
  collected (selects gt w.mask px w.i0) px w.i0 0 w.n

/-- The test of a block without a dot. -/
def Call.plainTest (q : Call t nij D) (level : Nat) (fused : Bool) : Pixel t → Bool :=
  if fused then aboveCut (q.lowCut level) else above (q.cutAt level)

/-- What a block with a dot adds to the list. -/
def dotList (w : Work t) (sparse : Bool) (px : Nat → Pixel t) : List (Nat × Pixel t) :=
  if sparse then keepAbove w.cut (passing Pixel.nonzero w px) else passing (above w.cut) w px

/-- The powder after a block. -/
def dotPowder (K : DotKernel (Pixel t) D) (w : Work t) (sparse : Bool) (px : Nat → Pixel t)
    (powder : Nat → D) : Nat → D :=
  blockDot K Pixel.nonzero (maskOk w.mask) (fun p => px (p - w.i0)) powder ⟨w.i0, w.n, sparse⟩

namespace FrameState

def raise (q : Call t nij D) (a : FrameState t D) : FrameState t D :=
  match q.top with
  | none => a
  | some top =>
      let r := top.raiseList a.level a.list
      { a with level := r.1, list := r.2 }

/-- The end of a frame. -/
def finish (q : Call t nij D) (a : FrameState t D) : FrameState t D :=
  match q.top with
  | none => a
  | some top =>
      let a := a.raise q
      { a with nabove := a.list.length, list := a.list.take top.howmany.toNat }

end FrameState

theorem raise_keeps {q : Call t nij D} (a : FrameState t D) :
    (a.raise q).pos = a.pos ∧ (a.raise q).nabove = a.nabove ∧ (a.raise q).overread = a.overread := by
  unfold FrameState.raise
  cases q.top with
  | none => exact ⟨rfl, rfl, rfl⟩
  | some top => exact ⟨rfl, rfl, rfl⟩

/-- Block `b`. -/
def frameBlock (E : Platform) (q : Call t nij D) (g : Geometry) (c : List Byte) (b : Nat)
    (a : FrameState t D) : Except Err (FrameState t D) := do
  let (pos, nbytes, px) ← openBlock E q g c b a.pos
  let a := ({ a with pos } : FrameState t D).raise q
  let px := q.shown g b px
  let ne := g.blockElems t
  let w : Work t := ⟨q.bmask g, b * ne, ne, q.cutAt a.level⟩
  match q.dot with
  | none =>
      let fused := q.fuses ne true px
      return { a with
        list := a.list ++ passing (q.plainTest a.level fused) w px
        overread := a.overread || q.overreads ne (q.lowCut a.level) fused }
  | some (route, dot) =>
      let sparse := blockSparse q g route nbytes
      return { a with
        list := a.list ++ dotList w sparse px
        powder := dotPowder dot.kernel w sparse px a.powder
        overread := a.overread || q.overreads ne 0 (q.fuses ne sparse px) }

/-- The tail. -/
def frameTail (E : Platform) (q : Call t nij D) (g : Geometry) (c : List Byte)
    (a : FrameState t D) : Except Err (FrameState t D) := do
  let (pos, nbytes, planes) ← tailPlanes E q g c a.pos
  checkRaw q g c pos
  let a := ({ a with pos } : FrameState t D).raise q
  let px := tailPixels q g c planes
  let w : Work t :=
    ⟨q.emask, g.tailStart t, (q.rawBytes g + q.tailBytes g) / t.size, q.cutAt a.level⟩
  match q.dot with
  | none => return ({ a with list := a.list ++ passing (above w.cut) w px } : FrameState t D).finish q
  | some (route, dot) =>
      let sparse := tailSparse q g route nbytes
      let powder := dotPowder dot.kernel w sparse px a.powder
      return ({ a with
        list := a.list ++ dotList w sparse px
        powder := fun i => dot.finish (powder i) } : FrameState t D).finish q

/-- Before the first block. Without a dot the powder is not touched. -/
def startFrame (q : Call t nij D) (powder : Nat → D) : FrameState t D where
  pos := if q.pixels then 0 else 12
  level := 0
  list := []
  nabove := 0
  powder := match q.dot with
    | none => powder
    | some (_, dot) => fun _ => dot.zero
  overread := false

/-- The full blocks of the chunk `c`. -/
def frameBlocks (E : Platform) (q : Call t nij D) (g : Geometry) (c : List Byte)
    (powder : Nat → D) (n : Nat) : Except Err (FrameState t D) :=
  (List.range n).foldlM (fun a b => frameBlock E q g c b a) (startFrame q powder)

/-- The whole frame. -/
def frameRun (E : Platform) (q : Call t nij D) (g : Geometry) (c : List Byte)
    (powder : Nat → D) : Except Err (FrameState t D) := do
  let a ← frameBlocks E q g c powder (g.total / g.blocksize)
  frameTail E q g c a

end Bslz4ToSparse.Pipeline
