import Bslz4ToSparse.Pipeline.Driver

/-!
# The front half alone (src/pipeline/driver.c)

`bslz4_driver_decompress` reads the same chunks and writes the pixels of every frame, or its
planes where the unshuffle is left to the caller.
-/

namespace Bslz4ToSparse.Pipeline

open Foundation Steps
open Lz4 (Byte)

/-- The arguments of `bslz4_driver_decompress`. -/
structure Unpack where
  chunks : Chunks
  outLen : Nat
  workspaceLen : Nat
  elemSize : Nat
  decode : Decode
  untranspose : Untranspose
  unshuffle : Bool

/-- The output, the workspace, and where frame `f` is. -/
structure UnpackState where
  out : Memory
  mem : Memory                -- `raw` at 0, the scratch behind the largest block
  block : Memory
  pos : Nat
  off : Nat

/-- The checks of `bslz4_driver_decompress`. -/
def acceptUnpack (u : Unpack) : Except Err Geometry := do
  refuse (!(u.elemSize == 1 || u.elemSize == 2 || u.elemSize == 4 || u.elemSize == 8)) .dtype
  refuse (u.decode != .lz4Stock && u.decode != .zstd) .badPipeline
  let (total, blocksize) ← checkFrames u.chunks
  refuse (decide (2 ^ 31 - 1 < total)) .tooLarge
  refuse (decide (u.outLen < u.chunks.nframes * total)) .workspaceTooSmall
  refuse (u.unshuffle && blocksize % (8 * u.elemSize) != 0) .corruptChunk
  refuse (u.unshuffle && decide (u.workspaceLen < 3 * min blocksize total)) .workspaceTooSmall
  return ⟨total, blocksize⟩

/-- One block: decoded in place, or decoded and untransposed. -/
def unpackBlock (E : Platform) (u : Unpack) (g : Geometry) (f : Nat) (s : UnpackState) (b : Nat) :
    Except Err UnpackState := do
  let c := u.chunks.bytes f
  let size := if b < g.total / g.blocksize then g.blocksize
    else tailBlock u.elemSize (g.total % g.blocksize)
  let nbytes ← readSize c s.pos
  match decodePlain E.codecs u.decode (blockBytes c s.pos nbytes) size with
  | none => .error .decompress
  | some planes =>
      refuse (planes.length != size) .decompress
      let dst := f * g.total + s.off
      if u.unshuffle then
        let raw := copyTo s.mem 0 size (bytesOf planes)
        let wsz := min g.blocksize g.total
        match untransposeBackend E.kernels u.untranspose raw (offset raw wsz) (size / u.elemSize)
          u.elemSize with
        | none => .error .untranspose
        | some (out, scratch) =>
            let block := copyTo s.block 0 size out
            return { out := copyTo s.out dst size block, mem := joinMem wsz raw scratch, block,
                     pos := s.pos + nbytes + 4, off := s.off + size }
      else
        return { s with
          out := copyTo s.out dst size (bytesOf planes)
          pos := s.pos + nbytes + 4
          off := s.off + size }

/-- The first `b` blocks of frame `f`. -/
def unpackBlocks (E : Platform) (u : Unpack) (g : Geometry) (f b : Nat) (s : UnpackState) :
    Except Err UnpackState :=
  (List.range b).foldlM (unpackBlock E u g f) { s with pos := 12, off := 0 }

/-- The raw bytes at the chunk's end. -/
def unpackRaw (u : Unpack) (g : Geometry) (f : Nat) (s : UnpackState) : Except Err UnpackState :=
  let rem := rawTail g.total g.blocksize u.elemSize
  if rem = 0 then return s
  else do
    let c := u.chunks.bytes f
    refuse (decide (c.length < rem) || decide (c.length - rem < s.pos)) .corruptChunk
    return { s with
      out := copyTo s.out (f * g.total + s.off) rem (bytesOf (c.drop (c.length - rem))) }

/-- Frame `f`. -/
def unpackFrame (E : Platform) (u : Unpack) (g : Geometry) (s : UnpackState) (f : Nat) :
    Except Err UnpackState := do
  let s ← unpackBlocks E u g f (numBlocks g.total g.blocksize u.elemSize) s
  unpackRaw u g f s

/-- The first `f` frames. -/
def unpackTo (E : Platform) (u : Unpack) (g : Geometry) (s : UnpackState) (f : Nat) :
    Except Err UnpackState :=
  (List.range f).foldlM (unpackFrame E u g) s

/-- `bslz4_driver_decompress`. -/
def decompress (E : Platform) (u : Unpack) (s : UnpackState) : Except Err UnpackState := do
  let g ← acceptUnpack u
  unpackTo E u g s u.chunks.nframes

end Bslz4ToSparse.Pipeline
