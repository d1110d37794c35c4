import Bslz4ToSparse.Foundation.Bitmap
import Bslz4ToSparse.Foundation.Tiles
import Bslz4ToSparse.Steps.Collect
import Bslz4ToSparse.Steps.Untranspose

/-!
# The low-planes values of the untranspose step (src/steps/lowplanes.h, lowplanes_avx2.hpp)

A `uint16_t` block whose high byte-planes are zero is a bitshuffled block of bytes. Its
pixel list is written straight from the eight low planes, 64 pixels at a time; only the
dense route builds the pixel block. A block that a value does not take is left to kcb.
-/

namespace Bslz4ToSparse.Steps

open Foundation
open Lz4 (Byte)

variable {t : Dtype}

def lowplanesSkipRatio : Nat := 48
def lowplanesBranchfreeRatio : Nat := 8
def lowplanesTile : Nat := 8192

/-- The size of `bslz4_zero_plane`. -/
def zeroPlaneBytes : Nat := 1024

/-! ## Empty high planes -/

/-- The word of `w` bytes at `k`. -/
def wordAt (w : Nat) (p : Memory) (k : Nat) : BitVec (8 * w) :=
  gather (8 * w) fun b => (p (k + b / 8)).getLsbD (b % 8)

/-- `bslz4_all_zero_c` (`w = 8`) and `bslz4_all_zero_avx512` (`w = 64`): words ORed in steps of
512 bytes. -/
def allZero (w : Nat) (p : Memory) (n : Nat) : Bool :=
  (strided 0 n 512).all fun i =>
    (strided i (min (i + 512) n) w).foldl (fun acc k => acc ||| wordAt w p k) 0#(8 * w) == 0#(8 * w)

/-- `bslz4_high_planes_zero` (`w = 64`) and `bslz4_high_planes_zero_c_nofill` (`w = 8`). -/
def highPlanesZero (w : Nat) (raw : Memory) (ne nzEnd : Nat) : Bool × Memory :=
  if nzEnd ≤ ne then (true, raw)
  else
    let raw := if nzEnd < 2 * ne then zeroFill raw nzEnd (2 * ne - nzEnd) else raw
    (allZero w (offset raw ne) ne, raw)

/-- `bslz4_high_planes_zero_c`. -/
def highPlanesZeroC (raw : Memory) (ne nzEnd : Nat) : Bool × Memory :=
  if nzEnd ≤ ne then (true, zeroFill raw nzEnd (ne - nzEnd))
  else highPlanesZero 8 raw ne nzEnd

/-! ## The transpose of 64 pixels

`pl p` is the pointer to plane `p` and `i` the offset of the group in it: byte `l` of the
result is pixel `l` of the group. -/

/-- The indices of `_mm512_permutex2var_epi8`. -/
def vbmiIndex (j : Nat) : Nat :=
  (((#[0x0008101840485058, 0x0109111941495159, 0x020a121a424a525a, 0x030b131b434b535b,
    0x040c141c444c545c, 0x050d151d454d555d, 0x060e161e464e565e, 0x070f171f474f575f].getD (j / 8) 0) >>>
    (8 * (j % 8))) % 256)

/-- `permutex2var`: bit 6 of an index takes the second register. -/
def permutex2var (a b : Nat → Byte) (idx : Nat → Nat) (j : Nat) : Byte :=
  if (idx j).testBit 6 then b (idx j % 64) else a (idx j % 64)

def parity (x : Byte) : Bool := (List.range 8).foldl (fun p k => p ^^ x.getLsbD k) false

/-- `_mm512_gf2p8affine_epi64_epi8(x, A, 0)`: the matrix of its quadword times each byte. -/
def gf2p8affine (x A : Nat → Byte) (j : Nat) : Byte :=
  gather 8 fun i => parity (A (8 * (j / 8) + (7 - i)) &&& x j)

/-- Byte `j` of `0x8040201008040201` in every quadword. -/
def identity8 (j : Nat) : Byte := 1#8 <<< (j % 8)

/-- The VBMI and GFNI transpose. -/
def vbmiBytes (pl : Nat → Memory) (i : Nat) : Nat → Byte :=
  let v := fun q b => pl (q + b / 8) (i + b % 8)      -- the 8 bytes of 4 planes
  gf2p8affine identity8 (permutex2var (v 0) (v 4) vbmiIndex)

/-- `_mm_unpacklo_epi8`. -/
def unpackLo8 (a b : Nat → Byte) (k : Nat) : Byte := if k % 2 = 0 then a (k / 2) else b (k / 2)

/-- `_mm256_inserti128_si256(lo, hi, 1)`. -/
def insert128 (lo hi : Nat → Byte) (k : Nat) : Byte := if k < 16 then lo k else hi (k - 16)

/-- `_mm256_unpacklo_epi16` (`high = 0`) and `_mm256_unpackhi_epi16` (`high = 8`). -/
def unpack16 (high : Nat) (a b : Nat → Byte) (k : Nat) : Byte :=
  let w := k % 16 / 2
  (if w % 2 = 0 then a else b) (16 * (k / 16) + high + 2 * (w / 2) + k % 2)

/-- `_mm256_permutevar8x32_epi32` with 0, 4, 1, 5, 2, 6, 3, 7. -/
def permute8x32 (v : Nat → Byte) (k : Nat) : Byte :=
  v (4 * ([0, 4, 1, 5, 2, 6, 3, 7].getD (k / 4) 0) + k % 4)

/-- kcb's AVX2 transpose: the bytes of four pixel groups of 8, then the bits of each. -/
def avx2Half (high : Nat) (u0 u1 : Nat → Byte) (l : Nat) : Byte :=
  let v := permute8x32 (unpack16 high u0 u1)
  let x := transpose8 (gather 64 fun b => (v (8 * (l / 8) + b / 8)).getLsbD (b % 8))
  gather 8 fun b => x.getLsbD (8 * (l % 8) + b)

def avx2Bytes (pl : Nat → Memory) (i l : Nat) : Byte :=
  let a := fun p => offset (pl p) i
  let u0 := insert128 (unpackLo8 (a 0) (a 1)) (unpackLo8 (a 4) (a 5))
  let u1 := insert128 (unpackLo8 (a 2) (a 3)) (unpackLo8 (a 6) (a 7))
  if l < 32 then avx2Half 0 u0 u1 l else avx2Half 8 u0 u1 (l - 32)

/-- `vec_perm` of two registers of 16 bytes. -/
def vecPerm (a b : Nat → Byte) (idx : List Nat) (k : Nat) : Byte :=
  if idx.getD k 0 < 16 then a (idx.getD k 0) else b (idx.getD k 0 - 16)

/-- `vec_gb`: the 8 by 8 bit transpose of each doubleword. -/
def vecGb (v : Nat → Byte) (k : Nat) : Byte :=
  gather 8 fun p => (v (8 * (k / 8) + p)).getLsbD (k % 8)

def vsxP1l : List Nat := [0, 8, 16, 24, 1, 9, 17, 25, 2, 10, 18, 26, 3, 11, 19, 27]
def vsxP1h : List Nat := [4, 12, 20, 28, 5, 13, 21, 29, 6, 14, 22, 30, 7, 15, 23, 31]
def vsxP2a : List Nat := [0, 1, 2, 3, 16, 17, 18, 19, 4, 5, 6, 7, 20, 21, 22, 23]
def vsxP2b : List Nat := [8, 9, 10, 11, 24, 25, 26, 27, 12, 13, 14, 15, 28, 29, 30, 31]

/-- The VSX transpose. -/
def vsxBytes (pl : Nat → Memory) (i l : Nat) : Byte :=
  let L := fun q b => pl (q + b / 8) (i + b % 8)      -- the 8 bytes of 2 planes
  let Xl := vecPerm (L 0) (L 2) vsxP1l
  let Xh := vecPerm (L 0) (L 2) vsxP1h
  let Yl := vecPerm (L 4) (L 6) vsxP1l
  let Yh := vecPerm (L 4) (L 6) vsxP1h
  match l / 16 with
  | 0 => vecGb (vecPerm Xl Yl vsxP2a) (l % 16)
  | 1 => vecGb (vecPerm Xl Yl vsxP2b) (l % 16)
  | 2 => vecGb (vecPerm Xh Yh vsxP2a) (l % 16)
  | _ => vecGb (vecPerm Xh Yh vsxP2b) (l % 16)

/-! ## The planes -/

/-- The planes from byte `start` on: those at or past `np` are zeros. -/
def planePtr (raw : Memory) (size np start p : Nat) : Memory := fun i =>
  if p < np then raw (p * size + start + i) else 0#8

/-- `nz_end` cut to the low planes, the planes that hold data, and `raw` filled to a whole
plane. The division by the plane size is not defined for an empty block. -/
def openPlanes (raw : Memory) (ne nzEnd : Nat) : Except Err (Nat × Memory) :=
  let size := ne / 8
  let nzEnd := if ne < nzEnd then ne else nzEnd
  if size = 0 then .error .fault
  else
    let np := (nzEnd + size - 1) / size
    .ok (np, if nzEnd < np * size then zeroFill raw nzEnd (np * size - nzEnd) else raw)

/-! ## Two passes -/

/-- What the first pass records of a tile: the bytes of its groups, their selections, and the
groups that have one. -/
structure Recorded where
  ubuf : Nat → Byte
  kv : Nat → BitVec 64
  gm : Bitmap

/-- Group `g` with the bytes `u` and the selection `k`. -/
def Recorded.store (g : Nat) (u : Nat → Byte) (k : BitVec 64) (r : Recorded) : Recorded where
  ubuf := storeLanes (64 * g) 64 u r.ubuf
  kv := fun h => if h = g then k else r.kv h
  gm := orAt r.gm g (if k = 0#64 then 0#64 else 1#64)

/-- The comparison of the AVX2 collect, with both sides' sign bits flipped. -/
def gtBiased8 (cut v : Byte) : Bool := (cut ^^^ 0x80#8).slt (v ^^^ 0x80#8)

/-- The selection of a group: the bytes above the cut whose pixels are unmasked. -/
def groupSelection (gt : Byte → Bool) (mask : Mask) (base : Nat) (u : Nat → Byte) : BitVec 64 :=
  andMask mask base (gather 64 fun l => gt (u l))

/-- `bslz4_lowplanes_group`, and pass A of the AVX2 collect: the group at byte `8 * g`. -/
def recordGroup (bytes : Nat → Nat → Byte) (gt : Byte → Bool) (mask : Mask) (ti0 g : Nat)
    (r : Recorded) : Recorded :=
  let u := bytes (8 * g)
  r.store g u (groupSelection gt mask (ti0 + 64 * g) u)

/-- The bitmap of the groups with a bit in any plane, `step` bytes of the planes at a time. -/
def busyGroups (step : Nat) (pl : Nat → Memory) (tsize : Nat) : Bitmap :=
  (strided 0 tsize step).foldl (fun gnz i =>
    let acc := fun b => (List.range 8).foldl (fun acc p => acc ||| pl p (i + b)) 0#8
    orAt gnz (i / 8) ((gather (step / 8) fun q =>
      (List.range 8).any fun b => acc (8 * q + b) != 0#8).setWidth 64)) fun _ => 0#64

/-- Words of a tile's bitmaps. -/
def tileWords : Nat := (lowplanesTile / 64 + 63) / 64

/-- A tile: the groups recorded, then the ones with pixels emitted. `ti0` is its first pixel, and `stack` is what
`ubuf` and `kv` hold before it; the bitmap is cleared. -/
def tileStep (emit : (Nat → Byte) → BitVec 64 → Nat → Sink (Pixel t) → Sink (Pixel t))
    (record : Recorded → Recorded) (stack : Memory × (Nat → BitVec 64)) (ti0 : Nat) (o : Sink (Pixel t)) :
    Sink (Pixel t) :=
  let r := record ⟨stack.1, stack.2, fun _ => 0#64⟩
  scanBitmap (fun g o => emit (offset r.ubuf (64 * g)) (r.kv g) (ti0 + 64 * g) o) tileWords r.gm o

/-- The tiles of a block. -/
def tiles (ne : Nat) (tile : Nat → Sink (Pixel t) → Sink (Pixel t)) (o : Sink (Pixel t)) :
    Sink (Pixel t) :=
  (List.range ((ne + lowplanesTile - 1) / lowplanesTile)).foldl (fun o k =>
    tile (lowplanesTile * k) o) o

/-- The bytes per plane of the tile at pixel `start`. -/
def tileBytes (ne start : Nat) : Nat := min (ne - start) lowplanesTile / 8

/-- `bslz4_lowplanes_emit`. -/
def lowplanesEmit (u : Nat → Byte) (k : BitVec 64) (base : Nat) (o : Sink (Pixel t)) :
    Sink (Pixel t) :=
  let c := compress 0#8 k u
  let vals := storeLanes (o.npx + 32) 32 (fun l => (c (32 + l)).setWidth t.bits)
    (storeLanes o.npx 32 (fun l => (c l).setWidth t.bits) o.vals)
  let s := (List.range 4).foldl (fun s q =>
    let mq : BitVec 16 := (k >>> (16 * q)).setWidth 16
    (storeLanes s.2 16 (compress 0 mq fun l => 16 * q + base + l) s.1, s.2 + popcount mq))
    (o.adr, o.npx)
  ⟨vals, s.1, s.2⟩

/-- `bslz4_lowplanes_collect_u16`. -/
def lowplanesCollectVbmi (stack : Nat → Memory × (Nat → BitVec 64)) (raw : Memory) (ne nzEnd : Nat)
    (mask : Mask) (i0 cut : Nat) (skip : Bool) (o : Sink (Pixel t)) : Except Err (Memory × Sink (Pixel t)) := do
  let (np, raw) ← openPlanes raw ne nzEnd
  return (raw, tiles ne (fun start =>
    let tsize := tileBytes ne start
    let pl := planePtr raw (ne / 8) np (start / 8)
    let group := recordGroup (vbmiBytes pl) (BitVec.ofNat 8 cut).ult mask (i0 + start)
    tileStep lowplanesEmit (fun r =>
      if skip ∧ tsize % 64 = 0 then scanBitmap group tileWords (busyGroups 64 pl tsize) r
      else (List.range (tsize / 8)).foldl (fun r g => group g r) r) (stack (i0 + start)) (i0 + start)) o)

/-- Pass B of the AVX2 collect for one group. -/
def avx2Emit (u : Nat → Byte) (k : BitVec 64) (base : Nat) (o : Sink (Pixel t)) : Sink (Pixel t) :=
  let px := fun l => (u l).setWidth t.bits
  if popcount k ≤ avx2csScalarMax then o.put (px k.ctz.toNat) (base + k.ctz.toNat)
  else
    (List.range 8).foldl (fun o q => lutHalf px base ((k >>> (8 * q)).setWidth 8) (8 * q) o) o

/-- `bslz4_lowplanes_collect_avx2_impl`. -/
def lowplanesCollectAvx2 (stack : Nat → Memory × (Nat → BitVec 64)) (raw : Memory) (ne nzEnd : Nat) (mask : Mask) (i0 cut : Nat)
    (o : Sink (Pixel t)) : Except Err (Memory × Sink (Pixel t)) := do
  let (np, raw) ← openPlanes raw ne nzEnd
  return (raw, tiles ne (fun start =>
    let pl := planePtr raw (ne / 8) np (start / 8)
    let group := recordGroup (avx2Bytes pl) (gtBiased8 (BitVec.ofNat 8 cut)) mask (i0 + start)
    tileStep avx2Emit (scanBitmap group tileWords (busyGroups 32 pl (tileBytes ne start)))
      (stack (i0 + start)) (i0 + start)) o)

/-- The bytes of one group, 8 at a time: an all-zero word is skipped. -/
def swarBytes (put : Bool → Pixel t → Nat → Sink (Pixel t) → Sink (Pixel t)) (u : Nat → Byte)
    (mask : Mask) (base cut n : Nat) (o : Sink (Pixel t)) : Sink (Pixel t) :=
  (List.range (n / 8)).foldl (fun o w =>
    if wordAt 8 u (8 * w) = 0#(8 * 8) then o
    else (List.range' (8 * w) 8).foldl (fun o b =>
      put (decide (cut < (u b).toNat) && maskOk mask (base + b)) ((u b).setWidth t.bits)
        (base + b) o) o) o

/-- `bslz4_lowplanes_collect_vsx`. -/
def lowplanesCollectVsx (raw : Memory) (ne nzEnd : Nat) (mask : Mask) (i0 cut : Nat)
    (branchfree : Bool) (o : Sink (Pixel t)) : Except Err (Memory × Sink (Pixel t)) := do
  let (np, raw) ← openPlanes raw ne nzEnd
  let size := ne / 8
  let pl := planePtr raw size np 0
  return (raw, (List.range ((size + 7) / 8)).foldl (fun o g =>
    let i := 8 * g
    if (List.range 8).all fun p => wordAt 8 (pl p) i == 0#(8 * 8) then o
    else swarBytes (if branchfree then Sink.putMaybe else Sink.putIf) (vsxBytes pl i) mask
      (i0 + 8 * i) cut 64 o) o)

/-! ## What the driver calls -/

/-- `bslz4_lowplanes_list`: `raw`, the scratch and the list, or none if the block does not qualify. -/
def lowplanesList (K : Kernels) (value : Untranspose) (raw scratch : Memory)
    (ne nzEnd n blocksize : Nat) (mask : Mask) (i0 cut : Nat) (o : Sink (Pixel t)) :
    Except Err (Memory × Memory × Option (Sink (Pixel t))) := do
  match value with
  | .lowplanesVbmi =>
      if ne % 64 ≠ 0 then return (raw, scratch, none)
      let (zero, raw) := highPlanesZero 64 raw ne nzEnd
      if !zero then return (raw, scratch, none)
      if 255 ≤ cut then return (raw, scratch, some o)
      let (raw, o) ← lowplanesCollectVbmi K.tileStack raw ne nzEnd mask i0 cut
        (n * lowplanesSkipRatio < blocksize) o
      return (raw, scratch, some o)
  | .lowplanesAvx2 =>
      if ne % 256 ≠ 0 then return (raw, scratch, none)
      let (zero, raw) := highPlanesZero 8 raw ne nzEnd
      if !zero then return (raw, scratch, none)
      if 255 ≤ cut then return (raw, scratch, some o)
      let (raw, o) ← lowplanesCollectAvx2 K.tileStack raw ne nzEnd mask i0 cut o
      return (raw, scratch, some o)
  | .lowplanesVsx =>
      if ne % 8 ≠ 0 ∨ zeroPlaneBytes < ne / 8 then return (raw, scratch, none)
      let (zero, raw) := highPlanesZero 8 raw ne nzEnd
      if !zero then return (raw, scratch, none)
      if 255 ≤ cut then return (raw, scratch, some o)
      let (raw, o) ← lowplanesCollectVsx raw ne nzEnd mask i0 cut
        (n * lowplanesBranchfreeRatio < blocksize) o
      return (raw, scratch, some o)
  | .lowplanesC =>
      if ne % 8 ≠ 0 then return (raw, scratch, none)
      let (zero, raw) := highPlanesZeroC raw ne nzEnd
      if !zero then return (raw, scratch, none)
      if 255 ≤ cut then return (raw, scratch, some o)
      match K.bitshufDecodeBlock raw none ne 1 with
      | none => return (raw, scratch, none)
      | some (out, _) =>
          let scratch := copyTo scratch 0 ne out
          return (raw, scratch, some (swarBytes Sink.putIf scratch mask i0 cut ne o))
  | _ => return (raw, scratch, none)

/-- `bslz4_untrans_lowplanes_u16`. -/
def untransLowplanes (raw block : Memory) (ne : Nat) : Memory := fun i =>
  if i < 2 * ne then
    if i % 2 = 0 then vbmiBytes (planePtr raw (ne / 8) 8 0) (8 * (i / 2 / 64)) (i / 2 % 64) else 0#8
  else block i

/-- kcb's transpose of the low planes, widened by `bslz4_widen_u8_u16_avx2`. -/
def widenLowplanes (K : Kernels) (raw block scratch : Memory) (ne : Nat) :
    Option (Memory × Memory) := do
  let (out, _) ← K.bitshufDecodeBlock raw none ne 1
  let scratch := copyTo scratch 0 ne out
  return (fun i => if i < 2 * ne then (if i % 2 = 0 then scratch (i / 2) else 0#8) else block i, scratch)

/-- `bslz4_lowplanes_block`: the pixel block if it was written from the low planes, `raw` and the
scratch. -/
def lowplanesBlock (K : Kernels) (value : Untranspose) (block raw scratch : Memory)
    (ne nzEnd : Nat) : Option Memory × Memory × Memory :=
  if nzEnd ≤ ne then
    let raw := zeroFill raw nzEnd (ne - nzEnd)
    let kept := (none, zeroFill raw ne ne, scratch)
    if ne % 64 = 0 then
      match value with
      | .lowplanesVbmi => (some (untransLowplanes raw block ne), raw, scratch)
      | .lowplanesAvx2 =>
          match widenLowplanes K raw block scratch ne with
          | some (block, scratch) => (some block, raw, scratch)
          | none => kept
      | _ => kept
    else kept
  else
    let raw := if nzEnd < 2 * ne then zeroFill raw nzEnd (2 * ne - nzEnd) else raw
    let kept := (none, raw, scratch)
    if ne % 64 ≠ 0 then kept
    else
      match value with
      | .lowplanesVbmi =>
          if allZero 64 (offset raw ne) ne then (some (untransLowplanes raw block ne), raw, scratch)
          else kept
      | .lowplanesAvx2 =>
          if allZero 8 (offset raw ne) ne then
            match widenLowplanes K raw block scratch ne with
            | some (block, scratch) => (some block, raw, scratch)
            | none => kept
          else kept
      | _ => kept

end Bslz4ToSparse.Steps
