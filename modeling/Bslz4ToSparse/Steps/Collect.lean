import Bslz4ToSparse.Foundation.Emit
import Bslz4ToSparse.Lz4.Naive
import Bslz4ToSparse.Pixel

/-!
# The collect step (src/steps/collect.hpp)

A collect lists the unmasked pixels of a block above a cut, or the non-zero ones. The
vector values walk the block in groups of lanes, with a scalar loop for what is left over.
Lanes are numbered as the pixels are; a word of a comparison has one bit a lane.
-/

namespace Bslz4ToSparse.Steps

open Foundation
open Lz4 (Byte)

variable {P : Type} {t : Dtype}

/-- The `collect` values. -/
inductive Collect where
  | avx512cs | avx2cs | vsx | neon | sse2 | scalar
  deriving DecidableEq, Repr

/-- A pixel mask; `none` is the NULL pointer. -/
abbrev Mask : Type := Option (Nat → Byte)

/-- `bslz4_mask_ok`. -/
def maskOk (mask : Mask) (idx : Nat) : Bool :=
  match mask with
  | none => true
  | some m => m idx != 0#8

/-- The test of the scalar loops for pixel `j` of the block. -/
def selects (gt : P → Bool) (mask : Mask) (px : Nat → P) (i0 j : Nat) : Bool :=
  maskOk mask (j + i0) && gt (px j)

/-- `for (; j < n; j++) if (…) { … npx++; }`. -/
def collectFrom (gt : P → Bool) (mask : Mask) (px : Nat → P) (i0 j n : Nat) (o : Sink P) : Sink P :=
  (List.range' j (n - j)).foldl (fun o j => o.putIf (selects gt mask px i0 j) (px j) (j + i0)) o

/-- The lanes of a group that the mask lets through (`_mm…_cmpneq_epu8_mask`), ANDed in. -/
def andMask {w : Nat} (mask : Mask) (idx : Nat) (m : BitVec w) : BitVec w :=
  match mask with
  | none => m
  | some mk => m &&& gather w fun k => mk (idx + k) != 0#8

/-- Groups of `w` pixels, then the scalar loop. -/
def collectGroups (w : Nat) (group : Nat → Sink P → Sink P) (gt : P → Bool) (mask : Mask)
    (px : Nat → P) (i0 n : Nat) (o : Sink P) : Sink P :=
  collectFrom gt mask px i0 (w * (n / w)) n
    ((List.range (n / w)).foldl (fun o g => group (w * g) o) o)

/-! ## avx512cs -/

/-- The body of `bslz4_collect_avx512cs_u16`: 32 values in one store, their indices in two. -/
def compressGroup16 (mask : Mask) (px : Nat → BitVec 16) (i0 : Nat) (cut : BitVec 16) (j : Nat)
    (o : Sink (BitVec 16)) : Sink (BitVec 16) :=
  let m := andMask mask (j + i0) (gather 32 fun k => cut.ult (px (j + k)))
  if m = 0#32 then o
  else
    let mlo := (m >>> 0).setWidth 16
    let mhi := (m >>> 16).setWidth 16
    let nlo := popcount mlo
    { vals := storeLanes o.npx 32 (compress 0#16 m fun k => px (j + k)) o.vals
      adr := storeLanes (o.npx + nlo) 16 (compress 0 mhi fun k => j + 16 + i0 + k)
        (storeLanes o.npx 16 (compress 0 mlo fun k => j + 0 + i0 + k) o.adr)
      npx := o.npx + (nlo + popcount mhi) }

def collectAvx512csU16 (mask : Mask) (px : Nat → BitVec 16) (i0 n : Nat) (cut : BitVec 16) :
    Sink (BitVec 16) → Sink (BitVec 16) :=
  collectGroups 32 (compressGroup16 mask px i0 cut) cut.ult mask px i0 n

/-- The body of `bslz4_collect_avx512cs_u32`. -/
def compressGroup32 (mask : Mask) (px : Nat → BitVec 32) (i0 : Nat) (cut : BitVec 32) (j : Nat)
    (o : Sink (BitVec 32)) : Sink (BitVec 32) :=
  let m := andMask mask (j + i0) (gather 16 fun k => cut.ult (px (j + k)))
  if m = 0#16 then o
  else
    { vals := storeLanes o.npx 16 (compress 0#32 m fun k => px (j + k)) o.vals
      adr := storeLanes o.npx 16 (compress 0 m fun k => j + i0 + k) o.adr
      npx := o.npx + popcount m }

def collectAvx512csU32 (mask : Mask) (px : Nat → BitVec 32) (i0 n : Nat) (cut : BitVec 32) :
    Sink (BitVec 32) → Sink (BitVec 32) :=
  collectGroups 16 (compressGroup32 mask px i0 cut) cut.ult mask px i0 n

/-! ## avx2cs and sse2 -/

/-- The signed comparison of AVX2 and SSE2 with both sides' sign bits flipped. -/
def gtBiased16 (cut v : BitVec 16) : Bool := (cut ^^^ 0x8000#16).slt (v ^^^ 0x8000#16)

def gtBiased32 (cut v : BitVec 32) : Bool := (cut ^^^ 0x80000000#32).slt (v ^^^ 0x80000000#32)

/-- `mnz`: the unmasked ones of `n` pixels, `~movemask(cmpeq(mask, 0))` cut to `n` bits. -/
def unmaskedBits (n : Nat) (mask : Mask) (idx : Nat) : BitVec 32 :=
  match mask with
  | none => BitVec.ofNat 32 (2 ^ n - 1)
  | some m => ~~~((gather n fun k => m (idx + k) == 0#8).setWidth 32) &&& BitVec.ofNat 32 (2 ^ n - 1)

/-- The bit loop over a group. -/
def bitGroup (px : Nat → P) (i0 : Nat) (bits : Nat → BitVec 32) (j : Nat) (o : Sink P) : Sink P :=
  scanBits (fun b o => o.put (px (j + b)) (j + i0 + b)) 32 (bits j) o

/-- The 16-bit lane that byte `b` of `packs_epi16(gt, gt)` holds: each 128-bit half is packed
twice. -/
def packedLane (b : Nat) : Nat := 8 * (b / 16) + b % 8

/-- The selected lanes of 16 pixels: the mask's and the packed comparison's bits. -/
def avx2csBits16 (mask : Mask) (px : Nat → BitVec 16) (i0 : Nat) (cut : BitVec 16) (j : Nat) :
    BitVec 32 :=
  let packed := gather 32 fun b => gtBiased16 cut (px (j + packedLane b))
  unmaskedBits 16 mask (j + i0) &&& ((packed &&& 0xFF#32) ||| ((packed >>> 8) &&& 0xFF00#32))

/-- `bslz4_avx2cs_lut`: byte `k` of the entry of `m` is the number of its `k`-th set bit. -/
def avx2csLane (m : BitVec 8) : Nat → Nat := compress 0 m id

def avx2csScalarMax : Nat := 1

/-- Half a group through the table: 8 pixels, stored full width. -/
def lutHalf (px : Nat → P) (i0 : Nat) (m : BitVec 8) (j : Nat) (o : Sink P) : Sink P where
  vals := storeLanes o.npx 8 (fun k => px (j + avx2csLane m k)) o.vals
  adr := storeLanes o.npx 8 (fun k => j + i0 + avx2csLane m k) o.adr
  npx := o.npx + popcount m

/-- The body of `bslz4_collect_avx2cs_u16`. -/
def lutGroup (mask : Mask) (px : Nat → BitVec 16) (i0 : Nat) (cut : BitVec 16) (j : Nat)
    (o : Sink (BitVec 16)) : Sink (BitVec 16) :=
  let bits := avx2csBits16 mask px i0 cut j
  if bits = 0#32 then o
  else if popcount bits ≤ avx2csScalarMax then bitGroup px i0 (fun _ => bits) j o
  else
    (List.range 2).foldl (fun o h =>
      lutHalf px i0 ((bits >>> (8 * h)).setWidth 8) (j + 8 * h) o) o

def collectAvx2csU16 (mask : Mask) (px : Nat → BitVec 16) (i0 n : Nat) (cut : BitVec 16) :
    Sink (BitVec 16) → Sink (BitVec 16) :=
  collectGroups 16 (lutGroup mask px i0 cut) cut.ult mask px i0 n

/-- The selected ones of `n` lanes that a movemask gives in order. -/
def lanesBits (n : Nat) (gt : P → Bool) (mask : Mask) (px : Nat → P) (i0 j : Nat) : BitVec 32 :=
  unmaskedBits n mask (j + i0) &&& (gather n fun k => gt (px (j + k))).setWidth 32

def collectAvx2csU32 (mask : Mask) (px : Nat → BitVec 32) (i0 n : Nat) (cut : BitVec 32) :
    Sink (BitVec 32) → Sink (BitVec 32) :=
  collectGroups 8 (bitGroup px i0 (lanesBits 8 (gtBiased32 cut) mask px i0)) cut.ult mask px i0 n

/-- As `lanesBits`, from `packs_epi16(gt, gt)` of one 128-bit register. -/
def sse2Bits16 (mask : Mask) (px : Nat → BitVec 16) (i0 : Nat) (cut : BitVec 16) (j : Nat) :
    BitVec 32 :=
  let packed := (gather 16 fun b => gtBiased16 cut (px (j + packedLane b))).setWidth 32
  unmaskedBits 8 mask (j + i0) &&& (packed &&& 0xFF#32)

def collectSse2U16 (mask : Mask) (px : Nat → BitVec 16) (i0 n : Nat) (cut : BitVec 16) :
    Sink (BitVec 16) → Sink (BitVec 16) :=
  collectGroups 8 (bitGroup px i0 (sse2Bits16 mask px i0 cut)) cut.ult mask px i0 n

def collectSse2U32 (mask : Mask) (px : Nat → BitVec 32) (i0 n : Nat) (cut : BitVec 32) :
    Sink (BitVec 32) → Sink (BitVec 32) :=
  collectGroups 4 (bitGroup px i0 (lanesBits 4 (gtBiased32 cut) mask px i0)) cut.ult mask px i0 n

/-! ## neon and vsx -/

/-- A group that is skipped unless some lane is above the cut (`vmaxvq`, `vec_any_gt`). -/
def gatedGroup (w : Nat) (gt : P → Bool) (mask : Mask) (px : Nat → P) (i0 j : Nat) (o : Sink P) :
    Sink P :=
  if (List.range w).any fun k => gt (px (j + k)) then
    (List.range' j w).foldl (fun o j => o.putIf (selects gt mask px i0 j) (px j) (j + i0)) o
  else o

def collectNeonU16 (mask : Mask) (px : Nat → BitVec 16) (i0 n : Nat) (cut : BitVec 16) :
    Sink (BitVec 16) → Sink (BitVec 16) :=
  collectGroups 8 (gatedGroup 8 cut.ult mask px i0) cut.ult mask px i0 n

def collectNeonU32 (mask : Mask) (px : Nat → BitVec 32) (i0 n : Nat) (cut : BitVec 32) :
    Sink (BitVec 32) → Sink (BitVec 32) :=
  collectGroups 4 (gatedGroup 4 cut.ult mask px i0) cut.ult mask px i0 n

def vsxWindow : Nat := 128
def vsxToDense : Nat := 20
def vsxToSparse : Nat := 50

/-- `bslz4_vsx_next_dense`. -/
def vsxNextDense (dense : Bool) (kept : Nat) : Bool :=
  if dense then vsxWindow ≤ kept * vsxToSparse else vsxWindow < kept * vsxToDense

/-- One window of a vsx collect, `[j, fin)`: the scalar loop in the dense mode, else the gated
groups of `w` lanes. The pixels it keeps decide the mode of the next one. -/
def vsxWindowStep (w : Nat) (gt : P → Bool) (mask : Mask) (px : Nat → P) (i0 j fin : Nat)
    (s : Sink P × Bool) : Sink P × Bool :=
  let o :=
    if s.2 then collectFrom gt mask px i0 j fin s.1
    else (List.range ((fin - j) / w)).foldl (fun o g => gatedGroup w gt mask px i0 (j + w * g) o) s.1
  (o, vsxNextDense s.2 (o.npx - s.1.npx))

/-- The windows of the whole vectors, then the scalar loop. -/
def collectVsx (w : Nat) (gt : P → Bool) (mask : Mask) (px : Nat → P) (i0 n : Nat) (o : Sink P) :
    Sink P :=
  let nv := w * (n / w)
  let s := (List.range ((nv + vsxWindow - 1) / vsxWindow)).foldl (fun s k =>
    vsxWindowStep w gt mask px i0 (vsxWindow * k) (min (vsxWindow * k + vsxWindow) nv) s) (o, false)
  collectFrom gt mask px i0 nv n s.1

def collectVsxU16 (mask : Mask) (px : Nat → BitVec 16) (i0 n : Nat) (cut : BitVec 16) :
    Sink (BitVec 16) → Sink (BitVec 16) :=
  collectVsx 8 cut.ult mask px i0 n

def collectVsxU32 (mask : Mask) (px : Nat → BitVec 32) (i0 n : Nat) (cut : BitVec 32) :
    Sink (BitVec 32) → Sink (BitVec 32) :=
  collectVsx 4 cut.ult mask px i0 n

/-! ## The dispatch -/

/-- `bslz4_collect_gt<uint16_t>`. -/
def collectGtU16 (collect : Collect) (mask : Mask) (px : Nat → BitVec 16) (i0 n : Nat)
    (cut : BitVec 16) : Sink (BitVec 16) → Sink (BitVec 16) :=
  match collect with
  | .avx512cs => collectAvx512csU16 mask px i0 n cut
  | .avx2cs => collectAvx2csU16 mask px i0 n cut
  | .sse2 => collectSse2U16 mask px i0 n cut
  | .vsx => collectVsxU16 mask px i0 n cut
  | .neon => collectNeonU16 mask px i0 n cut
  | .scalar => collectFrom cut.ult mask px i0 0 n

/-- `bslz4_collect_gt<uint32_t>`. -/
def collectGtU32 (collect : Collect) (mask : Mask) (px : Nat → BitVec 32) (i0 n : Nat)
    (cut : BitVec 32) : Sink (BitVec 32) → Sink (BitVec 32) :=
  match collect with
  | .avx512cs => collectAvx512csU32 mask px i0 n cut
  | .avx2cs => collectAvx2csU32 mask px i0 n cut
  | .sse2 => collectSse2U32 mask px i0 n cut
  | .vsx => collectVsxU32 mask px i0 n cut
  | .neon => collectNeonU32 mask px i0 n cut
  | .scalar => collectFrom cut.ult mask px i0 0 n

/-- `bslz4_collect_gt<T>`. -/
def collectGt : (t : Dtype) → Collect → Mask → (Nat → Pixel t) → Nat → Nat → Pixel t →
    Sink (Pixel t) → Sink (Pixel t)
  | .u16, collect, mask, px, i0, n, cut => collectGtU16 collect mask px i0 n cut
  | .u32, collect, mask, px, i0, n, cut => collectGtU32 collect mask px i0 n cut
  | _, _, mask, px, i0, n, cut => collectFrom (fun v => v.gt cut) mask px i0 0 n

/-- `bslz4_collect_nz<uint16_t>`: the vector values are those of the cut 0. -/
def collectNzU16 (collect : Collect) (mask : Mask) (px : Nat → BitVec 16) (i0 n : Nat) :
    Sink (BitVec 16) → Sink (BitVec 16) :=
  match collect with
  | .scalar => collectFrom (· != 0#16) mask px i0 0 n
  | simd => collectGtU16 simd mask px i0 n 0#16

/-- `bslz4_collect_nz<uint32_t>`. -/
def collectNzU32 (collect : Collect) (mask : Mask) (px : Nat → BitVec 32) (i0 n : Nat) :
    Sink (BitVec 32) → Sink (BitVec 32) :=
  match collect with
  | .scalar => collectFrom (· != 0#32) mask px i0 0 n
  | simd => collectGtU32 simd mask px i0 n 0#32

/-- `bslz4_collect_nz<T>`. -/
def collectNz : (t : Dtype) → Collect → Mask → (Nat → Pixel t) → Nat → Nat →
    Sink (Pixel t) → Sink (Pixel t)
  | .u16, collect, mask, px, i0, n => collectNzU16 collect mask px i0 n
  | .u32, collect, mask, px, i0, n => collectNzU32 collect mask px i0 n
  | _, _, mask, px, i0, n => collectFrom Pixel.nonzero mask px i0 0 n

end Bslz4ToSparse.Steps
