import Bslz4ToSparse.Dot.Frame
import Bslz4ToSparse.Foundation.Rounds
import Bslz4ToSparse.Pipeline.BlockStarts
import Bslz4ToSparse.Steps.Collect
import Bslz4ToSparse.Steps.Decode
import Bslz4ToSparse.Steps.Mask

/-!
# A request to the driver (src/pipeline/pipeline.h, registry.c, driver.c)

A call names a batch of chunks, a value for every step, a cut, and perhaps a matrix and a
limit on the pixels of a frame. What the driver refuses, it refuses before the first block.
-/

namespace Bslz4ToSparse.Pipeline

open Dot Foundation Steps
open Lz4 (Byte)

variable {t : Dtype} {nij : Nat} {D : Type}

/-! ## The steps -/

/-- The steps of a pipeline, as `bslz4_resolve` accepts them for the pixel type. -/
structure Pipe (t : Dtype) where
  decode : Decode
  mask : MaskStep
  untranspose : Untranspose
  collect : Collect
  lowplanes_u16 : untranspose.lowplanes = true → t = .u16
  collect_simd : collect ≠ .scalar → t = .u16 ∨ t = .u32

/-- The `route` values. -/
inductive Route where
  | ratioRule | dense | sparse | bppRule
  deriving DecidableEq, Repr

/-- `BSLZ4_ROUTE_RATIO`. -/
def routeRatio : Nat := 8

/-- `BSLZ4_ROUTE_BPP`. -/
def routeBpp : Nat := 2

/-- Whether a compressed block of `nbytes` goes to the list: a rule says it where the pipeline
does not. -/
def Route.takesList (route : Route) (nbytes NB size : Nat) : Bool :=
  match route with
  | .dense => false
  | .sparse => true
  | .ratioRule => decide (routeRatio * nbytes < size)
  | .bppRule => decide (8 * nbytes * NB < routeBpp * size)

/-- A route reads the pixels of its block, or the entries of its list, and no others. -/
structure Reads {P D : Type} (K : DotKernel P D) (fits : Nat → Nat → Prop) : Prop where
  dense : ∀ px px' i0 n, fits i0 n → (∀ j, j < n → px j = px' j) →
    K.dense px i0 n = K.dense px' i0 n
  sparse : ∀ i0 n (l l' : PixelList P), l.nz = l'.nz →
    (∀ kk, kk < l.nz → l.tidx kk = l'.tidx kk ∧ l.tval kk = l'.tval kk) →
    K.sparse i0 n l = K.sparse i0 n l'

/-- A dot over the layout of a matrix for frames of `nij` pixels. -/
structure DotStep (t : Dtype) (nij : Nat) (D : Type) where
  kernel : DotKernel (Pixel t) D
  zero : D
  finish : D → D                    -- csc-nosplit-int's conversion after the last block
  layout : Option (Nat × Nat)       -- `block_elems` and the entries of the block pointers
  reads : ∀ be, (∀ l ∈ layout, l.1 = be) → Reads kernel (IsDecodeBlock nij be)

/-- `bslz4_top`. -/
structure Top where
  howmany : Int
  nthr : Int
  thr : Nat → Int

/-- What the driver runs on: the third-party code and the instruction sets. -/
structure Platform where
  codecs : Codecs
  kernels : Kernels
  sse2 : Bool
  avx512 : Bool

/-- The arguments of `bslz4_driver_run`. With the decode value `pixels` the chunks are frames of
uncompressed pixels. -/
structure Call (t : Dtype) (nij : Nat) (D : Type) where
  chunks : Chunks
  mask : Memory
  cut : List (Pixel t)
  pipe : Pipe t
  dot : Option (Route × DotStep t nij D)
  top : Option Top
  workspaceLen : Nat

/-! ## What is refused -/

/-- A cut that is not negative and not a NaN. -/
def validCut (cut : Pixel t) : Bool :=
  if t.isFloat then !cut.isNaN && decide (0 ≤ cut.signedMagnitude) else decide (0 ≤ cut.value)

/-- The cut: one element. -/
def Call.cutPixel (q : Call t nij D) : Pixel t := q.cut.getD 0 0#_

/-- `read_cut`. -/
def readCut (q : Call t nij D) : Except Err Unit := do
  refuse (q.cut.length != 1) .badCut
  refuse (!validCut q.cutPixel) .badThreshold

/-- `decode == BSLZ4_DECODE_PIXELS`. -/
def Call.pixels (q : Call t nij D) : Bool := q.pipe.decode == .pixels

/-- A frame of pixels has `nij` of them. -/
def checkPixels (q : Call t nij D) (f : Nat) : Except Err Unit := do
  refuse (decide (nij * t.size < (q.chunks.bytes f).length)) .tooManyPixels
  refuse (decide ((q.chunks.bytes f).length < nij * t.size)) .tooFewPixels

/-- The decoded size of a frame and the block size. -/
structure Geometry where
  total : Nat
  blocksize : Nat

/-- The geometry of the batch: the header of the chunks, or the pixels and the default size. -/
def readGeometry (q : Call t nij D) : Except Err Geometry := do
  if q.pixels then
    refuse (q.chunks.nframes == 0) .badNframes
    (List.range q.chunks.nframes).foldlM (fun _ f => checkPixels q f) ()
    return ⟨nij * t.size, defaultBlockBytes⟩
  else
    let (total, blocksize) ← checkFrames q.chunks
    return ⟨total, blocksize⟩

/-- The pixels of a full block. -/
def Geometry.blockElems (g : Geometry) (t : Dtype) : Nat := g.blocksize / t.size

/-- A layout that was built at another block size, or for fewer blocks. -/
def badLayout (be : Nat) (dot : DotStep t nij D) : Bool :=
  dot.layout.any fun l =>
    be == 0 || l.1 != be || decide (l.2 < (nij + be - 1) / be + 1)

/-- The bytes of the workspace. -/
def workspaceBytes (q : Call t nij D) (g : Geometry) : Nat :=
  3 * g.blocksize + if q.dot.isSome then g.blockElems t * (4 + t.size) else 0

/-- The checks of `bslz4_driver_run` before the first block. -/
def accept (q : Call t nij D) : Except Err Geometry := do
  readCut q
  refuse (q.top.any fun top => decide (top.howmany < 0) || decide (top.nthr < 0)) .badThreshold
  let g ← readGeometry q
  refuse (decide (nij < g.total / t.size)) .tooManyPixels
  refuse (g.total != nij * t.size) .tooFewPixels
  refuse (decide (2 ^ 31 - 1 < g.total)) .tooLarge
  refuse (q.dot.any fun d => badLayout (g.blockElems t) d.2) .badLayout
  refuse (decide (q.workspaceLen < workspaceBytes q g)) .workspaceTooSmall
  return g

/-! ## What is accepted -/

theorem refuse_bind_ok {α : Type} {c : Bool} {e : Err} {f : Unit → Except Err α} {a : α} :
    (refuse c e >>= f) = .ok a ↔ c = false ∧ f () = .ok a := by
  cases c with
  | true => simp
  | false => simp

/-- What an accepted call has. -/
structure Accepted (q : Call t nij D) (g : Geometry) : Prop where
  cut : q.cut.length = 1
  validCut : validCut q.cutPixel = true
  top : ∀ top ∈ q.top, 0 ≤ top.howmany ∧ 0 ≤ top.nthr
  geometry : readGeometry q = .ok g
  total : g.total = nij * t.size
  small : g.total ≤ 2 ^ 31 - 1
  layout : ∀ d ∈ q.dot, badLayout (g.blockElems t) d.2 = false
  workspace : workspaceBytes q g ≤ q.workspaceLen

theorem accept_ok {q : Call t nij D} {g : Geometry} : accept q = .ok g ↔ Accepted q g := by
  have hcut : readCut q = .ok () ↔ q.cut.length = 1 ∧ validCut q.cutPixel = true := by
    unfold readCut
    rw [refuse_bind_ok, refuse_ok]
    simp
  have htop : (q.top.any fun top => decide (top.howmany < 0) || decide (top.nthr < 0)) = false ↔
      ∀ top ∈ q.top, 0 ≤ top.howmany ∧ 0 ≤ top.nthr := by
    cases q.top with
    | none => simp
    | some top => simp
  have hlayout : (q.dot.any fun d => badLayout (g.blockElems t) d.2) = false ↔
      ∀ d ∈ q.dot, badLayout (g.blockElems t) d.2 = false := by
    cases q.dot with
    | none => simp
    | some d => simp
  have hdiv : nij * t.size / t.size = nij := Nat.mul_div_cancel nij t.size_pos
  unfold accept
  constructor
  · intro h
    obtain ⟨⟨⟩, hc, h⟩ := bind_eq_ok.mp h
    obtain ⟨ht, h⟩ := refuse_bind_ok.mp h
    obtain ⟨g', hg, h⟩ := bind_eq_ok.mp h
    obtain ⟨-, h⟩ := refuse_bind_ok.mp h
    obtain ⟨htotal, h⟩ := refuse_bind_ok.mp h
    obtain ⟨hsmall, h⟩ := refuse_bind_ok.mp h
    obtain ⟨hl, h⟩ := refuse_bind_ok.mp h
    obtain ⟨hw, h⟩ := refuse_bind_ok.mp h
    obtain rfl := Except.ok.inj h
    constructor
    · exact (hcut.mp hc).1
    · exact (hcut.mp hc).2
    · exact htop.mp ht
    · exact hg
    · simpa using htotal
    · simpa using hsmall
    · exact hlayout.mp hl
    · simpa using hw
  · intro h
    refine bind_eq_ok.mpr ⟨(), hcut.mpr ⟨h.cut, h.validCut⟩, ?_⟩
    refine refuse_bind_ok.mpr ⟨htop.mpr h.top, ?_⟩
    refine bind_eq_ok.mpr ⟨g, h.geometry, ?_⟩
    refine refuse_bind_ok.mpr ⟨by simp [h.total, hdiv], ?_⟩
    refine refuse_bind_ok.mpr ⟨by simp [h.total], ?_⟩
    refine refuse_bind_ok.mpr ⟨by simpa using h.small, ?_⟩
    refine refuse_bind_ok.mpr ⟨hlayout.mpr h.layout, ?_⟩
    exact refuse_bind_ok.mpr ⟨by simpa using h.workspace, rfl⟩

/-- The geometry of a batch of chunks is the one of its header. -/
theorem readGeometry_chunks {q : Call t nij D} {g : Geometry} (hq : q.pixels = false) :
    readGeometry q = .ok g ↔ checkFrames q.chunks = .ok (g.total, g.blocksize) := by
  unfold readGeometry
  rw [hq]
  constructor
  · intro h
    obtain ⟨⟨total, blocksize⟩, hc, h⟩ := bind_eq_ok.mp h
    cases h
    exact hc
  · intro h
    exact bind_eq_ok.mpr ⟨_, h, rfl⟩

/-! ## Thresholds -/

/-- The magnitude bits of the floating-point number `a` with `e` bits of exponent bias and `p` bits
of fraction; `a` has at most `p + 1` significant bits. -/
def floatBits (bias p a : Nat) : Nat :=
  if a = 0 then 0 else (a.log2 + bias) * 2 ^ p + (a * 2 ^ p / 2 ^ a.log2 - 2 ^ p)

/-- An integer in the pixel type: wrapped, or rounded to the nearest floating-point number. -/
def ofInteger : (t : Dtype) → Int → Pixel t
  | .f32, v => BitVec.ofBool (decide (v < 0)) ++ BitVec.ofNat 31 (floatBits 127 23 (roundTo 24 v).natAbs)
  | .f64, v => BitVec.ofBool (decide (v < 0)) ++ BitVec.ofNat 63 (floatBits 1023 52 (roundTo 53 v).natAbs)
  | t, v => BitVec.ofInt t.bits v

/-- The largest value of an integer type, where it is below the largest `int64`. -/
def maxValue : Dtype → Option Int
  | .u64 | .i64 | .f32 | .f64 => none
  | t => some (if t.signed then 2 ^ (t.bits - 1) - 1 else 2 ^ t.bits - 1)

/-- The threshold of a level in the pixel type, as the collects compare with it; none is above
every pixel (`bslz4_cut_above_max`, `bslz4_cut_of`). Level 0 is the call's cut. -/
def Call.cutAt (q : Call t nij D) : Nat → Option (Pixel t)
  | 0 => some q.cutPixel
  | level + 1 =>
      let thr := (q.top.map Top.thr).getD (fun _ => 0) level
      if (maxValue t).any fun m => decide (m < thr) then none
      else some (ofInteger t (if t.isFloat then roundTo 53 thr else thr))

/-- As the filter compares with it (`bslz4_filter_gt`). -/
def Top.filterCut (top : Top) (t : Dtype) (level : Nat) : Option (Pixel t) :=
  if (maxValue t).any fun m => decide (m ≤ top.thr level) then none
  else some (ofInteger t (top.thr level))

/-- `thr_f > 65535 ? 65535u : (unsigned) thr_f`. -/
def Call.lowCut (q : Call t nij D) : Nat → Nat
  | 0 => min 65535 q.cutPixel.toNat
  | level + 1 =>
      let thr := (q.top.map Top.thr).getD (fun _ => 0) level
      if 65535 < thr then 65535 else (thr % 2 ^ 32).toNat

/-- Above a threshold. -/
def above (cut : Option (Pixel t)) (v : Pixel t) : Bool := cut.any v.gt

end Bslz4ToSparse.Pipeline
