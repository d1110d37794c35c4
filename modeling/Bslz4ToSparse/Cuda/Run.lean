import Bslz4ToSparse.Cuda.Decompress
import Bslz4ToSparse.Cuda.Ladders
import Bslz4ToSparse.Foundation.Tiles
import Bslz4ToSparse.Pipeline.Codec
import Mathlib.Data.List.ProdSigma

/-!
# A call of the GPU class (src/cuda/_gpu.py)

The frames of a call are taken in groups and the frames of a group in batches. The batches share
the dense frames of the device: a batch finds there what the one before it has left.
-/

namespace Bslz4ToSparse.Cuda

open Foundation Steps TopPixels Pipeline
open Lz4 (Byte)

variable {t : Dtype}

/-! ## The batches -/

/-- The `n` frames from `s0` on of the group that begins at frame `g0`. -/
structure Part where
  g0 : Nat
  s0 : Nat
  n : Nat
  deriving DecidableEq, Repr

/-- The first frame. -/
def Part.f0 (part : Part) : Nat := part.g0 + part.s0

/-- `G` of `_run_from`. -/
def groupFrames (batch nf : Nat) : Option Nat → Nat
  | none => max batch (min nf 256)
  | some group => group

/-- The first frame of every group, and its frames. -/
def groups (nf group : Nat) : List (Nat × Nat) :=
  (strided 0 nf group).map fun g0 => (g0, min group (nf - g0))

/-- The batches of a group. -/
def groupParts (batch : Nat) (g : Nat × Nat) : List Part :=
  (strided 0 g.2 batch).map fun s0 => ⟨g.1, s0, min batch (g.2 - s0)⟩

/-- The loops of `_run_from`. -/
def parts (nf group batch : Nat) : List Part := (groups nf group).flatMap (groupParts batch)

/-! ## `_raise_bad_chunks` -/

/-- `_UNBLOCK_ERRORS`. -/
def unblockErrors : Nat → String
  | 1 => "a chunk is corrupt or truncated (a block lies outside it)"
  | 2 => "a chunk is corrupt or truncated (its block lengths do not match its size)"
  | 3 => "-106: a chunk is not a frame of the mask's size"
  | 4 => "a chunk's blocks are not 8192 bytes, the only size the GPU decoder takes"
  | 5 => "a chunk is zstd: the GPU decoder does lz4 only"
  | e => "error " ++ toString e

/-- `np.unique`. -/
def unique (xs : List Nat) : List Nat := (xs.mergeSort (· ≤ ·)).eraseReps

/-- The message for the errors of the `n` frames from `f0` on. -/
def badChunks (err : Nat → Nat) (f0 n : Nat) : String :=
  "Error decoding batch: " ++ ". ".intercalate
    ((unique (((List.range n).map err).filter (· ≠ 0))).map fun e =>
      unblockErrors e ++ "; chunks " ++
        toString (((List.range n).filter fun j => err j = e).map (· + f0)))

namespace Settings

variable (s : Settings t) (chunk : Nat → List Byte)

/-- `self.nbytes`. -/
def nbytes : Nat := s.npix * t.size

/-- `self.stride`. -/
def stride : Nat := (s.nbytes + 8191) / 8192 * 8192

/-- `self.stride_el`. -/
def strideEl : Nat := s.stride / t.size

/-- What `unblock` leaves for frame `f` of the call. -/
def unblocked (f : Nat) : Nat × List (Nat × Nat) :=
  unblock (chunk f) (hostNstored s.nbytes t.size) (hostTocopy s.nbytes t.size) s.nbytes

/-! ## `_host_chunks` -/

/-- `int.from_bytes(h, "big")`. -/
def fromBytes (h : List Byte) : Nat := h.foldl (fun n b => 256 * n + b.toNat) 0

/-- `_chunk_header`. -/
def chunkHeader (c : List Byte) : Nat × Nat := (fromBytes (c.take 8), fromBytes ((c.take 12).drop 8))

/-- `_check` of one chunk. -/
def checkChunk (c : List Byte) : Except String Unit :=
  if (chunkHeader c).1 ≠ s.nbytes then
    .error ("Error decoding chunk: -106: the chunk is for " ++ toString (chunkHeader c).1 ++
      " bytes, expected " ++ toString s.nbytes)
  else if (chunkHeader c).2 ≠ 0 ∧ (chunkHeader c).2 ≠ defaultBlockBytes then
    .error ("Error decoding chunk: block size " ++ toString (chunkHeader c).2 ++
      " bytes; the GPU decoder takes " ++ toString defaultBlockBytes)
  else .ok ()

/-- `_host_chunks` of `nf` chunks. The codec is `pending` until a first chunk has decided it. -/
def hostChunks (pending : Bool) (nf : Nat) : Except String Unit :=
  if nf = 0 then .error "Error decoding batch: -105: no chunks were given"
  else if pending ∧ codecOfChunk (chunk 0) ≠ .lz4 then .error "the GPU decoder does lz4 only"
  else (List.range nf).forM fun f => s.checkChunk (chunk f)

/-- What the launches take of a frame: their grids are `(n, (ntot + 1) / 2)`. -/
def GridFits : Prop := (hostNtot s.nbytes + 1) / 2 ≤ 65535

/-- A call with chunks of the host, which are checked before anything runs. A grid that does not fit
raises the device's own error, which is not followed. -/
inductive HostCall {α : Type} (pending : Bool) (nf : Nat) (fits : Prop) (run : Except String α → Prop) :
    Except String α → Prop
  | refused {e : String} (h : s.hostChunks chunk pending nf = .error e) : HostCall pending nf fits run (.error e)
  | ran {result : Except String α} (h : s.hostChunks chunk pending nf = .ok ()) (hfits : fits)
      (hrun : run result) : HostCall pending nf fits run result

/-! ## `decompress` on a batch -/

/-- The warp for block `blockid` of frame `im` of the frames from `f0` on, `stride` bytes apart. A bad chunk is
skipped. -/
def DenseWarp (stride f0 : Nat) (warp : Nat × Nat) (dense dense' : Memory) : Prop :=
  if (s.unblocked chunk (f0 + warp.1)).1 ≠ 0 then dense' = dense
  else
    ∃ out, WarpRun t.size s.nbytes (chunk (f0 + warp.1)) (s.unblocked chunk (f0 + warp.1)).2 warp.2
        (offset dense (warp.1 * stride)) out ∧
      dense' = fun i => if i < warp.1 * stride then dense i else out (i - warp.1 * stride)

/-- The warps of a launch, in the order `order`. -/
inductive DenseRun (stride f0 : Nat) : List (Nat × Nat) → Memory → Memory → Prop
  | nil (dense : Memory) : DenseRun stride f0 [] dense dense
  | cons {warp : Nat × Nat} {order : List (Nat × Nat)} {dense dense₁ dense' : Memory}
      (hwarp : s.DenseWarp chunk stride f0 warp dense dense₁) (hrest : DenseRun stride f0 order dense₁ dense') :
      DenseRun stride f0 (warp :: order) dense dense'

/-- Grid `(n, (ntot + 1) / 2)`, block `(32, 2)`. -/
def warpGrid (n : Nat) : List (Nat × Nat) :=
  List.range n ×ˢ List.range (2 * ((hostNtot s.nbytes + 1) / 2))

/-! ## `_launch` and `_fetch` -/

/-- The arguments of the kernels that list the pixels of a batch. -/
structure PartBatch (part : Part) (dense : Memory) (g : Batch t) : Prop extends s.Launched g where
  n : g.n = part.n
  dense : g.dense = pixelAt t dense
  strideEl : g.strideEl = s.strideEl
  err : g.err = fun im => (s.unblocked chunk (part.f0 + im)).1

/-- The list and `last_nabove` of each frame of the call. -/
abbrev Rows (t : Dtype) : Type := Nat → List (Pixel t × Nat) × Nat

/-- The rows of a batch. -/
def store (part : Part) {g : Batch t} (l : Lists g) (rows : Rows t) : Rows t := fun f =>
  if part.f0 ≤ f ∧ f < part.f0 + part.n then s.fetch l (f - part.f0) else rows f

/-- `_run_from` from a batch on: the warps of a launch run in any order. -/
inductive CallRun : List Part → Memory → Rows t → Except String (Rows t) → Prop
  | nil (dense : Memory) (rows : Rows t) : CallRun [] dense rows (.ok rows)
  | bad {part : Part} {rest : List Part} (dense : Memory) (rows : Rows t)
      (hbad : ∃ j, j < part.n ∧ (s.unblocked chunk (part.f0 + j)).1 ≠ 0) :
      CallRun (part :: rest) dense rows
        (.error (badChunks (fun j => (s.unblocked chunk (part.f0 + j)).1) part.f0 part.n))
  | cons {part : Part} {rest : List Part} {order : List (Nat × Nat)} {dense dense' : Memory} {rows : Rows t}
      {result : Except String (Rows t)} {g : Batch t}
      (hgood : ∀ j, j < part.n → (s.unblocked chunk (part.f0 + j)).1 = 0)
      (horder : (s.warpGrid part.n).Perm order) (hdense : s.DenseRun chunk s.stride part.f0 order dense dense')
      (hg : s.PartBatch chunk part dense' g) (l : Lists g)
      (hrest : CallRun rest dense' (s.store part l rows) result) :
      CallRun (part :: rest) dense rows result

/-! ## The dense frames -/

variable {s : Settings t} {chunk : Nat → List Byte}

theorem HostCall.exists {α : Type} {run : Except String α → Prop} {fits : Prop} (hfits : fits)
    (h : ∃ result, run result) (pending : Bool) (nf : Nat) :
    ∃ result, s.HostCall chunk pending nf fits run result := by
  obtain ⟨result, hrun⟩ := h
  cases hhost : s.hostChunks chunk pending nf with
  | error e => exact ⟨_, .refused hhost⟩
  | ok u => exact ⟨result, .ran hhost hfits hrun⟩

theorem sizes (s : Settings t) : t.size = 1 ∨ t.size = 2 ∨ t.size = 4 := by
  have hsmall := s.small
  have hcases := t.size_cases
  omega

theorem nbytes_le_stride (s : Settings t) : s.nbytes ≤ s.stride := by
  have hdiv := Nat.div_add_mod (s.nbytes + 8191) 8192
  have hmod := Nat.mod_lt (s.nbytes + 8191) (show 0 < 8192 by decide)
  rw [stride]
  omega

theorem strideEl_mul (s : Settings t) : s.strideEl * t.size = s.stride := by
  have hwhole : t.size ∣ 8192 := by rcases s.sizes with h | h | h <;> rw [h] <;> decide
  exact Nat.div_mul_cancel (hwhole.trans (Dvd.intro_left _ rfl))

/-- Pixel `p` of frame `im`. -/
def densePixel (t : Dtype) (stride : Nat) (dense : Memory) (im p : Nat) : Pixel t :=
  pixelAt t (offset dense (im * stride)) p

theorem densePixel_strideEl (s : Settings t) (dense : Memory) (im p : Nat) :
    densePixel t s.stride dense im p = pixelAt t dense (im * s.strideEl + p) := by
  rw [densePixel, ← pixelAt_offset, Nat.mul_assoc, strideEl_mul]

/-- A warp stores to its block of its frame only. -/
theorem denseWarp_others {stride f0 : Nat} (hstride : s.nbytes ≤ stride) {warp : Nat × Nat}
    {dense dense' : Memory} (h : s.DenseWarp chunk stride f0 warp dense dense') {im p : Nat} (hp : p < s.npix)
    (hne : im ≠ warp.1 ∨ p / (8192 / t.size) ≠ warp.2) :
    densePixel t stride dense' im p = densePixel t stride dense im p := by
  unfold DenseWarp at h
  split at h
  · rw [h]
  obtain ⟨out, hrun, rfl⟩ := h
  obtain ⟨hothers, hbehind⟩ := warpRun_others s.sizes hrun
  have hbytes := Nat.mul_le_mul_right t.size (show p + 1 ≤ s.npix from hp)
  rw [Nat.add_mul, Nat.one_mul] at hbytes
  rw [densePixel, densePixel]
  by_cases him : im = warp.1
  · -- another block of the frame
    have hblock := hne.resolve_left (not_not.mpr him)
    rw [him, ← hothers p hp hblock]
    refine pixelAt_congr fun k _ => ?_
    rw [offset, if_neg (by omega), Nat.add_sub_cancel_left]
  · -- another frame
    refine pixelAt_congr fun k hk => ?_
    have hwhole : s.npix * t.size = s.nbytes := rfl
    have hplace : p * t.size + k < s.nbytes := by omega
    unfold offset
    dsimp only
    rcases Nat.lt_or_gt_of_ne him with hlt | hgt
    · have hle := Nat.mul_le_mul_right stride (show im + 1 ≤ warp.1 from hlt)
      rw [Nat.add_mul, Nat.one_mul] at hle
      rw [if_pos (by omega)]
    · have hle := Nat.mul_le_mul_right stride (show warp.1 + 1 ≤ im from hgt)
      rw [Nat.add_mul, Nat.one_mul] at hle
      rw [if_neg (by omega), hbehind _ (by omega), offset]
      congr 1
      omega

/-- The warp of a block of a good frame. -/
theorem denseWarp_pixels {stride f0 : Nat} {warp : Nat × Nat} {dense dense' : Memory} {px : Nat → Pixel t}
    (h : s.DenseWarp chunk stride f0 warp dense dense') (hc : (chunk (f0 + warp.1)).length < 2 ^ 31)
    (hframe : FrameBlocks (gpuGeometry t s.npix) (chunk (f0 + warp.1)) s.npix px)
    (herr : (s.unblocked chunk (f0 + warp.1)).1 = 0) {p : Nat} (hp : p < s.npix)
    (hblock : p / (8192 / t.size) = warp.2) : densePixel t stride dense' warp.1 p = px p := by
  unfold DenseWarp at h
  rw [if_neg (not_not.mpr herr)] at h
  obtain ⟨out, hrun, rfl⟩ := h
  have hntot := pixel_block s.sizes hp
  rw [hblock] at hntot
  rw [densePixel, ← warpRun_pixels s.sizes hc hframe herr hrun hntot p hp hblock]
  refine pixelAt_congr fun k _ => ?_
  rw [offset, if_neg (by omega), Nat.add_sub_cancel_left]

/-- The pixels of the blocks of good frames whose warps have run are there, whatever the frames held. -/
theorem denseRun_pixels {stride f0 : Nat} (hstride : s.nbytes ≤ stride) {px : Nat → Pixel t}
    (hc : ∀ f, (chunk f).length < 2 ^ 31) {order : List (Nat × Nat)} {dense dense' : Memory}
    (hrun : s.DenseRun chunk stride f0 order dense dense') {im p : Nat}
    (hframe : FrameBlocks (gpuGeometry t s.npix) (chunk (f0 + im)) s.npix px)
    (herr : (s.unblocked chunk (f0 + im)).1 = 0) (hp : p < s.npix) :
    ((im, p / (8192 / t.size)) ∈ order → densePixel t stride dense' im p = px p) ∧
      ((im, p / (8192 / t.size)) ∉ order → densePixel t stride dense' im p = densePixel t stride dense im p) := by
  induction hrun with
  | nil dense => exact ⟨fun h => absurd h List.not_mem_nil, fun _ => rfl⟩
  | @cons warp order dense dense₁ dense' hwarp _ ih =>
    obtain ⟨hin, hout⟩ := ih
    refine ⟨fun hmem => ?_, fun hmem => ?_⟩
    · by_cases hlater : (im, p / (8192 / t.size)) ∈ order
      · exact hin hlater
      · rw [hout hlater]
        obtain rfl := (List.mem_cons.mp hmem).resolve_right hlater
        exact denseWarp_pixels hwarp (hc _) hframe herr hp rfl
    · rw [hout fun h => hmem (List.mem_cons_of_mem _ h)]
      refine denseWarp_others hstride hwarp hp ?_
      by_contra hsame
      rw [not_or, not_not, not_not] at hsame
      obtain ⟨him, hblock⟩ := hsame
      exact hmem (List.mem_cons.mpr (Or.inl (Prod.ext him hblock)))

/-- The frames that no warp is on stay as they are. -/
theorem denseRun_others {stride f0 : Nat} (hstride : s.nbytes ≤ stride) {order : List (Nat × Nat)}
    {dense dense' : Memory} (hrun : s.DenseRun chunk stride f0 order dense dense') {im p : Nat}
    (him : ∀ warp ∈ order, im ≠ warp.1) (hp : p < s.npix) :
    densePixel t stride dense' im p = densePixel t stride dense im p := by
  induction hrun with
  | nil => rfl
  | @cons warp order dense dense₁ dense' hwarp _ ih =>
    rw [ih fun w h => him w (List.mem_cons_of_mem _ h)]
    exact denseWarp_others hstride hwarp hp (Or.inl (him warp List.mem_cons_self))

/-- After the launch on `n` good frames their pixels are there. -/
theorem denseGrid_pixels {stride f0 n : Nat} (hstride : s.nbytes ≤ stride) {px : Nat → Pixel t}
    (hc : ∀ f, (chunk f).length < 2 ^ 31) {order : List (Nat × Nat)} (horder : (s.warpGrid n).Perm order)
    {dense dense' : Memory} (hrun : s.DenseRun chunk stride f0 order dense dense') {im p : Nat} (him : im < n)
    (hframe : FrameBlocks (gpuGeometry t s.npix) (chunk (f0 + im)) s.npix px)
    (herr : (s.unblocked chunk (f0 + im)).1 = 0) (hp : p < s.npix) : densePixel t stride dense' im p = px p := by
  have hblock := pixel_block s.sizes hp
  have hmem : (im, p / (8192 / t.size)) ∈ s.warpGrid n :=
    List.mem_product.mpr ⟨List.mem_range.mpr him, List.mem_range.mpr (by
      change p / (8192 / t.size) < 2 * ((hostNtot (s.npix * t.size) + 1) / 2)
      omega)⟩
  exact (denseRun_pixels hstride hc hrun hframe herr hp).1 (horder.mem_iff.mp hmem)

/-! ## The frames of a call -/

end Settings

/-- The frames of a batch. -/
def Part.frames (part : Part) : List Nat := List.range' part.f0 part.n

theorem groupFrames_pos {batch nf : Nat} {group : Option Nat} (hbatch : 0 < batch) (hgroup : ∀ n ∈ group, 0 < n) :
    0 < groupFrames batch nf group := by
  cases group with
  | none => exact Nat.lt_of_lt_of_le hbatch (Nat.le_max_left _ _)
  | some n => exact hgroup n rfl

/-- The frames of a group. -/
def groupRange (g : Nat × Nat) : List Nat := List.range' g.1 g.2

/-- The groups take every frame once, in order. -/
theorem groups_frames {group : Nat} (hgroup : 0 < group) (nf : Nat) :
    (groups nf group).flatMap groupRange = List.range nf := by
  have htiles := flatMap_tiles hgroup 0 nf
  rw [Nat.sub_zero, ← List.range_eq_range'] at htiles
  rw [← htiles, groups, List.flatMap_map]
  congr 1
  funext g0
  unfold groupRange
  congr 1
  dsimp only
  omega

/-- The batches take the frames of a group. -/
theorem groupParts_frames {batch : Nat} (hbatch : 0 < batch) (g : Nat × Nat) :
    (groupParts batch g).flatMap Part.frames = groupRange g := by
  have htiles := flatMap_tiles hbatch g.1 (g.1 + g.2)
  rw [Nat.add_sub_cancel_left] at htiles
  have hshift : strided g.1 (g.1 + g.2) batch = (strided 0 g.2 batch).map (g.1 + ·) := by
    rw [strided, strided, List.map_add_range', Nat.add_sub_cancel_left, Nat.sub_zero, Nat.add_zero]
  rw [groupRange, ← htiles, groupParts, List.flatMap_map, hshift, List.flatMap_map]
  congr 1
  funext s0
  unfold Part.frames Part.f0
  congr 1
  dsimp only
  omega

/-- The batches take every frame once, in order. -/
theorem parts_frames {group batch : Nat} (hgroup : 0 < group) (hbatch : 0 < batch) (nf : Nat) :
    (parts nf group batch).flatMap Part.frames = List.range nf := by
  rw [parts, List.flatMap_assoc, ← groups_frames hgroup nf]
  exact List.flatMap_congr fun g _ => groupParts_frames hbatch g

theorem parts_n {nf group batch : Nat} (hgroup : 0 < group) (hbatch : 0 < batch) {part : Part}
    (h : part ∈ parts nf group batch) : 0 < part.n ∧ part.n ≤ min batch nf := by
  obtain ⟨g, hg, h⟩ := List.mem_flatMap.mp h
  obtain ⟨g0, hg0, rfl⟩ := List.mem_map.mp hg
  obtain ⟨s0, hs0, rfl⟩ := List.mem_map.mp h
  obtain ⟨-, hlt, -⟩ := (mem_strided hgroup).mp hg0
  obtain ⟨-, hlt', -⟩ := (mem_strided hbatch).mp hs0
  dsimp only
  omega

/-- The frames of the first batch, and those behind it. -/
theorem frames_cons {part : Part} {rest : List Part} {a m : Nat} (hpos : 0 < part.n)
    (h : (part :: rest).flatMap Part.frames = List.range' a m) :
    part.f0 = a ∧ part.n ≤ m ∧ rest.flatMap Part.frames = List.range' (a + part.n) (m - part.n) := by
  rw [List.flatMap_cons] at h
  obtain ⟨k, hk, hfirst, hrest⟩ := List.range'_eq_append_iff.mp h.symm
  have hlen := congrArg List.length hfirst
  rw [Part.frames, List.length_range', List.length_range'] at hlen
  have hhead := congrArg List.head? hfirst
  rw [Part.frames, List.head?_range', List.head?_range', if_neg (by omega), if_neg (by omega)] at hhead
  obtain rfl := hlen
  rw [Nat.mul_one] at hrest
  exact ⟨Option.some.inj hhead, hk, hrest⟩

namespace Settings

variable {s : Settings t} {chunk : Nat → List Byte}

theorem hostList_congr {frame frame' : Nat → Pixel t} (h : ∀ p, p < s.npix → frame p = frame' p) :
    s.hostList frame = s.hostList frame' := by
  have hpixels : s.hostPixels frame = s.hostPixels frame' := by
    unfold hostPixels
    have hsel : (List.range s.npix).filter
          (fun p => s.cut.above (frame p).value && decide (s.mask p ≠ 0#8)) =
        (List.range s.npix).filter fun p => s.cut.above (frame' p).value && decide (s.mask p ≠ 0#8) := by
      refine List.filter_congr fun p hp => ?_
      rw [h p (List.mem_range.mp hp)]
    rw [hsel]
    refine List.map_congr_left fun p hp => ?_
    rw [h p (List.mem_range.mp (List.mem_filter.mp hp).1)]
  unfold hostList
  rw [hpixels]

/-- The lists of a batch stay below `2 ^ 32`. -/
theorem sumBelow_lt {g : Batch t} (h : g.n * g.howmany < 2 ^ 32) :
    ∀ im, im < g.n → sumBelow g.listLength im < 2 ^ 32 := by
  have hle : ∀ im, sumBelow g.listLength im ≤ im * g.howmany := by
    intro im
    induction im with
    | zero => exact Nat.zero_le _
    | succ im ih =>
      have hlast : g.listLength im ≤ g.howmany := listLength_le im
      rw [sumBelow_succ, Nat.succ_mul]
      omega
  intro im him
  exact Nat.lt_of_le_of_lt (hle im) (Nat.lt_of_le_of_lt (Nat.mul_le_mul_right _ him.le) h)

/-- The rows that a batch of good frames stores. -/
theorem store_rows {px : Nat → Nat → Pixel t} (hc : ∀ f, (chunk f).length < 2 ^ 31) {part : Part}
    (hframe : ∀ j, j < part.n → FrameBlocks (gpuGeometry t s.npix) (chunk (part.f0 + j)) s.npix (px (part.f0 + j)))
    (hgood : ∀ j, j < part.n → (s.unblocked chunk (part.f0 + j)).1 = 0) (hfits : part.n * s.hm < 2 ^ 32)
    {order : List (Nat × Nat)} {dense dense' : Memory} (horder : (s.warpGrid part.n).Perm order)
    (hdense : s.DenseRun chunk s.stride part.f0 order dense dense') {g : Batch t} (hg : s.PartBatch chunk part dense' g)
    (l : Lists g) {j : Nat} (hj : j < part.n) : s.fetch l j = s.hostList (px (part.f0 + j)) := by
  have hlists := sumBelow_lt (g := g) (by rwa [hg.n, hg.howmany])
  have herr : g.err j = 0 := by
    rw [hg.err]
    exact hgood j hj
  rw [fetch_eq_hostList hg.toLaunched l hlists (hg.n ▸ hj) herr]
  refine hostList_congr fun p hp => ?_
  rw [← denseGrid_pixels s.nbytes_le_stride hc horder hdense hj (hframe j hj) (hgood j hj) hp, densePixel_strideEl,
    Batch.frame, hg.dense, hg.strideEl]

/-- A call that comes through has every frame's list; another one says which chunks of the first batch with a
bad one are bad. -/
theorem callRun_rows {px : Nat → Nat → Pixel t} (hc : ∀ f, (chunk f).length < 2 ^ 31) {ps : List Part}
    {dense : Memory} {rows : Rows t} {result : Except String (Rows t)}
    (hrun : s.CallRun chunk ps dense rows result) {a m : Nat} (hps : ps.flatMap Part.frames = List.range' a m)
    (hn : ∀ part ∈ ps, 0 < part.n ∧ part.n * s.hm < 2 ^ 32)
    (hframe : ∀ f, a ≤ f → f < a + m → (s.unblocked chunk f).1 = 0 →
      FrameBlocks (gpuGeometry t s.npix) (chunk f) s.npix (px f)) :
    (∀ rows', result = .ok rows' →
        (∀ f, a ≤ f → f < a + m → (s.unblocked chunk f).1 = 0 ∧ rows' f = s.hostList (px f)) ∧
          ∀ f, f < a ∨ a + m ≤ f → rows' f = rows f) ∧
      ∀ e, result = .error e → ∃ part ∈ ps, (∀ f, a ≤ f → f < part.f0 → (s.unblocked chunk f).1 = 0) ∧
        (∃ j, j < part.n ∧ (s.unblocked chunk (part.f0 + j)).1 ≠ 0) ∧
        e = badChunks (fun j => (s.unblocked chunk (part.f0 + j)).1) part.f0 part.n := by
  induction hrun generalizing a m with
  | nil dense rows =>
    refine ⟨fun rows' h => ?_, fun e h => by cases h⟩
    obtain rfl := Except.ok.inj h
    have hnone : m = 0 := by
      have hlen := congrArg List.length hps
      rw [List.length_range'] at hlen
      exact hlen.symm
    exact ⟨fun f hf hlt => by omega, fun _ _ => rfl⟩
  | @bad part rest dense rows hbad =>
    obtain ⟨hf0, -, -⟩ := frames_cons (hn part List.mem_cons_self).1 hps
    refine ⟨fun _ h => (nomatch h), fun e h => ?_⟩
    cases h
    exact ⟨part, List.mem_cons_self, fun f hf hlt => by omega, hbad, rfl⟩
  | @cons part rest order dense dense' rows result g hgood horder hdense hg l _ ih =>
    obtain ⟨hpos, hfits⟩ := hn part List.mem_cons_self
    obtain ⟨hf0, hle, hrest⟩ := frames_cons hpos hps
    obtain ⟨hok, herror⟩ := ih hrest (fun part' h => hn part' (List.mem_cons_of_mem _ h))
      fun f hf hlt => hframe f (by omega) (by omega)
    have hrows : ∀ j, j < part.n → s.fetch l j = s.hostList (px (part.f0 + j)) := fun j hj =>
      store_rows hc (fun j hj => hframe _ (by omega) (by omega) (hgood j hj)) hgood hfits horder hdense hg l hj
    refine ⟨fun rows' h => ?_, fun e h => ?_⟩
    · obtain ⟨hlater, hothers⟩ := hok rows' h
      refine ⟨fun f hf hlt => ?_, fun f hf => ?_⟩
      · by_cases hnow : f < a + part.n
        · have hat : part.f0 + (f - part.f0) = f := by omega
          have hj : f - part.f0 < part.n := by omega
          have hrow := hrows _ hj
          have hzero := hgood _ hj
          rw [hat] at hrow hzero
          refine ⟨hzero, ?_⟩
          rw [hothers f (Or.inl hnow), store, if_pos (by omega), hrow]
        · exact hlater f (by omega) (by omega)
      · rw [hothers f (by omega), store, if_neg (by omega)]
    · obtain ⟨part', hmem, hbefore, hbad, he⟩ := herror e h
      refine ⟨part', List.mem_cons_of_mem _ hmem, fun f hf hlt => ?_, hbad, he⟩
      by_cases hnow : f < a + part.n
      · have hzero := hgood (f - part.f0) (by omega)
        rwa [show part.f0 + (f - part.f0) = f by omega] at hzero
      · exact hbefore f (by omega) hlt

/-- The pixels of the good frames, as the CPU unpacks them. -/
theorem exists_pixels {E : Platform} (hK : E.kernels.Inverse) (hC : SharedCodec E.codecs) {u : Unpack}
    {st st' : UnpackState} (helem : u.elemSize = t.size) (hdecode : u.decode = .lz4Stock)
    (hunshuffle : u.unshuffle = true) (hcpu : decompress E u st = .ok st') (s : Settings t)
    (hzero : ∀ f, f < u.chunks.nframes → NoZeroOffsets (u.chunks.bytes f) (hostNstored s.nbytes t.size)) :
    ∃ px : Nat → Nat → Pixel t, ∀ f, f < u.chunks.nframes → (s.unblocked u.chunks.bytes f).1 = 0 →
      FrameBlocks (gpuGeometry t s.npix) (u.chunks.bytes f) s.npix (px f) ∧
        ∀ p, p < s.npix → px f p = pixelAt t st'.out (f * s.npix + p) := by
  have hpx : ∀ f, ∃ px : Nat → Pixel t, f < u.chunks.nframes → (s.unblocked u.chunks.bytes f).1 = 0 →
      FrameBlocks (gpuGeometry t s.npix) (u.chunks.bytes f) s.npix px ∧
        ∀ p, p < s.npix → px p = pixelAt t st'.out (f * s.npix + p) := by
    intro f
    by_cases hgood : f < u.chunks.nframes ∧ (s.unblocked u.chunks.bytes f).1 = 0
    · obtain ⟨hf, herr⟩ := hgood
      obtain ⟨px, hframe, heq⟩ := decompress_blocks s.sizes hK hC helem hdecode hunshuffle hcpu hf
        (hzero f hf) herr
      exact ⟨px, fun _ _ => ⟨hframe, heq⟩⟩
    · exact ⟨fun _ => 0#_, fun hf herr => absurd ⟨hf, herr⟩ hgood⟩
  choose px hpx using hpx
  exact ⟨px, hpx⟩

/-! ## A call comes through -/

theorem exists_denseRun {px : Nat → Nat → Pixel t} (hc : ∀ f, (chunk f).length < 2 ^ 31) {stride f0 : Nat}
    {order : List (Nat × Nat)} (hgood : ∀ warp ∈ order, (s.unblocked chunk (f0 + warp.1)).1 = 0)
    (hframe : ∀ warp ∈ order, FrameBlocks (gpuGeometry t s.npix) (chunk (f0 + warp.1)) s.npix (px (f0 + warp.1)))
    (dense : Memory) : ∃ dense', s.DenseRun chunk stride f0 order dense dense' := by
  induction order generalizing dense with
  | nil => exact ⟨dense, .nil dense⟩
  | cons warp order ih =>
    have herr := hgood warp List.mem_cons_self
    obtain ⟨out, hwarp⟩ := exists_warpRun s.sizes (hc _) (hframe warp List.mem_cons_self) herr warp.2
      (offset dense (warp.1 * stride))
    have hdense : s.DenseWarp chunk stride f0 warp dense
        (fun i => if i < warp.1 * stride then dense i else out (i - warp.1 * stride)) := by
      unfold DenseWarp
      rw [if_neg (not_not.mpr herr)]
      exact ⟨out, hwarp, rfl⟩
    obtain ⟨dense', hrest⟩ := ih (fun w h => hgood w (List.mem_cons_of_mem _ h))
      (fun w h => hframe w (List.mem_cons_of_mem _ h)) _
    exact ⟨dense', .cons hdense hrest⟩

theorem exists_partBatch {cut : ℤ} {thr : List ℤ} (hcut : deviceCut s.cut = .ok cut)
    (hthr : s.deviceThr = .ok thr) (part : Part) (dense : Memory) : ∃ g, s.PartBatch chunk part dense g := by
  have hbytes := s.bytes_lt
  let g : Batch t := {
    dense := pixelAt t dense
    strideEl := s.strideEl
    npix := s.npix
    n := part.n
    err := fun im => (s.unblocked chunk (part.f0 + im)).1
    mask := s.mask
    cut
    thr
    howmany := s.hm
    fallback := s.fallback
    integer := s.integer
    small := s.small
    bytes_lt := by omega
    thr_sorted := deviceThr_sorted hthr
    thr_length := deviceThr_length hthr }
  exact ⟨g, ⟨rfl, fun _ _ => rfl, hcut, hthr, rfl, rfl⟩, rfl, rfl, rfl, rfl⟩

theorem exists_callRun {px : Nat → Nat → Pixel t} (hc : ∀ f, (chunk f).length < 2 ^ 31) {cut : ℤ} {thr : List ℤ}
    (hcut : deviceCut s.cut = .ok cut) (hthr : s.deviceThr = .ok thr) {ps : List Part}
    (hframe : ∀ part ∈ ps, ∀ j, j < part.n → (s.unblocked chunk (part.f0 + j)).1 = 0 →
      FrameBlocks (gpuGeometry t s.npix) (chunk (part.f0 + j)) s.npix (px (part.f0 + j)))
    (dense : Memory) (rows : Rows t) : ∃ result, s.CallRun chunk ps dense rows result := by
  induction ps generalizing dense rows with
  | nil => exact ⟨_, .nil dense rows⟩
  | cons part rest ih =>
    by_cases hbad : ∃ j, j < part.n ∧ (s.unblocked chunk (part.f0 + j)).1 ≠ 0
    · exact ⟨_, .bad dense rows hbad⟩
    · have hgood : ∀ j, j < part.n → (s.unblocked chunk (part.f0 + j)).1 = 0 := by
        intro j hj
        by_contra hne
        exact hbad ⟨j, hj, hne⟩
      have him : ∀ warp ∈ s.warpGrid part.n, warp.1 < part.n := fun warp h =>
        List.mem_range.mp (List.mem_product.mp h).1
      obtain ⟨dense', hdense⟩ := exists_denseRun hc (fun warp h => hgood _ (him warp h))
        (fun warp h => hframe part List.mem_cons_self _ (him warp h) (hgood _ (him warp h))) dense
      obtain ⟨g, hg⟩ : ∃ g, s.PartBatch chunk part dense' g := exists_partBatch hcut hthr part dense'
      obtain ⟨l⟩ := Lists.exists g
      obtain ⟨result, hrest⟩ := ih (fun p h => hframe p (List.mem_cons_of_mem _ h)) dense' (s.store part l rows)
      exact ⟨result, .cons hgood (List.Perm.refl _) hdense hg l hrest⟩

end Settings

/-- Two frames of 8 pixels. -/
def eightPixelsTwice : Unpack where
  chunks := ⟨2, fun _ => eightPixelsSlab, twoFrames_lt, eightPixelsSlab_lt⟩
  outLen := 32
  workspaceLen := 48
  elemSize := 2
  decode := .lz4Stock
  untranspose := .kcb
  unshuffle := true

theorem eightPixelsTwice_unpacks :
    ∃ st', decompress .plain eightPixelsTwice ⟨fun _ => 0#8, fun _ => 0#8, fun _ => 0#8, 0, 0⟩ = .ok st' := by
  cases h : decompress .plain eightPixelsTwice ⟨fun _ => 0#8, fun _ => 0#8, fun _ => 0#8, 0, 0⟩ with
  | ok st' => exact ⟨st', rfl⟩
  | error e =>
    have hok : (decompress .plain eightPixelsTwice
        ⟨fun _ => 0#8, fun _ => 0#8, fun _ => 0#8, 0, 0⟩).toBool = true := by decide +kernel
    rw [h] at hok
    cases hok

theorem halfword_integer : Dtype.u16.isFloat = false := rfl

theorem halfword_small : Dtype.u16.size ≤ 4 := by decide

theorem eight_lt : 8 * Dtype.u16.size < 2 ^ 31 := by decide

theorem default_sorted : ∀ ts ∈ (none : Option (List Double)), ts.IsChain fun x y => y.lt x = false :=
  Settings.no_thresholds

theorem default_length_le : ∀ ts ∈ (none : Option (List Double)), ts.length ≤ maxThr := Settings.no_thresholds

/-- Every pixel above 0. -/
def aboveZero : Settings .u16 where
  npix := 8
  mask := fun _ => 1#8
  cut := .int 0
  howmany := none
  thresholds := none
  integer := halfword_integer
  small := halfword_small
  bytes_lt := eight_lt
  sorted := default_sorted
  length_le := default_length_le

theorem aboveZero_grid : aboveZero.GridFits := by
  unfold Settings.GridFits
  decide

end Bslz4ToSparse.Cuda
