import Bslz4ToSparse.Foundation.Launch
import Bslz4ToSparse.Foundation.Ranks
import Bslz4ToSparse.TopPixels.Oracle

/-!
# The lists of a batch on the GPU (src/cuda/bslz4_split.cu)

Five kernels, one after another, list the pixels of a batch of decoded frames. A warp takes an
8 kB block of a frame. The warps of a kernel run in any order; what they leave in the arrays is
what the next kernel reads. Sums of counts stay below the number of pixels of a frame, and only
the offsets of the lists can leave 32 bits.
-/

namespace Bslz4ToSparse.Cuda

open Foundation TopPixels
open Lz4 (Byte)

/-- The arguments of the kernels, for integer pixels. -/
structure Batch (t : Dtype) where
  dense : Nat → Pixel t
  strideEl : Nat
  npix : Nat
  n : Nat
  /-- Of a frame; 0 for a good chunk. -/
  err : Nat → Nat
  mask : Nat → Byte
  cut : ℤ
  thr : List ℤ
  howmany : Nat
  fallback : Bool
  integer : t.isFloat = false
  small : t.size ≤ 4
  bytes_lt : npix * t.size < 2 ^ 32
  thr_sorted : thr.Pairwise (· ≤ ·)
  thr_length : thr.length ≤ maxThr

variable {t : Dtype}

namespace Batch

variable (g : Batch t)

/-- The pixels of a block. -/
def be (_ : Batch t) : Nat := 8192 / t.size

/-- `self.ntot` of the host. -/
def ntot : Nat := g.npix * t.size / 8192 + if 0 < g.npix * t.size % 8192 then 1 else 0

/-- The pixels in block `blockid`. -/
def nel (blockid : Nat) : Nat := min g.be (g.npix - blockid * g.be)

/-- What a launch takes of the grid `(n, (ntot + 1) / 2)`. With more blocks a frame nothing runs and
the call raises. -/
def Launches : Prop := (g.ntot + 1) / 2 ≤ 65535

instance : Decidable g.Launches := inferInstanceAs (Decidable ((g.ntot + 1) / 2 ≤ 65535))

/-- `d[p]` of block `blockid` of frame `im`. -/
def pixel (im blockid p : Nat) : Pixel t := g.dense (im * g.strideEl + blockid * g.be + p)

end Batch

/-- `above`, for integers. -/
def above (v : Pixel t) (cut : ℤ) : Bool := decide (cut < v.value)

namespace Batch

variable (g : Batch t)

/-! ## `count_above` -/

/-- The thresholds of a row of 32 pixels: the counts of the levels, and which lanes still pass. -/
def countLevel (im blockid row : Nat) (s : (Nat → Nat) × (Nat → Bool)) (k : Nat) :
    (Nat → Nat) × (Nat → Bool) :=
  -- sorted thresholds: stop at the first one nobody passes
  if gather 32 s.2 = 0#32 then s
  else
    let f := fun lane => s.2 lane && above (g.pixel im blockid (row * 32 + lane)) (g.thr.getD k 0)
    (Function.update s.1 (k + 1) (s.1 (k + 1) + popcount (gather 32 f)), f)

/-- A row of 32 pixels. -/
def countRow (im blockid : Nat) (cnt : Nat → Nat) (row : Nat) : Nat → Nat :=
  let f := fun lane =>
    let p := row * 32 + lane
    decide (p < g.nel blockid) && above (g.pixel im blockid p) g.cut &&
      decide (g.mask (blockid * g.be + p) ≠ 0#8)
  let cnt := Function.update cnt 0 (cnt 0 + popcount (gather 32 f))
  ((List.range g.thr.length).foldl (g.countLevel im blockid row) (cnt, f)).1

/-- `cnt` of the warp for block `blockid` of frame `im`. -/
def countBlock (im blockid : Nat) : Nat → Nat :=
  if g.err im = 0 then
    (List.range ((g.nel blockid + 31) / 32)).foldl (g.countRow im blockid) fun _ => 0
  else fun _ => 0

/-- The cell of a block in `counts` and `offs`, for level `k` of frame `im`. -/
def cell (k im blockid : Nat) : Nat := (k * g.n + im) * g.ntot + blockid

/-- The warps of a launch over the blocks of all frames: a grid of `(n, (ntot + 1) / 2)` blocks of
two warps. -/
def warps {α : Type} (warp : Nat → Nat → List α) : List (List α) :=
  (List.range g.n).flatMap fun im =>
    (List.range ((g.ntot + 1) / 2)).flatMap fun y =>
      (List.range 2).map fun w =>
        let blockid := y * 2 + w
        if g.ntot ≤ blockid then [] else warp im blockid

/-- `count_above`: lane 0 stores the counts. -/
def countAboveStores (im blockid : Nat) : List (Nat × (Nat → Nat)) :=
  (List.range (g.thr.length + 1)).map fun k => (g.cell k im blockid, fun _ => g.countBlock im blockid k)

end Batch

/-! ## `scan_counts` -/

/-- The counts of thread `x` of a row of `nb` counts. -/
def scanFrom (nb x : Nat) : Nat := x * ((nb + 255) / 256)

def scanTo (nb x : Nat) : Nat := min nb ((x + 1) * ((nb + 255) / 256))

def scanRange (nb x : Nat) : List Nat := List.range' (scanFrom nb x) (scanTo nb x - scanFrom nb x)

/-- `part[x]` at the first barrier. -/
def scanPart (c : Nat → Nat) (nb x : Nat) : Nat := (scanRange nb x).foldl (fun s k => s + c k) 0

/-- Thread 0: the sum so far, and `part` replaced by the sums before each thread. -/
def scanParts (c : Nat → Nat) (nb : Nat) : Nat × (Nat → Nat) :=
  (List.range 256).foldl (fun s i => (s.1 + s.2 i, Function.update s.2 i s.1)) (0, scanPart c nb)

/-- The stores of thread `x` to the row of `offs`, and its running sum. -/
def scanThread (c : Nat → Nat) (nb x : Nat) : Nat × List (Nat × Nat) :=
  (scanRange nb x).foldl (fun s k => (s.1 + c k, s.2 ++ [(k, s.1)])) ((scanParts c nb).2 x, [])

/-- An `int32_t` with the bits of `x`. -/
def int32 (x : Nat) : ℤ := (x : ℤ).bmod (2 ^ 32)

/-- `part[256]`. -/
def scanTotal (c : Nat → Nat) (nb : Nat) : Nat := (scanParts c nb).1

namespace Batch

variable (g : Batch t)

/-- `scan_counts`: the threads of all rows. -/
def scanStores (counts : Nat → Nat) : List (List (Nat × (Nat → Nat))) :=
  (List.range ((g.thr.length + 1) * g.n)).flatMap fun row =>
    (List.range 256).map fun x =>
      (scanThread (fun k => counts (row * g.ntot + k)) g.ntot x).2.map fun s =>
        (row * g.ntot + s.1, fun _ => s.2)

/-! ## `choose_level` and `scan_images` -/

/-- The first of the levels `1 .. nthr` with fewer than `howmany` pixels, else the last one. -/
def firstBelow (npxl : Nat → Nat) (im : Nat) : Nat :=
  ((List.range' 1 g.thr.length).find? fun k => decide (npxl (k * g.n + im) < g.howmany)).getD g.thr.length

/-- `choose_level`: the level and the length of the list of frame `im`. -/
def chooseLevel (npxl : Nat → Nat) (im : Nat) : ℤ × Nat :=
  if g.fallback ∧ g.howmany < npxl im then (-1, 0)
  else
    let L := if g.howmany < npxl im ∧ 0 < g.thr.length then g.firstBelow npxl im else 0
    (L, min (npxl (L * g.n + im)) g.howmany)

/-- `scan_images`; the sum is a `uint32_t`. -/
def scanImages (npx : Nat → Nat) : Nat × (Nat → Nat) :=
  (List.range g.n).foldl
    (fun s i => ((s.1 + npx i) % 2 ^ 32, Function.update s.2 i s.1)) (0, fun _ => 0)

/-! ## `collect_write` -/

/-- A row of 32 pixels at level `L`: the count so far and the stores. -/
def writeRow (im blockid L base : Nat) (s : Nat × List (Nat × (Nat → Pixel t × Nat))) (row : Nat) :
    Nat × List (Nat × (Nat → Pixel t × Nat)) :=
  if s.1 < g.howmany then
    let f := fun lane =>
      let p := row * 32 + lane
      decide (p < g.nel blockid) && above (g.pixel im blockid p) g.cut &&
        above (g.pixel im blockid p) (if L = 0 then g.cut else g.thr.getD (L - 1) 0) &&
        decide (g.mask (blockid * g.be + p) ≠ 0#8)
    let bal := gather 32 f
    let r := fun lane => s.1 + popcount (bal &&& ((1#32 <<< lane) - 1#32))
    (s.1 + popcount bal,
      s.2 ++ ((List.range 32).filter fun lane => f lane && decide (r lane < g.howmany)).map fun lane =>
        (base + r lane, fun _ => (g.pixel im blockid (row * 32 + lane), blockid * g.be + (row * 32 + lane))))
  else s

/-- `collect_write`: the warp for block `blockid` of frame `im`. -/
def writeBlock (counts offs : Nat → Nat) (level : Nat → ℤ) (imgoff : Nat → Nat) (im blockid : Nat) :
    List (Nat × (Nat → Pixel t × Nat)) :=
  if g.err im ≠ 0 ∨ level im < 0 then []
  else
    let L := (level im).toNat
    let start := offs (g.cell L im blockid)
    if counts (g.cell L im blockid) = 0 ∨ g.howmany ≤ start then []
    else
      ((List.range ((g.nel blockid + 31) / 32)).foldl (g.writeRow im blockid L (imgoff im)) (start, [])).2

end Batch

/-- The kernels in sequence, from arrays with any contents: what each leaves in its arrays. `npxl` and
`npx` are `int32_t`; here is the `uint32_t` that the kernels read of them again, and `int32` is what
the host reads. -/
structure Lists (g : Batch t) where
  counts : Nat → Nat
  offs : Nat → Nat
  npxl : Nat → Nat
  level : Nat → ℤ
  npx : Nat → Nat
  imgoff : Nat → Nat
  out : Nat → Pixel t × Nat
  count_above : ∃ counts₀, AnyOrder 1 (g.warps g.countAboveStores) counts₀ counts
  scan_counts : ∃ offs₀, AnyOrder 1 (g.scanStores counts) offs₀ offs
  scan_total : ∀ row, row < (g.thr.length + 1) * g.n →
    npxl row = scanTotal (fun k => counts (row * g.ntot + k)) g.ntot
  choose_level : ∀ im, im < g.n → (level im, npx im) = g.chooseLevel npxl im
  scan_images : ∀ im, im < g.n → imgoff im = (g.scanImages npx).2 im
  collect_write : ∃ out₀, AnyOrder 1 (g.warps (g.writeBlock counts offs level imgoff)) out₀ out

theorem Lists.exists (g : Batch t) : Nonempty (Lists g) := by
  obtain ⟨counts, hcounts⟩ := AnyOrder.exists 1 (g.warps g.countAboveStores) fun _ => 0
  obtain ⟨offs, hoffs⟩ := AnyOrder.exists 1 (g.scanStores counts) fun _ => 0
  let npxl := fun row => scanTotal (fun k => counts (row * g.ntot + k)) g.ntot
  let level := fun im => (g.chooseLevel npxl im).1
  let npx := fun im => (g.chooseLevel npxl im).2
  let imgoff := (g.scanImages npx).2
  obtain ⟨out, hout⟩ := AnyOrder.exists 1 (g.warps (g.writeBlock counts offs level imgoff))
    fun _ => (0, 0)
  exact ⟨counts, offs, npxl, level, npx, imgoff, out, ⟨_, hcounts⟩, ⟨_, hoffs⟩, fun _ _ => rfl,
    fun _ _ => rfl, fun _ _ => rfl, ⟨_, hout⟩⟩

end Bslz4ToSparse.Cuda
