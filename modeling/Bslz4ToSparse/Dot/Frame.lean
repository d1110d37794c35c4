import Bslz4ToSparse.Dot.Csc

/-!
# The powder of a frame

A frame is handed to a dot block by block, each block by its dense or its sparse route.
What the powder ends as follows from what one call of either route adds.
-/

namespace Bslz4ToSparse.Dot

open Foundation Matrix

variable {P F D : Type}

/-- The two routes of a dot: over the pixels `px` of the block `[i0, i0 + n)`, or over the
list of its non-zero ones. -/
structure DotKernel (P D : Type) where
  dense : (Nat → P) → Nat → Nat → (Nat → D) → Nat → D
  sparse : Nat → Nat → PixelList P → (Nat → D) → Nat → D

/-- A block of `n` pixels from `i0` on, and the route it takes. -/
structure Block where
  i0 : Nat
  n : Nat
  sparse : Bool
  deriving DecidableEq, Repr

/-- The blocks follow one another from pixel `a` to pixel `b`. -/
def Covers : List Block → Nat → Nat → Prop
  | [], a, b => a = b
  | blk :: rest, a, b => blk.i0 = a ∧ Covers rest (a + blk.n) b

/-- The pixels of a block that its list holds: unmasked and not zero. -/
def listed (nonzero : P → Bool) (mask : Nat → Bool) (frame : Nat → P) (i0 n : Nat) : List Nat :=
  (List.range' i0 n).filter fun p => mask p && nonzero (frame p)

/-- The compacted list of pixels `ps`. -/
def PixelList.of (frame : Nat → P) (ps : List Nat) : PixelList P :=
  ⟨fun kk => ps.getD kk 0, fun kk => frame (ps.getD kk 0), ps.length⟩

/-- One block of a frame. -/
def blockDot (K : DotKernel P D) (nonzero : P → Bool) (mask : Nat → Bool) (frame : Nat → P)
    (out : Nat → D) (blk : Block) : Nat → D :=
  if blk.sparse then
    K.sparse blk.i0 blk.n (.of frame (listed nonzero mask frame blk.i0 blk.n)) out
  else K.dense (fun j => frame (blk.i0 + j)) blk.i0 blk.n out

/-- The blocks of a frame, from a powder of zeros. -/
def frameDot (K : DotKernel P D) (zero : D) (nonzero : P → Bool) (mask : Nat → Bool)
    (frame : Nat → P) (blocks : List Block) : Nat → D :=
  blocks.foldl (blockDot K nonzero mask frame) fun _ => zero

/-! ## Decode blocks -/

/-- The decode blocks of a frame of `npix` pixels: the full ones, and a last one that is
shorter and may be empty. -/
def decodeBlocks (npix blockElems : Nat) (route : Nat → Bool) : List Block :=
  (List.range (npix / blockElems + 1)).map fun k =>
    ⟨k * blockElems, min blockElems (npix - k * blockElems), route k⟩

/-- `[i0, i0 + n)` is a decode block, or empty. -/
def IsDecodeBlock (npix blockElems i0 n : Nat) : Prop :=
  n = 0 ∨ ∃ k, i0 = k * blockElems ∧ i0 < npix ∧ n = min blockElems (npix - i0)

theorem decodeBlocks_covers (npix : Nat) {blockElems : Nat} (h : 0 < blockElems)
    (route : Nat → Bool) : Covers (decodeBlocks npix blockElems route) 0 npix := by
  have hpart : ∀ c k, k + c = npix / blockElems + 1 →
      Covers ((List.range' k c).map fun k =>
        (⟨k * blockElems, min blockElems (npix - k * blockElems), route k⟩ : Block))
        (min (k * blockElems) npix) npix := by
    intro c
    induction c with
    | zero =>
      intro k hk
      have hlt := Nat.lt_mul_of_div_lt (show npix / blockElems < k by omega) h
      exact Nat.min_eq_right hlt.le
    | succ c ih =>
      intro k hk
      have hmul := Nat.mul_le_mul_right blockElems (show k ≤ npix / blockElems by omega)
      have hdiv := Nat.div_mul_le_self npix blockElems
      have hnext := ih (k + 1) (by omega)
      rw [List.range'_succ, List.map_cons]
      have hstart : min (k * blockElems) npix = k * blockElems := Nat.min_eq_left (by omega)
      refine ⟨hstart.symm, ?_⟩
      rw [hstart]
      rw [Nat.succ_mul] at hnext
      rwa [show k * blockElems + min blockElems (npix - k * blockElems) =
        min (k * blockElems + blockElems) npix by omega]
  have hall := hpart (npix / blockElems + 1) 0 (Nat.zero_add _)
  rw [Nat.zero_mul, Nat.zero_min, ← List.range_eq_range'] at hall
  exact hall

theorem decodeBlocks_fit {npix blockElems : Nat} {route : Nat → Bool} {blk : Block}
    (h : blk ∈ decodeBlocks npix blockElems route) :
    IsDecodeBlock npix blockElems blk.i0 blk.n := by
  obtain ⟨k, -, rfl⟩ := List.mem_map.mp h
  by_cases hlt : k * blockElems < npix
  · exact Or.inr ⟨k, rfl, hlt, rfl⟩
  · exact Or.inl (by simp only; omega)

/-! ## What the routes add -/

/-- A call of the dense route adds the columns of its pixels with the values `pixel`, one of
the sparse route those of its list with the values `value`. `fits` are the blocks that the
layout was built for. -/
structure AddsColumns [Semiring D] (K : DotKernel P D) (m : NormalMatrix F) (weight : F → D)
    (pixel : P → D) (value : Nat → Nat → Nat → P → D) (fits : Nat → Nat → Prop) : Prop where
  dense : ∀ px i0 n, fits i0 n → i0 + n ≤ m.npix → Adds (K.dense px i0 n) fun b =>
    ((List.range n).map fun j => columnSum weight (m.column (j + i0)) (pixel (px j)) b).sum
  sparse : ∀ i0 n l, (∀ kk, kk < l.nz → l.tidx kk < m.npix) → Adds (K.sparse i0 n l) fun b =>
    ((List.range l.nz).map fun kk =>
      columnSum weight (m.column (l.tidx kk)) (value i0 n (l.tidx kk) (l.tval kk)) b).sum

section

variable [Semiring D] {K : DotKernel P D} {m : NormalMatrix F} {weight : F → D} {pixel : P → D}
  {value : Nat → Nat → Nat → P → D} {fits : Nat → Nat → Prop}

/-- The value with which a pixel of a block enters the powder. -/
def enters (nonzero : P → Bool) (mask : Nat → Bool) (pixel : P → D)
    (value : Nat → Nat → Nat → P → D) (blk : Block) (p : Nat) (v : P) : D :=
  if blk.sparse then (if mask p && nonzero v then value blk.i0 blk.n p v else 0) else pixel v

theorem adds_blockDot (hK : AddsColumns K m weight pixel value fits) (nonzero : P → Bool)
    (mask : Nat → Bool) (frame : Nat → P) {blk : Block} (hfit : fits blk.i0 blk.n)
    (hend : blk.i0 + blk.n ≤ m.npix) :
    Adds (fun out => blockDot K nonzero mask frame out blk) fun b =>
      ((List.range' blk.i0 blk.n).map fun p => columnSum weight (m.column p)
        (enters nonzero mask pixel value blk p (frame p)) b).sum := by
  intro out b
  unfold blockDot enters
  by_cases hs : blk.sparse = true
  · simp only [hs, if_true]
    set ps := listed nonzero mask frame blk.i0 blk.n with hps
    have hmem : ∀ kk, kk < ps.length → ps.getD kk 0 < m.npix := by
      intro kk hkk
      have hget : ps.getD kk 0 ∈ ps := by
        rw [List.getD_eq_getElem _ _ hkk]
        exact List.getElem_mem hkk
      rw [hps] at hget ⊢
      have hin := List.mem_range'_1.mp (List.mem_filter.mp hget).1
      omega
    refine (hK.sparse blk.i0 blk.n (.of frame ps) hmem out b).trans (congrArg (out b + ·) ?_)
    have hget : (List.range ps.length).map (fun kk => ps.getD kk 0) = ps := by
      rw [List.range_eq_range', map_range'_getD ps 0 (by simp)]
      simp
    have hlist : ((List.range ps.length).map fun kk => columnSum weight (m.column (ps.getD kk 0))
        (value blk.i0 blk.n (ps.getD kk 0) (frame (ps.getD kk 0))) b) =
        ps.map fun p => columnSum weight (m.column p) (value blk.i0 blk.n p (frame p)) b := by
      conv_rhs => rw [← hget, List.map_map]
      rfl
    refine (congrArg List.sum hlist).trans ?_
    rw [hps, listed, sum_map_filter]
    refine congrArg List.sum (List.map_congr_left fun p _ => ?_)
    by_cases hp : (mask p && nonzero (frame p)) = true
    · simp only [hp, if_true]
    · rw [if_neg hp, if_neg hp, columnSum_zero]
  · simp only [hs]
    refine (hK.dense _ blk.i0 blk.n hfit hend out b).trans (congrArg (out b + ·) ?_)
    rw [List.range'_eq_map_range, List.map_map]
    refine congrArg List.sum (List.map_congr_left fun j _ => ?_)
    simp only [Function.comp_apply, Nat.add_comm j]
    rfl

theorem Covers.le {blocks : List Block} {a b : Nat} (h : Covers blocks a b) : a ≤ b := by
  induction blocks generalizing a with
  | nil => exact le_of_eq h
  | cons blk rest ih => exact (Nat.le_add_right _ _).trans (ih h.2)

theorem Covers.block_le {blocks : List Block} {a b : Nat} (h : Covers blocks a b) {blk : Block}
    (hblk : blk ∈ blocks) : blk.i0 + blk.n ≤ b := by
  induction blocks generalizing a with
  | nil => exact absurd hblk List.not_mem_nil
  | cons head rest ih =>
    cases hblk with
    | head => exact h.1 ▸ h.2.le
    | tail _ hmem => exact ih h.2 hmem

theorem Covers.lt_of_mem {blocks : List Block} {a b : Nat} (h : Covers blocks a b) {blk : Block}
    (hblk : blk ∈ blocks) {p : Nat} (hp : p ∈ List.range' blk.i0 blk.n) : p < b := by
  have hle := h.block_le hblk
  have hin := List.mem_range'_1.mp hp
  omega

/-- The blocks of a frame, as the pixels that each of them has. -/
theorem frameDot_eq (hK : AddsColumns K m weight pixel value fits) (nonzero : P → Bool)
    (mask : Nat → Bool) (frame : Nat → P) {blocks : List Block} (hcov : Covers blocks 0 m.npix)
    (hfit : ∀ blk ∈ blocks, fits blk.i0 blk.n) (b : Nat) :
    frameDot K 0 nonzero mask frame blocks b =
      (blocks.map fun blk => ((List.range' blk.i0 blk.n).map fun p =>
        columnSum weight (m.column p) (enters nonzero mask pixel value blk p (frame p)) b).sum).sum := by
  have hadds := adds_foldl (f := blockDot K nonzero mask frame) blocks fun blk hblk =>
    adds_blockDot hK nonzero mask frame (hfit blk hblk) (hcov.block_le hblk)
  exact (hadds (fun _ => 0) b).trans (zero_add _)

/-- The pixels of the blocks are those of the frame. -/
theorem flatMap_blocks {blocks : List Block} {a c : Nat} (h : Covers blocks a c) :
    blocks.flatMap (fun blk => List.range' blk.i0 blk.n) = List.range' a (c - a) := by
  induction blocks generalizing a with
  | nil =>
    obtain rfl : a = c := h
    simp
  | cons blk rest ih =>
    have hle := h.2.le
    rw [List.flatMap_cons, ih h.2, h.1, List.range'_append_1]
    congr 1
    omega

/-- Where the two routes take the same values, the blocks and the routes do not matter. Masked
pixels must have no entries. -/
theorem sum_enters {nonzero : P → Bool} (hzero : ∀ v, nonzero v = false → pixel v = 0)
    {mask : Nat → Bool} (hmask : ∀ p, p < m.npix → mask p = false → m.column p = [])
    (frame : Nat → P) {blocks : List Block} (hcov : Covers blocks 0 m.npix) (b : Nat) :
    (blocks.map fun blk => ((List.range' blk.i0 blk.n).map fun p => columnSum weight (m.column p)
      (enters nonzero mask pixel (fun _ _ _ => pixel) blk p (frame p)) b).sum).sum =
      m.product weight (fun p => pixel (frame p)) b := by
  rw [NormalMatrix.product, List.range_eq_range', ← Nat.sub_zero m.npix, ← flatMap_blocks hcov,
    sum_map_flatMap]
  refine congrArg List.sum (List.map_congr_left fun blk hblk => ?_)
  refine congrArg List.sum (List.map_congr_left fun p hp => ?_)
  have hlt := hcov.lt_of_mem hblk hp
  unfold enters
  by_cases hs : blk.sparse = true
  · rw [if_pos hs]
    by_cases hm : mask p = true
    · by_cases hv : nonzero (frame p) = true
      · simp only [hm, hv, Bool.and_self, if_true]
      · have hzero' := hzero (frame p) (by simpa using hv)
        simp only [hm, hv, Bool.and_false, hzero']
        rfl
    · rw [hmask p hlt (by simpa using hm)]
      rfl
  · rw [if_neg hs]

/-- A dot whose routes take the same values gives the matrix times the frame. -/
theorem frameDot_exact (hK : AddsColumns K m weight pixel (fun _ _ _ => pixel) fits)
    {nonzero : P → Bool} (hzero : ∀ v, nonzero v = false → pixel v = 0) {mask : Nat → Bool}
    (hmask : ∀ p, p < m.npix → mask p = false → m.column p = []) (frame : Nat → P)
    {blocks : List Block} (hcov : Covers blocks 0 m.npix)
    (hfit : ∀ blk ∈ blocks, fits blk.i0 blk.n) (b : Nat) :
    frameDot K 0 nonzero mask frame blocks b = m.product weight (fun p => pixel (frame p)) b :=
  (frameDot_eq hK nonzero mask frame hcov hfit b).trans (sum_enters hzero hmask frame hcov b)

end

/-! ## A folded matrix

The mask is in the matrix. The pixels that a dot sees may have been masked before, or may
be tested when they are listed: for an unmasked pixel neither makes a difference. -/

/-- What the blocks show of the frame: the pixels `seen`, and `tests` where the lists are made. -/
structure Shows (keep : List Bool) (frame seen : Nat → P) (tests : Nat → Bool) : Prop where
  seen : ∀ p, keep.getD p false = true → seen p = frame p
  tests : ∀ p, keep.getD p false = true → tests p = true

theorem product_shows [Semiring D] {weight : F → D} {pixel : P → D} (nm : NormalMatrix F)
    {keep : List Bool} (h : keep.length = nm.npix) {frame seen : Nat → P} {tests : Nat → Bool}
    (hs : Shows keep frame seen tests) (b : Nat) :
    (nm.fold keep h).product weight (fun p => pixel (seen p)) b =
      nm.product weight (fun p => if keep.getD p false then pixel (frame p) else 0) b := by
  rw [nm.product_fold h]
  refine congrArg List.sum (List.map_congr_left fun p _ => ?_)
  by_cases hp : keep.getD p false = true
  · simp only [hp, if_true, hs.seen p hp]
  · simp only [hp]
    rfl

theorem Shows.column_nil (nm : NormalMatrix F) {keep : List Bool} (h : keep.length = nm.npix)
    {frame seen : Nat → P} {tests : Nat → Bool} (hs : Shows keep frame seen tests) {p : Nat}
    (hp : p < nm.npix) (ht : tests p = false) : (nm.fold keep h).column p = [] := by
  rw [nm.column_fold h hp, if_neg]
  intro hk
  rw [hs.tests p hk] at ht
  exact absurd ht (by simp)

/-- The folded matrix: the powder is the original matrix times the frame with the masked
pixels set to zero. -/
theorem frameDot_folded [Semiring D] {K : DotKernel P D} {weight : F → D} {pixel : P → D}
    {fits : Nat → Nat → Prop} (nm : NormalMatrix F) {keep : List Bool} (h : keep.length = nm.npix)
    (hK : AddsColumns K (nm.fold keep h) weight pixel (fun _ _ _ => pixel) fits)
    {nonzero : P → Bool} (hzero : ∀ v, nonzero v = false → pixel v = 0) {frame seen : Nat → P}
    {tests : Nat → Bool} (hs : Shows keep frame seen tests) {blocks : List Block}
    (hcov : Covers blocks 0 nm.npix) (hfit : ∀ blk ∈ blocks, fits blk.i0 blk.n) (b : Nat) :
    frameDot K 0 nonzero tests seen blocks b =
      nm.product weight (fun p => if keep.getD p false then pixel (frame p) else 0) b :=
  (frameDot_exact hK hzero (fun _ hp ht => hs.column_nil nm h hp ht) seen hcov hfit b).trans
    (product_shows nm h hs b)

end Bslz4ToSparse.Dot
