import Bslz4ToSparse.Dot.PaddedExact

/-!
# The padded dots, bin by bin

In any arithmetic, a row takes its pixel into each bin that it reaches by one operation, and
leaves the other bins alone. So a bin of the powder is a loop over the pixels whose rows are
visited.
-/

namespace Bslz4ToSparse.Dot

open Foundation Matrix

variable {P F D : Type}

/-! ## A row -/

/-- The weights of a vector row that whole lanes take; the ones behind them are taken one by one. -/
def laneEnd (width : Nat) : Nat :=
  let c4 := if 4 ≤ width then 4 else 0
  if 2 ≤ width - c4 then c4 + 2 else c4

/-- What the pixel `p` and the weight `w` at place `k` of a row make of a cell. -/
def rowOp (A : Arith P F D) (width : Nat) (vector : Bool) (k : Nat) (p w z : D) : D :=
  if vector then if k < laneEnd width then A.fma p w z else A.add z (A.mul p w)
  else A.add z (A.mul w p)

/-- What row `r` makes of bin `b`, for the pixel value `v`. -/
def takeRow (A : Arith P F D) (m : MatPadded F) (vector : Bool) (r : Nat) (v : D) (b : Nat) (z : D) :
    D :=
  if m.base r ≤ b ∧ b < m.base r + m.width then
    rowOp A m.width vector (b - m.base r) v (A.weight (m.weight r (b - m.base r))) z
  else z

variable (A : Arith P F D) (m : MatPadded F)

theorem paddedRowScalar_apply (block : Nat → P) (i0 r : Nat) (out : Nat → D) (b : Nat) :
    paddedRowScalar A block i0 m r out b =
      takeRow A m false r (A.pixel (block (paddedPixel m r - i0))) b (out b) := by
  unfold paddedRowScalar
  simp only [List.range_eq_range']
  rw [foldl_modifyAt]
  rfl

theorem fmaLanes_apply (r : Nat) (v : D) (c n : Nat) (out : Nat → D) (b : Nat) :
    fmaLanes A m r v c n out b = if m.base r + c ≤ b ∧ b < m.base r + c + n then
      A.fma v (A.weight (m.weight r (b - m.base r))) (out b) else out b := rfl

/-- The lanes of a vector row, and the weights behind them. -/
theorem paddedRowAvx2_apply (block : Nat → P) (i0 r : Nat) (out : Nat → D) (b : Nat) :
    paddedRowAvx2 A block i0 m r out b =
      takeRow A m true r (A.pixel (block (paddedPixel m r - i0))) b (out b) := by
  set v := A.pixel (block (paddedPixel m r - i0)) with hv
  -- the cells below place `c` of the row are done
  let done (c : Nat) (out' : Nat → D) : Prop := out' b =
    if m.base r ≤ b ∧ b < m.base r + c then
      A.fma v (A.weight (m.weight r (b - m.base r))) (out b) else out b
  have hnone : done 0 out := by
    change out b = _
    rw [if_neg (by omega)]
  have hlanes : ∀ c n out', done c out' → done (c + n) (fmaLanes A m r v c n out') := by
    intro c n out' h
    change fmaLanes A m r v c n out' b = _
    rw [fmaLanes_apply, h]
    by_cases hnew : m.base r + c ≤ b ∧ b < m.base r + c + n
    · rw [if_pos hnew, if_neg (by omega), if_pos (by omega)]
    · rw [if_neg hnew]
      by_cases hold : m.base r ≤ b ∧ b < m.base r + c
      · rw [if_pos hold, if_pos (by omega)]
      · rw [if_neg hold, if_neg (by omega)]
  have hif : ∀ (q : Prop) [Decidable q] c n out', done c out' →
      done (if q then c + n else c) (if q then fmaLanes A m r v c n out' else out') := by
    intro q _ c n out' h
    by_cases hq : q
    · rw [if_pos hq, if_pos hq]
      exact hlanes c n out' h
    · rw [if_neg hq, if_neg hq]
      exact h
  have h4 := hif (4 ≤ m.width) 0 4 out hnone
  have h2 := hif (2 ≤ m.width - (if 4 ≤ m.width then 0 + 4 else 0)) _ 2 _ h4
  rw [Nat.zero_add] at h2
  have hend : (if 2 ≤ m.width - (if 4 ≤ m.width then 4 else 0) then
      (if 4 ≤ m.width then 4 else 0) + 2 else (if 4 ≤ m.width then 4 else 0)) = laneEnd m.width := rfl
  have hle : laneEnd m.width ≤ m.width := by
    unfold laneEnd
    by_cases hw4 : 4 ≤ m.width
    · simp only [hw4, if_true]
      split <;> omega
    · simp only [hw4, if_false]
      split <;> omega
  unfold paddedRowAvx2
  simp only [← hv, hend]
  rw [hend] at h2
  rw [foldl_modifyAt (m.base r) (laneEnd m.width) (m.width - laneEnd m.width)
    fun c o => A.add o (A.mul v (A.weight (m.weight r c))), h2]
  simp only [takeRow, rowOp, if_true]
  by_cases hrow : m.base r ≤ b ∧ b < m.base r + m.width
  · rw [if_pos hrow]
    by_cases htail : m.base r + laneEnd m.width ≤ b
    · rw [if_pos (by omega), if_neg (by omega), if_neg (by omega)]
    · rw [if_neg (by omega), if_pos (by omega), if_pos (by omega)]
  · rw [if_neg hrow, if_neg (by omega), if_neg (by omega)]

/-! ## A block -/

/-- Whether the rows of a block are vector rows. -/
def vectorRows (m : MatPadded F) (avx2 : Bool) : Bool :=
  decide (avx2 ∧ 1 ≤ m.width ∧ m.width ≤ paddedMaxSimdWidth)

/-- The rows of block `k`, in the order in which they are taken. -/
def rowOrder (m : MatPadded F) (avx2 : Bool) (k : Nat) : List Nat :=
  if vectorRows m avx2 then tiled paddedTile paddedStride (m.rowPtr k) (m.rowPtr (k + 1))
  else List.range' (m.rowPtr k) (m.rowPtr (k + 1) - m.rowPtr k)

theorem rowOrder_perm (avx2 : Bool) (k : Nat) :
    (rowOrder m avx2 k).Perm (List.range' (m.rowPtr k) (m.rowPtr (k + 1) - m.rowPtr k)) := by
  unfold rowOrder
  split
  · exact tiled_perm (by decide) (by decide) _ _
  · exact List.Perm.refl _

theorem paddedDense_apply (avx2 : Bool) (block : Nat → P) (i0 : Nat) {n : Nat} (hn : n ≠ 0)
    (out : Nat → D) (b : Nat) :
    paddedDense A m avx2 block i0 n out b =
      (rowOrder m avx2 (i0 / m.blockElems)).foldl (fun z r => takeRow A m (vectorRows m avx2) r
        (A.pixel (block (paddedPixel m r - i0))) b z) (out b) := by
  rw [paddedDense, if_neg hn]
  unfold paddedDenseBlock rowOrder
  by_cases hv : avx2 ∧ 1 ≤ m.width ∧ m.width ≤ paddedMaxSimdWidth
  · have hvec : vectorRows m avx2 = true := decide_eq_true hv
    rw [if_pos hv, hvec, if_pos rfl]
    exact foldl_cell (f := fun out r => paddedRowAvx2 A block i0 m r out)
      (g := fun z r => takeRow A m true r (A.pixel (block (paddedPixel m r - i0))) b z) _
      (fun r _ out => paddedRowAvx2_apply A m block i0 r out b) out
  · have hvec : vectorRows m avx2 = false := decide_eq_false hv
    rw [if_neg hv, hvec, if_neg Bool.false_ne_true]
    exact foldl_cell (f := fun out r => paddedRowScalar A block i0 m r out)
      (g := fun z r => takeRow A m false r (A.pixel (block (paddedPixel m r - i0))) b z) _
      (fun r _ out => paddedRowScalar_apply A m block i0 r out b) out

theorem paddedSparse_apply (l : PixelList P) (out : Nat → D) (b : Nat) :
    paddedSparse A m l out b = (List.range l.nz).foldl (fun z kk =>
      if paddedRow m (l.tidx kk) < 0 then z
      else takeRow A m false (paddedRow m (l.tidx kk)).toNat (A.pixel (l.tval kk)) b z) (out b) := by
  refine foldl_cell _ (fun kk _ out => ?_) out
  by_cases hrow : paddedRow m (l.tidx kk) < 0
  · simp only [hrow, if_true]
  · simp only [hrow, if_false, List.range_eq_range']
    rw [foldl_modifyAt]
    rfl

/-! ## A row for every pixel -/

section

variable [Zero F] [Inhabited F] {m : NormalMatrix F} {blockElems : Nat} {l : PaddedLayout F}

/-- What pixel `p` of value `v` makes of bin `b`. -/
def takePixel (m : NormalMatrix F) (vector : Bool) (p : Nat) (v : D) (b : Nat) (z : D) : D :=
  if m.Reaches p b then
    rowOp A m.paddedWidth vector (b - m.newBase p) v
      (A.weight (m.rowWeights p (b - m.newBase p))) z
  else z

theorem takeRow_eq (hl : m.HasRows blockElems l fun _ => true) (vector : Bool) {p : Nat}
    (hp : p < m.npix) (v : D) (b : Nat) (z : D) :
    takeRow A (paddedArrays l) vector p v b z = takePixel A m vector p v b z := by
  have hall : (List.range m.npix).filter (fun _ => true) = List.range m.npix := by simp
  have hwidth : (paddedArrays l).width = m.paddedWidth := hl.width
  have hrow : ((List.range m.npix).filter fun _ => true).getD p 0 = p := by
    rw [hall]
    simp [List.getD_eq_getElem?_getD, hp]
  have hlen : p < ((List.range m.npix).filter fun _ => true).length := by
    rw [hall, List.length_range]
    exact hp
  have hbase := arrays_base hl hlen
  rw [hrow] at hbase
  unfold takeRow takePixel
  rw [hbase, hwidth]
  by_cases hb : m.Reaches p b
  · have hweight := arrays_weight hl hlen (show b - m.newBase p < m.paddedWidth by
      have hlow := hb.1
      have hhigh := hb.2
      omega)
    rw [hrow] at hweight
    rw [if_pos (show m.newBase p ≤ b ∧ b < m.newBase p + m.paddedWidth from hb), if_pos hb, hweight]
  · rw [if_neg (show ¬ (m.newBase p ≤ b ∧ b < m.newBase p + m.paddedWidth) from hb), if_neg hb]

/-- The rows of a decode block are its pixels. -/
theorem rowOrder_block (hpos : 1 ≤ blockElems) (hl : m.HasRows blockElems l fun _ => true)
    (avx2 : Bool) {i0 n : Nat} (hfit : IsDecodeBlock m.npix blockElems i0 n) (hn : n ≠ 0) :
    (rowOrder (paddedArrays l) avx2 (i0 / (paddedArrays l).blockElems)).Perm (List.range' i0 n) := by
  obtain h | ⟨k, hk, hlt, hmin⟩ := hfit
  · exact absurd h hn
  have helems : (paddedArrays l).blockElems = blockElems := hl.blockElems_eq
  have hlast : k + 1 ≤ (m.npix + blockElems - 1) / blockElems := by
    rw [Nat.le_div_iff_mul_le hpos, Nat.succ_mul]
    omega
  have hstart := rowPtr_eq hl (show k ≤ (m.npix + blockElems - 1) / blockElems by omega)
  have hend := rowPtr_eq hl hlast
  simp only [List.filter_true, List.length_range] at hstart hend
  rw [Nat.succ_mul] at hend
  rw [helems, hk, Nat.mul_div_cancel k hpos]
  refine (rowOrder_perm _ avx2 k).trans (List.Perm.of_eq ?_)
  rw [hstart, hend]
  congr 1 <;> omega

/-- The pixels of a block whose rows are visited, each with whether its row is a vector row. -/
def visits (nonzero : P → Bool) (mask : Nat → Bool) (frame : Nat → P) (l : PaddedLayout F)
    (avx2 : Bool) (blk : Block) : List (Bool × Nat) :=
  if blk.sparse then (listed nonzero mask frame blk.i0 blk.n).map (Prod.mk false)
  else if blk.n = 0 then []
  else (rowOrder (paddedArrays l) avx2 (blk.i0 / (paddedArrays l).blockElems)).map
    (Prod.mk (vectorRows (paddedArrays l) avx2))

/-- What a visit makes of bin `b`. -/
def visit (m : NormalMatrix F) (frame : Nat → P) (b : Nat) (z : D) (e : Bool × Nat) : D :=
  takePixel A m e.1 e.2 (A.pixel (frame e.2)) b z

variable (nonzero : P → Bool) (mask : Nat → Bool) (frame : Nat → P)

theorem mem_visits_sparse (avx2 : Bool) {blk : Block} (hs : blk.sparse = true) (p : Nat) :
    (∃ v, (v, p) ∈ visits nonzero mask frame l avx2 blk) ↔
      p ∈ List.range' blk.i0 blk.n ∧ mask p = true ∧ nonzero (frame p) = true := by
  simp [visits, hs, listed]

theorem mem_visits_dense (hpos : 1 ≤ blockElems) (hl : m.HasRows blockElems l fun _ => true)
    (avx2 : Bool) {blk : Block} (hfit : IsDecodeBlock m.npix blockElems blk.i0 blk.n)
    (hs : blk.sparse = false) (p : Nat) :
    (∃ v, (v, p) ∈ visits nonzero mask frame l avx2 blk) ↔ p ∈ List.range' blk.i0 blk.n := by
  by_cases hn : blk.n = 0
  · simp [visits, hs, hn]
  · rw [← (rowOrder_block hpos hl avx2 hfit hn).mem_iff]
    simp [visits, hs, hn]

/-- A block makes of bin `b` what its visits make of it. -/
theorem blockDot_bin (hpos : 1 ≤ blockElems) (hl : m.HasRows blockElems l fun _ => true)
    (hlisted : l.listed = false) (avx2 : Bool) (out : Nat → D) {blk : Block}
    (hfit : IsDecodeBlock m.npix blockElems blk.i0 blk.n) (hend : blk.i0 + blk.n ≤ m.npix) (b : Nat) :
    blockDot (paddedKernel A (paddedArrays l) avx2) nonzero mask frame out blk b =
      (visits nonzero mask frame l avx2 blk).foldl (visit A m frame b) (out b) := by
  have hunlisted : (paddedArrays l).listed = false := hlisted
  unfold blockDot visits
  by_cases hs : blk.sparse = true
  · rw [if_pos hs, if_pos hs, List.foldl_map]
    refine (paddedSparse_apply A _ _ out b).trans ?_
    set ps := listed nonzero mask frame blk.i0 blk.n with hps
    have hget : (List.range ps.length).map (fun kk => ps.getD kk 0) = ps := by
      rw [List.range_eq_range', map_range'_getD ps 0 (by simp)]
      simp
    conv_rhs => rw [← hget, List.foldl_map]
    apply List.foldl_ext
    intro z kk hkk
    have hmem : ps.getD kk 0 ∈ ps := by
      rw [List.getD_eq_getElem _ _ (List.mem_range.mp hkk)]
      exact List.getElem_mem _
    have hin := List.mem_range'_1.mp (List.mem_filter.mp
      (show ps.getD kk 0 ∈ listed nonzero mask frame blk.i0 blk.n from hmem)).1
    have hrow : paddedRow (paddedArrays l) (ps.getD kk 0) = (ps.getD kk 0 : Int) := by
      simp [paddedRow, hunlisted]
    change (if paddedRow (paddedArrays l) (ps.getD kk 0) < 0 then z else takeRow A (paddedArrays l)
      false (paddedRow (paddedArrays l) (ps.getD kk 0)).toNat (A.pixel (frame (ps.getD kk 0))) b z) = _
    rw [hrow, if_neg (by omega), Int.toNat_natCast, takeRow_eq A hl false (by omega)]
    rfl
  · rw [if_neg hs, if_neg hs]
    by_cases hn : blk.n = 0
    · rw [if_pos hn, hn]
      rfl
    · rw [if_neg hn, List.foldl_map]
      refine (paddedDense_apply A _ avx2 _ blk.i0 hn out b).trans ?_
      apply List.foldl_ext
      intro z r hr
      have hin := List.mem_range'_1.mp ((rowOrder_block hpos hl avx2 hfit hn).mem_iff.mp hr)
      have hpixel : paddedPixel (paddedArrays l) r = r := by simp [paddedPixel, hunlisted]
      rw [hpixel, Nat.add_sub_cancel' hin.1, takeRow_eq A hl _ (by omega)]
      rfl

/-- The visits of a frame. -/
def frameVisits (m : NormalMatrix F) (blockElems : Nat) (route : Nat → Bool) (l : PaddedLayout F)
    (avx2 : Bool) : List (Bool × Nat) :=
  (decodeBlocks m.npix blockElems route).flatMap (visits nonzero mask frame l avx2)

/-- Visited are the pixels of the dense blocks, and the listed ones of the other blocks. -/
theorem mem_frameVisits (hpos : 1 ≤ blockElems) (hl : m.HasRows blockElems l fun _ => true)
    (avx2 : Bool) (route : Nat → Bool) (p : Nat) :
    (∃ v, (v, p) ∈ frameVisits nonzero mask frame m blockElems route l avx2) ↔
      p < m.npix ∧ (route (p / blockElems) = false ∨ mask p = true ∧ nonzero (frame p) = true) := by
  have hmem : (∃ v, (v, p) ∈ frameVisits nonzero mask frame m blockElems route l avx2) ↔
      ∃ blk ∈ decodeBlocks m.npix blockElems route,
        ∃ v, (v, p) ∈ visits nonzero mask frame l avx2 blk := by
    simp only [frameVisits, List.mem_flatMap]
    constructor
    · intro h
      obtain ⟨v, blk, hblk, hv⟩ := h
      exact ⟨blk, hblk, v, hv⟩
    · intro h
      obtain ⟨blk, hblk, v, hv⟩ := h
      exact ⟨v, blk, hblk, hv⟩
  have hblock : ∀ blk ∈ decodeBlocks m.npix blockElems route,
      (∃ v, (v, p) ∈ visits nonzero mask frame l avx2 blk) ↔ p ∈ List.range' blk.i0 blk.n ∧
        (blk.sparse = false ∨ mask p = true ∧ nonzero (frame p) = true) := by
    intro blk hblk
    cases hs : blk.sparse with
    | false => simp [mem_visits_dense nonzero mask frame hpos hl avx2 (decodeBlocks_fit hblk) hs]
    | true => simp [mem_visits_sparse nonzero mask frame avx2 hs]
  rw [hmem]
  constructor
  · intro h
    obtain ⟨blk, hblk, hv⟩ := h
    obtain ⟨hp, hlook⟩ := (hblock blk hblk).mp hv
    refine ⟨(decodeBlocks_covers m.npix hpos route).lt_of_mem hblk hp, ?_⟩
    obtain ⟨k, -, rfl⟩ := List.mem_map.mp hblk
    have hin := List.mem_range'_1.mp hp
    simp only at hin
    have hidx : p / blockElems = k := by
      rw [Nat.div_eq_iff (by omega)]
      omega
    rw [hidx]
    exact hlook
  · intro h
    obtain ⟨hp, hlook⟩ := h
    have hmul := Nat.div_mul_le_self p blockElems
    have hlt := Nat.lt_mul_of_div_lt (Nat.lt_succ_self (p / blockElems)) hpos
    rw [Nat.succ_mul] at hlt
    have hblk : (⟨p / blockElems * blockElems, min blockElems (m.npix - p / blockElems * blockElems),
        route (p / blockElems)⟩ : Block) ∈ decodeBlocks m.npix blockElems route := by
      refine List.mem_map.mpr ⟨p / blockElems, List.mem_range.mpr ?_, rfl⟩
      exact Nat.lt_succ_of_le (Nat.div_le_div_right hp.le)
    refine ⟨_, hblk, (hblock _ hblk).mpr ⟨List.mem_range'_1.mpr ⟨hmul, ?_⟩, hlook⟩⟩
    simp only
    omega

/-- Bin `b` of a powder is a loop over the visits of its blocks. -/
theorem frameDot_bin (hpos : 1 ≤ blockElems) (hl : m.HasRows blockElems l fun _ => true)
    (hlisted : l.listed = false) (avx2 : Bool) (zero : D) (route : Nat → Bool) (b : Nat) :
    frameDot (paddedKernel A (paddedArrays l) avx2) zero nonzero mask frame
        (decodeBlocks m.npix blockElems route) b =
      (frameVisits nonzero mask frame m blockElems route l avx2).foldl (visit A m frame b) zero := by
  rw [frameVisits, List.foldl_flatMap]
  refine foldl_cell (g := fun z blk =>
    (visits nonzero mask frame l avx2 blk).foldl (visit A m frame b) z) _ (fun blk hblk out => ?_) _
  have hcov := decodeBlocks_covers m.npix hpos route
  exact blockDot_bin A nonzero mask frame hpos hl hlisted avx2 out (decodeBlocks_fit hblk)
    (hcov.block_le hblk) b

end

end Bslz4ToSparse.Dot
