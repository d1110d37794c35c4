import Bslz4ToSparse.Dot.Padded

/-!
# The padded dots compute the product

The rows of a block are those of its pixels, in the order of the pixels; a row adds what the
column of its pixel adds. The dots are called on decode blocks, for which the layout was
built.
-/

namespace Bslz4ToSparse.Dot

open Foundation Matrix

variable {P F D : Type} [Zero F] [Inhabited F] {m : NormalMatrix F} {blockElems : Nat}
  {l : PaddedLayout F} {keep : Nat → Bool}

/-- Every row of the arrays lies inside of the bins. -/
theorem paddedArrays_base_le (h1 : 1 ≤ m.nbins) (hb : m.brokenPixels = [])
    (hl : m.HasRows blockElems l keep) (r : Nat) :
    (paddedArrays l).base r + (paddedArrays l).width ≤ m.nbins := by
  have hwidth : (paddedArrays l).width = m.paddedWidth := hl.width
  rw [hwidth, paddedArrays, hl.base]
  by_cases hr : r < ((List.range m.npix).filter keep).length
  · simp only [List.getD_eq_getElem?_getD, List.getElem?_map, List.getElem?_eq_getElem hr,
      Option.map_some, Option.getD_some]
    exact m.newBase_add_width_le h1 hb _
  · have hnone : ((List.range m.npix).filter keep)[r]? = none := List.getElem?_eq_none (by omega)
    simp only [List.getD_eq_getElem?_getD, List.getElem?_map, hnone, Option.map_none,
      Option.getD_none, Nat.zero_add]
    exact m.paddedWidth_le_nbins h1 hb

/-- The rows before a pixel. -/
theorem rowPtr_eq (hl : m.HasRows blockElems l keep) {k : Nat}
    (hk : k ≤ (m.npix + blockElems - 1) / blockElems) :
    (paddedArrays l).rowPtr k = ((List.range (min (k * blockElems) m.npix)).filter keep).length :=
  (hl.rowPtr k hk).trans (NormalMatrix.searchSorted_filter_range keep (Nat.min_le_right _ _))

/-- The rows of a decode block are those of its pixels. -/
theorem map_paddedPixel (hpos : 1 ≤ blockElems) (hl : m.HasRows blockElems l keep) {k i0 n : Nat}
    (hk : i0 = k * blockElems) (hlt : i0 < m.npix) (hn : n = min blockElems (m.npix - i0)) :
    (List.range' ((paddedArrays l).rowPtr k)
      ((paddedArrays l).rowPtr (k + 1) - (paddedArrays l).rowPtr k)).map
        (fun r => ((List.range m.npix).filter keep).getD r 0) =
      (List.range' i0 n).filter keep := by
  have hlast : k + 1 ≤ (m.npix + blockElems - 1) / blockElems := by
    rw [Nat.le_div_iff_mul_le hpos, Nat.succ_mul]
    omega
  have hstart : min (k * blockElems) m.npix = i0 := by omega
  have hend : min ((k + 1) * blockElems) m.npix = i0 + n := by
    rw [Nat.succ_mul]
    omega
  rw [rowPtr_eq hl hlast, rowPtr_eq hl (by omega), hstart, hend]
  have hsplit : (List.range m.npix).filter keep = (List.range i0).filter keep ++
      ((List.range' i0 n).filter keep ++ (List.range' (i0 + n) (m.npix - (i0 + n))).filter keep) := by
    rw [← List.filter_append, List.range'_append_1, ← List.filter_append, List.range_eq_range',
      List.range_eq_range']
    have happend := List.range'_append_1 (s := 0) (m := i0) (n := n + (m.npix - (i0 + n)))
    rw [Nat.zero_add] at happend
    rw [happend]
    congr 2
    omega
  have hupto : (List.range (i0 + n)).filter keep =
      (List.range i0).filter keep ++ (List.range' i0 n).filter keep := by
    rw [← List.filter_append, List.range_eq_range', List.range_eq_range']
    have happend := List.range'_append_1 (s := 0) (m := i0) (n := n)
    rw [Nat.zero_add] at happend
    rw [happend]
  rw [hupto, List.length_append, Nat.add_sub_cancel_left, map_range'_getD, hsplit, List.drop_left,
    List.take_left]
  rw [hsplit, List.length_append, List.length_append]
  omega

theorem arrays_base (hl : m.HasRows blockElems l keep) {r : Nat}
    (hr : r < ((List.range m.npix).filter keep).length) :
    (paddedArrays l).base r = m.newBase (((List.range m.npix).filter keep).getD r 0) := by
  rw [paddedArrays, hl.base]
  simp only [List.getD_eq_getElem?_getD, List.getElem?_map, List.getElem?_eq_getElem hr,
    Option.map_some, Option.getD_some]

theorem arrays_weight (hl : m.HasRows blockElems l keep) {r k : Nat}
    (hr : r < ((List.range m.npix).filter keep).length) (hk : k < m.paddedWidth) :
    (paddedArrays l).weight r k = m.rowWeights (((List.range m.npix).filter keep).getD r 0) k := by
  have hwidth : (paddedArrays l).width = m.paddedWidth := hl.width
  have hread : (paddedArrays l).weight r k =
      (m.paddedRows ((List.range m.npix).filter keep)).getD (r * m.paddedWidth + k) default := by
    rw [MatPadded.weight, hwidth, paddedArrays, hl.weights]
  rw [hread, NormalMatrix.paddedRows, getD_flatMap _ _ _ 0 (fun _ => by simp) hr hk]
  simp [List.getD_eq_getElem?_getD, hk]

section

variable [CommSemiring D] {pixel pixelFloat : P → D} {weight : F → D}

/-- A row adds what the column of its pixel adds. -/
theorem rowPart_eq (h0 : weight 0 = 0) (h1 : 1 ≤ m.nbins) (hb : m.brokenPixels = [])
    (hl : m.HasRows blockElems l keep) {r : Nat} (hr : r < ((List.range m.npix).filter keep).length)
    (v : D) (b : Nat) :
    rowPart weight (paddedArrays l) r v 0 (paddedArrays l).width b =
      columnSum weight (m.column (((List.range m.npix).filter keep).getD r 0)) v b := by
  set ps := (List.range m.npix).filter keep with hps
  have hwidth : (paddedArrays l).width = m.paddedWidth := hl.width
  have hp : ps.getD r 0 < m.npix := by
    rw [List.getD_eq_getElem _ _ hr]
    exact List.mem_range.mp (List.mem_filter.mp (List.getElem_mem hr)).1
  rw [rowPart, hwidth, ← List.range_eq_range', ← m.rowSum h0 h1 hb hp]
  refine congrArg List.sum (List.map_congr_left fun k hk => ?_)
  rw [arrays_base hl hr, arrays_weight hl hr (List.mem_range.mp hk)]

/-- The column of a pixel without a row is empty. -/
theorem column_unkept (hl : m.HasRows blockElems l keep) {p : Nat} (hp : p < m.npix)
    (hk : keep p = false) : m.column p = [] := by
  rw [← List.length_eq_zero_iff, m.length_column hp]
  exact hl.kept p hp hk

theorem adds_paddedDense (h0 : weight 0 = 0) (h1 : 1 ≤ m.nbins) (hpos : 1 ≤ blockElems)
    (hb : m.brokenPixels = []) (hl : m.HasRows blockElems l keep) (avx2 : Bool) (px : Nat → P)
    {i0 n : Nat} (hfit : IsDecodeBlock m.npix blockElems i0 n) :
    Adds (paddedDense (.exact pixel pixelFloat weight) (paddedArrays l) avx2 px i0 n) fun b =>
      ((List.range n).map fun j => columnSum weight (m.column (j + i0)) (pixel (px j)) b).sum := by
  unfold paddedDense
  by_cases hn0 : n = 0
  · simp only [hn0, if_true]
    exact adds_id.congr fun _ => rfl
  simp only [hn0, if_false]
  obtain h | ⟨k, hk, hlt, hn⟩ := hfit
  · exact absurd h hn0
  refine (adds_paddedDenseBlock px i0 (paddedArrays l) avx2).congr fun b => ?_
  have helems : (paddedArrays l).blockElems = blockElems := hl.blockElems_eq
  have hidx : i0 / (paddedArrays l).blockElems = k := by
    rw [helems, hk]
    exact Nat.mul_div_cancel k hpos
  rw [hidx]
  set ps := (List.range m.npix).filter keep with hps
  have hrows := map_paddedPixel hpos hl hk hlt hn
  have hlast : k + 1 ≤ (m.npix + blockElems - 1) / blockElems := by
    rw [Nat.le_div_iff_mul_le hpos, Nat.succ_mul]
    omega
  -- each row of the block is below the number of rows
  have hrow : ∀ r ∈ List.range' ((paddedArrays l).rowPtr k)
      ((paddedArrays l).rowPtr (k + 1) - (paddedArrays l).rowPtr k),
      rowPart weight (paddedArrays l) r (pixel (px (paddedPixel (paddedArrays l) r - i0))) 0
        (paddedArrays l).width b =
      columnSum weight (m.column (ps.getD r 0)) (pixel (px (ps.getD r 0 - i0))) b := by
    intro r hr
    have hin := List.mem_range'_1.mp hr
    have hend : (paddedArrays l).rowPtr (k + 1) ≤ ps.length := by
      rw [rowPtr_eq hl hlast, ← NormalMatrix.searchSorted_filter_range keep (Nat.min_le_right _ _)]
      exact List.countP_le_length
    have hlt' : r < ps.length := by omega
    have hpixel : paddedPixel (paddedArrays l) r = ps.getD r 0 := hl.pixel r hlt'
    rw [rowPart_eq h0 h1 hb hl hlt', hpixel]
  rw [List.map_congr_left hrow]
  calc ((List.range' ((paddedArrays l).rowPtr k)
        ((paddedArrays l).rowPtr (k + 1) - (paddedArrays l).rowPtr k)).map fun r =>
          columnSum weight (m.column (ps.getD r 0)) (pixel (px (ps.getD r 0 - i0))) b).sum
      = (((List.range' i0 n).filter keep).map fun p =>
          columnSum weight (m.column p) (pixel (px (p - i0))) b).sum := by
        rw [← hrows, List.map_map]
        rfl
    _ = ((List.range' i0 n).map fun p =>
          columnSum weight (m.column p) (pixel (px (p - i0))) b).sum := by
        rw [sum_map_filter]
        refine congrArg List.sum (List.map_congr_left fun p hp => ?_)
        have hin := List.mem_range'_1.mp hp
        by_cases hkeep : keep p = true
        · rw [if_pos hkeep]
        · rw [if_neg hkeep, column_unkept hl (by omega) (by simpa using hkeep)]
          rfl
    _ = _ := by
        rw [List.range'_eq_map_range, List.map_map]
        refine congrArg List.sum (List.map_congr_left fun j _ => ?_)
        simp only [Function.comp_apply, Nat.add_comm i0, Nat.add_sub_cancel]

theorem adds_paddedSparse_columns (h0 : weight 0 = 0) (h1 : 1 ≤ m.nbins) (hb : m.brokenPixels = [])
    (hl : m.HasRows blockElems l keep) (list : PixelList P)
    (hlist : ∀ kk, kk < list.nz → list.tidx kk < m.npix) :
    Adds (paddedSparse (.exact pixel pixelFloat weight) (paddedArrays l) list) fun b =>
      ((List.range list.nz).map fun kk =>
        columnSum weight (m.column (list.tidx kk)) (pixel (list.tval kk)) b).sum := by
  refine (adds_paddedSparse (paddedArrays l) list).congr fun b => ?_
  refine congrArg List.sum (List.map_congr_left fun kk hkk => ?_)
  have hp := hlist kk (List.mem_range.mp hkk)
  have hrow : paddedRow (paddedArrays l) (list.tidx kk) = if keep (list.tidx kk) then
      (((List.range m.npix).filter keep).idxOf (list.tidx kk) : Int) else -1 := hl.row _ hp
  rw [hrow]
  by_cases hkeep : keep (list.tidx kk) = true
  · have hmem : list.tidx kk ∈ (List.range m.npix).filter keep :=
      List.mem_filter.mpr ⟨List.mem_range.mpr hp, hkeep⟩
    have hidx := List.idxOf_lt_length_of_mem hmem
    simp only [hkeep, if_true]
    rw [if_neg (by omega), Int.toNat_natCast, rowPart_eq h0 h1 hb hl hidx,
      List.getD_eq_getElem _ _ hidx, List.getElem_idxOf hidx]
  · rw [if_neg hkeep, if_pos (by decide), column_unkept hl hp (by simpa using hkeep)]
    rfl

theorem paddedKernel_adds (h0 : weight 0 = 0) (h1 : 1 ≤ m.nbins) (hpos : 1 ≤ blockElems)
    (hl : m.padded blockElems = .ok l) (avx2 : Bool) :
    AddsColumns (paddedKernel (.exact pixel pixelFloat weight) (paddedArrays l) avx2) m weight pixel
      (fun _ _ _ => pixel) (IsDecodeBlock m.npix blockElems) := by
  obtain ⟨hb, keep, hrows⟩ := m.padded_spec hl
  exact ⟨fun px _ _ hfit _ => adds_paddedDense h0 h1 hpos hb hrows avx2 px hfit,
    fun _ _ list hlist => adds_paddedSparse_columns h0 h1 hb hrows list hlist⟩

end

/-- Each padded dot gives the matrix times the frame, whatever route each decode block takes; and
whatever the arithmetic, it touches no bin from `nbins` on. -/
theorem padded_product (t : Dtype) (ht : t.isFloat = false) (hsize : t.size ≤ 4)
    (m : NormalMatrix ℚ) (h1 : 1 ≤ m.nbins) (blockElems : Nat) (hpos : 1 ≤ blockElems)
    (l : PaddedLayout ℚ) (hl : m.padded blockElems = .ok l) (avx2 : Bool) (mask : Nat → Bool)
    (hmask : ∀ p, p < m.npix → mask p = false → m.column p = []) (frame : Nat → Pixel t)
    (route : Nat → Bool) :
    (∀ b, frameDot (paddedKernel (rationals t) (paddedArrays l) avx2) 0 Pixel.nonzero mask frame
        (decodeBlocks m.npix blockElems route) b =
      m.product id (fun p => ((frame p).value : ℚ)) b) ∧
    ∀ (D : Type) (A : Arith (Pixel t) ℚ D),
      (∀ px i0 n, StaysBelow m.nbins ((paddedKernel A (paddedArrays l) avx2).dense px i0 n)) ∧
      ∀ i0 n list, StaysBelow m.nbins ((paddedKernel A (paddedArrays l) avx2).sparse i0 n list) := by
  refine ⟨fun b => ?_, fun D A => ?_⟩
  · have hK : AddsColumns (paddedKernel (rationals t) (paddedArrays l) avx2) m id (rationals t).pixel
        (fun _ _ _ => (rationals t).pixel) (IsDecodeBlock m.npix blockElems) :=
      paddedKernel_adds rfl h1 hpos hl avx2
    have hzero : ∀ v : Pixel t, v.nonzero = false → (rationals t).pixel v = 0 := by
      intro v hv
      have hv' := Pixel.value_eq_zero ht hv
      simp [rationals, Arith.exact, hv', roundTo]
    have hvalue : (rationals t).pixel = fun v : Pixel t => (v.value : ℚ) := by
      funext v
      simp only [rationals, Arith.exact, roundTo_double hsize]
    have h := frameDot_exact hK hzero hmask frame (decodeBlocks_covers m.npix hpos route)
      (fun blk hblk => decodeBlocks_fit hblk) b
    rw [hvalue] at h
    exact h
  · obtain ⟨hb, keep, hrows⟩ := m.padded_spec hl
    have hbase := paddedArrays_base_le h1 hb hrows
    exact ⟨fun px i0 n => staysBelow_paddedDense A hbase avx2 px i0 n,
      fun _ _ list => staysBelow_paddedSparse A hbase list⟩

/-- Five pixels of which two have entries; the row of the last one is moved to the left. -/
def edge : NormalMatrix ℚ where
  data := [1 / 2, 1 / 2, 1]
  indices := [0, 1, 2]
  indptr := [0, 0, 2, 2, 2, 3]
  nbins := 3
  npix := 5
  length_data := rfl
  length_indptr := rfl
  indptr_zero := rfl
  indptr_mono := by decide
  indptr_last := rfl
  indices_lt := by decide
  nbins_lt := by decide
  entries_lt := by decide

/-- Its rows for decode blocks of two pixels. -/
def edgeLayout : PaddedLayout ℚ where
  base := [0, 1]
  weights := [1 / 2, 1 / 2, 0, 1]
  pixels := [1, 4]
  rowmap := [-1, 0, -1, -1, 1]
  rowPtr := [0, 1, 1, 2]
  width := 2
  listed := true
  blockElems := 2
  nbins := 3
  npix := 5

theorem padded_product_edge :
    (∀ b, frameDot (paddedKernel (rationals .u16) (paddedArrays edgeLayout) true) 0 Pixel.nonzero
        (fun _ => true) (fun p => BitVec.ofNat 16 (p + 1)) (decodeBlocks 5 2 (· = 2)) b =
      edge.product id (fun p => ((Pixel.value (t := .u16) (BitVec.ofNat 16 (p + 1)) : Int) : ℚ)) b) ∧
    ∀ (D : Type) (A : Arith (Pixel .u16) ℚ D),
      (∀ px i0 n, StaysBelow 3 ((paddedKernel A (paddedArrays edgeLayout) true).dense px i0 n)) ∧
      ∀ i0 n list,
        StaysBelow 3 ((paddedKernel A (paddedArrays edgeLayout) true).sparse i0 n list) :=
  padded_product .u16 rfl (by decide) edge (by decide) 2 (by decide) edgeLayout (by decide +kernel) true
    (fun _ => true) (fun _ _ h => absurd h (by decide)) (fun p => BitVec.ofNat 16 (p + 1)) (· = 2)

end Bslz4ToSparse.Dot
