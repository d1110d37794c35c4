import Bslz4ToSparse.Dot.CscRoutes
import Bslz4ToSparse.Matrix.BsbCsr

/-!
# The bsb-csr dots (src/steps/dot_bsbcsr.hpp)

The dense route walks the bins that a block touches and sums the pixels of each in four
partial sums; the sparse route uses the nested csc.
-/

namespace Bslz4ToSparse.Dot

open Foundation Matrix

variable {P F D : Type}

/-- `bslz4_mat_bsbcsr`, without the nested csc. -/
structure MatBsbCsr (F : Type) where
  blkPtr : Nat → Nat
  bins : Nat → Nat
  binPtr : Nat → Nat
  idx : Nat → Nat
  data : Nat → F
  blockElems : Nat

/-- The arrays of a layout. -/
def bsbArrays [Inhabited F] (q : BsbCsr F) : MatBsbCsr F where
  blkPtr := fun k => q.blkPtr.getD k 0
  bins := fun g => q.bins.getD g 0
  binPtr := fun g => q.binPtr.getD g 0
  idx := fun k => q.idx.getD k 0
  data := fun k => q.data.getD k default
  blockElems := q.blockElems

/-- The four partial sums. -/
structure Lanes (D : Type) where
  a0 : D
  a1 : D
  a2 : D
  a3 : D

/-- The sum of the terms `k0 .. k1`, four at a time and then one by one. -/
def sumUnrolled (A : Arith P F D) (term : Nat → D) (k0 k1 : Nat) : D :=
  let turns := (k1 - k0) / 4
  let a := (List.range turns).foldl (fun (a : Lanes D) i =>
    let k := k0 + 4 * i
    ⟨A.add a.a0 (term k), A.add a.a1 (term (k + 1)), A.add a.a2 (term (k + 2)),
      A.add a.a3 (term (k + 3))⟩) ⟨A.zero, A.zero, A.zero, A.zero⟩
  let k := k0 + 4 * turns
  let a0 := (List.range' k (k1 - k)).foldl (fun a k => A.add a (term k)) a.a0
  A.add (A.add a0 a.a1) (A.add a.a2 a.a3)

/-- The accumulation of a block, for the terms of its entries. -/
def bsbGroups (A : Arith P F D) (m : MatBsbCsr F) (term : Nat → D) (i0 n : Nat) (out : Nat → D) :
    Nat → D :=
  if n = 0 then out
  else
    let blockIdx := i0 / m.blockElems
    (List.range' (m.blkPtr blockIdx) (m.blkPtr (blockIdx + 1) - m.blkPtr blockIdx)).foldl
      (fun out bi => modifyAt out (m.bins bi) fun o =>
        A.add o (sumUnrolled A term (m.binPtr bi) (m.binPtr (bi + 1)))) out

/-- The accumulation of `bsbcsr_dense`. -/
def bsbcsrDense (A : Arith P F D) (m : MatBsbCsr F) (px : Nat → P) (i0 n : Nat) (out : Nat → D) :
    Nat → D :=
  bsbGroups A m (fun k => A.mul (A.weight (m.data k)) (A.pixel (px (m.idx k)))) i0 n out

/-- The accumulation of `bsbcsr_nosplit_dense`. -/
def bsbcsrNosplitDense (A : Arith P F D) (m : MatBsbCsr F) (px : Nat → P) (i0 n : Nat)
    (out : Nat → D) : Nat → D :=
  bsbGroups A m (fun k => A.pixel (px (m.idx k))) i0 n out

/-- bsb-csr. -/
def bsbcsrKernel (A : Arith P F D) (m : MatBsbCsr F) (csc : MatCsc F) : DotKernel P D :=
  ⟨bsbcsrDense A m, sparseDotCore A csc⟩

/-- bsb-csr-nosplit. -/
def bsbcsrNosplitKernel (A : Arith P F D) (m : MatBsbCsr F) (bin : Nat → Nat) : DotKernel P D :=
  ⟨bsbcsrNosplitDense A m, fun _ _ => nosplitSparse A bin⟩

/-! ## What a block adds, in exact arithmetic -/

section

variable [Semiring D] {pixel pixelFloat : P → D} {weight : F → D}

theorem sumUnrolled_exact (term : Nat → D) (k0 k1 : Nat) :
    sumUnrolled (.exact pixel pixelFloat weight) term k0 k1 =
      ((List.range' k0 (k1 - k0)).map term).sum := by
  have hlanes : ∀ turns, ∀ a : Lanes D,
      a = (List.range turns).foldl (fun (a : Lanes D) i =>
        ⟨a.a0 + term (k0 + 4 * i), a.a1 + term (k0 + 4 * i + 1), a.a2 + term (k0 + 4 * i + 2),
          a.a3 + term (k0 + 4 * i + 3)⟩) ⟨0, 0, 0, 0⟩ →
      (a.a0 + a.a1) + (a.a2 + a.a3) = ((List.range' k0 (4 * turns)).map term).sum := by
    intro turns
    induction turns with
    | zero =>
      rintro a rfl
      simp
    | succ turns ih =>
      intro a ha
      rw [List.range_succ, List.foldl_append] at ha
      have hprev := ih _ rfl
      rw [Nat.mul_succ, ← List.range'_append_1, List.map_append, List.sum_append, ← hprev, ha]
      simp only [List.foldl_cons, List.foldl_nil, List.range'_succ, List.range'_zero, List.map_cons,
        List.map_nil, List.sum_cons, List.sum_nil]
      abel
  have hrest : ∀ (ks : List Nat) (a : D), ks.foldl (fun a k => a + term k) a =
      a + (ks.map term).sum := by
    intro ks
    induction ks with
    | nil => simp
    | cons k ks ih =>
      intro a
      rw [List.foldl_cons, ih, List.map_cons, List.sum_cons, add_assoc]
  have hsplit : k1 - k0 = 4 * ((k1 - k0) / 4) + (k1 - (k0 + 4 * ((k1 - k0) / 4))) := by omega
  have hfour := hlanes ((k1 - k0) / 4) _ rfl
  rw [hsplit, ← List.range'_append_1, List.map_append, List.sum_append, ← hfour]
  simp only [sumUnrolled, Arith.exact, hrest]
  abel

/-- The entries of a group go to its bin. -/
theorem single_sum {α : Type} (b : Nat) (ks : List α) (term : α → D) (i : Nat) :
    single b (ks.map term).sum i = (ks.map fun k => single b (term k) i).sum := by
  by_cases h : i = b
  · simp only [single, h, if_true]
  · simp [single, h]

theorem adds_bsbGroups (m : MatBsbCsr F) (term : Nat → D) {i0 n : Nat} (hn : n ≠ 0) :
    Adds (bsbGroups (.exact pixel pixelFloat weight) m term i0 n) fun b =>
      ((List.range' (m.blkPtr (i0 / m.blockElems))
        (m.blkPtr (i0 / m.blockElems + 1) - m.blkPtr (i0 / m.blockElems))).map fun bi =>
          ((List.range' (m.binPtr bi) (m.binPtr (bi + 1) - m.binPtr bi)).map fun k =>
            single (m.bins bi) (term k) b).sum).sum := by
  unfold bsbGroups
  simp only [hn, if_false]
  refine adds_foldl _ fun bi _ => ?_
  refine (adds_modifyAt _ _).congr fun b => ?_
  rw [sumUnrolled_exact, single_sum]

variable [Inhabited F] {m : NormalMatrix F} {blockElems : Nat}

/-- A block adds what the columns of its pixels add, if its terms are those of its entries. -/
theorem adds_bsbGroups_columns (hpos : 1 ≤ blockElems) (hmax : blockElems ≤ 2 ^ 16) (px : Nat → P)
    {i0 n : Nat} (hfit : IsDecodeBlock m.npix blockElems i0 n) (term : Nat → D)
    (value : F → P → D)
    (hterm : ∀ k, term k = value ((bsbArrays (m.bsbCsr blockElems)).data k)
      (px ((bsbArrays (m.bsbCsr blockElems)).idx k)))
    (hvalue : ∀ p, p < m.npix → ∀ e ∈ m.column p, ∀ v, value e.2 v = weight e.2 * pixel v) :
    Adds (bsbGroups (.exact pixel pixelFloat weight) (bsbArrays (m.bsbCsr blockElems)) term i0 n)
      fun b => ((List.range n).map fun j =>
        columnSum weight (m.column (j + i0)) (pixel (px j)) b).sum := by
  by_cases hn0 : n = 0
  · unfold bsbGroups
    simp only [hn0, if_true]
    exact adds_id.congr fun _ => rfl
  obtain h | ⟨K, hK, hlt, hn⟩ := hfit
  · exact absurd h hn0
  refine (adds_bsbGroups _ term hn0).congr fun b => ?_
  have helems : (m.bsbCsr blockElems).blockElems = blockElems := by
    rw [NormalMatrix.bsbCsr]
    split <;> rfl
  have hidx : i0 / (bsbArrays (m.bsbCsr blockElems)).blockElems = K := by
    rw [bsbArrays, helems, hK]
    exact Nat.mul_div_cancel K hpos
  have hblock : K < m.nblocks blockElems := by
    rw [NormalMatrix.nblocks, Nat.lt_iff_add_one_le, Nat.le_div_iff_mul_le hpos, Nat.succ_mul]
    omega
  -- what an entry adds, from its pixel, its bin and its weight
  let adds : Nat × Nat × F → D := fun e => single e.2.1 (value e.2.2 (px (e.1 - i0))) b
  have hentries := sum_map_perm (m.blockEntries_perm hpos hmax hblock) adds
  rw [hidx]
  calc _ = (((m.bsbCsr blockElems).blockEntries K).map adds).sum := by
        rw [BsbCsr.blockEntries, sum_map_flatMap]
        refine congrArg List.sum (List.map_congr_left fun g _ => ?_)
        rw [List.map_map]
        refine congrArg List.sum (List.map_congr_left fun k _ => ?_)
        simp only [adds, Function.comp_apply, helems, hK, Nat.add_sub_cancel_left, hterm]
        rfl
    _ = ((List.range' i0 n).map fun p =>
          columnSum weight (m.column p) (pixel (px (p - i0))) b).sum := by
        rw [hentries, ← hK, ← hn, sum_map_flatMap]
        refine congrArg List.sum (List.map_congr_left fun p hp => ?_)
        have hin := List.mem_range'_1.mp hp
        rw [NormalMatrix.pixelEntries, List.map_map, columnSum]
        refine congrArg List.sum (List.map_congr_left fun e he => ?_)
        simp only [adds, Function.comp_apply, hvalue p (by omega) e he]
    _ = _ := by
        rw [List.range'_eq_map_range, List.map_map]
        refine congrArg List.sum (List.map_congr_left fun j _ => ?_)
        simp only [Function.comp_apply, Nat.add_comm i0, Nat.add_sub_cancel]

theorem bsbcsrKernel_adds (hpos : 1 ≤ blockElems) (hmax : blockElems ≤ 2 ^ 16) :
    AddsColumns (bsbcsrKernel (.exact pixel pixelFloat weight) (bsbArrays (m.bsbCsr blockElems))
        (cscLayout m)) m weight pixel
      (fun i0 n => sparseValue pixel pixelFloat (cscLayout m) i0 n)
      (IsDecodeBlock m.npix blockElems) where
  dense := fun px _ _ hfit _ =>
    adds_bsbGroups_columns hpos hmax px hfit _ (fun w v => weight w * pixel v) (fun _ => rfl)
      fun _ _ _ _ _ => rfl
  sparse := fun i0 n l hl => adds_sparseDotCore m i0 n l hl

theorem bsbcsrNosplitKernel_adds [DecidableEq F] [One F] (h1 : weight 1 = 1) (hpos : 1 ≤ blockElems)
    (hmax : blockElems ≤ 2 ^ 16) {bins : List Nat} (hb : m.nosplitBins = .ok bins) :
    AddsColumns (bsbcsrNosplitKernel (.exact pixel pixelFloat weight)
        (bsbArrays (m.bsbCsr blockElems)) fun p => bins.getD p 0) m weight pixel
      (fun _ _ _ => pixel) (IsDecodeBlock m.npix blockElems) where
  dense := fun px _ _ hfit _ => by
    refine adds_bsbGroups_columns hpos hmax px hfit _ (fun _ v => pixel v) (fun _ => rfl) ?_
    intro p hp e he v
    have hcol := m.nosplitBins_spec hb hp
    rw [hcol] at he
    split at he
    · exact absurd he List.not_mem_nil
    · rw [List.mem_singleton.mp he, h1, one_mul]
  sparse := fun _ _ l hl => adds_nosplitSparse h1 m hb l hl

end

/-! ## The layouts lose and duplicate nothing -/

/-- The sparse route of csc is exact for the pixels that a `float` holds. -/
theorem enters_exact {t : Dtype} (m : MatCsc ℚ) (mask : Nat → Bool) {blk : Block}
    (h : t.size ≤ 2 ∨ blk.sparse = false) (p : Nat) (v : Pixel t) :
    enters Pixel.nonzero mask (rationals t).pixel
        (fun i0 n => sparseValue (rationals t).pixel (rationals t).pixelFloat m i0 n) blk p v =
      enters Pixel.nonzero mask (rationals t).pixel (fun _ _ _ => (rationals t).pixel) blk p v := by
  unfold enters
  obtain hsize | hdense := h
  · have hfloat : (rationals t).pixelFloat v = (rationals t).pixel v := by
      have hlt := v.value_natAbs_lt
      have hbits : t.bits ≤ 16 := by simp only [Dtype.bits]; omega
      have hfloat := roundTo_eq (hlt.trans_le (Nat.pow_le_pow_right (by decide) (show t.bits ≤ 24 by omega)))
      have hdouble := roundTo_eq (hlt.trans_le (Nat.pow_le_pow_right (by decide) (show t.bits ≤ 53 by omega)))
      simp only [rationals, Arith.exact, hfloat, hdouble]
    simp only [sparseValue, stagedValue, hfloat, ite_self]
  · simp only [hdense]
    rfl

/-- Every entry of the matrix is in the arrays once, with the place of its pixel in 16 bits; no bin
is listed twice in a block; and the dots give the matrix times the frame. -/
theorem bsbCsr_lossless (t : Dtype) (ht : t.isFloat = false) (hsize : t.size ≤ 4)
    (m : NormalMatrix ℚ) (blockElems : Nat) (hpos : 1 ≤ blockElems) (hmax : blockElems ≤ 65536) :
    ∃ q, m.bsbLayout blockElems = .ok q ∧
      (q.entries.Perm m.entries ∧ q.idx.length = m.indices.length ∧
        q.data.length = m.indices.length ∧ ∀ i ∈ q.idx, i < 2 ^ 16) ∧
      (∀ K, K < m.nblocks blockElems → ((q.groups K).map fun g => q.bins.getD g 0).Nodup) ∧
      ∀ (mask : Nat → Bool), (∀ p, p < m.npix → mask p = false → m.column p = []) →
        ∀ (frame : Nat → Pixel t) (route : Nat → Bool) (b : Nat),
          ((t.size ≤ 2 ∨ ∀ K, route K = false) →
            frameDot (bsbcsrKernel (rationals t) (bsbArrays q) (cscLayout m)) 0 Pixel.nonzero mask
              frame (decodeBlocks m.npix blockElems route) b =
              m.product id (fun p => ((frame p).value : ℚ)) b) ∧
          ∀ bins, m.nosplitBins = .ok bins →
            frameDot (bsbcsrNosplitKernel (rationals t) (bsbArrays q) fun p => bins.getD p 0) 0
              Pixel.nonzero mask frame (decodeBlocks m.npix blockElems route) b =
              m.product id (fun p => ((frame p).value : ℚ)) b := by
  refine ⟨m.bsbCsr blockElems, ?_, ?_, fun K hK => m.bins_nodup hK, ?_⟩
  · rw [NormalMatrix.bsbLayout, if_neg (by rw [bsbMaxBlockElems]; omega)]
  · exact ⟨m.bsbCsr_entries hpos hmax, m.length_bsbCsr.1, m.length_bsbCsr.2, fun i hi => m.idx_lt hi⟩
  intro mask hmask frame route b
  have hzero : ∀ v : Pixel t, v.nonzero = false → (rationals t).pixel v = 0 := by
    intro v hv
    have hv' := Pixel.value_eq_zero ht hv
    simp [rationals, Arith.exact, hv', roundTo]
  have hvalue : (fun p => (rationals t).pixel (frame p)) = fun p => ((frame p).value : ℚ) := by
    funext p
    simp only [rationals, Arith.exact, roundTo_double hsize]
  have hcov := decodeBlocks_covers m.npix hpos route
  have hfit : ∀ blk ∈ decodeBlocks m.npix blockElems route,
      IsDecodeBlock m.npix blockElems blk.i0 blk.n := fun blk hblk => decodeBlocks_fit hblk
  refine ⟨fun hroute => ?_, fun bins hbins => ?_⟩
  · have hK : AddsColumns (bsbcsrKernel (rationals t) (bsbArrays (m.bsbCsr blockElems)) (cscLayout m))
        m id (rationals t).pixel
        (fun i0 n => sparseValue (rationals t).pixel (rationals t).pixelFloat (cscLayout m) i0 n)
        (IsDecodeBlock m.npix blockElems) := bsbcsrKernel_adds hpos hmax
    rw [frameDot_eq hK Pixel.nonzero mask frame hcov hfit, ← hvalue,
      ← sum_enters hzero hmask frame hcov]
    refine congrArg List.sum (List.map_congr_left fun blk hblk => ?_)
    have hblock : t.size ≤ 2 ∨ blk.sparse = false := by
      obtain ⟨K, -, rfl⟩ := List.mem_map.mp hblk
      exact hroute.imp_right fun h => h K
    simp only [enters_exact (cscLayout m) mask hblock]
  · have hK : AddsColumns (bsbcsrNosplitKernel (rationals t) (bsbArrays (m.bsbCsr blockElems))
        fun p => bins.getD p 0) m id (rationals t).pixel (fun _ _ _ => (rationals t).pixel)
        (IsDecodeBlock m.npix blockElems) := bsbcsrNosplitKernel_adds rfl hpos hmax hbins
    rw [frameDot_exact hK hzero hmask frame hcov hfit, hvalue]

/-- Three pixels in two rings; the one in the middle lies in both. -/
def rings : NormalMatrix ℚ where
  data := [1, 1 / 2, 1 / 2, 1]
  indices := [1, 0, 1, 0]
  indptr := [0, 1, 3, 4]
  nbins := 2
  npix := 3
  length_data := rfl
  length_indptr := rfl
  indptr_zero := rfl
  indptr_mono := by decide
  indptr_last := rfl
  indices_lt := by decide
  nbins_lt := twoBins_lt
  entries_lt := by decide

theorem bsbCsr_lossless_rings : ∃ q, rings.bsbLayout 2 = .ok q ∧ q.entries.Perm rings.entries ∧
    frameDot (bsbcsrKernel (rationals .i16) (bsbArrays q) (cscLayout rings)) 0 Pixel.nonzero
        (fun _ => true) (fun p => BitVec.ofNat 16 (p + 1)) (decodeBlocks 3 2 (· = 1)) 0 =
      rings.product id (fun p => ((Pixel.value (t := .i16) (BitVec.ofNat 16 (p + 1)) : Int) : ℚ)) 0 := by
  obtain ⟨q, hq, hentries, -, hdot⟩ :=
    bsbCsr_lossless .i16 rfl (by decide) rings 2 (by decide) (by decide)
  exact ⟨q, hq, hentries.1, (hdot (fun _ => true) (fun _ _ h => absurd h (by decide))
    (fun p => BitVec.ofNat 16 (p + 1)) (· = 1) 0).1 (Or.inl (by decide))⟩

end Bslz4ToSparse.Dot
