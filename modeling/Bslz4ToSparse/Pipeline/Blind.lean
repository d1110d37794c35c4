import Bslz4ToSparse.Matrix.Layout
import Bslz4ToSparse.Pipeline.Dots

/-!
# Pixels that a dot does not look at

In any arithmetic, the powder does not depend on the values of pixels without entries, for
every dot but the padded ones with a row for each pixel: their entries are the only way from
a pixel into a bin.
-/

namespace Bslz4ToSparse.Pipeline

open Dot Foundation Matrix

variable {P F D : Type} {t : Dtype}

/-- The routes look at the pixels of `looks` only: the values of the others may differ, and they
may be listed or not. -/
structure Blind (K : DotKernel P D) (npix : Nat) (looks : Nat → Bool) (fits : Nat → Nat → Prop) :
    Prop where
  dense : ∀ px px' i0 n, fits i0 n → i0 + n ≤ npix →
    (∀ j, j < n → looks (i0 + j) = true → px j = px' j) → K.dense px i0 n = K.dense px' i0 n
  sparse : ∀ i0 n (frame frame' : Nat → P) (ps ps' : List Nat), (∀ p ∈ ps, p < npix) →
    (∀ p ∈ ps', p < npix) → ps.filter looks = ps'.filter looks →
    (∀ p, p < npix → looks p = true → frame p = frame' p) →
    K.sparse i0 n (.of frame ps) = K.sparse i0 n (.of frame' ps')

/-- What is looked at of a list does not depend on the other pixels. -/
theorem filter_listed (looks : Nat → Bool) (nonzero : P → Bool) (mask : Nat → Bool)
    {frame frame' : Nat → P} {i0 n : Nat}
    (h : ∀ p ∈ List.range' i0 n, looks p = true → frame p = frame' p) :
    (listed nonzero mask frame i0 n).filter looks = (listed nonzero mask frame' i0 n).filter looks := by
  rw [listed, listed, List.filter_filter, List.filter_filter]
  refine List.filter_congr fun p hp => ?_
  by_cases hl : looks p = true
  · rw [h p hp hl]
  · simp only [hl]
    rfl

/-- Frames that agree on the pixels looked at have the same powder. -/
theorem frameDot_blind {K : DotKernel P D} {npix : Nat} {looks : Nat → Bool}
    {fits : Nat → Nat → Prop} (hK : Blind K npix looks fits) (zero : D) (nonzero : P → Bool)
    (mask : Nat → Bool) {frame frame' : Nat → P}
    (h : ∀ p, p < npix → looks p = true → frame p = frame' p) {blocks : List Block}
    (hcov : Covers blocks 0 npix) (hfit : ∀ blk ∈ blocks, fits blk.i0 blk.n) :
    frameDot K zero nonzero mask frame blocks = frameDot K zero nonzero mask frame' blocks := by
  apply List.foldl_ext
  intro out blk hblk
  have hlt : ∀ p ∈ List.range' blk.i0 blk.n, p < npix := fun p hp => hcov.lt_of_mem hblk hp
  unfold blockDot
  by_cases hs : blk.sparse = true
  · have hin : ∀ (frame : Nat → P), ∀ p ∈ listed nonzero mask frame blk.i0 blk.n, p < npix :=
      fun frame p hp => hlt p (List.mem_filter.mp hp).1
    have hlooked := filter_listed looks nonzero mask fun p hp => h p (hlt p hp)
    rw [if_pos hs, if_pos hs, hK.sparse blk.i0 blk.n frame frame' _ _ (hin frame) (hin frame') hlooked h]
  · rw [if_neg hs, if_neg hs, hK.dense _ _ blk.i0 blk.n (hfit blk hblk) (hcov.block_le hblk)]
    intro j hj hl
    exact h _ (hlt _ (List.mem_range'_1.mpr ⟨by omega, by omega⟩)) hl

/-! ## Pixel after pixel -/

section

variable {npix : Nat} {looks : Nat → Bool} {f : Nat → P → (Nat → D) → Nat → D}
  (hidle : ∀ p, p < npix → looks p = false → ∀ v out, f p v out = out)

include hidle

/-- A dense route whose turns do nothing for the pixels that are not looked at. -/
theorem dense_blind {order : List Nat} {i0 n : Nat} (horder : ∀ j ∈ order, j < n)
    (hn : i0 + n ≤ npix) {px px' : Nat → P}
    (h : ∀ j, j < n → looks (i0 + j) = true → px j = px' j) :
    (fun out => order.foldl (fun out j => f (j + i0) (px j) out) out) =
      fun out => order.foldl (fun out j => f (j + i0) (px' j) out) out := by
  funext out
  apply List.foldl_ext
  intro out j hj
  have hlt := horder j hj
  by_cases hl : looks (i0 + j) = true
  · rw [h j hlt hl]
  · rw [Nat.add_comm] at hl
    rw [hidle (j + i0) (by omega) (by simpa using hl), hidle (j + i0) (by omega) (by simpa using hl)]

/-- A loop over a list whose turns do nothing for the pixels that are not looked at. -/
theorem sparse_blind {frame frame' : Nat → P} {ps ps' : List Nat} (hps : ∀ p ∈ ps, p < npix)
    (hps' : ∀ p ∈ ps', p < npix) (hsame : ps.filter looks = ps'.filter looks)
    (h : ∀ p, p < npix → looks p = true → frame p = frame' p) :
    (fun out => (List.range (PixelList.of frame ps).nz).foldl (fun out kk =>
      f ((PixelList.of frame ps).tidx kk) ((PixelList.of frame ps).tval kk) out) out) =
      fun out => (List.range (PixelList.of frame' ps').nz).foldl (fun out kk =>
        f ((PixelList.of frame' ps').tidx kk) ((PixelList.of frame' ps').tval kk) out) out := by
  have hlist : ∀ (frame : Nat → P) (ps : List Nat), (∀ p ∈ ps, p < npix) → ∀ out,
      (List.range (PixelList.of frame ps).nz).foldl (fun out kk =>
        f ((PixelList.of frame ps).tidx kk) ((PixelList.of frame ps).tval kk) out) out =
      (ps.filter looks).foldl (fun out p => f p (frame p) out) out := by
    intro frame ps hps out
    have hget : (List.range ps.length).map (fun kk => ps.getD kk 0) = ps := by
      rw [List.range_eq_range', map_range'_getD ps 0 (by simp)]
      simp
    rw [← foldl_filter_of_idle (I := fun _ => True) ps trivial (fun _ _ _ _ => trivial)
      fun p hp hl out _ => hidle p (hps p hp) hl _ out]
    conv_rhs => rw [← hget, List.foldl_map]
    rfl
  funext out
  rw [hlist frame ps hps, hlist frame' ps' hps', hsame]
  apply List.foldl_ext
  intro out p hp
  obtain ⟨hmem, hl⟩ := List.mem_filter.mp hp
  rw [h p (hps' p hmem) hl]

end

/-! ## The csc entry -/

section

variable (A : Arith P F D) (fits : Nat → Nat → Prop)

/-- The pixels with entries. -/
def hasEntries (m : NormalMatrix F) (p : Nat) : Bool := decide (0 < m.count p)

theorem count_eq_zero {m : NormalMatrix F} {p : Nat} (h : hasEntries m p = false) : m.count p = 0 := by
  simpa [hasEntries] using h

variable [Inhabited F] (m : NormalMatrix F)

theorem addPixel_idle {p : Nat} (h : hasEntries m p = false) (v : D) (out : Nat → D) :
    addPixel A (cscLayout m) p v out = out := by
  have hcount : m.ptr (p + 1) - m.ptr p = 0 := count_eq_zero h
  change (List.range' (m.ptr p) (m.ptr (p + 1) - m.ptr p)).foldl _ out = out
  rw [hcount]
  rfl

theorem addRun_idle (starts : List Nat) {p : Nat} (h : hasEntries m p = false) (v : D) (out : Nat → D) :
    addRun A (runLayout m starts) p v out = out := by
  have hcount : m.ptr (p + 1) - m.ptr p = 0 := count_eq_zero h
  change (List.range (m.ptr (p + 1) - m.ptr p)).foldl _ out = out
  rw [hcount]
  rfl

theorem cscKernel_blind : Blind (cscKernel A (cscLayout m)) m.npix (hasEntries m) fits where
  dense := fun _ _ _ _ _ hn h => dense_blind (f := fun p v => addPixel A (cscLayout m) p (A.pixel v))
    (fun _ _ hp v out => addPixel_idle A m hp (A.pixel v) out) (fun _ hj => List.mem_range.mp hj) hn h
  sparse := fun i0 n frame frame' ps ps' hps hps' hsame h => by
    funext out
    refine (sparseDotCore_eq A (cscLayout m) i0 n (.of frame ps) out).trans
      (Eq.trans ?_ (sparseDotCore_eq A (cscLayout m) i0 n (.of frame' ps') out).symm)
    exact congrFun (sparse_blind (f := fun p v => addPixel A (cscLayout m) p
      (sparseValue A.pixel A.pixelFloat (cscLayout m) i0 n p v))
      (fun _ _ hp _ out => addPixel_idle A m hp _ out) hps hps' hsame h) out

theorem runKernel_blind (starts : List Nat) :
    Blind (runKernel A (runLayout m starts)) m.npix (hasEntries m) fits where
  dense := fun _ _ _ _ _ hn h => dense_blind (f := fun p v => addRun A (runLayout m starts) p (A.pixel v))
    (fun _ _ hp v out => addRun_idle A m starts hp (A.pixel v) out) (fun _ hj => List.mem_range.mp hj)
    hn h
  sparse := fun _ _ _ _ _ _ hps hps' hsame h =>
    sparse_blind (f := fun p v => addRun A (runLayout m starts) p (A.pixel v))
      (fun _ _ hp v out => addRun_idle A m starts hp (A.pixel v) out) hps hps' hsame h

/-- A body that does nothing for the pixels that are not looked at. -/
theorem bodyKernel_blind {body : Body P D} {npix : Nat} {looks : Nat → Bool}
    (hidle : ∀ p, p < npix → looks p = false → ∀ v out, body p v out = out) :
    Blind (bodyKernel body) npix looks fits where
  dense := fun _ _ _ _ _ hn h => dense_blind hidle (fun _ hj => List.mem_range.mp hj) hn h
  sparse := fun _ _ _ _ _ _ hps hps' hsame h => sparse_blind hidle hps hps' hsame h

end

/-! ## The histograms -/

section

variable (A : Arith P F D) (fits : Nat → Nat → Prop) [DecidableEq F] [One F] [Inhabited F]
  {m : NormalMatrix F} {bins : List Nat}

theorem nosplitBin_none (hb : m.nosplitBins = .ok bins) {p : Nat} (hp : p < m.npix)
    (h : hasEntries m p = false) : bins.getD p 0 = noBin := by
  have hlen := m.length_column hp
  rw [m.nosplitBins_spec hb hp, count_eq_zero h] at hlen
  by_contra hbin
  rw [if_neg hbin] at hlen
  exact absurd hlen (by simp)

variable (hb : m.nosplitBins = .ok bins)

include hb

theorem addBin_idle {G : Type} (A : Arith P G D) {p : Nat} (hp : p < m.npix)
    (h : hasEntries m p = false) (v : D) (out : Nat → D) : addBin A (bins.getD p 0) v out = out := by
  rw [addBin, nosplitBin_none hb hp h, if_neg (fun hne => hne rfl)]

theorem nosplitSparse_blind {frame frame' : Nat → P} {ps ps' : List Nat}
    (hps : ∀ p ∈ ps, p < m.npix) (hps' : ∀ p ∈ ps', p < m.npix)
    (hsame : ps.filter (hasEntries m) = ps'.filter (hasEntries m))
    (h : ∀ p, p < m.npix → hasEntries m p = true → frame p = frame' p) :
    nosplitSparse A (fun p => bins.getD p 0) (.of frame ps) =
      nosplitSparse A (fun p => bins.getD p 0) (.of frame' ps') :=
  sparse_blind (f := fun p v => addBin A (bins.getD p 0) (A.pixel v))
    (fun _ hp hl v out => addBin_idle hb A hp hl (A.pixel v) out) hps hps' hsame h

theorem nosplitKernel_blind :
    Blind (nosplitKernel A fun p => bins.getD p 0) m.npix (hasEntries m) fits where
  dense := fun px px' i0 n _ hn h => by
    have hloop := dense_blind (f := fun p v => addBin A (bins.getD p 0) (A.pixel v))
      (fun _ hp hl v out => addBin_idle hb A hp hl (A.pixel v) out)
      (fun _ hj => List.mem_range.mp hj) hn h
    simp only [Nat.add_comm _ i0] at hloop
    exact hloop
  sparse := fun _ _ _ _ _ _ hps hps' hsame h => nosplitSparse_blind A hb hps hps' hsame h

theorem permute_idle {p : Nat} (hp : p < m.npix) (h : hasEntries m p = false) (v : P) (out : Nat → P) :
    permute (fun p => bins.getD p 0) p v out = out := by
  rw [permute, nosplitBin_none hb hp h, if_neg (fun hne => hne rfl)]

theorem nosplitInt_idle {p : Nat} (hp : p < m.npix) (h : hasEntries m p = false) (v : Pixel t)
    (out : Nat → BitVec 64) : nosplitInt (fun p => bins.getD p 0) p v out = out :=
  addBin_idle hb _ hp h _ out

theorem nosplitIntKernel_blind :
    Blind (nosplitIntKernel (t := t) fun p => bins.getD p 0) m.npix (hasEntries m) fits where
  dense := fun _ _ _ n _ hn h =>
    dense_blind (fun _ hp hl v out => nosplitInt_idle hb hp hl v out)
      (fun _ hj => List.mem_range.mp ((nosplitTiles_perm n).mem_iff.mp hj)) hn h
  sparse := fun _ _ _ _ _ _ hps hps' hsame h =>
    sparse_blind (fun _ hp hl v out => nosplitInt_idle hb hp hl v out) hps hps' hsame h

end

/-! ## The layouts of blocks -/

section

variable (A : Arith P F D) [Inhabited F] {m : NormalMatrix F} {blockElems : Nat}

theorem bsbcsrKernel_blind (hpos : 1 ≤ blockElems) (hmax : blockElems ≤ 2 ^ 16) :
    Blind (bsbcsrKernel A (bsbArrays (m.bsbCsr blockElems)) (cscLayout m)) m.npix (hasEntries m)
      (IsDecodeBlock m.npix blockElems) where
  dense := fun _ _ _ _ hfit _ h => by
    apply bsbGroups_congr A hpos hmax hfit
    intro k hk hcount
    exact congrArg (fun v => A.mul _ (A.pixel v)) (h _ hk (decide_eq_true hcount))
  sparse := (cscKernel_blind A (IsDecodeBlock m.npix blockElems) m).sparse

theorem bsbcsrNosplitKernel_blind [DecidableEq F] [One F] (hpos : 1 ≤ blockElems)
    (hmax : blockElems ≤ 2 ^ 16) {bins : List Nat} (hb : m.nosplitBins = .ok bins) :
    Blind (bsbcsrNosplitKernel A (bsbArrays (m.bsbCsr blockElems)) fun p => bins.getD p 0) m.npix
      (hasEntries m) (IsDecodeBlock m.npix blockElems) where
  dense := fun _ _ _ _ hfit _ h => by
    apply bsbGroups_congr A hpos hmax hfit
    intro k hk hcount
    exact congrArg A.pixel (h _ hk (decide_eq_true hcount))
  sparse := fun _ _ _ _ _ _ hps hps' hsame h => nosplitSparse_blind A hb hps hps' hsame h

/-- A padded dot looks at the pixels that have a row. -/
theorem paddedKernel_blind [Zero F] (hpos : 1 ≤ blockElems) {l : PaddedLayout F}
    {keep : Nat → Bool} (hl : m.HasRows blockElems l keep) (avx2 : Bool) :
    Blind (paddedKernel A (paddedArrays l) avx2) m.npix keep (IsDecodeBlock m.npix blockElems) where
  dense := fun _ _ _ _ hfit _ h => paddedDense_congr A hpos hl avx2 hfit h
  sparse := fun _ _ _ _ _ _ hps hps' hsame h => by
    refine sparse_blind (f := fun p v out => let row := paddedRow (paddedArrays l) p
      if row < 0 then out
      else (List.range (paddedArrays l).width).foldl (fun out k =>
        modifyAt out ((paddedArrays l).base row.toNat + k) fun o =>
          A.add o (A.mul (A.weight ((paddedArrays l).weight row.toNat k)) (A.pixel v))) out)
      (fun p hp hk v out => ?_) hps hps' hsame h
    have hrow : paddedRow (paddedArrays l) p = -1 := by
      rw [paddedRow]
      refine (hl.row p hp).trans ?_
      rw [hk, if_neg Bool.false_ne_true]
    simp only [hrow]
    rfl

end

end Bslz4ToSparse.Pipeline
