import Bslz4ToSparse.Dot.BsbCsr
import Bslz4ToSparse.Dot.FixedExact
import Bslz4ToSparse.Dot.PaddedExact
import Bslz4ToSparse.Pipeline.Request

/-!
# The dots of the pipeline (src/pipeline/registry.c)

Every value of the dot step over the layout of a matrix. Each route reads the pixels of its
block and the entries of its list only; the dense routes of the padded and bsb-csr layouts know
the block from its place in the frame.
-/

namespace Bslz4ToSparse.Pipeline

open Dot Foundation Matrix

variable {P F D : Type} {t : Dtype}

/-! ## The csc entry -/

section

variable (A : Arith P F D) (fits : Nat → Nat → Prop)

/-- Two lists with the same entries. -/
theorem sparse_congr {f : Nat → P → (Nat → D) → Nat → D} {l l' : PixelList P} (hnz : l.nz = l'.nz)
    (h : ∀ kk, kk < l.nz → l.tidx kk = l'.tidx kk ∧ l.tval kk = l'.tval kk) :
    (fun out => (List.range l.nz).foldl (fun out kk => f (l.tidx kk) (l.tval kk) out) out) =
      fun out => (List.range l'.nz).foldl (fun out kk => f (l'.tidx kk) (l'.tval kk) out) out := by
  funext out
  rw [← hnz]
  apply List.foldl_ext
  intro out kk hkk
  obtain ⟨hidx, hval⟩ := h kk (List.mem_range.mp hkk)
  rw [hidx, hval]

/-- A dense route that takes the pixels of its block in some order. -/
theorem dense_congr {f : Nat → P → (Nat → D) → Nat → D} {order : List Nat} {n : Nat}
    (horder : ∀ j ∈ order, j < n) {px px' : Nat → P} (h : ∀ j, j < n → px j = px' j) :
    (fun out => order.foldl (fun out j => f j (px j) out) out) =
      fun out => order.foldl (fun out j => f j (px' j) out) out := by
  funext out
  apply List.foldl_ext
  intro out j hj
  rw [h j (horder j hj)]

theorem stageChunk_congr (m : MatCsc F) {l l' : PixelList P} {base fin : Nat} (hfin : fin ≤ l.nz)
    (h : ∀ kk, kk < l.nz → l.tidx kk = l'.tidx kk ∧ l.tval kk = l'.tval kk)
    (s : Staging D × (Nat → D)) :
    stageChunk A m l base fin s = stageChunk A m l' base fin s := by
  unfold stageChunk
  have hfold : ∀ s : Staging D × (Nat → D), (List.range' base (fin - base)).foldl
      (fun s kk => stagePixel A m (l.tidx kk) (l.tval kk) s) s =
      (List.range' base (fin - base)).foldl
        (fun s kk => stagePixel A m (l'.tidx kk) (l'.tval kk) s) s := by
    intro s
    apply List.foldl_ext
    intro s kk hkk
    have hin := List.mem_range'_1.mp hkk
    obtain ⟨hidx, hval⟩ := h kk (by omega)
    rw [hidx, hval]
  rw [hfold]

theorem sparseDotCore_congr (m : MatCsc F) (i0 n : Nat) {l l' : PixelList P} (hnz : l.nz = l'.nz)
    (h : ∀ kk, kk < l.nz → l.tidx kk = l'.tidx kk ∧ l.tval kk = l'.tval kk) :
    sparseDotCore A m i0 n l = sparseDotCore A m i0 n l' := by
  funext out
  unfold sparseDotCore
  split
  · rw [← hnz]
    congr 1
    apply List.foldl_ext
    intro s base _
    exact stageChunk_congr A m (Nat.min_le_right _ _) h s
  · exact congrFun (sparse_congr (f := fun p v => addPixel A m p (A.pixel v)) hnz h) out

theorem cscKernel_reads (m : MatCsc F) : Reads (cscKernel A m) fits where
  dense := fun _ _ i0 _ _ h => dense_congr (f := fun j v => addPixel A m (j + i0) (A.pixel v))
    (fun _ hj => List.mem_range.mp hj) h
  sparse := fun i0 n _ _ hnz h => sparseDotCore_congr A m i0 n hnz h

theorem runKernel_reads (m : MatCsc F) : Reads (runKernel A m) fits where
  dense := fun _ _ i0 _ _ h => dense_congr (f := fun j v => addRun A m (j + i0) (A.pixel v))
    (fun _ hj => List.mem_range.mp hj) h
  sparse := fun _ _ _ _ hnz h => sparse_congr (f := fun p v => addRun A m p (A.pixel v)) hnz h

theorem nosplitSparse_congr (bin : Nat → Nat) {l l' : PixelList P} (hnz : l.nz = l'.nz)
    (h : ∀ kk, kk < l.nz → l.tidx kk = l'.tidx kk ∧ l.tval kk = l'.tval kk) :
    nosplitSparse A bin l = nosplitSparse A bin l' :=
  sparse_congr (f := fun p v => addBin A (bin p) (A.pixel v)) hnz h

theorem nosplitKernel_reads (bin : Nat → Nat) : Reads (nosplitKernel A bin) fits where
  dense := fun _ _ i0 _ _ h =>
    dense_congr (f := fun j v => addBin A (bin (i0 + j)) (A.pixel v))
      (fun _ hj => List.mem_range.mp hj) h
  sparse := fun _ _ _ _ hnz h => nosplitSparse_congr A bin hnz h

theorem bodyKernel_reads (body : Body P D) : Reads (bodyKernel body) fits where
  dense := fun _ _ i0 _ _ h => dense_congr (f := fun j v => body (j + i0) v)
    (fun _ hj => List.mem_range.mp hj) h
  sparse := fun _ _ _ _ hnz h => sparse_congr (f := body) hnz h

theorem nosplitIntKernel_reads (bin : Nat → Nat) :
    Reads (nosplitIntKernel (t := t) bin) fits where
  dense := fun _ _ i0 n _ h => by
    apply dense_congr (f := fun j v => nosplitInt bin (j + i0) v) ?_ h
    intro j hj
    have hperm := @tiled_perm nosplitTile nosplitStride (by decide) (by decide) 0 n
    have hin := List.mem_range'_1.mp (hperm.mem_iff.mp hj)
    omega
  sparse := fun _ _ _ _ hnz h => sparse_congr (f := nosplitInt bin) hnz h

end

/-! ## padded -/

section

variable (A : Arith P F D) [Zero F] [Inhabited F] {m : NormalMatrix F} {blockElems : Nat}

/-- The rows of a block are those of pixels of the block that have one. -/
theorem paddedPixel_spec {l : PaddedLayout F} {keep : Nat → Bool} (hpos : 1 ≤ blockElems)
    (hl : m.HasRows blockElems l keep) {k i0 n r : Nat} (hk : i0 = k * blockElems)
    (hlt : i0 < m.npix) (hn : n = min blockElems (m.npix - i0))
    (hr : r ∈ List.range' ((paddedArrays l).rowPtr k)
      ((paddedArrays l).rowPtr (k + 1) - (paddedArrays l).rowPtr k)) :
    paddedPixel (paddedArrays l) r - i0 < n ∧
      keep (i0 + (paddedPixel (paddedArrays l) r - i0)) = true := by
  have hlast : k + 1 ≤ (m.npix + blockElems - 1) / blockElems := by
    rw [Nat.le_div_iff_mul_le hpos, Nat.succ_mul]
    omega
  have hrow : r < ((List.range m.npix).filter keep).length := by
    have hend : (paddedArrays l).rowPtr (k + 1) ≤ ((List.range m.npix).filter keep).length := by
      rw [rowPtr_eq hl hlast, ← NormalMatrix.searchSorted_filter_range keep (Nat.min_le_right _ _)]
      exact List.countP_le_length
    have hin := List.mem_range'_1.mp hr
    omega
  have hpixel : paddedPixel (paddedArrays l) r = ((List.range m.npix).filter keep).getD r 0 :=
    hl.pixel r hrow
  have hmem := List.mem_map_of_mem (f := fun r => ((List.range m.npix).filter keep).getD r 0) hr
  rw [map_paddedPixel hpos hl hk hlt hn] at hmem
  obtain ⟨hrange, hkeep⟩ := List.mem_filter.mp hmem
  have hin := List.mem_range'_1.mp hrange
  rw [hpixel, Nat.add_sub_cancel' hin.1]
  exact ⟨by omega, hkeep⟩

theorem paddedDense_congr {l : PaddedLayout F} {keep : Nat → Bool} (hpos : 1 ≤ blockElems)
    (hl : m.HasRows blockElems l keep) (avx2 : Bool) {px px' : Nat → P} {i0 n : Nat}
    (hfit : IsDecodeBlock m.npix blockElems i0 n)
    (h : ∀ j, j < n → keep (i0 + j) = true → px j = px' j) :
    paddedDense A (paddedArrays l) avx2 px i0 n = paddedDense A (paddedArrays l) avx2 px' i0 n := by
  funext out
  unfold paddedDense
  split
  · rfl
  next hn0 =>
  obtain h0 | ⟨k, hk, hlt, hn⟩ := hfit
  · exact absurd h0 hn0
  have hidx : i0 / (paddedArrays l).blockElems = k := by
    change i0 / l.blockElems = k
    rw [hl.blockElems_eq, hk]
    exact Nat.mul_div_cancel k hpos
  have hpx : ∀ r, r ∈ List.range' ((paddedArrays l).rowPtr k)
      ((paddedArrays l).rowPtr (k + 1) - (paddedArrays l).rowPtr k) →
      px (paddedPixel (paddedArrays l) r - i0) = px' (paddedPixel (paddedArrays l) r - i0) :=
    fun r hr => h _ (paddedPixel_spec hpos hl hk hlt hn hr).1 (paddedPixel_spec hpos hl hk hlt hn hr).2
  unfold paddedDenseBlock
  simp only [hidx]
  split
  · unfold paddedRowsAvx2
    apply List.foldl_ext
    intro out r hr
    have hperm := @tiled_perm paddedTile paddedStride (by decide) (by decide)
      ((paddedArrays l).rowPtr k) ((paddedArrays l).rowPtr (k + 1))
    unfold paddedRowAvx2
    rw [hpx r (hperm.mem_iff.mp hr)]
  · apply List.foldl_ext
    intro out r hr
    unfold paddedRowScalar
    rw [hpx r hr]

theorem paddedKernel_reads {l : PaddedLayout F} (hpos : 1 ≤ blockElems)
    (hl : m.padded blockElems = .ok l) (avx2 : Bool) :
    Reads (paddedKernel A (paddedArrays l) avx2) (IsDecodeBlock m.npix blockElems) where
  dense := fun _ _ _ _ hfit h => by
    obtain ⟨-, keep, hrows⟩ := NormalMatrix.padded_spec m hl
    exact paddedDense_congr A hpos hrows avx2 hfit fun j hj _ => h j hj
  sparse := fun _ _ l₁ l₂ hnz h => by
    funext out
    change paddedSparse A (paddedArrays l) l₁ out = paddedSparse A (paddedArrays l) l₂ out
    unfold paddedSparse
    rw [← hnz]
    apply List.foldl_ext
    intro out kk hkk
    obtain ⟨hidx, hval⟩ := h kk (List.mem_range.mp hkk)
    rw [hidx, hval]

end

/-! ## bsb-csr -/

section

variable (A : Arith P F D) [Inhabited F] {m : NormalMatrix F} {blockElems : Nat}

omit [Inhabited F] in
theorem sumUnrolled_congr {term term' : Nat → D} {k0 k1 : Nat}
    (h : ∀ k, k0 ≤ k → k < k1 → term k = term' k) :
    sumUnrolled A term k0 k1 = sumUnrolled A term' k0 k1 := by
  unfold sumUnrolled
  have hturns : (List.range ((k1 - k0) / 4)).foldl (fun (a : Dot.Lanes D) i =>
      let k := k0 + 4 * i
      ⟨A.add a.a0 (term k), A.add a.a1 (term (k + 1)), A.add a.a2 (term (k + 2)),
        A.add a.a3 (term (k + 3))⟩) ⟨A.zero, A.zero, A.zero, A.zero⟩ =
      (List.range ((k1 - k0) / 4)).foldl (fun (a : Dot.Lanes D) i =>
        let k := k0 + 4 * i
        ⟨A.add a.a0 (term' k), A.add a.a1 (term' (k + 1)), A.add a.a2 (term' (k + 2)),
          A.add a.a3 (term' (k + 3))⟩) ⟨A.zero, A.zero, A.zero, A.zero⟩ := by
    apply List.foldl_ext
    intro a i hi
    have hlt := List.mem_range.mp hi
    dsimp only
    rw [h (k0 + 4 * i) (by omega) (by omega), h (k0 + 4 * i + 1) (by omega) (by omega),
      h (k0 + 4 * i + 2) (by omega) (by omega), h (k0 + 4 * i + 3) (by omega) (by omega)]
  have hrest : ∀ (a : D), (List.range' (k0 + 4 * ((k1 - k0) / 4)) (k1 - (k0 + 4 * ((k1 - k0) / 4)))).foldl
      (fun a k => A.add a (term k)) a =
      (List.range' (k0 + 4 * ((k1 - k0) / 4)) (k1 - (k0 + 4 * ((k1 - k0) / 4)))).foldl
        (fun a k => A.add a (term' k)) a := by
    intro a
    apply List.foldl_ext
    intro a k hk
    have hin := List.mem_range'_1.mp hk
    rw [h k (by omega) (by omega)]
  simp only [hturns, hrest]

/-- The entries of a block are those of its pixels that have some. -/
theorem bsbIdx_spec (hpos : 1 ≤ blockElems) (hmax : blockElems ≤ 2 ^ 16) {K i0 n g k : Nat}
    (hK : i0 = K * blockElems) (hlt : i0 < m.npix) (hn : n = min blockElems (m.npix - i0))
    (hg : g ∈ (m.bsbCsr blockElems).groups K) (hk : k ∈ (m.bsbCsr blockElems).positions g) :
    (m.bsbCsr blockElems).idx.getD k 0 < n ∧
      0 < m.count (i0 + (m.bsbCsr blockElems).idx.getD k 0) := by
  have helems : (m.bsbCsr blockElems).blockElems = blockElems := by
    rw [NormalMatrix.bsbCsr]
    split <;> rfl
  have hblock : K < m.nblocks blockElems := by
    rw [NormalMatrix.nblocks, Nat.lt_iff_add_one_le, Nat.le_div_iff_mul_le hpos, Nat.succ_mul]
    omega
  have hmem : (K * blockElems + (m.bsbCsr blockElems).idx.getD k 0,
      (m.bsbCsr blockElems).bins.getD g 0, (m.bsbCsr blockElems).data.getD k default) ∈
      (m.bsbCsr blockElems).blockEntries K := by
    unfold BsbCsr.blockEntries
    rw [helems]
    exact List.mem_flatMap.mpr ⟨g, hg, List.mem_map.mpr ⟨k, hk, rfl⟩⟩
  obtain ⟨p, hp, he⟩ := List.mem_flatMap.mp ((m.blockEntries_perm hpos hmax hblock).mem_iff.mp hmem)
  have hin := List.mem_range'_1.mp hp
  obtain ⟨e, hcol, heq⟩ := List.mem_map.mp he
  have hfst := congrArg Prod.fst heq
  dsimp only at hfst
  rw [hK, ← hfst, ← m.length_column (by omega)]
  exact ⟨by omega, List.length_pos_of_mem hcol⟩

theorem bsbGroups_congr (hpos : 1 ≤ blockElems) (hmax : blockElems ≤ 2 ^ 16) {i0 n : Nat}
    (hfit : IsDecodeBlock m.npix blockElems i0 n) {term term' : Nat → D}
    (h : ∀ k, (m.bsbCsr blockElems).idx.getD k 0 < n →
      0 < m.count (i0 + (m.bsbCsr blockElems).idx.getD k 0) → term k = term' k) :
    bsbGroups A (bsbArrays (m.bsbCsr blockElems)) term i0 n =
      bsbGroups A (bsbArrays (m.bsbCsr blockElems)) term' i0 n := by
  funext out
  unfold bsbGroups
  split
  · rfl
  next hn0 =>
  obtain h0 | ⟨K, hK, hlt, hn⟩ := hfit
  · exact absurd h0 hn0
  have hidx : i0 / (bsbArrays (m.bsbCsr blockElems)).blockElems = K := by
    have helems : (m.bsbCsr blockElems).blockElems = blockElems := by
      rw [NormalMatrix.bsbCsr]
      split <;> rfl
    change i0 / (m.bsbCsr blockElems).blockElems = K
    rw [helems, hK]
    exact Nat.mul_div_cancel K hpos
  simp only [hidx]
  apply List.foldl_ext
  intro out g hg
  have hsum : sumUnrolled A term ((bsbArrays (m.bsbCsr blockElems)).binPtr g)
      ((bsbArrays (m.bsbCsr blockElems)).binPtr (g + 1)) =
      sumUnrolled A term' ((bsbArrays (m.bsbCsr blockElems)).binPtr g)
        ((bsbArrays (m.bsbCsr blockElems)).binPtr (g + 1)) := by
    apply sumUnrolled_congr
    intro k hk₀ hk₁
    have hk : k ∈ (m.bsbCsr blockElems).positions g := by
      refine List.mem_range'_1.mpr ⟨hk₀, ?_⟩
      change k < (bsbArrays (m.bsbCsr blockElems)).binPtr g +
        ((bsbArrays (m.bsbCsr blockElems)).binPtr (g + 1) - (bsbArrays (m.bsbCsr blockElems)).binPtr g)
      omega
    obtain ⟨hidx, hcount⟩ := bsbIdx_spec hpos hmax hK hlt hn hg hk
    exact h k hidx hcount
  rw [hsum]

theorem bsbcsrKernel_reads (hpos : 1 ≤ blockElems) (hmax : blockElems ≤ 2 ^ 16) (csc : MatCsc F) :
    Reads (bsbcsrKernel A (bsbArrays (m.bsbCsr blockElems)) csc)
      (IsDecodeBlock m.npix blockElems) where
  dense := fun _ _ _ _ hfit h => by
    apply bsbGroups_congr A hpos hmax hfit
    intro k hk _
    exact congrArg (fun v => A.mul _ (A.pixel v)) (h _ hk)
  sparse := fun i0 n _ _ hnz h => sparseDotCore_congr A csc i0 n hnz h

theorem bsbcsrNosplitKernel_reads (hpos : 1 ≤ blockElems) (hmax : blockElems ≤ 2 ^ 16)
    (bin : Nat → Nat) :
    Reads (bsbcsrNosplitKernel A (bsbArrays (m.bsbCsr blockElems)) bin)
      (IsDecodeBlock m.npix blockElems) where
  dense := fun _ _ _ _ hfit h => by
    apply bsbGroups_congr A hpos hmax hfit
    intro k hk _
    exact congrArg A.pixel (h _ hk)
  sparse := fun _ _ _ _ hnz h => nosplitSparse_congr A bin hnz h

end

/-! ## The values of the step -/

section

variable {nij w : Nat}

/-- csc. -/
def cscStep (A : Arith (Pixel t) F D) (m : MatCsc F) : DotStep t nij D where
  kernel := cscKernel A m
  zero := A.zero
  finish := id
  layout := none
  reads := fun _ _ => cscKernel_reads A _ m

/-- csc-run. -/
def runStep (A : Arith (Pixel t) F D) (m : MatCsc F) : DotStep t nij D where
  kernel := runKernel A m
  zero := A.zero
  finish := id
  layout := none
  reads := fun _ _ => runKernel_reads A _ m

/-- csc-nosplit. -/
def nosplitStep (A : Arith (Pixel t) F D) (bin : Nat → Nat) : DotStep t nij D where
  kernel := nosplitKernel A bin
  zero := A.zero
  finish := id
  layout := none
  reads := fun _ _ => nosplitKernel_reads A _ bin

/-- padded and padded-avx2. -/
def paddedStep [Zero F] [Inhabited F] (A : Arith (Pixel t) F D) (m : NormalMatrix F)
    {blockElems : Nat} (hpos : 1 ≤ blockElems) {l : PaddedLayout F}
    (hl : m.padded blockElems = .ok l) (avx2 : Bool) : DotStep t m.npix D where
  kernel := paddedKernel A (paddedArrays l) avx2
  zero := A.zero
  finish := id
  layout := some (blockElems, l.rowPtr.length)
  reads := fun be h => by
    obtain rfl : blockElems = be := h _ rfl
    exact paddedKernel_reads A hpos hl avx2

/-- bsb-csr. -/
def bsbcsrStep [Inhabited F] (A : Arith (Pixel t) F D) (m : NormalMatrix F) {blockElems : Nat}
    (hpos : 1 ≤ blockElems) (hmax : blockElems ≤ 2 ^ 16) : DotStep t m.npix D where
  kernel := bsbcsrKernel A (bsbArrays (m.bsbCsr blockElems)) (cscLayout m)
  zero := A.zero
  finish := id
  layout := some (blockElems, (m.bsbCsr blockElems).blkPtr.length)
  reads := fun be h => by
    obtain rfl : blockElems = be := h _ rfl
    exact bsbcsrKernel_reads A hpos hmax (cscLayout m)

/-- bsb-csr-nosplit. -/
def bsbcsrNosplitStep [Inhabited F] (A : Arith (Pixel t) F D) (m : NormalMatrix F)
    {blockElems : Nat} (hpos : 1 ≤ blockElems) (hmax : blockElems ≤ 2 ^ 16) (bin : Nat → Nat) :
    DotStep t m.npix D where
  kernel := bsbcsrNosplitKernel A (bsbArrays (m.bsbCsr blockElems)) bin
  zero := A.zero
  finish := id
  layout := some (blockElems, (m.bsbCsr blockElems).blkPtr.length)
  reads := fun be h => by
    obtain rfl : blockElems = be := h _ rfl
    exact bsbcsrNosplitKernel_reads A hpos hmax bin

/-- csc-permute: the powder holds pixels. -/
def permuteStep (bin : Nat → Nat) : DotStep t nij (Pixel t) where
  kernel := bodyKernel (permute bin)
  zero := 0#_
  finish := id
  layout := none
  reads := fun _ _ => bodyKernel_reads _ _

/-- csc-int. -/
def cscIntStep (m : MatCsc (BitVec w)) : DotStep t nij (BitVec 64) where
  kernel := bodyKernel (cscInt m)
  zero := 0#64
  finish := id
  layout := none
  reads := fun _ _ => bodyKernel_reads _ _

/-- csc-run-int and csc-run-int16. -/
def runIntStep (m : MatCsc (BitVec w)) : DotStep t nij (BitVec 64) where
  kernel := bodyKernel (runInt m)
  zero := 0#64
  finish := id
  layout := none
  reads := fun _ _ => bodyKernel_reads _ _

/-- csc-nosplit-int: the sums become the bits of a double. -/
def nosplitIntStep (bin : Nat → Nat) : DotStep t nij (BitVec 64) where
  kernel := nosplitIntKernel bin
  zero := 0#64
  finish := fun v => ofInteger .f64 v.toInt
  layout := none
  reads := fun _ _ => nosplitIntKernel_reads _ bin

end

end Bslz4ToSparse.Pipeline
