import Bslz4ToSparse.Dot.CscRoutes
import Bslz4ToSparse.Matrix.Padded

/-!
# The padded dots (src/steps/dot_padded.hpp)

The dense route walks the rows of a block, one after another or in tiles of vector rows;
the sparse route looks the row of each listed pixel up.
-/

namespace Bslz4ToSparse.Dot

open Foundation Matrix

variable {P F D : Type}

/-- `bslz4_mat_padded`. -/
structure MatPadded (F : Type) where
  base : Nat → Nat
  weights : Nat → F
  pixels : Nat → Nat
  rowmap : Nat → Int
  rowPtr : Nat → Nat
  width : Nat
  listed : Bool
  blockElems : Nat

/-- The arrays of a layout. -/
def paddedArrays [Inhabited F] (l : PaddedLayout F) : MatPadded F where
  base := fun r => l.base.getD r 0
  weights := fun k => l.weights.getD k default
  pixels := fun r => l.pixels.getD r 0
  rowmap := fun p => l.rowmap.getD p 0
  rowPtr := fun k => l.rowPtr.getD k 0
  width := l.width
  listed := l.listed
  blockElems := l.blockElems

def paddedMaxSimdWidth : Nat := 8
def paddedStride : Nat := 16
def paddedTile : Nat := 128

/-- `bslz4_padded_pixel`. -/
def paddedPixel (m : MatPadded F) (r : Nat) : Nat := if m.listed then m.pixels r else r

/-- The weight `w[k]` of row `r`. -/
def MatPadded.weight (m : MatPadded F) (r k : Nat) : F := m.weights (r * m.width + k)

/-- `bslz4_padded_row_scalar`. -/
def paddedRowScalar (A : Arith P F D) (block : Nat → P) (i0 : Nat) (m : MatPadded F) (r : Nat)
    (out : Nat → D) : Nat → D :=
  let px := A.pixel (block (paddedPixel m r - i0))
  (List.range m.width).foldl (fun out k =>
    modifyAt out (m.base r + k) fun o => A.add o (A.mul (A.weight (m.weight r k)) px)) out

/-- The fused multiply-add of `n` lanes of row `r` from weight `c` on: one load, one store. -/
def fmaLanes (A : Arith P F D) (m : MatPadded F) (r : Nat) (p : D) (c n : Nat) (out : Nat → D) :
    Nat → D := fun i =>
  if m.base r + c ≤ i ∧ i < m.base r + c + n then
    A.fma p (A.weight (m.weight r (i - m.base r))) (out i)
  else out i

/-- `bslz4_padded_row_avx2`. -/
def paddedRowAvx2 (A : Arith P F D) (block : Nat → P) (i0 : Nat) (m : MatPadded F) (r : Nat)
    (out : Nat → D) : Nat → D :=
  let p := A.pixel (block (paddedPixel m r - i0))
  let c4 := if 4 ≤ m.width then 4 else 0
  let out := if 4 ≤ m.width then fmaLanes A m r p 0 4 out else out
  let c2 := if 2 ≤ m.width - c4 then c4 + 2 else c4
  let out := if 2 ≤ m.width - c4 then fmaLanes A m r p c4 2 out else out
  (List.range' c2 (m.width - c2)).foldl (fun out c =>
    modifyAt out (m.base r + c) fun o => A.add o (A.mul p (A.weight (m.weight r c)))) out

/-- `bslz4_padded_rows_avx2`. -/
def paddedRowsAvx2 (A : Arith P F D) (block : Nat → P) (i0 : Nat) (m : MatPadded F) (r0 r1 : Nat)
    (out : Nat → D) : Nat → D :=
  (tiled paddedTile paddedStride r0 r1).foldl (fun out r => paddedRowAvx2 A block i0 m r out) out

/-- `bslz4_padded_dense_block`. -/
def paddedDenseBlock (A : Arith P F D) (block : Nat → P) (i0 : Nat) (m : MatPadded F) (avx2 : Bool)
    (out : Nat → D) : Nat → D :=
  let blockIdx := i0 / m.blockElems
  let r0 := m.rowPtr blockIdx
  let r1 := m.rowPtr (blockIdx + 1)
  if avx2 ∧ 1 ≤ m.width ∧ m.width ≤ paddedMaxSimdWidth then paddedRowsAvx2 A block i0 m r0 r1 out
  else (List.range' r0 (r1 - r0)).foldl (fun out r => paddedRowScalar A block i0 m r out) out

/-- The accumulation of `padded_dense`. -/
def paddedDense (A : Arith P F D) (m : MatPadded F) (avx2 : Bool) (block : Nat → P) (i0 n : Nat)
    (out : Nat → D) : Nat → D :=
  if n = 0 then out else paddedDenseBlock A block i0 m avx2 out

/-- The row of a listed pixel; negative for none. -/
def paddedRow (m : MatPadded F) (pixel : Nat) : Int := if m.listed then m.rowmap pixel else pixel

/-- The accumulation of `padded_sparse`. -/
def paddedSparse (A : Arith P F D) (m : MatPadded F) (l : PixelList P) (out : Nat → D) : Nat → D :=
  (List.range l.nz).foldl (fun out kk =>
    let row := paddedRow m (l.tidx kk)
    if row < 0 then out
    else
      let v := A.pixel (l.tval kk)
      (List.range m.width).foldl (fun out k =>
        modifyAt out (m.base row.toNat + k) fun o =>
          A.add o (A.mul (A.weight (m.weight row.toNat k)) v)) out) out

/-- padded and padded-avx2. -/
def paddedKernel (A : Arith P F D) (m : MatPadded F) (avx2 : Bool) : DotKernel P D :=
  ⟨paddedDense A m avx2, fun _ _ => paddedSparse A m⟩

/-! ## The bins touched -/

/-- A step leaves the cells from `bound` on alone. -/
def StaysBelow (bound : Nat) (step : (Nat → D) → Nat → D) : Prop :=
  ∀ out i, bound ≤ i → step out i = out i

theorem staysBelow_modifyAt {bound b : Nat} (h : b < bound) (f : D → D) :
    StaysBelow bound fun out => modifyAt out b f :=
  fun _ _ hi => modifyAt_ne f (by omega)

theorem staysBelow_foldl {α : Type} {bound : Nat} {f : (Nat → D) → α → Nat → D} (l : List α)
    (h : ∀ a ∈ l, StaysBelow bound fun out => f out a) :
    StaysBelow bound fun out => l.foldl f out := by
  induction l with
  | nil => exact fun _ _ _ => rfl
  | cons a l ih =>
    intro out i hi
    exact (ih (fun x hx => h x (List.mem_cons_of_mem a hx)) (f out a) i hi).trans
      (h a List.mem_cons_self out i hi)

theorem StaysBelow.comp {bound : Nat} {f g : (Nat → D) → Nat → D} (hf : StaysBelow bound f)
    (hg : StaysBelow bound g) : StaysBelow bound fun out => g (f out) :=
  fun out i hi => (hg (f out) i hi).trans (hf out i hi)

theorem staysBelow_ite {bound : Nat} {f : (Nat → D) → Nat → D} {p : Prop} [Decidable p]
    (hf : p → StaysBelow bound f) : StaysBelow bound fun out => if p then f out else out := by
  intro out i hi
  by_cases h : p
  · simpa only [if_pos h] using hf h out i hi
  · simp only [if_neg h]

section

variable (A : Arith P F D) {m : MatPadded F} {nbins : Nat}
  (hbase : ∀ r, m.base r + m.width ≤ nbins)

include hbase

theorem staysBelow_paddedRowScalar (block : Nat → P) (i0 r : Nat) :
    StaysBelow nbins (paddedRowScalar A block i0 m r) := by
  refine staysBelow_foldl _ fun k hk => staysBelow_modifyAt ?_ _
  have hlt := List.mem_range.mp hk
  have hr := hbase r
  omega

theorem staysBelow_fmaLanes (r : Nat) (p : D) {c n : Nat} (h : c + n ≤ m.width) :
    StaysBelow nbins (fmaLanes A m r p c n) := by
  intro out i hi
  have hr := hbase r
  exact if_neg (by omega)

theorem staysBelow_paddedRowAvx2 (block : Nat → P) (i0 r : Nat) :
    StaysBelow nbins (paddedRowAvx2 A block i0 m r) := by
  have hr := hbase r
  refine StaysBelow.comp (f := fun out => if 2 ≤ m.width - (if 4 ≤ m.width then 4 else 0) then
    fmaLanes A m r _ _ 2 (if 4 ≤ m.width then fmaLanes A m r _ 0 4 out else out)
    else if 4 ≤ m.width then fmaLanes A m r _ 0 4 out else out) ?_
    (staysBelow_foldl _ fun c hc => staysBelow_modifyAt ?_ _)
  · refine StaysBelow.comp (staysBelow_ite fun h => staysBelow_fmaLanes A hbase r _ (by omega))
      (staysBelow_ite fun h => staysBelow_fmaLanes A hbase r _ ?_)
    by_cases h4 : 4 ≤ m.width
    · simp only [h4, if_true] at h ⊢
      omega
    · simp only [h4, if_false] at h ⊢
      omega
  · have hin := List.mem_range'_1.mp hc
    omega

/-- Every bin that the dense route touches is below `nbins`. -/
theorem staysBelow_paddedDense (avx2 : Bool) (block : Nat → P) (i0 n : Nat) :
    StaysBelow nbins (paddedDense A m avx2 block i0 n) := by
  unfold paddedDense paddedDenseBlock
  by_cases hn : n = 0
  · simp only [hn, if_true]
    exact fun _ _ _ => rfl
  · simp only [hn, if_false]
    split
    · exact staysBelow_foldl _ fun r _ => staysBelow_paddedRowAvx2 A hbase block i0 r
    · exact staysBelow_foldl _ fun r _ => staysBelow_paddedRowScalar A hbase block i0 r

/-- Every bin that the sparse route touches is below `nbins`. -/
theorem staysBelow_paddedSparse (l : PixelList P) : StaysBelow nbins (paddedSparse A m l) := by
  refine staysBelow_foldl _ fun kk _ => ?_
  by_cases hrow : paddedRow m (l.tidx kk) < 0
  · simp only [hrow, if_true]
    exact fun _ _ _ => rfl
  · simp only [hrow, if_false]
    refine staysBelow_foldl _ fun k hk => staysBelow_modifyAt ?_ _
    have hlt := List.mem_range.mp hk
    have hr := hbase (paddedRow m (l.tidx kk)).toNat
    omega

end

/-! ## What a row adds, in exact arithmetic -/

section

variable [CommSemiring D] {pixel pixelFloat : P → D} {weight : F → D}

/-- The weights of row `r` times `p`, from weight `c` on. -/
def rowPart (weight : F → D) (m : MatPadded F) (r : Nat) (p : D) (c n b : Nat) : D :=
  ((List.range' c n).map fun k => single (m.base r + k) (weight (m.weight r k) * p) b).sum

theorem adds_paddedRowScalar (block : Nat → P) (i0 : Nat) (m : MatPadded F) (r : Nat) :
    Adds (paddedRowScalar (.exact pixel pixelFloat weight) block i0 m r)
      (rowPart weight m r (pixel (block (paddedPixel m r - i0))) 0 m.width) := by
  refine (adds_foldl _ fun _ _ => adds_modifyAt _ _).congr fun b => ?_
  rw [rowPart, List.range_eq_range']
  rfl

/-- The lanes of a vector add what the loop over them adds: their bins differ. -/
theorem adds_fmaLanes (m : MatPadded F) (r : Nat) (p : D) (c n : Nat) :
    Adds (fmaLanes (.exact pixel pixelFloat weight) m r p c n) (rowPart weight m r p c n) := by
  intro out b
  unfold fmaLanes rowPart
  induction n with
  | zero => simp
  | succ n ih =>
    rw [List.range'_concat, List.map_append, List.sum_append, ← add_assoc (out b), ← ih,
      Nat.one_mul]
    simp only [List.map_cons, List.map_nil, List.sum_cons, List.sum_nil, add_zero, single]
    by_cases hlast : b = m.base r + (c + n)
    · subst hlast
      rw [if_pos (by omega), if_neg (by omega), if_pos rfl]
      simp only [Arith.exact]
      rw [show m.base r + (c + n) - m.base r = c + n by omega, mul_comm, add_comm]
    · by_cases hin : m.base r + c ≤ b ∧ b < m.base r + c + n
      · rw [if_pos (by omega), if_pos hin, if_neg hlast, add_zero]
      · rw [if_neg (by omega), if_neg hin, if_neg hlast, add_zero]

theorem rowPart_append (m : MatPadded F) (r : Nat) (p : D) (c n n' b : Nat) :
    rowPart weight m r p c n b + rowPart weight m r p (c + n) n' b =
      rowPart weight m r p c (n + n') b := by
  rw [rowPart, rowPart, rowPart, ← List.sum_append, ← List.map_append, List.range'_append_1]

/-- One optional vector behind what the row has added so far. -/
theorem adds_lanesIf {m : MatPadded F} {r : Nat} {p : D} {c : Nat} {f : (Nat → D) → Nat → D}
    (hf : Adds f (rowPart weight m r p 0 c)) (q : Prop) [Decidable q] (n : Nat) :
    Adds (fun out => if q then fmaLanes (.exact pixel pixelFloat weight) m r p c n (f out) else f out)
      (rowPart weight m r p 0 (if q then c + n else c)) := by
  by_cases h : q
  · simp only [h, if_true]
    refine (hf.comp (adds_fmaLanes m r p c n)).congr fun b => ?_
    have happend := @rowPart_append F D _ weight m r p 0 c n b
    rwa [Nat.zero_add] at happend
  · simp only [h, if_false]
    exact hf

theorem adds_paddedRowAvx2 (block : Nat → P) (i0 : Nat) (m : MatPadded F) (r : Nat) :
    Adds (paddedRowAvx2 (.exact pixel pixelFloat weight) block i0 m r)
      (rowPart weight m r (pixel (block (paddedPixel m r - i0))) 0 m.width) := by
  have hnone : Adds (fun out => out)
      (rowPart weight m r (pixel (block (paddedPixel m r - i0))) 0 0) := adds_id
  have h4 := @adds_lanesIf P F D _ pixel pixelFloat weight m r _ 0 _ hnone (4 ≤ m.width) _ 4
  have h2 := @adds_lanesIf P F D _ pixel pixelFloat weight m r _ _ _ h4
    (2 ≤ m.width - (if 4 ≤ m.width then 4 else 0)) _ 2
  set c2 := if 2 ≤ m.width - (if 4 ≤ m.width then 4 else 0) then
    (if 4 ≤ m.width then 4 else 0) + 2 else (if 4 ≤ m.width then 4 else 0) with hc2
  have hle : c2 ≤ m.width := by
    by_cases h : 4 ≤ m.width
    · simp only [h, if_true] at hc2
      by_cases h' : 2 ≤ m.width - 4
      · simp only [h', if_true] at hc2; omega
      · simp only [h', if_false] at hc2; omega
    · simp only [h, if_false] at hc2
      by_cases h' : 2 ≤ m.width - 0
      · simp only [h', if_true] at hc2; omega
      · simp only [h', if_false] at hc2; omega
  have htail : Adds (fun out => (List.range' c2 (m.width - c2)).foldl (fun out c =>
      modifyAt out (m.base r + c) fun o =>
        o + pixel (block (paddedPixel m r - i0)) * weight (m.weight r c)) out)
      (rowPart weight m r (pixel (block (paddedPixel m r - i0))) c2 (m.width - c2)) := by
    refine (adds_foldl _ fun _ _ => adds_modifyAt _ _).congr fun b => ?_
    simp only [rowPart, mul_comm]
  refine (h2.comp htail).congr fun b => ?_
  have happend := @rowPart_append F D _ weight m r (pixel (block (paddedPixel m r - i0))) 0 c2
    (m.width - c2) b
  rw [Nat.zero_add, Nat.add_sub_cancel' hle] at happend
  exact happend

/-- The rows of a block, one after another or in tiles. -/
theorem adds_paddedDenseBlock (block : Nat → P) (i0 : Nat) (m : MatPadded F) (avx2 : Bool) :
    Adds (paddedDenseBlock (.exact pixel pixelFloat weight) block i0 m avx2) fun b =>
      ((List.range' (m.rowPtr (i0 / m.blockElems))
        (m.rowPtr (i0 / m.blockElems + 1) - m.rowPtr (i0 / m.blockElems))).map fun r =>
          rowPart weight m r (pixel (block (paddedPixel m r - i0))) 0 m.width b).sum := by
  unfold paddedDenseBlock
  by_cases hv : avx2 ∧ 1 ≤ m.width ∧ m.width ≤ paddedMaxSimdWidth
  · simp only [hv, and_self, if_true]
    refine (adds_foldl _ fun r _ => adds_paddedRowAvx2 block i0 m r).congr fun b => ?_
    exact sum_map_perm (tiled_perm (by decide) (by decide) _ _) _
  · simp only [hv, if_false]
    exact adds_foldl _ fun r _ => adds_paddedRowScalar block i0 m r

/-- The rows of the listed pixels. -/
theorem adds_paddedSparse (m : MatPadded F) (l : PixelList P) :
    Adds (paddedSparse (.exact pixel pixelFloat weight) m l) fun b =>
      ((List.range l.nz).map fun kk => if paddedRow m (l.tidx kk) < 0 then 0 else
        rowPart weight m (paddedRow m (l.tidx kk)).toNat (pixel (l.tval kk)) 0 m.width b).sum := by
  refine adds_foldl _ fun kk _ => ?_
  by_cases hrow : paddedRow m (l.tidx kk) < 0
  · simp only [hrow, if_true]
    exact adds_id
  · simp only [hrow, if_false]
    refine (adds_foldl _ fun _ _ => adds_modifyAt _ _).congr fun b => ?_
    rw [rowPart, List.range_eq_range']
    rfl

end

end Bslz4ToSparse.Dot
