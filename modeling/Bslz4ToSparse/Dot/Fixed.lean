import Bslz4ToSparse.Dot.CscRoutes
import Bslz4ToSparse.Matrix.Fixed

/-!
# The fixed-point dots (src/steps/dot_fixed.hpp)

A body says what one pixel value adds; the dense loop calls it for every pixel of a block,
the sparse loop for the listed ones. The integer bodies add modulo 2^64.
-/

namespace Bslz4ToSparse.Dot

open Foundation Matrix

variable {P F D : Type} {t : Dtype} {w : Nat}

/-- The arithmetic of `uint64_t`; a pixel is sign-extended (`(uint64_t) (int64_t) v`). -/
def modular (t : Dtype) (weight : F → BitVec 64) : Arith (Pixel t) F (BitVec 64) :=
  .exact (fun v => BitVec.ofInt 64 v.value) (fun v => BitVec.ofInt 64 v.value) weight

/-- What a pixel of value `v` adds. -/
abbrev Body (P D : Type) : Type := Nat → P → (Nat → D) → Nat → D

/-- `CscInt`. -/
def cscInt (m : MatCsc (BitVec w)) : Body (Pixel t) (BitVec 64) := fun p v =>
  addPixel (modular t (BitVec.setWidth 64)) m p (BitVec.ofInt 64 v.value)

/-- `RunInt`. -/
def runInt (m : MatCsc (BitVec w)) : Body (Pixel t) (BitVec 64) := fun p v =>
  addRun (modular t (BitVec.setWidth 64)) m p (BitVec.ofInt 64 v.value)

/-- `Permute`: the value is stored. -/
def permute (bin : Nat → Nat) : Body P P := fun p v out =>
  if bin p ≠ noBin then modifyAt out (bin p) fun _ => v else out

/-- `NosplitInt`. -/
def nosplitInt (bin : Nat → Nat) : Body (Pixel t) (BitVec 64) := fun p v =>
  addBin (modular t (id : BitVec 64 → BitVec 64)) (bin p) (BitVec.ofInt 64 v.value)

/-- The loop of `dense`. -/
def bodyDense (body : Body P D) (px : Nat → P) (i0 n : Nat) (out : Nat → D) : Nat → D :=
  (List.range n).foldl (fun out j => body (j + i0) (px j) out) out

/-- The accumulation of `sparse`. -/
def bodySparse (body : Body P D) (l : PixelList P) (out : Nat → D) : Nat → D :=
  (List.range l.nz).foldl (fun out kk => body (l.tidx kk) (l.tval kk) out) out

def nosplitStride : Nat := 16
def nosplitTile : Nat := 128

/-- The loops of `nosplit_int_dense`. -/
def nosplitIntDense (bin : Nat → Nat) (px : Nat → Pixel t) (i0 n : Nat) (out : Nat → BitVec 64) :
    Nat → BitVec 64 :=
  (tiled nosplitTile nosplitStride 0 n).foldl (fun out j => nosplitInt bin (j + i0) (px j) out) out

/-- A dot that reads its matrix through a body. -/
def bodyKernel (body : Body P D) : DotKernel P D := ⟨bodyDense body, fun _ _ => bodySparse body⟩

/-- csc-nosplit-int. -/
def nosplitIntKernel (bin : Nat → Nat) : DotKernel (Pixel t) (BitVec 64) :=
  ⟨nosplitIntDense bin, fun _ _ => bodySparse (nosplitInt bin)⟩

/-! ## What the loops add -/

section

variable [Semiring D] {m : NormalMatrix F} {weight : F → D} {pixel : P → D}

/-- A body that adds the column of its pixel. -/
def BodyAdds (body : Body P D) (m : NormalMatrix F) (weight : F → D) (pixel : P → D) : Prop :=
  ∀ p v, p < m.npix → Adds (body p v) (columnSum weight (m.column p) (pixel v))

theorem bodyKernel_adds {body : Body P D} (h : BodyAdds body m weight pixel) :
    AddsColumns (bodyKernel body) m weight pixel (fun _ _ _ => pixel) fun _ _ => True where
  dense := fun px i0 n _ hn => adds_foldl _ fun j hj => by
    have hlt := List.mem_range.mp hj
    exact h (j + i0) (px j) (by omega)
  sparse := fun _ _ l hl => adds_foldl _ fun kk hkk => h _ _ (hl kk (List.mem_range.mp hkk))

end

theorem cscInt_adds (m : NormalMatrix (BitVec w)) :
    BodyAdds (cscInt (t := t) (cscLayout m)) m (BitVec.setWidth 64)
      fun v => BitVec.ofInt 64 v.value :=
  fun _ _ hp => adds_addPixel m hp _

theorem runInt_adds (m : NormalMatrix (BitVec w)) {starts : List Nat}
    (hs : m.runStarts = .ok starts) :
    BodyAdds (runInt (t := t) (runLayout m starts)) m (BitVec.setWidth 64)
      fun v => BitVec.ofInt 64 v.value :=
  fun _ _ hp => adds_addRun m hs hp _

section Histogram

variable [DecidableEq F] [One F] [Inhabited F] {m : NormalMatrix F} {bins : List Nat}

theorem nosplitInt_adds (hb : m.nosplitBins = .ok bins) :
    BodyAdds (nosplitInt (t := t) fun p => bins.getD p 0) m (fun _ => 1)
      fun v => BitVec.ofInt 64 v.value :=
  fun _ v hp => @adds_addBin (Pixel t) F (BitVec 64) _ (fun v => BitVec.ofInt 64 v.value)
    (fun v => BitVec.ofInt 64 v.value) (fun _ => 1) _ _ _ rfl m bins hb _ hp (BitVec.ofInt 64 v.value)

/-- The tiles of a block visit each of its pixels once. -/
theorem nosplitTiles_perm (n : Nat) :
    (tiled nosplitTile nosplitStride 0 n).Perm (List.range n) := by
  have h := @tiled_perm nosplitTile nosplitStride (by decide) (by decide) 0 n
  rwa [Nat.sub_zero, ← List.range_eq_range'] at h

theorem nosplitIntKernel_adds (hb : m.nosplitBins = .ok bins) :
    AddsColumns (nosplitIntKernel (t := t) fun p => bins.getD p 0) m (fun _ => 1)
      (fun v => BitVec.ofInt 64 v.value) (fun _ _ _ v => BitVec.ofInt 64 v.value)
      fun _ _ => True where
  dense := fun px i0 n _ hn => by
    refine (adds_foldl _ fun j hj => ?_).congr fun b => sum_map_perm (nosplitTiles_perm n) _
    have hlt := List.mem_range.mp ((nosplitTiles_perm n).mem_iff.mp hj)
    exact nosplitInt_adds hb (j + i0) (px j) (by omega)
  sparse := (bodyKernel_adds (nosplitInt_adds hb)).sparse

end Histogram

end Bslz4ToSparse.Dot
