import Bslz4ToSparse.Dot.Arith
import Bslz4ToSparse.Foundation.Tiles
import Bslz4ToSparse.Matrix.Runs

/-!
# The csc dots (src/steps/dot_csc.hpp)

What csc, csc-run and csc-nosplit add to the powder for one block: over every pixel of
the block (dense route), or over the list of its non-zero pixels (sparse route).
-/

namespace Bslz4ToSparse.Dot

open Foundation Matrix

variable {P F D : Type}

/-- `bslz4_mat_csc`; what the arrays mean depends on the dot. -/
structure MatCsc (F : Type) where
  data : Nat → F
  indices : Nat → Nat
  indptr : Nat → Nat

/-- The compacted pixels `tidx[0, nz)` and `tval[0, nz)`. -/
structure PixelList (P : Type) where
  tidx : Nat → Nat
  tval : Nat → P
  nz : Nat

/-! ## csc -/

/-- `for (k = k0; k < k1; k++) out[indices[k]] += data[k] * v`. -/
def addEntries (A : Arith P F D) (m : MatCsc F) (k0 k1 : Nat) (v : D) (out : Nat → D) : Nat → D :=
  (List.range' k0 (k1 - k0)).foldl (fun out k =>
    modifyAt out (m.indices k) fun o => A.add o (A.mul (A.weight (m.data k)) v)) out

/-- The entries of pixel `p`. -/
def addPixel (A : Arith P F D) (m : MatCsc F) (p : Nat) (v : D) (out : Nat → D) : Nat → D :=
  addEntries A m (m.indptr p) (m.indptr (p + 1)) v out

/-- The loop of `dense_dot`. -/
def denseDot (A : Arith P F D) (m : MatCsc F) (px : Nat → P) (i0 n : Nat) (out : Nat → D) :
    Nat → D :=
  (List.range n).foldl (fun out j => addPixel A m (j + i0) (A.pixel (px j)) out) out

/-- Whether `sparse_dot_core` stages the block: from 1.5 to 4 entries per pixel. -/
def stages (m : MatCsc F) (i0 n : Nat) : Bool :=
  let eblk := m.indptr (i0 + n) - m.indptr i0
  decide (3 * n < 2 * eblk) && decide (eblk < 4 * n)

/-- `BSLZ4_DOT_STAGE`. -/
def dotStage : Nat := 128

/-- The staged entries `sk[0, pos)` with their values `sv[0, pos)`. -/
structure Staging (D : Type) where
  pos : Nat
  sk : Nat → Nat
  sv : Nat → D

/-- `out[indices[sk[e]]] += data[sk[e]] * sv[e]` for the staged entries. -/
def applyStaged (A : Arith P F D) (m : MatCsc F) (st : Staging D) (out : Nat → D) : Nat → D :=
  (List.range st.pos).foldl (fun out e =>
    modifyAt out (m.indices (st.sk e)) fun o =>
      A.add o (A.mul (A.weight (m.data (st.sk e))) (st.sv e))) out

/-- One listed pixel of a staging chunk: eight slots are written and `len` of them kept, or
the staged entries and this pixel's are applied. -/
def stagePixel (A : Arith P F D) (m : MatCsc F) (addr : Nat) (val : P)
    (s : Staging D × (Nat → D)) : Staging D × (Nat → D) :=
  let k0 := m.indptr addr
  let len := m.indptr (addr + 1) - k0
  let v := A.pixelFloat val
  let st := s.1
  if len ≤ 8 then
    ({ pos := st.pos + len
       sk := fun e => if st.pos ≤ e ∧ e < st.pos + 8 then k0 + (e - st.pos) else st.sk e
       sv := fun e => if st.pos ≤ e ∧ e < st.pos + 8 then v else st.sv e }, s.2)
  else
    ({ st with pos := 0 }, addEntries A m k0 (k0 + len) (A.pixel val) (applyStaged A m st s.2))

/-- One staging chunk: the listed pixels `[base, fin)`. -/
def stageChunk (A : Arith P F D) (m : MatCsc F) (l : PixelList P) (base fin : Nat)
    (s : Staging D × (Nat → D)) : Staging D × (Nat → D) :=
  let s := (List.range' base (fin - base)).foldl
    (fun s kk => stagePixel A m (l.tidx kk) (l.tval kk) s) ({ s.1 with pos := 0 }, s.2)
  (s.1, applyStaged A m s.1 s.2)

/-- The accumulation of `sparse_dot_core`. -/
def sparseDotCore (A : Arith P F D) (m : MatCsc F) (i0 n : Nat) (l : PixelList P)
    (out : Nat → D) : Nat → D :=
  if stages m i0 n then
    ((strided 0 l.nz dotStage).foldl (fun s base =>
      stageChunk A m l base (min (base + dotStage) l.nz) s) (⟨0, fun _ => 0, fun _ => A.zero⟩, out)).2
  else
    (List.range l.nz).foldl (fun out kk => addPixel A m (l.tidx kk) (A.pixel (l.tval kk)) out) out

/-! ## csc-run -/

/-- `for (k = 0; k < k1 - k0; k++) o[k] += d[k] * v`, with `o = out + start` and `d = data + k0`. -/
def addRun (A : Arith P F D) (m : MatCsc F) (p : Nat) (v : D) (out : Nat → D) : Nat → D :=
  let k0 := m.indptr p
  let k1 := m.indptr (p + 1)
  (List.range (k1 - k0)).foldl (fun out k =>
    modifyAt out (m.indices p + k) fun o => A.add o (A.mul (A.weight (m.data (k0 + k))) v)) out

/-- The loop of `run_dense`. -/
def runDense (A : Arith P F D) (m : MatCsc F) (px : Nat → P) (i0 n : Nat) (out : Nat → D) :
    Nat → D :=
  (List.range n).foldl (fun out j => addRun A m (j + i0) (A.pixel (px j)) out) out

/-- The accumulation of `run_sparse`. -/
def runSparse (A : Arith P F D) (m : MatCsc F) (l : PixelList P) (out : Nat → D) : Nat → D :=
  (List.range l.nz).foldl (fun out kk => addRun A m (l.tidx kk) (A.pixel (l.tval kk)) out) out

/-! ## csc-nosplit -/

/-- `if (b != BSLZ4_NO_BIN) out[b] += v`. -/
def addBin (A : Arith P F D) (b : Nat) (v : D) (out : Nat → D) : Nat → D :=
  if b ≠ noBin then modifyAt out b fun o => A.add o v else out

/-- The loop of `nosplit_dense`. -/
def nosplitDense (A : Arith P F D) (bin : Nat → Nat) (px : Nat → P) (i0 n : Nat) (out : Nat → D) :
    Nat → D :=
  (List.range n).foldl (fun out j => addBin A (bin (i0 + j)) (A.pixel (px j)) out) out

/-- The accumulation of `nosplit_sparse_core`. -/
def nosplitSparse (A : Arith P F D) (bin : Nat → Nat) (l : PixelList P) (out : Nat → D) : Nat → D :=
  (List.range l.nz).foldl (fun out kk => addBin A (bin (l.tidx kk)) (A.pixel (l.tval kk)) out) out

end Bslz4ToSparse.Dot
