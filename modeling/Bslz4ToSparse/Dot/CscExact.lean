import Bslz4ToSparse.Dot.Csc
import Mathlib.Tactic.Abel

/-!
# What the csc dots add, in exact arithmetic

Each loop adds to every bin the sum of weight times pixel over the columns it visits. The
staged product adds the same sum, with the pixels of short columns taken as `float`.
-/

namespace Bslz4ToSparse.Dot

open Foundation Matrix

variable {P F D : Type}

/-- The arrays of the csc dot. -/
def cscLayout [Inhabited F] (m : NormalMatrix F) : MatCsc F :=
  ⟨fun k => m.data.getD k default, fun k => m.indices.getD k 0, m.ptr⟩

/-- The arrays of the csc-run dot. -/
def runLayout [Inhabited F] (m : NormalMatrix F) (starts : List Nat) : MatCsc F :=
  ⟨fun k => m.data.getD k default, fun p => starts.getD p 0, m.ptr⟩

section

variable [Semiring D] {pixel pixelFloat : P → D} {weight : F → D}

theorem adds_addEntries (m : MatCsc F) (k0 k1 : Nat) (v : D) :
    Adds (addEntries (.exact pixel pixelFloat weight) m k0 k1 v) fun b =>
      ((List.range' k0 (k1 - k0)).map fun k => single (m.indices k) (weight (m.data k) * v) b).sum :=
  adds_foldl _ fun _ _ => adds_modifyAt _ _

/-- The entries of a pixel, as its column. -/
theorem adds_addPixel [Inhabited F] (m : NormalMatrix F) {p : Nat} (hp : p < m.npix) (v : D) :
    Adds (addPixel (.exact pixel pixelFloat weight) (cscLayout m) p v)
      (columnSum weight (m.column p) v) := by
  refine (adds_addEntries (cscLayout m) _ _ v).congr fun b => ?_
  rw [columnSum, m.column_eq_map hp, List.map_map]
  rfl

theorem adds_denseDot [Inhabited F] (m : NormalMatrix F) (px : Nat → P) {i0 n : Nat}
    (hn : i0 + n ≤ m.npix) :
    Adds (denseDot (.exact pixel pixelFloat weight) (cscLayout m) px i0 n) fun b =>
      ((List.range n).map fun j => columnSum weight (m.column (j + i0)) (pixel (px j)) b).sum := by
  refine adds_foldl _ fun j hj => adds_addPixel m ?_ _
  have hj' : j < n := List.mem_range.mp hj
  omega

end

/-! ## The staged product -/

section

variable (A : Arith P F D) (m : MatCsc F)

/-- The value of a listed pixel in the staged product. -/
def stagedValue (pixel pixelFloat : P → D) (m : MatCsc F) (p : Nat) (v : P) : D :=
  if m.indptr (p + 1) - m.indptr p ≤ 8 then pixelFloat v else pixel v

/-- Once the staged entries are applied, a listed pixel has added its entries behind theirs. -/
theorem applyStaged_stagePixel (p : Nat) (v : P) (s : Staging D × (Nat → D)) :
    applyStaged A m (stagePixel A m p v s).1 (stagePixel A m p v s).2 =
      addPixel A m p (stagedValue A.pixel A.pixelFloat m p v) (applyStaged A m s.1 s.2) := by
  obtain ⟨st, out⟩ := s
  by_cases hshort : m.indptr (p + 1) - m.indptr p ≤ 8
  · -- the slots below `pos` are kept, the `len` behind it hold this pixel's entries
    simp only [stagePixel, stagedValue, hshort, if_true, applyStaged, addPixel, addEntries,
      List.range_add, List.foldl_append, List.range'_eq_map_range, List.foldl_map]
    have hkept : (List.range st.pos).foldl (fun out e =>
        modifyAt out (m.indices (if st.pos ≤ e ∧ e < st.pos + 8 then m.indptr p + (e - st.pos)
          else st.sk e)) fun o => A.add o (A.mul (A.weight (m.data (if st.pos ≤ e ∧ e < st.pos + 8
            then m.indptr p + (e - st.pos) else st.sk e)))
              (if st.pos ≤ e ∧ e < st.pos + 8 then A.pixelFloat v else st.sv e))) out =
        (List.range st.pos).foldl (fun out e => modifyAt out (m.indices (st.sk e)) fun o =>
          A.add o (A.mul (A.weight (m.data (st.sk e))) (st.sv e))) out := by
      apply List.foldl_ext
      intro out e he
      have hold : ¬ (st.pos ≤ e ∧ e < st.pos + 8) := by
        have hlt := List.mem_range.mp he
        omega
      simp only [hold, if_false]
    rw [hkept]
    apply List.foldl_ext
    intro out j hj
    have hnew : st.pos ≤ st.pos + j ∧ st.pos + j < st.pos + 8 := by
      have hlt := List.mem_range.mp hj
      omega
    simp only [hnew, and_self, if_true, Nat.add_sub_cancel_left]
  · -- the staged entries are applied, and then the column with its exact value
    simp only [stagePixel, stagedValue, hshort, if_false, addPixel, addEntries,
      Nat.add_sub_cancel_left]
    rfl

theorem stageChunk_eq (l : PixelList P) (base fin : Nat) (s : Staging D × (Nat → D)) :
    (stageChunk A m l base fin s).2 = (List.range' base (fin - base)).foldl (fun out kk =>
      addPixel A m (l.tidx kk) (stagedValue A.pixel A.pixelFloat m (l.tidx kk) (l.tval kk)) out)
        s.2 := by
  have hloop : ∀ (ks : List Nat) (s : Staging D × (Nat → D)),
      let t := ks.foldl (fun s kk => stagePixel A m (l.tidx kk) (l.tval kk) s) s
      applyStaged A m t.1 t.2 = ks.foldl (fun out kk => addPixel A m (l.tidx kk)
        (stagedValue A.pixel A.pixelFloat m (l.tidx kk) (l.tval kk)) out) (applyStaged A m s.1 s.2) := by
    intro ks
    induction ks with
    | nil => exact fun _ => rfl
    | cons kk ks ih =>
      intro s
      rw [List.foldl_cons, List.foldl_cons, ← applyStaged_stagePixel]
      exact ih _
  exact hloop _ ({ s.1 with pos := 0 }, s.2)

/-- The value of a listed pixel in the sparse product of a block. -/
def sparseValue (pixel pixelFloat : P → D) (m : MatCsc F) (i0 n p : Nat) (v : P) : D :=
  if stages m i0 n then stagedValue pixel pixelFloat m p v else pixel v

/-- Staged or not, the listed pixels add their entries one after another. -/
theorem sparseDotCore_eq (i0 n : Nat) (l : PixelList P) (out : Nat → D) :
    sparseDotCore A m i0 n l out = (List.range l.nz).foldl (fun out kk => addPixel A m (l.tidx kk)
      (sparseValue A.pixel A.pixelFloat m i0 n (l.tidx kk) (l.tval kk)) out) out := by
  unfold sparseDotCore sparseValue
  by_cases hst : stages m i0 n = true
  · simp only [hst, if_true]
    have hloop : ∀ (bases : List Nat) (s : Staging D × (Nat → D)),
        (bases.foldl (fun s base => stageChunk A m l base (min (base + dotStage) l.nz) s) s).2 =
        (bases.flatMap fun base => List.range' base (min (base + dotStage) l.nz - base)).foldl
          (fun out kk => addPixel A m (l.tidx kk)
            (stagedValue A.pixel A.pixelFloat m (l.tidx kk) (l.tval kk)) out) s.2 := by
      intro bases
      induction bases with
      | nil => exact fun _ => rfl
      | cons base bases ih =>
        intro s
        rw [List.foldl_cons, ih, List.flatMap_cons, List.foldl_append, stageChunk_eq]
    rw [hloop, flatMap_tiles (by decide), List.range_eq_range', Nat.sub_zero]
  · simp only [hst]
    rfl

end

section

variable [Semiring D] {pixel pixelFloat : P → D} {weight : F → D}

theorem adds_sparseDotCore [Inhabited F] (m : NormalMatrix F) (i0 n : Nat) (l : PixelList P)
    (hl : ∀ kk, kk < l.nz → l.tidx kk < m.npix) :
    Adds (sparseDotCore (.exact pixel pixelFloat weight) (cscLayout m) i0 n l) fun b =>
      ((List.range l.nz).map fun kk => columnSum weight (m.column (l.tidx kk))
        (sparseValue pixel pixelFloat (cscLayout m) i0 n (l.tidx kk) (l.tval kk)) b).sum := by
  intro out b
  rw [sparseDotCore_eq]
  exact adds_foldl _ (fun kk hkk => adds_addPixel m (hl kk (List.mem_range.mp hkk)) _) out b

/-! ## csc-run -/

theorem adds_addRun [Inhabited F] (m : NormalMatrix F) {starts : List Nat}
    (hs : m.runStarts = .ok starts) {p : Nat} (hp : p < m.npix) (v : D) :
    Adds (addRun (.exact pixel pixelFloat weight) (runLayout m starts) p v)
      (columnSum weight (m.column p) v) := by
  refine (adds_foldl (c := fun k => single (starts.getD p 0 + k)
    (weight (m.data.getD (m.ptr p + k) default) * v)) _ fun k _ => adds_modifyAt _ _).congr fun b => ?_
  rw [columnSum, m.column_eq_map hp, List.range'_eq_map_range, List.map_map, List.map_map]
  refine congrArg List.sum (List.map_congr_left fun k hk => ?_)
  rw [← m.runStarts_spec hs hp (List.mem_range.mp hk)]
  rfl

theorem adds_runDense [Inhabited F] (m : NormalMatrix F) {starts : List Nat}
    (hs : m.runStarts = .ok starts) (px : Nat → P) {i0 n : Nat} (hn : i0 + n ≤ m.npix) :
    Adds (runDense (.exact pixel pixelFloat weight) (runLayout m starts) px i0 n) fun b =>
      ((List.range n).map fun j => columnSum weight (m.column (j + i0)) (pixel (px j)) b).sum := by
  refine adds_foldl _ fun j hj => adds_addRun m hs ?_ _
  have hj' : j < n := List.mem_range.mp hj
  omega

theorem adds_runSparse [Inhabited F] (m : NormalMatrix F) {starts : List Nat}
    (hs : m.runStarts = .ok starts) (l : PixelList P) (hl : ∀ kk, kk < l.nz → l.tidx kk < m.npix) :
    Adds (runSparse (.exact pixel pixelFloat weight) (runLayout m starts) l) fun b =>
      ((List.range l.nz).map fun kk =>
        columnSum weight (m.column (l.tidx kk)) (pixel (l.tval kk)) b).sum :=
  adds_foldl _ fun kk hkk => adds_addRun m hs (hl kk (List.mem_range.mp hkk)) _

/-! ## csc-nosplit -/

section Histogram

variable [DecidableEq F] [One F] [Inhabited F] (h1 : weight 1 = 1)

include h1

theorem adds_addBin (m : NormalMatrix F) {bins : List Nat} (hb : m.nosplitBins = .ok bins) {p : Nat}
    (hp : p < m.npix) (v : D) :
    Adds (addBin (.exact pixel pixelFloat weight) (bins.getD p 0) v)
      (columnSum weight (m.column p) v) := by
  intro out b
  rw [m.nosplitBins_spec hb hp, addBin]
  by_cases hno : bins.getD p 0 = noBin
  · simp only [hno, ne_eq, not_true, if_false, if_true, columnSum, List.map_nil, List.sum_nil,
      add_zero]
  · rw [if_pos hno, if_neg hno, columnSum, List.map_singleton, List.sum_singleton, h1, one_mul]
    exact adds_modifyAt _ _ out b

theorem adds_nosplitDense (m : NormalMatrix F) {bins : List Nat} (hb : m.nosplitBins = .ok bins)
    (px : Nat → P) {i0 n : Nat} (hn : i0 + n ≤ m.npix) :
    Adds (nosplitDense (.exact pixel pixelFloat weight) (fun p => bins.getD p 0) px i0 n) fun b =>
      ((List.range n).map fun j => columnSum weight (m.column (j + i0)) (pixel (px j)) b).sum := by
  refine adds_foldl _ fun j hj => ?_
  have hj' : j < n := List.mem_range.mp hj
  rw [Nat.add_comm j i0]
  exact adds_addBin h1 m hb (by omega) _

theorem adds_nosplitSparse (m : NormalMatrix F) {bins : List Nat} (hb : m.nosplitBins = .ok bins)
    (l : PixelList P) (hl : ∀ kk, kk < l.nz → l.tidx kk < m.npix) :
    Adds (nosplitSparse (.exact pixel pixelFloat weight) (fun p => bins.getD p 0) l) fun b =>
      ((List.range l.nz).map fun kk =>
        columnSum weight (m.column (l.tidx kk)) (pixel (l.tval kk)) b).sum :=
  adds_foldl _ fun kk hkk => adds_addBin h1 m hb (hl kk (List.mem_range.mp hkk)) _

end Histogram

end

end Bslz4ToSparse.Dot
