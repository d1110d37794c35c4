import Bslz4ToSparse.Dot.CscExact
import Bslz4ToSparse.Dot.Frame
import Bslz4ToSparse.Pixel
import Mathlib.Algebra.Order.Field.Rat
import Mathlib.Tactic.Linarith
import Mathlib.Tactic.Ring

/-!
# The routes of the csc dots agree

csc-run and csc-nosplit give the same powder on every route. The sparse route of csc rounds
the pixels of a staged block to `float`: its powder is off by exactly those roundings.
-/

namespace Bslz4ToSparse.Dot

open Foundation Matrix

/-- The rationals, with the roundings of the explicit conversions of a pixel to `double` and to
`float`. -/
def rationals (t : Dtype) : Arith (Pixel t) ℚ ℚ :=
  .exact (fun v => (roundTo 53 v.value : ℚ)) (fun v => (roundTo 24 v.value : ℚ)) id

section

variable {P F D : Type}

/-- csc. -/
def cscKernel (A : Arith P F D) (m : MatCsc F) : DotKernel P D := ⟨denseDot A m, sparseDotCore A m⟩

/-- csc-run. -/
def runKernel (A : Arith P F D) (m : MatCsc F) : DotKernel P D :=
  ⟨runDense A m, fun _ _ => runSparse A m⟩

/-- csc-nosplit. -/
def nosplitKernel (A : Arith P F D) (bin : Nat → Nat) : DotKernel P D :=
  ⟨nosplitDense A bin, fun _ _ => nosplitSparse A bin⟩

variable [Semiring D] [Inhabited F] {pixel pixelFloat : P → D} {weight : F → D}

theorem cscKernel_adds (m : NormalMatrix F) :
    AddsColumns (cscKernel (.exact pixel pixelFloat weight) (cscLayout m)) m weight pixel
      (fun i0 n => sparseValue pixel pixelFloat (cscLayout m) i0 n) fun _ _ => True where
  dense := fun px _ _ _ hn => adds_denseDot m px hn
  sparse := fun i0 n l hl => adds_sparseDotCore m i0 n l hl

theorem runKernel_adds (m : NormalMatrix F) {starts : List Nat} (hs : m.runStarts = .ok starts) :
    AddsColumns (runKernel (.exact pixel pixelFloat weight) (runLayout m starts)) m weight pixel
      (fun _ _ _ => pixel) fun _ _ => True where
  dense := fun px _ _ _ hn => adds_runDense m hs px hn
  sparse := fun _ _ l hl => adds_runSparse m hs l hl

theorem nosplitKernel_adds [DecidableEq F] [One F] (h1 : weight 1 = 1) (m : NormalMatrix F)
    {bins : List Nat} (hb : m.nosplitBins = .ok bins) :
    AddsColumns (nosplitKernel (.exact pixel pixelFloat weight) fun p => bins.getD p 0) m weight
      pixel (fun _ _ _ => pixel) fun _ _ => True where
  dense := fun px _ _ _ hn => adds_nosplitDense h1 m hb px hn
  sparse := fun _ _ l hl => adds_nosplitSparse h1 m hb l hl

end

/-! ## The rounding of the staged product -/

variable {t : Dtype}

theorem roundTo_double (hsize : t.size ≤ 4) (v : Pixel t) : roundTo 53 v.value = v.value := by
  refine roundTo_eq (v.value_natAbs_lt.trans_le (Nat.pow_le_pow_right (by omega) ?_))
  simp only [Dtype.bits]
  omega

/-- What the `float` pixels of the staged blocks put into bin `b` beyond their values: a sum over
the pixels with at most 8 entries. -/
def stagedError (m : NormalMatrix ℚ) (frame : Nat → Pixel t) (blocks : List Block) (b : Nat) : ℚ :=
  (blocks.map fun blk =>
    if blk.sparse && stages (cscLayout m) blk.i0 blk.n then
      ((List.range' blk.i0 blk.n).map fun p =>
        if m.count p ≤ 8 then
          columnSum id (m.column p) ((roundTo 24 (frame p).value - (frame p).value : Int) : ℚ) b
        else 0).sum
    else 0).sum

theorem columnSum_add {F D : Type} [Semiring D] (weight : F → D) (col : List (Nat × F)) (x y : D)
    (b : Nat) : columnSum weight col (x + y) b = columnSum weight col x b + columnSum weight col y b := by
  induction col with
  | nil => simp [columnSum]
  | cons e col ih =>
    simp only [columnSum, List.map_cons, List.sum_cons] at ih ⊢
    rw [ih, mul_add]
    by_cases h : b = e.1
    · simp only [single, h, if_true]
      abel
    · simp only [single, h, if_false]
      abel

/-- A listed pixel enters the powder of a staged block with its rounding. -/
theorem enters_csc (ht : t.isFloat = false) (hsize : t.size ≤ 4) (nm : NormalMatrix ℚ)
    {keep : List Bool} (h : keep.length = nm.npix) {frame seen : Nat → Pixel t} {tests : Nat → Bool}
    (hs : Shows keep frame seen tests) (blk : Block) {p : Nat} (hp : p < nm.npix) (b : Nat) :
    columnSum id ((nm.fold keep h).column p) (enters Pixel.nonzero tests (rationals t).pixel
        (sparseValue (rationals t).pixel (rationals t).pixelFloat (cscLayout (nm.fold keep h)))
        blk p (seen p)) b =
      columnSum id ((nm.fold keep h).column p) (enters Pixel.nonzero tests (rationals t).pixel
        (fun _ _ _ => (rationals t).pixel) blk p (seen p)) b +
      if blk.sparse && stages (cscLayout (nm.fold keep h)) blk.i0 blk.n then
        if (nm.fold keep h).count p ≤ 8 then
          columnSum id ((nm.fold keep h).column p)
            ((roundTo 24 (frame p).value - (frame p).value : Int) : ℚ) b
        else 0
      else 0 := by
  by_cases hkeep : keep.getD p false = true
  · rw [hs.seen p hkeep]
    unfold enters
    rw [hs.tests p hkeep, Bool.true_and]
    by_cases hsp : blk.sparse = true
    · rw [hsp, Bool.true_and]
      simp only [if_true]
      by_cases hnz : (frame p).nonzero = true
      · simp only [hnz, if_true, sparseValue]
        by_cases hst : stages (cscLayout (nm.fold keep h)) blk.i0 blk.n = true
        · simp only [hst, if_true, stagedValue]
          by_cases hlen : (nm.fold keep h).count p ≤ 8
          · have hsplit : (rationals t).pixelFloat (frame p) = (rationals t).pixel (frame p) +
                ((roundTo 24 (frame p).value - (frame p).value : Int) : ℚ) := by
              simp only [rationals, Arith.exact, roundTo_double hsize]
              push_cast
              ring
            have hcount : (cscLayout (nm.fold keep h)).indptr (p + 1) -
                (cscLayout (nm.fold keep h)).indptr p ≤ 8 := hlen
            rw [if_pos hlen, if_pos hcount, hsplit, columnSum_add]
          · have hcount : ¬ (cscLayout (nm.fold keep h)).indptr (p + 1) -
                (cscLayout (nm.fold keep h)).indptr p ≤ 8 := hlen
            rw [if_neg hlen, if_neg hcount, add_zero]
        · simp only [hst]
          exact (add_zero _).symm
      · have hzero : (frame p).value = 0 := Pixel.value_eq_zero ht (by simpa using hnz)
        have hround : roundTo 24 0 - 0 = 0 := by decide
        simp only [hnz, hzero, hround, Int.cast_zero, columnSum_zero]
        simp
    · rw [if_neg hsp, if_neg hsp, if_neg (by simp [hsp]), add_zero]
  · rw [nm.column_fold h hp, if_neg hkeep]
    simp [columnSum]

/-- The powder of csc is the matrix times the masked frame, off by the staged roundings. -/
theorem csc_frameDot (ht : t.isFloat = false) (hsize : t.size ≤ 4) (nm : NormalMatrix ℚ)
    {keep : List Bool} (h : keep.length = nm.npix) {frame seen : Nat → Pixel t} {tests : Nat → Bool}
    (hs : Shows keep frame seen tests) {blocks : List Block} (hcov : Covers blocks 0 nm.npix)
    (b : Nat) :
    frameDot (cscKernel (rationals t) (cscLayout (nm.fold keep h))) 0 Pixel.nonzero tests seen
        blocks b =
      nm.product id (fun p => if keep.getD p false then ((frame p).value : ℚ) else 0) b +
        stagedError (nm.fold keep h) frame blocks b := by
  have hK : AddsColumns (cscKernel (rationals t) (cscLayout (nm.fold keep h))) (nm.fold keep h) id
      (rationals t).pixel (fun i0 n => sparseValue (rationals t).pixel (rationals t).pixelFloat
        (cscLayout (nm.fold keep h)) i0 n) (fun _ _ => True) := cscKernel_adds (nm.fold keep h)
  have hzero : ∀ v : Pixel t, v.nonzero = false → (rationals t).pixel v = 0 := by
    intro v hv
    have hv' := Pixel.value_eq_zero ht hv
    simp [rationals, Arith.exact, hv', roundTo]
  have hblock : ∀ blk ∈ blocks,
      ((List.range' blk.i0 blk.n).map fun p => columnSum id ((nm.fold keep h).column p)
        (enters Pixel.nonzero tests (rationals t).pixel (sparseValue (rationals t).pixel
          (rationals t).pixelFloat (cscLayout (nm.fold keep h))) blk p (seen p)) b).sum =
      ((List.range' blk.i0 blk.n).map fun p => columnSum id ((nm.fold keep h).column p)
        (enters Pixel.nonzero tests (rationals t).pixel (fun _ _ _ => (rationals t).pixel)
          blk p (seen p)) b).sum +
      if blk.sparse && stages (cscLayout (nm.fold keep h)) blk.i0 blk.n then
        ((List.range' blk.i0 blk.n).map fun p => if (nm.fold keep h).count p ≤ 8 then
          columnSum id ((nm.fold keep h).column p)
            ((roundTo 24 (frame p).value - (frame p).value : Int) : ℚ) b else 0).sum
      else 0 := by
    intro blk hblk
    rw [List.map_congr_left fun p hp => enters_csc ht hsize nm h hs blk (hcov.lt_of_mem hblk hp) b,
      List.sum_map_add]
    congr 1
    by_cases hst : (blk.sparse && stages (cscLayout (nm.fold keep h)) blk.i0 blk.n) = true
    · simp only [hst, if_true]
    · simp [hst]
  have hexact := @sum_enters (Pixel t) ℚ ℚ _ (nm.fold keep h) id _ Pixel.nonzero hzero tests
    (fun p hp hp' => hs.column_nil nm h hp hp') seen blocks hcov b
  have hvalue : (fun v => (rationals t).pixel v) = fun v : Pixel t => (v.value : ℚ) := by
    funext v
    simp only [rationals, Arith.exact, roundTo_double hsize]
  calc frameDot (cscKernel (rationals t) (cscLayout (nm.fold keep h))) 0 Pixel.nonzero tests seen
        blocks b
      = _ := frameDot_eq hK Pixel.nonzero tests seen hcov (fun _ _ => trivial) b
    _ = (nm.fold keep h).product id (fun p => (rationals t).pixel (seen p)) b +
          stagedError (nm.fold keep h) frame blocks b := by
      rw [List.map_congr_left hblock, List.sum_map_add, hexact]
      rfl
    _ = _ := by
      rw [product_shows nm h hs]
      simp only [hvalue]

/-- The mask as the pixels it keeps. -/
def keeps (mask : List (BitVec 8)) : List Bool := mask.map fun b => decide (0 < b.toNat)

/-- The original matrix times the frame with the masked pixels set to zero, in bin `b`. -/
def maskedProduct (nm : NormalMatrix ℚ) (mask : List (BitVec 8)) (frame : Nat → Pixel t) (b : Nat) :
    ℚ :=
  nm.product id (fun p => if (keeps mask).getD p false then ((frame p).value : ℚ) else 0) b

/-- The powder of each csc dot, by any blocks and any route of each block, is the product of the
matrix with the masked frame. -/
def RoutesAgree (nm m : NormalMatrix ℚ) (mask : List (BitVec 8)) (frame seen : Nat → Pixel t)
    (tests : Nat → Bool) (blocks : List Block) : Prop :=
  (∀ b, frameDot (cscKernel (rationals t) (cscLayout m)) 0 Pixel.nonzero tests seen blocks b =
    maskedProduct nm mask frame b) ∧
  (∀ starts, m.runStarts = .ok starts → ∀ b,
    frameDot (runKernel (rationals t) (runLayout m starts)) 0 Pixel.nonzero tests seen blocks b =
      maskedProduct nm mask frame b) ∧
  (∀ bins, m.nosplitBins = .ok bins → ∀ b,
    frameDot (nosplitKernel (rationals t) fun p => bins.getD p 0) 0 Pixel.nonzero tests seen
        blocks b =
      maskedProduct nm mask frame b)

theorem foldMask_eq {F : Type} {nm m : NormalMatrix F} {mask : List (BitVec 8)}
    (hm : foldMask nm mask = .ok m) :
    ∃ h : (keeps mask).length = nm.npix, m = nm.fold (keeps mask) h := by
  unfold foldMask at hm
  split at hm
  · next h => exact ⟨by rw [keeps, List.length_map, h], (Except.ok.inj hm).symm⟩
  · exact absurd hm (by simp)

/-- The csc dots agree on a frame exactly when the roundings of its staged pixels cancel in
every bin. -/
theorem routesAgree_iff (t : Dtype) (ht : t.isFloat = false) (hsize : t.size ≤ 4)
    (nm m : NormalMatrix ℚ) (mask : List (BitVec 8)) (hm : foldMask nm mask = .ok m)
    (frame seen : Nat → Pixel t) (tests : Nat → Bool) (hs : Shows (keeps mask) frame seen tests)
    (blocks : List Block) (hcov : Covers blocks 0 m.npix) :
    RoutesAgree nm m mask frame seen tests blocks ↔ ∀ b, stagedError m frame blocks b = 0 := by
  obtain ⟨h, rfl⟩ := foldMask_eq hm
  have hcsc := csc_frameDot ht hsize nm h hs hcov
  have hzero : ∀ v : Pixel t, v.nonzero = false → (rationals t).pixel v = 0 := by
    intro v hv
    have hv' := Pixel.value_eq_zero ht hv
    simp [rationals, Arith.exact, hv', roundTo]
  have hexact : ∀ (K : DotKernel (Pixel t) ℚ),
      AddsColumns K (nm.fold (keeps mask) h) id (rationals t).pixel (fun _ _ _ => (rationals t).pixel)
        (fun _ _ => True) →
      ∀ b, frameDot K 0 Pixel.nonzero tests seen blocks b = maskedProduct nm mask frame b := by
    intro K hK b
    rw [frameDot_folded nm h hK hzero hs hcov (fun _ _ => trivial)]
    simp only [rationals, Arith.exact, roundTo_double hsize]
    rfl
  constructor
  · intro hagree b
    have hb := hagree.1 b
    rw [hcsc b] at hb
    exact left_eq_add.mp hb.symm
  · intro herr
    refine ⟨?_, ?_, ?_⟩
    · intro b
      rw [hcsc b, herr b, add_zero]
      rfl
    · exact fun starts hstarts => hexact _ (runKernel_adds _ hstarts)
    · exact fun bins hbins => hexact _ (nosplitKernel_adds rfl _ hbins)

/-- One pixel that is split evenly between two bins. -/
def halves : NormalMatrix ℚ where
  data := [1 / 2, 1 / 2]
  indices := [0, 1]
  indptr := [0, 2]
  nbins := 2
  npix := 1
  length_data := rfl
  length_indptr := rfl
  indptr_zero := rfl
  indptr_mono := by decide
  indptr_last := rfl
  indices_lt := by decide
  nbins_lt := twoBins_lt
  entries_lt := by decide

/-- A frame whose one pixel is not a `float`. -/
def oddFrame : Nat → Pixel .u32 := fun _ => 16777217#32

theorem routesAgree_iff_odd :
    RoutesAgree halves (halves.fold [true] rfl) [1#8] oddFrame oddFrame (fun _ => true)
        [⟨0, 1, true⟩] ↔
      ∀ b, stagedError (halves.fold [true] rfl) oddFrame [⟨0, 1, true⟩] b = 0 :=
  routesAgree_iff .u32 rfl (by decide) halves (halves.fold [true] rfl) [1#8] rfl oddFrame oddFrame
    (fun _ => true) ⟨fun _ _ => rfl, fun _ _ => rfl⟩ [⟨0, 1, true⟩] ⟨rfl, rfl⟩

/-- The sparse route of csc gives bin 0 the half of 16777216. -/
theorem not_routesAgree_odd :
    ∃ m, foldMask halves [1#8] = .ok m ∧ Covers [⟨0, 1, true⟩] 0 m.npix ∧
      Shows (keeps [1#8]) oddFrame oddFrame (fun _ => true) ∧
      ¬ RoutesAgree halves m [1#8] oddFrame oddFrame (fun _ => true) [⟨0, 1, true⟩] := by
  refine ⟨halves.fold [true] rfl, rfl, ⟨rfl, rfl⟩, ⟨fun _ _ => rfl, fun _ _ => rfl⟩, ?_⟩
  intro h
  have h0 := h.1 0
  revert h0
  decide +kernel

end Bslz4ToSparse.Dot
