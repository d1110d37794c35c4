import Bslz4ToSparse.Cuda.Csr1d
import Bslz4ToSparse.Dot.Fixed

/-!
# One integer powder

The integer dots and the GPU product leave the same value in every bin: the sum of the
integer weights times the pixels, modulo 2^64. The integer histogram is exact.
-/

namespace Bslz4ToSparse.Dot

open Foundation Matrix Cuda

variable {F : Type} {t : Dtype} {w : Nat}

/-- `to_scipy()` times the frame, in bin `b`, as an `int64` that wraps. -/
def fixedPowder (fx : FixedPointMatrix F w) (frame : Nat → Pixel t) (b : Nat) : BitVec 64 :=
  BitVec.ofInt 64 (fx.toScipy.product BitVec.toInt (fun p => (frame p).value) b)

/-- What scipy's `tocsr` gives: row `b` has the pixel and the weight of each entry of bin `b`, in
some order. -/
structure IsTocsr (fx : FixedPointMatrix F w) (csr : Csr (BitVec 32)) : Prop where
  rows : ∀ b, b < fx.nm.nbins →
    ((List.range' (csr.indptr b) (csr.indptr (b + 1) - csr.indptr b)).map
      fun k => (csr.idx k, csr.coef k)).Perm
      ((fx.weights.entries.filter (·.2.1 == b)).map fun e => (e.1, e.2.2.setWidth 32))

theorem fixedPowder_eq (fx : FixedPointMatrix F w) (frame : Nat → Pixel t) (b : Nat) :
    fixedPowder fx frame b =
      fx.weights.product (BitVec.setWidth 64) (fun p => BitVec.ofInt 64 (frame p).value) b := by
  rw [fixedPowder, toScipy_product, ofInt_product]
  congr 1
  funext d
  exact (BitVec.ofInt_natCast 64 d.toNat).trans (BitVec.ofNat_toNat 64 d)

/-- A dot whose routes add the columns modulo 2^64. -/
theorem frameDot_fixed (ht : t.isFloat = false) {fx : FixedPointMatrix F w}
    {K : DotKernel (Pixel t) (BitVec 64)}
    (hK : AddsColumns K fx.weights (BitVec.setWidth 64) (fun v => BitVec.ofInt 64 v.value)
      (fun _ _ _ v => BitVec.ofInt 64 v.value) fun _ _ => True) {mask : Nat → Bool}
    (hmask : ∀ p, p < fx.nm.npix → mask p = false → fx.weights.column p = [])
    (frame : Nat → Pixel t) {blocks : List Block} (hcov : Covers blocks 0 fx.nm.npix) (b : Nat) :
    frameDot K 0 Pixel.nonzero mask frame blocks b = fixedPowder fx frame b := by
  have hzero : ∀ v : Pixel t, v.nonzero = false → BitVec.ofInt 64 v.value = 0 := by
    intro v hv
    rw [Pixel.value_eq_zero ht hv]
    rfl
  rw [fixedPowder_eq]
  exact frameDot_exact hK hzero hmask frame hcov (fun _ _ => trivial) b

/-- The entries of a row times a frame. -/
theorem csr_row_sum {fx : FixedPointMatrix F w} {csr : Csr (BitVec 32)} (h : IsTocsr fx csr)
    (frame : Nat → Pixel t) {b : Nat} (hb : b < fx.nm.nbins) :
    ((List.range' (csr.indptr b) (csr.indptr (b + 1) - csr.indptr b)).map fun k =>
      (csr.coef k).setWidth 64 * BitVec.ofInt 64 (frame (csr.idx k)).value).sum =
      fixedPowder fx frame b := by
  have hrow := sum_map_perm (h.rows b hb) fun e : Nat × BitVec 32 =>
    e.2.setWidth 64 * BitVec.ofInt 64 (frame e.1).value
  rw [List.map_map, List.map_map] at hrow
  rw [fixedPowder_eq, NormalMatrix.product_eq_entries]
  refine hrow.trans (congrArg List.sum (List.map_congr_left fun e _ => ?_))
  have hwide : (e.2.2.setWidth 32).setWidth 64 = e.2.2.setWidth 64 := by
    have hlt := e.2.2.isLt
    have hpow : 2 ^ w ≤ 2 ^ 32 := Nat.pow_le_pow_right (by decide) (by have hbits := fx.wbits; omega)
    refine BitVec.eq_of_toNat_eq ?_
    rw [BitVec.toNat_setWidth, BitVec.toNat_setWidth, BitVec.toNat_setWidth,
      Nat.mod_eq_of_lt (hlt.trans_le hpow)]
  simp only [Function.comp_apply, hwide]

/-! ## The histogram -/

/-- The sum of the pixels of bin `b`. -/
def histogram (bins : List Nat) (npix : Nat) (frame : Nat → Pixel t) (b : Nat) : Int :=
  (((List.range npix).filter fun p => bins.getD p 0 == b).map fun p => (frame p).value).sum

/-- A sum of less than 2^31 pixels of at most 32 bits fits 64 bits. -/
theorem histogram_bounded (hsize : t.size ≤ 4) (bins : List Nat) {npix : Nat} (hnpix : npix < 2 ^ 31)
    (frame : Nat → Pixel t) (b : Nat) : (histogram bins npix frame b).natAbs < 2 ^ 63 := by
  have hsum : ∀ ps : List Nat,
      (ps.map fun p => (frame p).value).sum.natAbs ≤ ps.length * (2 ^ 32 - 1) := by
    intro ps
    induction ps with
    | nil => simp
    | cons p ps ih =>
      have hlt := (frame p).value_natAbs_lt
      have hpow : 2 ^ t.bits ≤ 2 ^ 32 :=
        Nat.pow_le_pow_right (by decide) (by simp only [Dtype.bits]; omega)
      have hadd := Int.natAbs_add_le (frame p).value (ps.map fun p => (frame p).value).sum
      rw [List.map_cons, List.sum_cons, List.length_cons, Nat.succ_mul]
      omega
  have hlen := List.length_filter_le (fun p => bins.getD p 0 == b) (List.range npix)
  rw [List.length_range] at hlen
  have hall := hsum ((List.range npix).filter fun p => bins.getD p 0 == b)
  rw [histogram]
  omega

theorem product_histogram [DecidableEq F] [One F] [Inhabited F] {nm : NormalMatrix F}
    {bins : List Nat} (hb : nm.nosplitBins = .ok bins) (frame : Nat → Pixel t) {b : Nat}
    (hlt : b < nm.nbins) :
    nm.product (fun _ => (1 : Int)) (fun p => (frame p).value) b =
      histogram bins nm.npix frame b := by
  have hno : b ≠ noBin := by
    have hnb := nm.nbins_lt
    rw [noBin]
    omega
  rw [histogram, sum_map_filter]
  refine congrArg List.sum (List.map_congr_left fun p hp => ?_)
  rw [nm.nosplitBins_spec hb (List.mem_range.mp hp)]
  by_cases hp' : bins.getD p 0 = noBin
  · rw [if_pos hp', hp', if_neg (by simpa using fun h => hno h.symm)]
    rfl
  · rw [if_neg hp', columnSum, List.map_singleton, List.sum_singleton, one_mul, single]
    by_cases h : b = bins.getD p 0
    · rw [if_pos h, if_pos (by rw [h]; exact beq_self_eq_true _)]
    · rw [if_neg h, if_neg (by simpa using fun h' => h h'.symm)]

theorem nosplitInt_histogram [DecidableEq F] [One F] [Inhabited F] (ht : t.isFloat = false)
    (hsize : t.size ≤ 4) {nm : NormalMatrix F} (hnpix : nm.npix < 2 ^ 31) {bins : List Nat}
    (hb : nm.nosplitBins = .ok bins) {mask : Nat → Bool}
    (hmask : ∀ p, p < nm.npix → mask p = false → nm.column p = []) (frame : Nat → Pixel t)
    {blocks : List Block} (hcov : Covers blocks 0 nm.npix) {b : Nat} (hlt : b < nm.nbins) :
    (frameDot (nosplitIntKernel fun p => bins.getD p 0) 0 Pixel.nonzero mask frame blocks b).toInt =
      histogram bins nm.npix frame b := by
  have hzero : ∀ v : Pixel t, v.nonzero = false → BitVec.ofInt 64 v.value = 0 := by
    intro v hv
    rw [Pixel.value_eq_zero ht hv]
    rfl
  have hbound := histogram_bounded hsize bins hnpix frame b
  rw [frameDot_exact (nosplitIntKernel_adds hb) hzero hmask frame hcov (fun _ _ => trivial) b]
  have hone : BitVec.ofInt 64 1 = 1 := rfl
  have hmod := ofInt_product nm (fun _ => 1) (fun p => (frame p).value) b
  rw [hone] at hmod
  rw [← hmod, product_histogram hb frame hlt, BitVec.toInt_ofInt, Int.bmod_eq_of_le (by omega) (by omega)]

/-- The CPU dots over any blocks and routes, and the GPU product with any thread blocks in any order,
leave `to_scipy()` times the frame modulo 2^64; csc-nosplit-int leaves the histogram itself. -/
theorem integerPowder_exact (t : Dtype) (ht : t.isFloat = false) (fx : FixedPointMatrix F w) :
    (∀ mask : Nat → Bool, (∀ p, p < fx.nm.npix → mask p = false → fx.weights.column p = []) →
      ∀ (frame : Nat → Pixel t) (blocks : List Block), Covers blocks 0 fx.nm.npix → ∀ b,
        frameDot (bodyKernel (cscInt (cscLayout fx.weights))) 0 Pixel.nonzero mask frame blocks b =
          fixedPowder fx frame b ∧
        ∀ starts, fx.starts = .ok starts →
          frameDot (bodyKernel (runInt (runLayout fx.weights starts))) 0 Pixel.nonzero mask frame
            blocks b = fixedPowder fx frame b) ∧
    (∀ csr, IsTocsr fx csr → ∀ (shfl : Bool) (dense : Nat → Pixel t) (stride nframes group wg : Nat)
      (order : List (Nat × Nat)) (out : Nat → BitVec 64), 1 ≤ group → wg % 32 = 0 → 0 < wg →
      wg ≤ 1024 → order.Perm (grid fx.nm.nbins nframes group) →
      ∀ f b, f < nframes → b < fx.nm.nbins →
        csr1d shfl (modular t (BitVec.setWidth 64)) csr dense stride nframes fx.nm.nbins group wg
          order out (f * fx.nm.nbins + b) = fixedPowder fx (fun p => dense (f * stride + p)) b) ∧
    ∀ (nm : NormalMatrix ℚ) (bins : List Nat), t.size ≤ 4 → nm.npix < 2 ^ 31 →
      nm.nosplitBins = .ok bins →
      (∀ n, (tiled nosplitTile nosplitStride 0 n).Perm (List.range n)) ∧
      ∀ mask : Nat → Bool, (∀ p, p < nm.npix → mask p = false → nm.column p = []) →
        ∀ (frame : Nat → Pixel t) (blocks : List Block), Covers blocks 0 nm.npix →
          ∀ b, b < nm.nbins →
            (frameDot (nosplitIntKernel fun p => bins.getD p 0) 0 Pixel.nonzero mask frame blocks
              b).toInt = histogram bins nm.npix frame b := by
  refine ⟨fun mask hmask frame blocks hcov b => ⟨?_, fun starts hs => ?_⟩, ?_, ?_⟩
  · exact frameDot_fixed ht (bodyKernel_adds (cscInt_adds fx.weights)) hmask frame hcov b
  · exact frameDot_fixed ht (bodyKernel_adds (runInt_adds fx.weights (fx.starts_spec hs))) hmask
      frame hcov b
  · intro csr hcsr shfl dense stride nframes group wg order out hgroup hwg hpos hmax horder f b hf hb
    exact (csr1d_exact shfl csr dense hgroup hwg hpos hmax horder hf hb out).trans
      (csr_row_sum hcsr (fun p => dense (f * stride + p)) hb)
  · intro nm bins hsize hnpix hbins
    exact ⟨nosplitTiles_perm, fun mask hmask frame blocks hcov b hb =>
      nosplitInt_histogram ht hsize hnpix hbins hmask frame hcov hb⟩

/-- Two pixels, one of them in both bins. -/
def twoRuns : FixedPointMatrix ℚ 16 where
  nm := {
    data := [1 / 4, 3 / 4, 1]
    indices := [0, 1, 1]
    indptr := [0, 2, 3]
    nbins := 2
    npix := 2
    length_data := rfl
    length_indptr := rfl
    indptr_zero := rfl
    indptr_mono := by decide
    indptr_last := rfl
    indices_lt := by decide
    nbins_lt := twoBins_lt
    entries_lt := by decide }
  data := [1#16, 3#16, 4#16]
  length_data := rfl
  wbits := Or.inl rfl

/-- Its rows. -/
def twoRunsCsr : Csr (BitVec 32) where
  coef := fun k => [1#32, 3#32, 4#32].getD k 0#32
  idx := fun k => [0, 0, 1].getD k 0
  indptr := fun b => [0, 1, 3].getD b 0

/-- The frame -1, -2, .. -/
def falling : Nat → Pixel .i16 := fun p => BitVec.ofInt 16 (-(p : Int) - 1)

theorem twoRunsCsr_rows : IsTocsr twoRuns twoRunsCsr where
  rows := by decide +kernel

theorem integerPowder_exact_twoRuns :
    frameDot (bodyKernel (runInt (runLayout twoRuns.weights [0, 1]))) 0 Pixel.nonzero (fun _ => true)
      falling [⟨0, 1, true⟩, ⟨1, 1, false⟩] 1 = fixedPowder twoRuns falling 1 ∧
    csr1d true (modular .i16 (BitVec.setWidth 64)) twoRunsCsr falling 2 1 2 1 64 (grid 2 1 1)
      (fun _ => 0) (0 * 2 + 1) = fixedPowder twoRuns (fun p => falling (0 * 2 + p)) 1 := by
  obtain ⟨hcpu, hgpu, -⟩ := integerPowder_exact .i16 rfl twoRuns
  have hrun := hcpu (fun _ => true) (fun _ _ h => absurd h (by decide)) falling
    [⟨0, 1, true⟩, ⟨1, 1, false⟩] ⟨rfl, rfl, rfl⟩ 1
  refine ⟨hrun.2 [0, 1] (by decide +kernel), ?_⟩
  exact hgpu twoRunsCsr twoRunsCsr_rows true falling 2 1 1 64 (grid 2 1 1) (fun _ => 0) (by decide)
    (by decide) (by decide) (by decide) (List.Perm.refl _) 0 1 (by decide) (by decide)

end Bslz4ToSparse.Dot
