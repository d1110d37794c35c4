import Bslz4ToSparse.Dot.FixedExact
import Bslz4ToSparse.Pipeline.Dots
import Bslz4ToSparse.Pipeline.Sparsify

/-!
# The powder of a batch

A dot gets a frame block by block, as pixels or as lists, with the masked pixels gone, set to zero or
left out, as the pipeline has it. Over a matrix that has no entries for them the powder is the product
with the frame itself.
-/

namespace Bslz4ToSparse.Matrix

variable {F D : Type}

/-- Only the pixels with entries count. -/
theorem NormalMatrix.product_congr [NonUnitalNonAssocSemiring D] {m : NormalMatrix F} {weight : F → D}
    {v v' : Nat → D} (h : ∀ p, p < m.npix → m.column p ≠ [] → v p = v' p) (b : Nat) :
    m.product weight v b = m.product weight v' b := by
  unfold NormalMatrix.product
  refine congrArg List.sum (List.map_congr_left fun p hp => ?_)
  by_cases hnil : m.column p = []
  · rw [hnil]
    rfl
  · rw [h p (List.mem_range.mp hp) hnil]

end Bslz4ToSparse.Matrix

namespace Bslz4ToSparse.Dot

open Foundation Matrix

variable {P F D : Type}

/-- One block more. -/
theorem Covers.append {blocks : List Block} {a n : Nat} (h : Covers blocks a n) (m : Nat) (sparse : Bool) :
    Covers (blocks ++ [⟨n, m, sparse⟩]) a (n + m) := by
  induction blocks generalizing a with
  | nil =>
    obtain rfl : a = n := h
    exact ⟨rfl, rfl⟩
  | cons blk rest ih => exact ⟨h.1, ih h.2⟩

/-- A layout that serves more blocks serves fewer. -/
theorem AddsColumns.mono [Semiring D] {K : DotKernel P D} {m : NormalMatrix F} {weight : F → D}
    {pixel : P → D} {value : Nat → Nat → Nat → P → D} {fits fits' : Nat → Nat → Prop}
    (h : AddsColumns K m weight pixel value fits) (hfits : ∀ i0 n, fits' i0 n → fits i0 n) :
    AddsColumns K m weight pixel value fits' :=
  ⟨fun px i0 n hfit => h.dense px i0 n (hfits i0 n hfit), h.sparse⟩

end Bslz4ToSparse.Dot

namespace Bslz4ToSparse.Pipeline

open Dot Foundation Matrix Steps
open Lz4 (Byte plainDecode)

variable {t : Dtype} {nij : Nat} {F D : Type}

/-! ## The blocks of a dot -/

section

variable {K : DotKernel (Pixel t) D} {fits : Nat → Nat → Prop}

/-- A block depends on its own pixels. -/
theorem blockDot_congr (hK : Reads K fits) {frame frame' : Nat → Pixel t} {mask mask' : Nat → Bool}
    {blk : Block} (hfit : fits blk.i0 blk.n)
    (h : ∀ p, blk.i0 ≤ p → p < blk.i0 + blk.n → frame p = frame' p ∧ mask p = mask' p) (out : Nat → D) :
    blockDot K Pixel.nonzero mask frame out blk = blockDot K Pixel.nonzero mask' frame' out blk := by
  unfold blockDot
  split
  · have hlist : listed Pixel.nonzero mask frame blk.i0 blk.n =
        listed Pixel.nonzero mask' frame' blk.i0 blk.n := by
      apply List.filter_congr
      intro p hp
      obtain ⟨hle, hlt⟩ := List.mem_range'_1.mp hp
      obtain ⟨hframe, hmask⟩ := h p hle hlt
      rw [hframe, hmask]
    rw [hlist]
    refine congrFun (hK.sparse blk.i0 blk.n (.of frame _) (.of frame' _) rfl fun kk hkk => ⟨rfl, ?_⟩) out
    have hmem := List.getElem_mem hkk
    obtain ⟨hle, hlt⟩ := List.mem_range'_1.mp (List.mem_filter.mp hmem).1
    have hget := List.getD_eq_getElem (listed Pixel.nonzero mask' frame' blk.i0 blk.n) 0 hkk
    change frame (_ : Nat) = frame' _
    rw [hget]
    exact (h _ hle hlt).1
  · exact congrFun (hK.dense _ _ blk.i0 blk.n hfit fun j hj => (h _ (by omega) (by omega)).1) out

theorem frameDot_congr (hK : Reads K fits) {frame frame' : Nat → Pixel t} {mask mask' : Nat → Bool}
    {blocks : List Block} (hfit : ∀ blk ∈ blocks, fits blk.i0 blk.n) {n : Nat} (hcov : Covers blocks 0 n)
    (h : ∀ p, p < n → frame p = frame' p ∧ mask p = mask' p) (zero : D) :
    frameDot K zero Pixel.nonzero mask frame blocks = frameDot K zero Pixel.nonzero mask' frame' blocks := by
  unfold frameDot
  refine List.foldl_ext _ _ _ fun out blk hblk => blockDot_congr hK (hfit blk hblk) (fun p hle hlt => ?_) out
  have hend := hcov.block_le hblk
  exact h p (by omega)

end

/-! ## What the blocks show -/

section

variable {E : Platform} {q : Call t nij D} {g : Geometry} {c : List Byte}

/-- The mask that is tested when a list is made. -/
def Call.tests (q : Call t nij D) (g : Geometry) (p : Nat) : Bool :=
  maskOk (if p < g.tailStart t then q.bmask g else q.emask) p

/-- The frame with the mask in its planes; the tail is not masked so. -/
def Call.seen (q : Call t nij D) (g : Geometry) (px : Nat → Pixel t) (p : Nat) : Pixel t :=
  if p < g.tailStart t ∧ q.maskplanes g = true ∧ q.mask p = 0#8 then 0#_ else px p

theorem seen_congr {px px' : Nat → Pixel t} {p : Nat} (h : px p = px' p) :
    q.seen g px p = q.seen g px' p := by
  unfold Call.seen
  rw [h]

/-- An unmasked pixel is seen as it is. -/
theorem seen_unmasked (px : Nat → Pixel t) {p : Nat} (hp : q.mask p ≠ 0#8) : q.seen g px p = px p :=
  if_neg fun h => hp h.2.2

theorem tests_unmasked {p : Nat} (hp : q.mask p ≠ 0#8) : q.tests g p = true := by
  have hemask : maskOk q.emask p = true := by
    unfold Call.emask
    split
    · rfl
    · simpa [maskOk] using hp
  unfold Call.tests
  split
  · unfold Call.bmask
    split
    · rfl
    · exact hemask
  · exact hemask

/-- The powder of the first `n` pixels. -/
structure Powdered (q : Call t nij D) (g : Geometry) (dot : DotStep t nij D) (n : Nat) (px : Nat → Pixel t)
    (powder : Nat → D) : Prop where
  made : ∃ blocks, Covers blocks 0 n ∧
    (∀ blk ∈ blocks, IsDecodeBlock nij (g.blockElems t) blk.i0 blk.n) ∧
    powder = frameDot dot.kernel dot.zero Pixel.nonzero (q.tests g) (q.seen g px) blocks

theorem Powdered.of_eq {dot : DotStep t nij D} {n m : Nat} {px : Nat → Pixel t} {powder : Nat → D}
    (h : Powdered q g dot n px powder) (hnm : n = m) : Powdered q g dot m px powder := hnm ▸ h

/-- The next block. -/
theorem Powdered.next {dot : DotStep t nij D} (hK : Reads dot.kernel (IsDecodeBlock nij (g.blockElems t)))
    {n m : Nat} {px px' : Nat → Pixel t} {powder : Nat → D} (h : Powdered q g dot n px powder)
    (hfit : IsDecodeBlock nij (g.blockElems t) n m) (hbefore : ∀ p, p < n → px' p = px p) {mask : Mask}
    {block : Nat → Pixel t}
    (hblock : ∀ e, e < m → block e = q.seen g px' (n + e) ∧ maskOk mask (n + e) = q.tests g (n + e))
    (cut : Option (Pixel t)) (sparse : Bool) :
    Powdered q g dot (n + m) px' (dotPowder dot.kernel ⟨mask, n, m, cut⟩ sparse block powder) := by
  obtain ⟨blocks, hcov, hfits, rfl⟩ := h.made
  refine ⟨blocks ++ [⟨n, m, sparse⟩], hcov.append m sparse, ?_, ?_⟩
  · intro blk hblk
    rcases List.mem_append.mp hblk with hmem | hmem
    · exact hfits blk hmem
    · obtain rfl := List.mem_singleton.mp hmem
      exact hfit
  · have hsame : ∀ p, p < n → q.seen g px p = q.seen g px' p ∧ q.tests g p = q.tests g p :=
      fun p hp => ⟨seen_congr (hbefore p hp).symm, rfl⟩
    rw [frameDot_congr hK hfits hcov hsame dot.zero]
    unfold frameDot dotPowder
    rw [List.foldl_append, List.foldl_cons, List.foldl_nil]
    refine blockDot_congr hK hfit (fun p hle hlt => ?_) _
    obtain ⟨hpx, hmask⟩ := hblock (p - n) (by dsimp only at hle hlt; omega)
    dsimp only at hle
    rw [Nat.add_sub_cancel' hle] at hpx hmask
    exact ⟨hpx, hmask⟩

theorem powder_raise (a : FrameState t D) : (a.raise q).powder = a.powder := by
  unfold FrameState.raise
  cases q.top with
  | none => rfl
  | some top => rfl

theorem powder_finish (a : FrameState t D) : (a.finish q).powder = a.powder := by
  unfold FrameState.finish
  cases q.top with
  | none => rfl
  | some top => exact powder_raise a

variable (hready : Ready E q g) {route : Route} {dot : DotStep t nij D} (hdot : q.dot = some (route, dot))

include hready hdot

/-- The full blocks. -/
theorem frameBlocks_powdered (powder : Nat → D) {n : Nat} (hn : n ≤ g.total / g.blocksize) :
    Agree (fun a o => a.pos = o.pos ∧ Powdered q g dot (n * g.blockElems t) o.px a.powder)
      (frameBlocks E q g c powder n) (openBlocks E q g c n) := by
  unfold frameBlocks openBlocks
  refine foldlM_range_agree (fun n (a : FrameState t D) (o : Opened t) =>
    a.pos = o.pos ∧ Powdered q g dot (n * g.blockElems t) o.px a.powder) ⟨rfl, ?_⟩ ?_
  · refine ⟨[], (Nat.zero_mul _).symm, fun blk hblk => absurd hblk List.not_mem_nil, ?_⟩
    unfold startFrame
    rw [hdot]
    rfl
  · intro b hb a o h
    obtain ⟨hpos, hpowder⟩ := h
    unfold frameBlock
    rw [hpos]
    apply Agree.bind_same
    intro x
    obtain ⟨pos, nbytes, px⟩ := x
    have hposted : (({ a with pos } : FrameState t D).raise q).pos = pos := (raise_keeps _).1
    have hkept : (({ a with pos } : FrameState t D).raise q).powder = a.powder := powder_raise _
    dsimp only
    rw [hdot]
    refine ⟨hposted, ?_⟩
    dsimp only
    rw [hkept, Nat.succ_mul]
    have hstart : b * g.blockElems t + g.blockElems t ≤ g.tailStart t := by
      have hmul := Nat.mul_le_mul_right (g.blockElems t) (show b + 1 ≤ g.total / g.blocksize by omega)
      rw [Nat.succ_mul] at hmul
      exact hmul
    refine hpowder.next (hready.reads hdot) (hready.fits (by omega)) (fun p hp => if_pos hp)
      (fun e he => ⟨?_, ?_⟩) _ _
    · unfold Call.shown Call.seen
      simp only [Bool.and_eq_true, beq_iff_eq]
      rw [if_neg (show ¬b * g.blockElems t + e < b * g.blockElems t by omega), Nat.add_sub_cancel_left]
      refine if_congr ?_ rfl rfl
      constructor
      · exact fun hm => ⟨by omega, hm⟩
      · exact fun hm => hm.2
    · unfold Call.tests
      rw [if_pos (by omega)]

/-- The powder of a frame is the dot over its blocks, whatever these are. -/
theorem frameRun_powdered (powder : Nat → D) :
    Agree (fun a o => ∃ sums, Powdered q g dot nij o.px sums ∧ a.powder = fun b => dot.finish (sums b))
      (frameRun E q g c powder) (openFrame E q g c) := by
  unfold frameRun openFrame
  refine (frameBlocks_powdered (c := c) hready hdot powder le_rfl).bind fun a o h => ?_
  obtain ⟨hpos, hpowder⟩ := h
  change Powdered q g dot (g.tailStart t) o.px a.powder at hpowder
  unfold frameTail
  rw [hpos]
  apply Agree.bind_same
  intro x
  obtain ⟨pos, nbytes, planes⟩ := x
  apply Agree.bind_same
  intro _
  have hkept : (({ a with pos } : FrameState t D).raise q).powder = a.powder := powder_raise _
  have hend : g.tailStart t + (q.rawBytes g + q.tailBytes g) / t.size = nij := by
    rw [tail_elems hready, tail_end hready]
  dsimp only
  rw [hdot]
  refine ⟨_, ?_, powder_finish _⟩
  dsimp only
  rw [hkept]
  refine Powdered.of_eq (Powdered.next (hready.reads hdot) hpowder ?_ (fun p hp => if_pos hp)
    (fun e he => ⟨?_, ?_⟩) _ _) hend
  · rw [tail_elems hready]
    exact hready.tail_fits
  · unfold Call.seen
    rw [if_neg fun h => absurd h.1 (by omega)]
    dsimp only
    rw [if_neg (by omega), Nat.add_sub_cancel_left]
  · unfold Call.tests
    rw [if_neg (by omega)]

end

/-! ## The product -/

theorem Powdered.congr {E : Platform} {q : Call t nij D} {g : Geometry} {dot : DotStep t nij D}
    {route : Route} (hready : Ready E q g) (hdot : q.dot = some (route, dot)) {px px' : Nat → Pixel t}
    {sums : Nat → D} (h : Powdered q g dot nij px sums) (hpx : ∀ p, p < nij → px p = px' p) :
    Powdered q g dot nij px' sums := by
  obtain ⟨blocks, hcov, hfits, rfl⟩ := h.made
  exact ⟨blocks, hcov, hfits, frameDot_congr (hready.reads hdot) hfits hcov
    (fun p hp => ⟨seen_congr (hpx p hp), rfl⟩) dot.zero⟩

/-- The dot of a matrix: each route adds the columns of its pixels. -/
structure Multiplies [Semiring D] (dot : DotStep t nij D) (be : Nat) (m : NormalMatrix F) (weight : F → D)
    (pixel : Pixel t → D) : Prop where
  npix : m.npix = nij
  adds : AddsColumns dot.kernel m weight pixel (fun _ _ _ => pixel) (IsDecodeBlock nij be)
  zero : dot.zero = 0
  nonzero : ∀ v, v.nonzero = false → pixel v = 0

theorem Powdered.product [Semiring D] {q : Call t nij D} {g : Geometry} {dot : DotStep t nij D}
    {m : NormalMatrix F} {weight : F → D} {pixel : Pixel t → D} {px : Nat → Pixel t} {sums : Nat → D}
    (h : Powdered q g dot nij px sums) (hm : Multiplies dot (g.blockElems t) m weight pixel)
    (hmasked : ∀ p, p < nij → q.mask p = 0#8 → m.column p = []) (b : Nat) :
    sums b = m.product weight (fun p => pixel (px p)) b := by
  obtain ⟨blocks, hcov, hfits, rfl⟩ := h.made
  have hnpix := hm.npix
  have hcolumn : ∀ p, p < m.npix → q.tests g p = false → m.column p = [] := by
    intro p hp ht
    apply hmasked p (hnpix ▸ hp)
    by_contra hmask
    rw [tests_unmasked hmask] at ht
    cases ht
  rw [hm.zero, frameDot_exact hm.adds hm.nonzero hcolumn _ (by rw [hnpix]; exact hcov) hfits b]
  refine NormalMatrix.product_congr (fun p hp hne => ?_) b
  rw [seen_unmasked px fun hmask => hne (hmasked p (hnpix ▸ hp) hmask)]

section

variable {E : Platform} {q : Call t nij D} {blocksize : Nat} {frames : Nat → Nat → Pixel t}
  (hK : E.kernels.Inverse)
  (hlz4 : ∀ src planes, plainDecode planes.length src = some planes →
    E.codecs.lz4DecompressSafe src planes.length = some planes)
  (h : BatchOf E.codecs q blocksize frames) (ha : Admissible q blocksize)

include hK hlz4 h ha

/-- The powder of every frame is the product of the matrix with the frame. -/
theorem run_product [Semiring D] {route : Route} {dot : DotStep t nij D}
    (hdot : q.dot = some (route, dot)) {m : NormalMatrix F} {weight : F → D} {pixel : Pixel t → D}
    (hm : Multiplies dot (blocksize / t.size) m weight pixel)
    (hmasked : ∀ p, p < nij → q.mask p = 0#8 → m.column p = [])
    (hguard : Guarded q blocksize frames) (s : RunState t D) :
    ∃ r, run E q s = .ok r ∧ ∀ f, f < q.chunks.nframes → ∀ b,
      r.powder f b = dot.finish (m.product weight (fun p => pixel (frames f p)) b) := by
  obtain ⟨r, hr, hframes⟩ := run_batch hK hlz4 h ha hguard s
  refine ⟨r, hr, fun f hf b => ?_⟩
  obtain ⟨a, o, halone, ho, hpx, hc⟩ := hframes f hf
  have hready := (run_ready (E := E) hK (h.accepted ha) h.aligned).1
  have hagree := frameRun_powdered (c := q.chunks.bytes f) hready hdot (s.powder f)
  rw [halone, ho] at hagree
  obtain ⟨sums, hsums, hpowder⟩ := hagree
  rw [hc.powder, hpowder]
  exact congrArg dot.finish ((hsums.congr hready hdot hpx).product hm hmasked b)

end

/-! ## The values of the step -/

/-- csc-int, csc-run-int and csc-run-int16 with the weights `fx`. -/
inductive IntegerDot {w : Nat} (fx : FixedPointMatrix ℚ w) : DotStep t fx.nm.npix (BitVec 64) → Prop
  | csc : IntegerDot fx (cscIntStep (cscLayout fx.weights))
  | run (starts : List Nat) (hs : fx.starts = .ok starts) :
      IntegerDot fx (runIntStep (runLayout fx.weights starts))

theorem IntegerDot.multiplies {w : Nat} {fx : FixedPointMatrix ℚ w} (ht : t.isFloat = false)
    {dot : DotStep t fx.nm.npix (BitVec 64)} (h : IntegerDot fx dot) (be : Nat) :
    Multiplies dot be fx.weights (BitVec.setWidth 64) fun v => BitVec.ofInt 64 v.value := by
  have hnonzero : ∀ v : Pixel t, v.nonzero = false → BitVec.ofInt 64 v.value = 0 := by
    intro v hv
    rw [Pixel.value_eq_zero ht hv]
    rfl
  cases h with
  | csc => exact ⟨rfl, (bodyKernel_adds (cscInt_adds fx.weights)).mono fun _ _ _ => trivial, rfl, hnonzero⟩
  | run starts hs =>
    exact ⟨rfl, (bodyKernel_adds (runInt_adds fx.weights (fx.starts_spec hs))).mono fun _ _ _ => trivial,
      rfl, hnonzero⟩

theorem IntegerDot.finish {w : Nat} {fx : FixedPointMatrix ℚ w} {dot : DotStep t fx.nm.npix (BitVec 64)}
    (h : IntegerDot fx dot) : dot.finish = id := by
  cases h <;> rfl

/-- The dots with the weights `m` in exact arithmetic, for blocks of `be` pixels. The csc lists of at most
8 entries go through `float`. -/
inductive RationalDot (m : NormalMatrix ℚ) (be : Nat) : DotStep t m.npix ℚ → Prop
  | csc (hsize : t.size ≤ 2) : RationalDot m be (cscStep (rationals t) (cscLayout m))
  | run (starts : List Nat) (hs : m.runStarts = .ok starts) :
      RationalDot m be (runStep (rationals t) (runLayout m starts))
  | nosplit (bins : List Nat) (hb : m.nosplitBins = .ok bins) :
      RationalDot m be (nosplitStep (rationals t) fun p => bins.getD p 0)
  | padded (hbins : 1 ≤ m.nbins) (hpos : 1 ≤ be) (l : PaddedLayout ℚ) (hl : m.padded be = .ok l)
      (avx2 : Bool) : RationalDot m be (paddedStep (rationals t) m hpos hl avx2)
  | bsbcsr (hsize : t.size ≤ 2) (hpos : 1 ≤ be) (hmax : be ≤ 2 ^ 16) :
      RationalDot m be (bsbcsrStep (rationals t) m hpos hmax)
  | bsbcsrNosplit (hpos : 1 ≤ be) (hmax : be ≤ 2 ^ 16) (bins : List Nat) (hb : m.nosplitBins = .ok bins) :
      RationalDot m be (bsbcsrNosplitStep (rationals t) m hpos hmax fun p => bins.getD p 0)

/-- Pixels of at most 16 bits are the same as a `float`. -/
theorem sparseValue_small (hsize : t.size ≤ 2) (m : MatCsc ℚ) :
    (fun i0 n => sparseValue (rationals t).pixel (rationals t).pixelFloat m i0 n) =
      fun _ _ _ => (rationals t).pixel := by
  funext i0 n p v
  have hfloat : (rationals t).pixelFloat v = (rationals t).pixel v := by
    have hlt := v.value_natAbs_lt
    have hbits : t.bits ≤ 16 := by simp only [Dtype.bits]; omega
    have hfloat := roundTo_eq (hlt.trans_le (Nat.pow_le_pow_right (by decide) (show t.bits ≤ 24 by omega)))
    have hdouble := roundTo_eq (hlt.trans_le (Nat.pow_le_pow_right (by decide) (show t.bits ≤ 53 by omega)))
    simp only [rationals, Arith.exact, hfloat, hdouble]
  simp only [sparseValue, stagedValue, hfloat, ite_self]

theorem RationalDot.multiplies {m : NormalMatrix ℚ} {be : Nat} (ht : t.isFloat = false)
    {dot : DotStep t m.npix ℚ} (h : RationalDot m be dot) :
    Multiplies dot be m id (rationals t).pixel := by
  have hnonzero : ∀ v : Pixel t, v.nonzero = false → (rationals t).pixel v = 0 := by
    intro v hv
    have hv' := Pixel.value_eq_zero ht hv
    simp [rationals, Arith.exact, hv', roundTo]
  cases h with
  | csc hsize =>
    have hadds : AddsColumns (cscKernel (rationals t) (cscLayout m)) m id (rationals t).pixel
        (fun i0 n => sparseValue (rationals t).pixel (rationals t).pixelFloat (cscLayout m) i0 n)
        fun _ _ => True := cscKernel_adds m
    rw [sparseValue_small hsize] at hadds
    exact ⟨rfl, hadds.mono fun _ _ _ => trivial, rfl, hnonzero⟩
  | run starts hs => exact ⟨rfl, (runKernel_adds m hs).mono fun _ _ _ => trivial, rfl, hnonzero⟩
  | nosplit bins hb => exact ⟨rfl, (nosplitKernel_adds rfl m hb).mono fun _ _ _ => trivial, rfl, hnonzero⟩
  | padded hbins hpos l hl avx2 => exact ⟨rfl, paddedKernel_adds rfl hbins hpos hl avx2, rfl, hnonzero⟩
  | bsbcsr hsize hpos hmax =>
    have hadds : AddsColumns (bsbcsrKernel (rationals t) (bsbArrays (m.bsbCsr be)) (cscLayout m)) m id
        (rationals t).pixel
        (fun i0 n => sparseValue (rationals t).pixel (rationals t).pixelFloat (cscLayout m) i0 n)
        (IsDecodeBlock m.npix be) := bsbcsrKernel_adds hpos hmax
    rw [sparseValue_small hsize] at hadds
    exact ⟨rfl, hadds, rfl, hnonzero⟩
  | bsbcsrNosplit hpos hmax bins hb =>
    exact ⟨rfl, bsbcsrNosplitKernel_adds rfl hpos hmax hb, rfl, hnonzero⟩

/-! ## Two pixels, one of them masked -/

/-- The first pixel has no entries. -/
def secondOnly : NormalMatrix ℚ where
  data := [1]
  indices := [1]
  indptr := [0, 0, 1]
  nbins := 2
  npix := 2
  length_data := rfl
  length_indptr := rfl
  indptr_zero := rfl
  indptr_mono := by decide
  indptr_last := rfl
  indices_lt := by decide
  nbins_lt := twoBins_lt
  entries_lt := by decide

theorem secondOnly_wbits : 16 = 16 ∨ 16 = 32 := Or.inl rfl

def secondOnlyFixed : FixedPointMatrix ℚ 16 where
  nm := secondOnly
  data := [4#16]
  length_data := rfl
  wbits := secondOnly_wbits

/-- The pixels -1 and -2 behind a header, or without one. -/
def minusOneTwo (header : Bool) : List Byte :=
  (if header then [0#8, 0#8, 0#8, 0#8, 0#8, 0#8, 0#8, 4#8, 0#8, 0#8, 0#8, 16#8] else []) ++
    [0xFF#8, 0xFF#8, 0xFE#8, 0xFF#8]

theorem length_minusOneTwo (header : Bool) : ∀ _ : Nat, (minusOneTwo header).length < 2 ^ 31 := by
  intro _
  cases header <;> decide

theorem i16_kcb : Untranspose.kcb.lowplanes = true → Dtype.i16 = .u16 := fun h => by cases h

theorem i16_scalar : Collect.scalar ≠ .scalar → Dtype.i16 = .u16 ∨ Dtype.i16 = .u32 := fun h => absurd rfl h

/-- One frame of them, the first one masked. -/
def minusOneTwoCall (pixels : Bool) (route : Route) (dot : DotStep .i16 2 D) : Call .i16 2 D where
  chunks := ⟨1, fun _ => minusOneTwo !pixels, oneFrame_lt, length_minusOneTwo _⟩
  mask := fun p => if p = 0 then 0#8 else 1#8
  cut := [0#16]
  pipe := ⟨if pixels then .pixels else .lz4Stock, .pixel, .kcb, .scalar, i16_kcb, i16_scalar⟩
  dot := some (route, dot)
  top := none
  workspaceLen := 73728

theorem minusOneTwo_encodes (C : Codecs) : Encodes C .lz4Stock 2 16 falling (minusOneTwo true) := by
  have hsplit : minusOneTwo true = (minusOneTwo true).take 12 ++ ([] : List (List Byte)).flatMap sized ++
      pixelBytes falling (2 - rawElems .i16 2 16) (rawElems .i16 2 16) := by decide +kernel
  rw [hsplit]
  exact .chunk _ [] rfl (by decide) (by decide) (by decide) fun b src hsrc => by cases hsrc

theorem minusOneTwo_pixels : minusOneTwo false = pixelBytes falling 0 2 := by decide +kernel

theorem minusOneTwo_batch (pixels : Bool) (route : Route) (dot : DotStep .i16 2 D) :
    BatchOf Platform.plain.codecs (minusOneTwoCall pixels route dot)
      (if pixels then defaultBlockBytes else 16) fun _ => falling := by
  cases pixels with
  | false => exact ⟨Nat.one_pos, by decide, fun _ _ _ => minusOneTwo_encodes _, fun h => by cases h⟩
  | true =>
    exact ⟨Nat.one_pos, by decide, fun h => (by cases h), fun _ => ⟨rfl, fun _ _ => minusOneTwo_pixels⟩⟩

theorem minusOneTwo_admissible (pixels : Bool) (route : Route) {dot : DotStep .i16 2 D}
    (hdot : ∀ be, badLayout be dot = false) :
    Admissible (minusOneTwoCall pixels route dot) (if pixels then defaultBlockBytes else 16) where
  cut := rfl
  validCut := rfl
  top := fun _ h => by cases h
  small := by decide
  layout := by
    intro d hd
    obtain rfl := Option.some.inj hd
    exact hdot _
  workspace := by cases pixels <;> exact Nat.le_of_ble_eq_true rfl

theorem secondOnly_masked : ∀ p, p < 2 → (if p = 0 then 0#8 else 1#8) = 0#8 → secondOnly.column p = [] := by
  decide +kernel

theorem secondOnlyFixed_masked :
    ∀ p, p < 2 → (if p = 0 then 0#8 else 1#8) = 0#8 → secondOnlyFixed.weights.column p = [] := by
  decide +kernel

theorem secondOnly_starts : secondOnlyFixed.starts = .ok [0, 1] := by decide +kernel

theorem secondOnly_bins : secondOnly.nosplitBins = .ok [noBin, 1] := by decide +kernel

/-! ## Integer weights -/

section

variable (E : Platform) (hK : E.kernels.Inverse)
  (hlz4 : ∀ src planes, plainDecode planes.length src = some planes →
    E.codecs.lz4DecompressSafe src planes.length = some planes)
  (ht : t.isFloat = false)

include hK hlz4 ht

/-- A batch through an integer dot: the powder of every frame is `to_scipy()` times the frame, modulo
2^64. -/
theorem integer_powder {w : Nat} (fx : FixedPointMatrix ℚ w) (q : Call t fx.nm.npix (BitVec 64))
    (blocksize : Nat) (frames : Nat → Nat → Pixel t) (h : BatchOf E.codecs q blocksize frames)
    (ha : Admissible q blocksize) {route : Route} {dot : DotStep t fx.nm.npix (BitVec 64)}
    (hdot : q.dot = some (route, dot)) (hfx : IntegerDot fx dot)
    (hmasked : ∀ p, p < fx.nm.npix → q.mask p = 0#8 → fx.weights.column p = [])
    (hguard : Guarded q blocksize frames) (s : RunState t (BitVec 64)) :
    ∃ r, run E q s = .ok r ∧ ∀ f, f < q.chunks.nframes → ∀ b,
      r.powder f b = fixedPowder fx (frames f) b := by
  obtain ⟨r, hr, hpowder⟩ := run_product hK hlz4 h ha hdot (hfx.multiplies ht _) hmasked hguard s
  refine ⟨r, hr, fun f hf b => ?_⟩
  rw [hpowder f hf b, hfx.finish, fixedPowder_eq]
  rfl

/-- A batch through the integer histogram: the double of every bin is the sum of its pixels, rounded
once. -/
theorem histogram_powder (hsize : t.size ≤ 4) (nm : NormalMatrix ℚ) (bins : List Nat)
    (hbins : nm.nosplitBins = .ok bins) (q : Call t nm.npix (BitVec 64)) (blocksize : Nat)
    (frames : Nat → Nat → Pixel t) (h : BatchOf E.codecs q blocksize frames)
    (ha : Admissible q blocksize) {route : Route}
    (hdot : q.dot = some (route, nosplitIntStep fun p => bins.getD p 0))
    (hmasked : ∀ p, p < nm.npix → q.mask p = 0#8 → nm.column p = [])
    (hguard : Guarded q blocksize frames) (s : RunState t (BitVec 64)) :
    ∃ r, run E q s = .ok r ∧ ∀ f, f < q.chunks.nframes → ∀ b, b < nm.nbins →
      r.powder f b = ofInteger .f64 (histogram bins nm.npix (frames f) b) := by
  have hnonzero : ∀ v : Pixel t, v.nonzero = false → BitVec.ofInt 64 v.value = 0 := by
    intro v hv
    rw [Pixel.value_eq_zero ht hv]
    rfl
  have hm : Multiplies (nosplitIntStep fun p => bins.getD p 0) (blocksize / t.size) nm
      (fun _ => (1 : BitVec 64)) (fun v : Pixel t => BitVec.ofInt 64 v.value) :=
    ⟨rfl, (nosplitIntKernel_adds hbins).mono fun _ _ _ => trivial, rfl, hnonzero⟩
  have hnpix : nm.npix < 2 ^ 31 := by
    have hsmall := ha.small
    have hle := Nat.mul_le_mul_left nm.npix t.size_pos
    omega
  obtain ⟨r, hr, hpowder⟩ := run_product hK hlz4 h ha hdot hm hmasked hguard s
  refine ⟨r, hr, fun f hf b hb => ?_⟩
  have hsum := ofInt_product nm (fun _ => (1 : Int)) (fun p => (frames f p).value) b
  rw [product_histogram hbins (frames f) hb] at hsum
  have hbound := histogram_bounded hsize bins hnpix (frames f) b
  have hint : (nm.product (fun _ => (1 : BitVec 64)) (fun p => BitVec.ofInt 64 (frames f p).value) b).toInt =
      histogram bins nm.npix (frames f) b := by
    have hone : BitVec.ofInt 64 1 = 1 := rfl
    rw [hone] at hsum
    rw [← hsum, BitVec.toInt_ofInt, Int.bmod_eq_of_le (by omega) (by omega)]
  rw [hpowder f hf b, ← hint]
  rfl

/-- A batch through a dot with rational weights, in exact arithmetic: the powder of every frame is the
matrix times the frame. -/
theorem rational_powder (hsize : t.size ≤ 4) (m : NormalMatrix ℚ) (q : Call t m.npix ℚ) (blocksize : Nat)
    (frames : Nat → Nat → Pixel t) (h : BatchOf E.codecs q blocksize frames)
    (ha : Admissible q blocksize) {route : Route} {dot : DotStep t m.npix ℚ}
    (hdot : q.dot = some (route, dot)) (hrational : RationalDot m (blocksize / t.size) dot)
    (hmasked : ∀ p, p < m.npix → q.mask p = 0#8 → m.column p = [])
    (hguard : Guarded q blocksize frames) (s : RunState t ℚ) :
    ∃ r, run E q s = .ok r ∧ ∀ f, f < q.chunks.nframes → ∀ b,
      r.powder f b = m.product id (fun p => ((frames f p).value : ℚ)) b := by
  have hfinish : dot.finish = id := by
    cases hrational <;> rfl
  obtain ⟨r, hr, hpowder⟩ := run_product hK hlz4 h ha hdot (hrational.multiplies ht) hmasked hguard s
  refine ⟨r, hr, fun f hf b => ?_⟩
  rw [hpowder f hf b, hfinish]
  change m.product id (fun p => (rationals t).pixel (frames f p)) b = _
  simp only [rationals, Arith.exact, roundTo_double hsize]

end

theorem integer_powder_secondOnly :
    ∃ r, run .plain (minusOneTwoCall false .ratioRule (cscIntStep (cscLayout secondOnlyFixed.weights)))
        (.filled 1#8 7#64) = .ok r ∧
      ∀ f, f < 1 → ∀ b, r.powder f b = fixedPowder secondOnlyFixed falling b :=
  integer_powder .plain Kernels.scalarOnly_inverse (fun _ _ h => h) rfl secondOnlyFixed
    (minusOneTwoCall false .ratioRule (cscIntStep (cscLayout secondOnlyFixed.weights))) 16 (fun _ => falling)
    (minusOneTwo_batch false _ _) (minusOneTwo_admissible false _ fun _ => rfl) rfl .csc
    secondOnlyFixed_masked (guarded_of_value (fun h => by cases h) _ _) _

theorem histogram_powder_secondOnly :
    ∃ r, run .plain (minusOneTwoCall false .ratioRule (nosplitIntStep fun p => [noBin, 1].getD p 0))
        (.filled 1#8 7#64) = .ok r ∧
      ∀ f, f < 1 → ∀ b, b < 2 →
        r.powder f b = ofInteger .f64 (histogram [noBin, 1] 2 falling b) :=
  histogram_powder .plain Kernels.scalarOnly_inverse (fun _ _ h => h) rfl (by decide) secondOnly
    [noBin, 1] secondOnly_bins
    (minusOneTwoCall false .ratioRule (nosplitIntStep fun p => [noBin, 1].getD p 0)) 16 (fun _ => falling)
    (minusOneTwo_batch false _ _) (minusOneTwo_admissible false _ fun _ => rfl) rfl
    secondOnly_masked (guarded_of_value (fun h => by cases h) _ _) _

theorem rational_powder_secondOnly :
    ∃ r, run .plain (minusOneTwoCall false .ratioRule (cscStep (rationals .i16) (cscLayout secondOnly)))
        (.filled 1#8 7) = .ok r ∧
      ∀ f, f < 1 → ∀ b, r.powder f b = secondOnly.product id (fun p => ((falling p).value : ℚ)) b :=
  rational_powder .plain Kernels.scalarOnly_inverse (fun _ _ h => h) rfl (by decide) secondOnly
    (minusOneTwoCall false .ratioRule (cscStep (rationals .i16) (cscLayout secondOnly))) 16
    (fun _ => falling) (minusOneTwo_batch false _ _) (minusOneTwo_admissible false _ fun _ => rfl) rfl
    (.csc (by decide)) secondOnly_masked (guarded_of_value (fun h => by cases h) _ _) _

end Bslz4ToSparse.Pipeline
