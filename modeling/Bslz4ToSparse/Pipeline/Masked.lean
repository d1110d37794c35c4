import Bslz4ToSparse.Dot.Floating
import Bslz4ToSparse.Pipeline.Blind

/-!
# Masked pixels and the powder

The mask is folded into the matrix, so that a masked pixel has no entries. The powder may
still depend on its value: a padded layout with a row for every pixel adds the pixel times
zero, and that is a NaN for an infinity or a NaN.
-/

namespace Bslz4ToSparse.Pipeline

open Dot Foundation Matrix

variable {t : Dtype} {D : Type}

/-- A bin of a powder: a sum of doubles, an integer sum or a pixel. -/
inductive Cell (t : Dtype) where
  | real (x : Extended ℚ)
  | integer (x : BitVec 64)
  | pixel (v : Pixel t)
  deriving DecidableEq

/-- What a dot runs with besides its layout. -/
structure Setting where
  double : Rounding ℚ
  single : Rounding ℚ
  mask : List (BitVec 8)
  npix : Nat
  blockElems : Nat
  route : Nat → Bool          -- whether a block takes the sparse route

namespace Setting

variable (S : Setting)

/-- The test of the mask step `pixel`. -/
def tests (p : Nat) : Bool := (keeps S.mask).getD p false

/-- The blocks of a frame. -/
def dot (K : DotKernel (Pixel t) D) (zero : D) (frame : Nat → Pixel t) : Nat → D :=
  frameDot K zero Pixel.nonzero S.tests frame (decodeBlocks S.npix S.blockElems S.route)

/-- The powder of a frame, by each layout. -/
def powder (lay : Layout (Extended ℚ)) (frame : Nat → Pixel t) (b : Nat) : Cell t :=
  let A := floating S.double S.single t
  match lay with
  | .csc m => .real (S.dot (cscKernel A (cscLayout m)) 0 frame b)
  | .run m starts => .real (S.dot (runKernel A (runLayout m starts)) 0 frame b)
  | .nosplit bins => .real (S.dot (nosplitKernel A fun p => bins.getD p 0) 0 frame b)
  | .nosplitInt bins =>
      .integer (ofInteger .f64 (S.dot (nosplitIntKernel fun p => bins.getD p 0) 0#64 frame b).toInt)
  | .permute bins => .pixel (S.dot (bodyKernel (permute fun p => bins.getD p 0)) 0#_ frame b)
  | .cscInt _ m => .integer (S.dot (bodyKernel (cscInt (cscLayout m))) 0#64 frame b)
  | .runInt _ m starts => .integer (S.dot (bodyKernel (runInt (runLayout m starts))) 0#64 frame b)
  | .padded avx2 l => .real (S.dot (paddedKernel A (paddedArrays l) avx2) 0 frame b)
  | .bsbCsr q m => .real (S.dot (bsbcsrKernel A (bsbArrays q) (cscLayout m)) 0 frame b)
  | .bsbCsrNosplit q bins =>
      .real (S.dot (bsbcsrNosplitKernel A (bsbArrays q) fun p => bins.getD p 0) 0 frame b)

/-- A pixel of a dense block. -/
def Dense (p : Nat) : Prop := S.route (p / S.blockElems) = false

/-- A pixel that either route looks at. -/
def Seen (p : Nat) : Prop := S.Dense p ∨ S.tests p = true

/-- The layout of matrix `m` has a row for every pixel, a pixel without entries is looked at, and
one of the bins of its row is not a NaN anyway. -/
def Leaks (t : Dtype) (dot : DotName) (m : NormalMatrix (Extended ℚ)) : Prop :=
  t.isFloat = true ∧ (dot = .padded ∨ dot = .paddedAvx2) ∧ m.npix ≤ 2 * m.occupied.length ∧
    (∃ p, p < m.npix ∧ m.column p = [] ∧ S.Seen p) ∧
    ∃ b, b < m.nbins ∧ b < m.paddedWidth ∧
      ∀ q, q < m.npix → S.Dense q → (b, Extended.nan) ∉ m.column q

end Setting

/-- Two frames differ at masked pixels and at pixels without entries only. -/
def AgreeUnmasked (nm : NormalMatrix (Extended ℚ)) (mask : List (BitVec 8))
    (frame frame' : Nat → Pixel t) : Prop :=
  ∀ p, p < nm.npix → (keeps mask).getD p false = true → nm.column p ≠ [] → frame p = frame' p

/-- The pixels that the folded matrix has entries for. -/
theorem agreeUnmasked_iff {nm m : NormalMatrix (Extended ℚ)} {mask : List (BitVec 8)}
    (hfold : foldMask nm mask = .ok m) (frame frame' : Nat → Pixel t) :
    m.npix = nm.npix ∧ m.nbins = nm.nbins ∧ (AgreeUnmasked nm mask frame frame' ↔
      ∀ p, p < m.npix → hasEntries m p = true → frame p = frame' p) := by
  obtain ⟨h, rfl⟩ := foldMask_eq hfold
  refine ⟨rfl, rfl, forall₂_congr fun p hp => ?_⟩
  have hcol := nm.column_fold h hp
  have hlen : ((nm.fold (keeps mask) h).column p).length = (nm.fold (keeps mask) h).count p :=
    (nm.fold (keeps mask) h).length_column hp
  have hentered : hasEntries (nm.fold (keeps mask) h) p = true ↔
      (nm.fold (keeps mask) h).column p ≠ [] := by
    rw [hasEntries, decide_eq_true_eq, ← hlen, List.length_pos_iff]
  rw [hentered, hcol]
  by_cases hkeep : (keeps mask).getD p false = true
  · simp only [hkeep, if_true, true_imp_iff]
  · simp [hkeep]

/-! ## The layouts that do not look -/

section

variable (S : Setting) {K : DotKernel (Pixel t) D} {looks : Nat → Bool} {fits : Nat → Nat → Prop}

/-- A dot that is blind to the pixels without entries. -/
theorem Setting.dot_blind (hK : Blind K S.npix looks fits) (hbe : 1 ≤ S.blockElems) (zero : D)
    (hfit : ∀ i0 n, IsDecodeBlock S.npix S.blockElems i0 n → fits i0 n)
    {frame frame' : Nat → Pixel t}
    (h : ∀ p, p < S.npix → looks p = true → frame p = frame' p) :
    S.dot K zero frame = S.dot K zero frame' :=
  frameDot_blind hK zero Pixel.nonzero S.tests h (decodeBlocks_covers S.npix hbe S.route)
    fun _ hblk => hfit _ _ (decodeBlocks_fit hblk)

end

/-- The layout has a row for every pixel. -/
def FullRows : Layout (Extended ℚ) → Prop
  | .padded _ l => l.listed = false
  | _ => False

theorem nosplitBins_of_permute {m : NormalMatrix (Extended ℚ)} {bins : List Nat}
    (h : m.permuteBins = .ok bins) : m.nosplitBins = .ok bins := by
  unfold NormalMatrix.permuteBins at h
  obtain ⟨bins', hbins, h⟩ := bind_eq_ok.mp h
  simp only at h
  split at h
  · cases h
  · obtain rfl := Except.ok.inj h
    exact hbins

theorem powder_blind (S : Setting) {f : Family (Extended ℚ)} (hnpix : S.npix = f.nm.npix)
    (hbe : 1 ≤ S.blockElems) {lay : Layout (Extended ℚ)} (hlaid : f.Laid S.blockElems lay)
    (hfull : ¬ FullRows lay) {frame frame' : Nat → Pixel t}
    (h : ∀ p, p < f.nm.npix → hasEntries f.nm p = true → frame p = frame' p) (b : Nat) :
    S.powder lay frame b = S.powder lay frame' b := by
  have hdot : ∀ {D : Type} {K : DotKernel (Pixel t) D} {fits : Nat → Nat → Prop} (zero : D),
      Blind K f.nm.npix (hasEntries f.nm) fits →
      (∀ i0 n, IsDecodeBlock f.nm.npix S.blockElems i0 n → fits i0 n) →
      S.dot K zero frame = S.dot K zero frame' := by
    intro D K fits zero hK hfit
    rw [← hnpix] at hK hfit h
    exact S.dot_blind hK hbe zero hfit h
  have hany : ∀ i0 n, IsDecodeBlock f.nm.npix S.blockElems i0 n → True := fun _ _ _ => trivial
  have hblock : ∀ i0 n, IsDecodeBlock f.nm.npix S.blockElems i0 n →
      IsDecodeBlock f.nm.npix S.blockElems i0 n := fun _ _ hfit => hfit
  unfold Setting.powder
  cases hlaid with
  | csc =>
    have hK := cscKernel_blind (floating S.double S.single t) (fun _ _ => True) f.nm
    exact congrArg Cell.real (congrFun (hdot 0 hK hany) b)
  | @run starts hs =>
    have hK := runKernel_blind (floating S.double S.single t) (fun _ _ => True) f.nm starts
    exact congrArg Cell.real (congrFun (hdot 0 hK hany) b)
  | nosplit hb =>
    have hK := nosplitKernel_blind (floating S.double S.single t) (fun _ _ => True) hb
    exact congrArg Cell.real (congrFun (hdot 0 hK hany) b)
  | nosplitInt hb =>
    have hK := nosplitIntKernel_blind (t := t) (fun _ _ => True) hb
    exact congrArg (fun v : BitVec 64 => Cell.integer (ofInteger .f64 v.toInt))
      (congrFun (hdot 0#64 hK hany) b)
  | permute hb =>
    have hK := bodyKernel_blind (fun _ _ => True) fun p hp hl v out =>
      permute_idle (P := Pixel t) (nosplitBins_of_permute hb) hp hl v out
    exact congrArg Cell.pixel (congrFun (hdot 0#_ hK hany) b)
  | @cscInt fx hfx =>
    have hK : Blind (bodyKernel (cscInt (t := t) (cscLayout fx.2.weights))) f.nm.npix (hasEntries f.nm)
        fun _ _ => True := by
      rw [← f.fixed_nm fx hfx]
      exact bodyKernel_blind _ fun p _ hl v out => addPixel_idle _ fx.2.weights hl _ out
    exact congrArg Cell.integer (congrFun (hdot 0#64 hK hany) b)
  | @runInt fx starts hfx hs =>
    have hK : Blind (bodyKernel (runInt (t := t) (runLayout fx.2.weights starts))) f.nm.npix
        (hasEntries f.nm) fun _ _ => True := by
      rw [← f.fixed_nm fx hfx]
      exact bodyKernel_blind _ fun p _ hl v out => addRun_idle _ fx.2.weights starts hl _ out
    exact congrArg Cell.integer (congrFun (hdot 0#64 hK hany) b)
  | @padded avx2 l hl =>
    obtain ⟨-, -, hrows⟩ := f.nm.padded_hasRows hl
    have hlisted : l.listed = true := by simpa [FullRows] using hfull
    have hlooks : (fun p => !l.listed || decide (0 < f.nm.count p)) = hasEntries f.nm := by
      funext p
      rw [hlisted]
      rfl
    rw [hlooks] at hrows
    have hK := paddedKernel_blind (floating S.double S.single t) hbe hrows avx2
    exact congrArg Cell.real (congrFun (hdot 0 hK hblock) b)
  | bsbCsr hmax =>
    have hK := bsbcsrKernel_blind (floating S.double S.single t) (m := f.nm) hbe hmax
    exact congrArg Cell.real (congrFun (hdot 0 hK hblock) b)
  | bsbCsrNosplit hmax hb =>
    have hK := bsbcsrNosplitKernel_blind (floating S.double S.single t) hbe hmax hb
    exact congrArg Cell.real (congrFun (hdot 0 hK hblock) b)

/-! ## A row for every pixel -/

section

variable {R single : Rounding ℚ} {m : NormalMatrix (Extended ℚ)} {frame : Nat → Pixel t} {b : Nat}

theorem rowWeights_zero {p : Nat} (hp : p < m.npix) (h : hasEntries m p = false) (c : Nat) :
    m.rowWeights p c = 0 := by
  have hcount := count_eq_zero h
  rw [m.rowWeights_eq hp, if_neg (by omega)]

/-- The rows of pixels without entries begin at the first bin. -/
theorem reaches_iff {p : Nat} (h : hasEntries m p = false) : m.Reaches p b ↔ b < m.paddedWidth := by
  have hcount := count_eq_zero h
  have hbase : m.newBase p = 0 := by
    rw [NormalMatrix.newBase, NormalMatrix.paddedFirst, if_neg (by omega), Nat.zero_min]
  rw [NormalMatrix.Reaches, hbase]
  omega

theorem visit_held {z : Extended ℚ} (h : Extended.Held R z) (e : Bool × Nat) :
    Extended.Held R (visit (floating R single t) m frame b z e) := by
  unfold visit takePixel
  split
  · exact (rowOp_accumulates R single t _ _ _).held _ _ _ h
  · exact h

theorem visit_nan (e : Bool × Nat) :
    visit (floating R single t) m frame b Extended.nan e = Extended.nan := by
  unfold visit takePixel
  split
  · exact (rowOp_accumulates R single t _ _ _).nan_sum _ _
  · rfl

/-- A finite pixel without entries adds zeros. -/
theorem visit_idle {e : Bool × Nat} (hp : e.2 < m.npix) (h : hasEntries m e.2 = false)
    (hfin : m.Reaches e.2 b → ∃ x, (frame e.2).toDouble = .fin x) {z : Extended ℚ}
    (hz : Extended.Held R z) : visit (floating R single t) m frame b z e = z := by
  unfold visit takePixel
  by_cases hreach : m.Reaches e.2 b
  · obtain ⟨x, hx⟩ := hfin hreach
    have hvalue : (floating R single t).pixel (frame e.2) = .fin x := hx
    rw [if_pos hreach, rowWeights_zero hp h, hvalue]
    exact (rowOp_accumulates R single t _ _ _).zero_product x 0 z (mul_zero x) hz
  · rw [if_neg hreach]

variable {blockElems : Nat} {l : PaddedLayout (Extended ℚ)} (hpos : 1 ≤ blockElems)
  (hl : m.HasRows blockElems l fun _ => true) (avx2 : Bool) (route tests : Nat → Bool)

include hpos in
/-- The visits of pixels with entries do not depend on the other pixels. -/
theorem filter_frameVisits {frame' : Nat → Pixel t}
    (h : ∀ p, p < m.npix → hasEntries m p = true → frame p = frame' p) :
    (frameVisits Pixel.nonzero tests frame m blockElems route l avx2).filter
        (fun e => hasEntries m e.2) =
      (frameVisits Pixel.nonzero tests frame' m blockElems route l avx2).filter
        fun e => hasEntries m e.2 := by
  have hcov := decodeBlocks_covers m.npix hpos route
  rw [frameVisits, frameVisits, List.filter_flatMap, List.filter_flatMap]
  refine List.flatMap_congr fun blk hblk => ?_
  unfold visits
  by_cases hs : blk.sparse = true
  · rw [if_pos hs, if_pos hs, List.filter_map, List.filter_map]
    exact congrArg (List.map (Prod.mk false)) (filter_listed (hasEntries m) Pixel.nonzero tests
      fun p hp => h p (hcov.lt_of_mem hblk hp))
  · rw [if_neg hs, if_neg hs]

/-- The bin of a frame, by its visits. -/
def binSum (R single : Rounding ℚ) (m : NormalMatrix (Extended ℚ)) (blockElems : Nat)
    (l : PaddedLayout (Extended ℚ)) (avx2 : Bool) (route tests : Nat → Bool) (b : Nat)
    (frame : Nat → Pixel t) : Extended ℚ :=
  (frameVisits Pixel.nonzero tests frame m blockElems route l avx2).foldl
    (visit (floating R single t) m frame b) 0

include hpos hl

/-- Where the pixels without entries that reach the bin are finite, it does not depend on them. -/
theorem binSum_idle {frame' : Nat → Pixel t}
    (h : ∀ p, p < m.npix → hasEntries m p = true → frame p = frame' p)
    (hfin : ∀ p, p < m.npix → hasEntries m p = false → route (p / blockElems) = false ∨ tests p = true →
      m.Reaches p b → (∃ x, (frame p).toDouble = .fin x) ∧ ∃ x, (frame' p).toDouble = .fin x) :
    binSum R single m blockElems l avx2 route tests b frame =
      binSum R single m blockElems l avx2 route tests b frame' := by
  have hseen : ∀ (frame : Nat → Pixel t),
      ∀ e ∈ frameVisits Pixel.nonzero tests frame m blockElems route l avx2,
        e.2 < m.npix ∧ (route (e.2 / blockElems) = false ∨ tests e.2 = true) := by
    intro frame e he
    have hvisit := (mem_frameVisits Pixel.nonzero tests frame hpos hl avx2 route e.2).mp ⟨e.1, he⟩
    exact ⟨hvisit.1, hvisit.2.imp_right fun hlist => hlist.1⟩
  have hentered : ∀ frame : Nat → Pixel t, (∀ p, p < m.npix → hasEntries m p = false →
      route (p / blockElems) = false ∨ tests p = true → m.Reaches p b →
        ∃ x, (frame p).toDouble = .fin x) →
      binSum R single m blockElems l avx2 route tests b frame =
        ((frameVisits Pixel.nonzero tests frame m blockElems route l avx2).filter
          fun e => hasEntries m e.2).foldl (visit (floating R single t) m frame b) 0 := by
    intro frame hfin
    refine foldl_filter_of_idle (I := Extended.Held R) _ Extended.held_zero
      (fun e _ z hz => visit_held hz e) fun e he hidle z hz => ?_
    obtain ⟨hp, hlook⟩ := hseen frame e he
    exact visit_idle hp hidle (hfin e.2 hp hidle hlook) hz
  rw [hentered frame fun p hp he hlook hreach => (hfin p hp he hlook hreach).1,
    hentered frame' fun p hp he hlook hreach => (hfin p hp he hlook hreach).2,
    filter_frameVisits hpos avx2 route tests h]
  apply List.foldl_ext
  intro z e he
  obtain ⟨hmem, hent⟩ := List.mem_filter.mp he
  unfold visit
  rw [h e.2 (hseen frame' e hmem).1 hent]

/-- A visited pixel whose product is a NaN settles the bin. -/
theorem binSum_nan {p : Nat} (hp : p < m.npix) (hreach : m.Reaches p b)
    (hlook : route (p / blockElems) = false ∨ tests p = true ∧ Pixel.nonzero (frame p) = true)
    (hnan : (frame p).toDouble = .nan ∨ m.rowWeights p (b - m.newBase p) = .nan) :
    binSum R single m blockElems l avx2 route tests b frame = .nan := by
  obtain ⟨v, hv⟩ := (mem_frameVisits Pixel.nonzero tests frame hpos hl avx2 route p).mpr ⟨hp, hlook⟩
  refine foldl_absorbed hv (fun z => ?_) (fun e _ => visit_nan e) 0
  unfold visit takePixel
  rw [if_pos hreach]
  have hacc := rowOp_accumulates R single t m.paddedWidth v (b - m.newBase p)
  rcases hnan with hvalue | hweight
  · exact hvalue ▸ hacc.nan_value _ z
  · rw [hweight]
    exact hacc.nan_weight _ z

/-- The frame that keeps bin `b` from being a NaN: a pixel with an infinite weight there has its sign,
every other pixel is zero. -/
def probe (t : Dtype) (m : NormalMatrix (Extended ℚ)) (b q : Nat) : Pixel t :=
  match m.rowWeights q (b - m.newBase q) with
  | .inf n => Pixel.unit t n
  | _ => 0#_

/-- Only a NaN weight of a dense block makes a NaN of the bin in every frame. -/
theorem binSum_probe (ht : t.isFloat = true) (h1 : 1 ≤ m.nbins) (hb : m.brokenPixels = [])
    (hno : ∀ q, q < m.npix → route (q / blockElems) = false → (b, Extended.nan) ∉ m.column q) :
    binSum R single m blockElems l avx2 route tests b (probe t m b) ≠ .nan := by
  have hsum : Extended.Held R (binSum R single m blockElems l avx2 route tests b (probe t m b)) ∧
      Extended.Bounded (binSum R single m blockElems l avx2 route tests b (probe t m b)) := by
    refine List.foldlRecOn (motive := fun z => Extended.Held R z ∧ Extended.Bounded z) _ _
      ⟨Extended.held_zero, Extended.bounded_fin 0⟩ fun z hz e he => ⟨visit_held hz.1 e, ?_⟩
    obtain ⟨hq, hlook⟩ :=
      (mem_frameVisits Pixel.nonzero tests (probe t m b) hpos hl avx2 route e.2).mp ⟨e.1, he⟩
    have hacc := rowOp_accumulates R single t m.paddedWidth e.1 (b - m.newBase e.2)
    unfold visit takePixel
    by_cases hreach : m.Reaches e.2 b
    · rw [if_pos hreach]
      change Extended.Bounded (rowOp _ _ _ _ (Pixel.toDouble (probe t m b e.2)) (m.rowWeights e.2 _) z)
      unfold probe
      cases hw : m.rowWeights e.2 (b - m.newBase e.2) with
      | fin w =>
        simp only
        rw [(Pixel.toDouble_zero ht).1, hacc.zero_product 0 w z (zero_mul w) hz.1]
        exact hz.2
      | inf n =>
        simp only
        rw [Pixel.toDouble_unit ht, hacc.infinity _ n z (by cases n <;> norm_num)
          (by cases n <;> decide +kernel) hz.2]
        exact Extended.bounded_infinity
      | nan =>
        have hentry := (m.mem_column_iff h1 hb hq Extended.nan_ne_zero).mpr ⟨hreach, hw⟩
        rcases hlook with hdense | ⟨-, hlisted⟩
        · exact absurd hentry (hno e.2 hq hdense)
        · rw [probe, hw] at hlisted
          exact absurd ((Pixel.toDouble_zero ht).2.symm.trans hlisted) Bool.false_ne_true
    · rw [if_neg hreach]
      exact hz.2
  exact hsum.2.1

end

/-! ## The powder -/

theorem padded_of_dot {lay : Layout (Extended ℚ)} (h : lay.dot = .padded ∨ lay.dot = .paddedAvx2) :
    ∃ avx2 l, lay = .padded avx2 l := by
  cases lay with
  | padded avx2 l => exact ⟨avx2, l, rfl⟩
  | runInt w m starts =>
    simp only [Layout.dot] at h
    split at h <;> simp at h
  | _ => simp [Layout.dot] at h

/-- The layout has a row for every pixel exactly when at least half of the pixels have entries. -/
theorem fullRows_iff {f : Family (Extended ℚ)} {dot : DotName} {be : Nat}
    {lay : Layout (Extended ℚ)} (h : f.build dot be = .ok lay) :
    FullRows lay ↔ (dot = .padded ∨ dot = .paddedAvx2) ∧ f.nm.npix ≤ 2 * f.nm.occupied.length := by
  obtain ⟨hlaid, hdot, -⟩ := Family.build_ok h
  constructor
  · intro hfull
    cases hlaid with
    | @padded avx2 l hl =>
      obtain ⟨-, hlisted, -⟩ := f.nm.padded_hasRows hl
      have hmany : l.listed = false := hfull
      refine ⟨?_, ?_⟩
      · rw [← hdot]
        cases avx2 with
        | false => exact Or.inl rfl
        | true => exact Or.inr rfl
      · simpa [hlisted] using hmany
    | _ => exact absurd hfull id
  · intro hpadded
    obtain ⟨avx2, l, rfl⟩ := padded_of_dot (hdot ▸ hpadded.1)
    cases hlaid with
    | padded _ hl =>
      obtain ⟨-, hlisted, -⟩ := f.nm.padded_hasRows hl
      change l.listed = false
      rw [hlisted]
      simpa using hpadded.2

/-- Two pixels that share a bin. -/
def couple : NormalMatrix (Extended ℚ) where
  data := [.fin (1 / 2), .fin (1 / 2)]
  indices := [0, 0]
  indptr := [0, 1, 2]
  nbins := 1
  npix := 2
  length_data := rfl
  length_indptr := rfl
  indptr_zero := rfl
  indptr_mono := by decide
  indptr_last := rfl
  indices_lt := by decide
  nbins_lt := by decide
  entries_lt := by decide

/-- The second of them is masked; one dense block. -/
def halfMasked : Setting where
  double := .exact ℚ
  single := .exact ℚ
  mask := [1#8, 0#8]
  npix := 2
  blockElems := 2
  route := fun _ => false

def coupleFamily : Family (Extended ℚ) := ⟨couple.fold [true, false] rfl, none, fun _ h => by cases h⟩

/-- Its rows: half of the pixels have entries, so that every pixel has one. -/
def coupleLayout : PaddedLayout (Extended ℚ) where
  base := [0, 0]
  weights := [.fin (1 / 2), .fin 0]
  pixels := []
  rowmap := []
  rowPtr := [0, 2]
  width := 1
  listed := false
  blockElems := 2
  nbins := 1
  npix := 2

theorem coupleFamily_build : coupleFamily.build .padded 2 = .ok (.padded false coupleLayout) := by
  have hl : coupleFamily.nm.padded 2 = .ok coupleLayout := by decide +kernel
  change ((coupleFamily.nm.padded 2).map (Layout.padded false)).mapError BuildError.layout = _
  rw [hl]
  rfl

end Bslz4ToSparse.Pipeline
