import Bslz4ToSparse.Foundation.Loops
import Bslz4ToSparse.Foundation.Sparse
import Mathlib.Data.Rat.Defs
import Mathlib.Algebra.Order.Field.Rat
import Mathlib.Data.List.GetD
import Mathlib.Tactic.FieldSimp

/-!
# Integrators and their rings (src/conveyor/_integrator.py, src/conveyor/_ringfile.py)

An integrator turns the powder of a frame into intensities. Its rings are an integrator of
its own: each window of radial bins, at each azimuth. Here all of it is in rational numbers.
-/

namespace Bslz4ToSparse.Conveyor

open Foundation

/-- `kind`. -/
inductive IntegratorKind where
  | powder1d | powder2d | rings | moment
  deriving DecidableEq, Repr

/-- An `Integrator`. -/
structure Integrator where
  csc : Sparse ℚ
  norm : List ℚ
  radial : List ℚ
  azimuthal : List ℚ
  kind : IntegratorKind
  ringRanges : List (ℚ × ℚ)
  offset : Option (List ℚ)
  norm_size : norm.length = csc.nrows

/-- Elementwise on two arrays; numpy refuses arrays of different lengths. -/
def elementwise (f : ℚ → ℚ → ℚ) (xs ys : List ℚ) : Option (List ℚ) :=
  if xs.length = ys.length then some (List.zipWith f xs ys) else none

/-- `np.divide(p, norm, out=out, where=norm > 0)` on zeros. -/
def divideWhere (p norm : ℚ) : ℚ := if 0 < norm then p / norm else 0

namespace Integrator

variable (integ : Integrator)

def nbins : Nat := integ.csc.nrows

/-- The normalised intensity of a powder: what `intensity` divides. -/
def normalised (powder : List ℚ) (scale : Option ℚ) : Option (List ℚ) :=
  let p := match scale with
    | none => powder
    | some s => powder.map (· * (1 / s))
  let p := if integ.kind = .moment then p.take (integ.nbins / 2) else p
  elementwise divideWhere p (integ.norm.take p.length)

/-- `intensity`. -/
def intensity (powder : List ℚ) (scale : Option ℚ) : Option (List ℚ) := do
  let out ← integ.normalised powder scale
  match integ.offset with
  | none => return out
  | some offset => elementwise (· + ·) out offset

/-- `np.flatnonzero((radial >= lo) & (radial < hi))`. -/
def inside (lo hi : ℚ) : List Nat :=
  (List.range integ.radial.length).filter fun r =>
    lo ≤ integ.radial.getD r 0 && integ.radial.getD r 0 < hi

/-- `1 / norm`, 0 where the norm is not positive. -/
def inv : List ℚ := integ.norm.map (divideWhere 1)

/-- The entries of window `k`: `a` is tiled, `r` repeated. -/
def windowEntries (nranges k : Nat) (inside : List Nat) : List (Nat × Nat × ℚ) :=
  let naz := integ.azimuthal.length
  let a := (List.replicate inside.length (List.range naz)).flatten
  let r := inside.flatMap fun i => List.replicate naz i
  List.zipWith (fun a r => (a * nranges + k, r * naz + a, integ.inv.getD (r * naz + a) 0)) a r

/-- The bins of each window. -/
def windows (ranges : List (ℚ × ℚ)) : List (List Nat) := ranges.map fun w => integ.inside w.1 w.2

/-- The entries of all windows. -/
def ringEntries (ranges : List (ℚ × ℚ)) : List (Nat × Nat × ℚ) :=
  (integ.windows ranges).zipIdx.flatMap fun w => integ.windowEntries ranges.length w.2 w.1

/-- `offset[:, k]`; `none` is an index past the background. -/
def windowOffset (background : Option (List ℚ)) (inside : List Nat) : Option ℚ :=
  match background with
  | none => some 0
  | some bg => (inside.mapM fun r => bg[r]?).map fun vs => -vs.sum

end Integrator

/-- `csr_matrix((vals, (rows, cols)), shape)`: an index past the shape is refused. -/
def csrMatrix (nrows ncols : Nat) (entries : List (Nat × Nat × ℚ)) : Option (Sparse ℚ) :=
  if h : (∀ e ∈ entries, e.1 < nrows) ∧ ∀ e ∈ entries, e.2.1 < ncols then
    some ⟨nrows, ncols, entries, h.1, h.2⟩
  else none

namespace Integrator

variable (integ : Integrator)

/-- `rings`; `none` is an exception. -/
def rings (ranges : List (ℚ × ℚ)) (background : Option (List ℚ)) : Option Integrator :=
  let nrad := integ.radial.length
  let naz := integ.azimuthal.length
  if integ.kind ≠ .powder2d then none
  else if integ.norm.length ≠ nrad * naz then none     -- inv.reshape
  else if ranges = [] then none                        -- np.concatenate
  else do
    let offsets ← (integ.windows ranges).mapM (windowOffset background)
    let S ← csrMatrix (naz * ranges.length) (nrad * naz) (integ.ringEntries ranges)
    let R := S.mul integ.csc
    return {
      csc := R
      norm := List.replicate R.nrows 1
      radial := integ.radial
      azimuthal := integ.azimuthal
      kind := .rings
      ringRanges := ranges
      offset := some (List.replicate naz offsets).flatten
      norm_size := List.length_replicate }

/-- `RingSink.write` of one frame: the intensities as (azimuth, window), transposed. -/
def ringFrame (powder : List ℚ) : Option (List (List ℚ)) := do
  let naz := integ.azimuthal.length
  let nw := integ.ringRanges.length
  let inten ← integ.intensity powder none
  if inten.length ≠ naz * nw then none
  else
    return (List.range nw).map fun k => (List.range naz).map fun a => inten.getD (a * nw + k) 0

/-- A window takes every azimuth of each of its radial bins. -/
theorem windowEntries_eq (nranges k : Nat) (inside : List Nat) :
    integ.windowEntries nranges k inside =
      inside.flatMap fun r => (List.range integ.azimuthal.length).map fun a =>
        (a * nranges + k, r * integ.azimuthal.length + a,
          integ.inv.getD (r * integ.azimuthal.length + a) 0) := by
  rw [windowEntries]
  induction inside with
  | nil => rfl
  | cons r inside ih =>
    rw [List.length_cons, List.replicate_succ, List.flatten_cons, List.flatMap_cons,
      List.zipWith_append (by simp), ih, List.flatMap_cons]
    congr 1
    apply List.ext_getElem?
    intro i
    by_cases hi : i < integ.azimuthal.length
    · simp [hi]
    · rw [List.getElem?_eq_none (by simp; omega), List.getElem?_eq_none (by simp; omega)]

end Integrator

/-- A flat index `a * n + k` has one `a` and one `k`. -/
theorem flat_inj {n a b k l : Nat} (hk : k < n) (hl : l < n) :
    a * n + k = b * n + l ↔ a = b ∧ k = l := by
  constructor
  · intro h
    have hmod := congrArg (· % n) h
    simp only [Nat.mul_add_mod_self_right, Nat.mod_eq_of_lt hk, Nat.mod_eq_of_lt hl] at hmod
    subst hmod
    exact ⟨Nat.eq_of_mul_eq_mul_right (by omega) (Nat.add_right_cancel h), rfl⟩
  · intro h
    rw [h.1, h.2]

theorem flat_lt {m n a k : Nat} (ha : a < m) (hk : k < n) : a * n + k < m * n := by
  calc a * n + k < (a + 1) * n := by rw [Nat.succ_mul]; omega
    _ ≤ m * n := Nat.mul_le_mul_right n ha

theorem divideWhere_mul (p norm : ℚ) : divideWhere 1 norm * p = divideWhere p norm := by
  unfold divideWhere
  by_cases h : 0 < norm
  · rw [if_pos h, if_pos h, one_div, div_eq_inv_mul]
  · rw [if_neg h, if_neg h, zero_mul]

namespace Integrator

variable {integ : Integrator}

theorem windowEntries_lt {nranges k : Nat} (hk : k < nranges) {inside : List Nat}
    (hinside : ∀ r ∈ inside, r < integ.radial.length) {e : Nat × Nat × ℚ}
    (he : e ∈ integ.windowEntries nranges k inside) :
    e.1 < integ.azimuthal.length * nranges ∧
      e.2.1 < integ.radial.length * integ.azimuthal.length := by
  rw [windowEntries_eq] at he
  obtain ⟨r, hr, he⟩ := List.mem_flatMap.mp he
  obtain ⟨a, ha, rfl⟩ := List.mem_map.mp he
  exact ⟨flat_lt (List.mem_range.mp ha) hk, flat_lt (hinside r hr) (List.mem_range.mp ha)⟩

/-- The product of one window with a powder: its own rows sum the inverse norms times the powder,
the rows of the others are left out. -/
theorem rowDot_windowEntries {nranges k l a : Nat} (hk : k < nranges) (hl : l < nranges)
    (ha : a < integ.azimuthal.length) (inside : List Nat) (x : Nat → ℚ) :
    Sparse.rowDot (integ.windowEntries nranges l inside) x (a * nranges + k) =
      if l = k then (inside.map fun r => integ.inv.getD (r * integ.azimuthal.length + a) 0 *
        x (r * integ.azimuthal.length + a)).sum else 0 := by
  have hbin : ∀ r, Sparse.rowDot ((List.range integ.azimuthal.length).map fun b =>
      (b * nranges + l, r * integ.azimuthal.length + b,
        integ.inv.getD (r * integ.azimuthal.length + b) 0)) x (a * nranges + k) =
      if l = k then integ.inv.getD (r * integ.azimuthal.length + a) 0 *
        x (r * integ.azimuthal.length + a) else 0 := by
    intro r
    rw [Sparse.rowDot, List.map_map]
    by_cases hlk : l = k
    · subst hlk
      rw [if_pos rfl, ← sum_range_single (fun b => integ.inv.getD
        (r * integ.azimuthal.length + b) 0 * x (r * integ.azimuthal.length + b)) ha]
      refine congrArg List.sum (List.map_congr_left fun b _ => ?_)
      simp only [Function.comp_apply, flat_inj hl hl, and_true]
    · rw [if_neg hlk]
      apply List.sum_eq_zero
      intro v hv
      obtain ⟨b, -, rfl⟩ := List.mem_map.mp hv
      simp only [Function.comp_apply, flat_inj hl hk, hlk, and_false, if_false]
  rw [windowEntries_eq, Sparse.rowDot_flatMap, List.map_congr_left fun r _ => hbin r]
  by_cases hlk : l = k
  · simp only [hlk, if_true]
  · simp only [hlk, if_false, List.map_const', List.sum_replicate, nsmul_zero]

theorem mem_inside {lo hi : ℚ} {r : Nat} (h : r ∈ integ.inside lo hi) : r < integ.radial.length :=
  List.mem_range.mp (List.mem_filter.mp h).1

theorem mem_windows {ranges : List (ℚ × ℚ)} {w : List Nat} (hw : w ∈ integ.windows ranges) {r : Nat}
    (hr : r ∈ w) : r < integ.radial.length := by
  obtain ⟨range, -, rfl⟩ := List.mem_map.mp hw
  exact mem_inside hr

/-- The sum of an optional background over radial bins. -/
def backgroundSum (background : Option (List ℚ)) (inside : List Nat) : ℚ :=
  (inside.map fun r => (background.getD []).getD r 0).sum

theorem windowOffset_eq {background : Option (List ℚ)} {inside : List Nat}
    (h : ∀ bg, background = some bg → ∀ r ∈ inside, r < bg.length) :
    windowOffset background inside = some (-backgroundSum background inside) := by
  cases background with
  | none =>
    have hzero : backgroundSum none inside = 0 := by
      simp [backgroundSum]
    rw [hzero, neg_zero]
    rfl
  | some bg =>
    have hreads : inside.mapM (fun r => bg[r]?) = some (inside.map fun r => bg.getD r 0) := by
      apply mapM_eq_some
      intro r hr
      simp [h bg rfl r hr]
    rw [windowOffset, hreads]
    rfl

/-- The offsets of the rings, tiled over the azimuths. -/
def ringOffsets (integ : Integrator) (ranges : List (ℚ × ℚ)) (background : Option (List ℚ)) : List ℚ :=
  (List.replicate integ.azimuthal.length
    ((integ.windows ranges).map fun w => -backgroundSum background w)).flatten

/-- What `rings` makes of a two-dimensional integrator. -/
structure RingsOf (integ : Integrator) (ranges : List (ℚ × ℚ)) (background : Option (List ℚ))
    (rings : Integrator) : Prop where
  kind : rings.kind = .rings
  azimuthal : rings.azimuthal = integ.azimuthal
  ringRanges : rings.ringRanges = ranges
  nrows : rings.csc.nrows = integ.azimuthal.length * ranges.length
  norm : rings.norm = List.replicate (integ.azimuthal.length * ranges.length) 1
  offset : rings.offset = some (ringOffsets integ ranges background)
  rowDot : ∀ x i, Sparse.rowDot rings.csc.entries x i =
    Sparse.rowDot (integ.ringEntries ranges) (Sparse.rowDot integ.csc.entries x) i

theorem rings_ringsOf (h2d : integ.kind = .powder2d)
    (hrows : integ.norm.length = integ.radial.length * integ.azimuthal.length)
    {ranges : List (ℚ × ℚ)} (hne : ranges ≠ []) {background : Option (List ℚ)}
    (hbg : ∀ bg, background = some bg → bg.length = integ.radial.length) :
    ∃ rings, integ.rings ranges background = some rings ∧ RingsOf integ ranges background rings := by
  have hoffsets : (integ.windows ranges).mapM (windowOffset background) =
      some ((integ.windows ranges).map fun w => -backgroundSum background w) := by
    apply mapM_eq_some
    intro w hw
    apply windowOffset_eq
    intro bg hsome r hr
    rw [hbg bg hsome]
    exact mem_windows hw hr
  have hin : ∀ e ∈ integ.ringEntries ranges, e.1 < integ.azimuthal.length * ranges.length ∧
      e.2.1 < integ.radial.length * integ.azimuthal.length := by
    intro e he
    obtain ⟨w, hw, he⟩ := List.mem_flatMap.mp he
    have hget := List.mem_zipIdx_iff_getElem?.mp hw
    obtain ⟨hk, -⟩ := List.getElem?_eq_some_iff.mp hget
    rw [windows, List.length_map] at hk
    exact windowEntries_lt hk (fun r hr => mem_windows (List.mem_of_getElem? hget) hr) he
  rw [rings, if_neg (not_not_intro h2d), if_neg (not_not_intro hrows), if_neg hne]
  simp only [hoffsets, csrMatrix]
  rw [dif_pos ⟨fun e he => (hin e he).1, fun e he => (hin e he).2⟩]
  refine ⟨_, rfl, rfl, rfl, rfl, rfl, rfl, rfl, fun x i => ?_⟩
  exact Sparse.rowDot_mul _ _ _ _

theorem getD_flatten_replicate (xs : List ℚ) {n a k : Nat} (ha : a < n) (hk : k < xs.length) :
    (List.replicate n xs).flatten.getD (a * xs.length + k) 0 = xs.getD k 0 := by
  induction n generalizing a with
  | zero => omega
  | succ n ih =>
    rw [List.replicate_succ, List.flatten_cons]
    cases a with
    | zero => rw [Nat.zero_mul, Nat.zero_add, List.getD_append _ _ _ _ hk]
    | succ a =>
      rw [List.getD_append_right _ _ _ _ (by rw [Nat.succ_mul]; omega),
        show (a + 1) * xs.length + k - xs.length = a * xs.length + k by rw [Nat.succ_mul]; omega]
      exact ih (by omega)

theorem elementwise_some {f : ℚ → ℚ → ℚ} {xs ys : List ℚ} (h : xs.length = ys.length) :
    elementwise f xs ys = some (List.zipWith f xs ys) := if_pos h

theorem getD_zipWith {f : ℚ → ℚ → ℚ} {xs ys : List ℚ} {i : Nat} (hx : i < xs.length)
    (hy : i < ys.length) : (List.zipWith f xs ys).getD i 0 = f (xs.getD i 0) (ys.getD i 0) := by
  simp [List.getD_eq_getElem?_getD, hx, hy]

/-- The normalised intensity of a product with the whole matrix. -/
theorem normalised_apply (hkind : integ.kind ≠ .moment) (frame : Nat → ℚ) :
    ∃ out, integ.normalised (integ.csc.apply frame) none = some out ∧
      out.length = integ.norm.length ∧ ∀ i, i < integ.norm.length →
        out.getD i 0 = divideWhere (Sparse.rowDot integ.csc.entries frame i) (integ.norm.getD i 0) := by
  have hlen : (integ.csc.apply frame).length = integ.norm.length := by
    rw [Sparse.length_apply, integ.norm_size]
  have htake : integ.norm.take (integ.csc.apply frame).length = integ.norm := by
    rw [hlen, List.take_length]
  refine ⟨List.zipWith divideWhere (integ.csc.apply frame) integ.norm, ?_, ?_, ?_⟩
  · simp only [normalised, if_neg hkind, htake]
    exact elementwise_some hlen
  · rw [List.length_zipWith, hlen, Nat.min_self]
  · intro i hi
    rw [getD_zipWith (by omega) hi, Sparse.getD_apply _ _ (by rw [← integ.norm_size]; exact hi)]

/-- A row of the product with the entries of the rings: the normalised values of the bins of its
window at its azimuth. -/
theorem rowDot_ringEntries {ranges : List (ℚ × ℚ)} {a k : Nat} (ha : a < integ.azimuthal.length)
    {lo hi : ℚ} (hk : ranges[k]? = some (lo, hi)) (x : Nat → ℚ) :
    Sparse.rowDot (integ.ringEntries ranges) x (a * ranges.length + k) =
      ((integ.inside lo hi).map fun r => integ.inv.getD (r * integ.azimuthal.length + a) 0 *
        x (r * integ.azimuthal.length + a)).sum := by
  obtain ⟨hlt, -⟩ := List.getElem?_eq_some_iff.mp hk
  have hwindow : (integ.windows ranges)[k]? = some (integ.inside lo hi) := by
    rw [windows, List.getElem?_map, hk, Option.map_some]
  rw [ringEntries, Sparse.rowDot_flatMap, ← sum_zipIdx_single (fun w : List Nat =>
    (w.map fun r => integ.inv.getD (r * integ.azimuthal.length + a) 0 *
      x (r * integ.azimuthal.length + a)).sum) _ hwindow]
  refine congrArg List.sum (List.map_congr_left fun w hw => ?_)
  obtain ⟨hl, -⟩ := List.getElem?_eq_some_iff.mp (List.mem_zipIdx_iff_getElem?.mp hw)
  rw [windows, List.length_map] at hl
  exact rowDot_windowEntries hlt hl ha w.1 x

/-- The signal of the rings is the sum of the cake. -/
theorem rings_signal {ranges : List (ℚ × ℚ)} {background : Option (List ℚ)} {rings : Integrator}
    (hof : RingsOf integ ranges background rings)
    (hrows : integ.norm.length = integ.radial.length * integ.azimuthal.length) {frame : Nat → ℚ}
    {cake sig : List ℚ}
    (hcake : ∀ i, i < integ.norm.length → cake.getD i 0 =
      divideWhere (Sparse.rowDot integ.csc.entries frame i) (integ.norm.getD i 0))
    (hsig : ∀ i, i < rings.norm.length → sig.getD i 0 =
      divideWhere (Sparse.rowDot rings.csc.entries frame i) (rings.norm.getD i 0))
    {a k : Nat} (ha : a < integ.azimuthal.length) {lo hi : ℚ} (hk : ranges[k]? = some (lo, hi)) :
    sig.getD (a * ranges.length + k) 0 =
      ((integ.inside lo hi).map fun r => cake.getD (r * integ.azimuthal.length + a) 0).sum := by
  obtain ⟨hlt, -⟩ := List.getElem?_eq_some_iff.mp hk
  have hflat := flat_lt ha hlt
  have hone : rings.norm.getD (a * ranges.length + k) 0 = 1 := by
    simp [hof.norm, List.getD_eq_getElem?_getD, hflat]
  rw [hsig _ (by rw [hof.norm, List.length_replicate]; exact hflat), hone, divideWhere,
    if_pos one_pos, div_one, hof.rowDot, rowDot_ringEntries ha hk]
  refine congrArg List.sum (List.map_congr_left fun r hr => ?_)
  have hbin : r * integ.azimuthal.length + a < integ.norm.length := by
    rw [hrows]
    exact flat_lt (mem_inside hr) ha
  have hinv : integ.inv.getD (r * integ.azimuthal.length + a) 0 =
      divideWhere 1 (integ.norm.getD (r * integ.azimuthal.length + a) 0) := by
    simp [inv, List.getD_eq_getElem?_getD, hbin]
  rw [hinv, divideWhere_mul, ← hcake _ hbin]

theorem length_ringOffsets (integ : Integrator) (ranges : List (ℚ × ℚ)) (background : Option (List ℚ)) :
    (ringOffsets integ ranges background).length = integ.azimuthal.length * ranges.length := by
  simp [ringOffsets, windows]

theorem getD_ringOffsets {ranges : List (ℚ × ℚ)} (background : Option (List ℚ)) {a k : Nat}
    (ha : a < integ.azimuthal.length) {lo hi : ℚ} (hk : ranges[k]? = some (lo, hi)) :
    (ringOffsets integ ranges background).getD (a * ranges.length + k) 0 =
      -backgroundSum background (integ.inside lo hi) := by
  obtain ⟨hlt, -⟩ := List.getElem?_eq_some_iff.mp hk
  have hlen : ((integ.windows ranges).map fun w => -backgroundSum background w).length =
      ranges.length := by
    rw [List.length_map, windows, List.length_map]
  have hget := getD_flatten_replicate _ ha (hlen.symm ▸ hlt)
  rw [hlen] at hget
  rw [ringOffsets, hget]
  simp [windows, List.getD_eq_getElem?_getD, hk]

/-- `RingSink.write` transposes the intensities. -/
theorem ringFrame_some {powder out : List ℚ} (hout : integ.intensity powder none = some out)
    (hlen : out.length = integ.azimuthal.length * integ.ringRanges.length) :
    ∃ sums, integ.ringFrame powder = some sums ∧
      ∀ a, a < integ.azimuthal.length → ∀ k, k < integ.ringRanges.length →
        (sums.getD k []).getD a 0 = out.getD (a * integ.ringRanges.length + k) 0 := by
  refine ⟨(List.range integ.ringRanges.length).map fun k =>
    (List.range integ.azimuthal.length).map fun a =>
      out.getD (a * integ.ringRanges.length + k) 0, ?_, ?_⟩
  · simp only [ringFrame, hout, Option.bind_eq_bind, Option.bind_some]
    exact if_neg (not_not_intro hlen)
  · intro a ha k hk
    simp [List.getD_eq_getElem?_getD, ha, hk]

/-- The rings are the ring sums of the cake: at each azimuth and window, the sum of the normalised
intensities of the radial bins in the window less that of their background. -/
theorem rings_exact (integ : Integrator) (h2d : integ.kind = .powder2d)
    (hrows : integ.norm.length = integ.radial.length * integ.azimuthal.length)
    (ranges : List (ℚ × ℚ)) (hne : ranges ≠ []) (background : Option (List ℚ))
    (hbg : ∀ bg, background = some bg → bg.length = integ.radial.length) (frame : Nat → ℚ) :
    ∃ rings cake out sums,
      integ.rings ranges background = some rings ∧
      integ.normalised (integ.csc.apply frame) none = some cake ∧
      (integ.offset = none → integ.intensity (integ.csc.apply frame) none = some cake) ∧
      rings.intensity (rings.csc.apply frame) none = some out ∧
      rings.ringFrame (rings.csc.apply frame) = some sums ∧
      ∀ a, a < integ.azimuthal.length → ∀ k lo hi, ranges[k]? = some (lo, hi) →
        out.getD (a * ranges.length + k) 0 =
          ((integ.inside lo hi).map fun r => cake.getD (r * integ.azimuthal.length + a) 0).sum -
            backgroundSum background (integ.inside lo hi) ∧
        (sums.getD k []).getD a 0 = out.getD (a * ranges.length + k) 0 := by
  obtain ⟨rings, hrings, hof⟩ := rings_ringsOf h2d hrows hne hbg
  obtain ⟨cake, hcake, -, hcakeAt⟩ := normalised_apply (by rw [h2d]; decide) frame
  obtain ⟨sig, hsig, hsigLen, hsigAt⟩ := normalised_apply (by rw [hof.kind]; decide) frame
  have hsize : sig.length = integ.azimuthal.length * ranges.length := by
    rw [hsigLen, hof.norm, List.length_replicate]
  have hoffLen := length_ringOffsets integ ranges background
  have hout : rings.intensity (rings.csc.apply frame) none =
      some (List.zipWith (· + ·) sig (ringOffsets integ ranges background)) := by
    simp only [intensity, hsig, hof.offset, Option.bind_eq_bind, Option.bind_some]
    exact elementwise_some (hsize.trans hoffLen.symm)
  obtain ⟨sums, hsums, hsumsAt⟩ := ringFrame_some hout
    (by rw [List.length_zipWith, hsize, hoffLen, Nat.min_self, hof.azimuthal, hof.ringRanges])
  rw [hof.azimuthal, hof.ringRanges] at hsumsAt
  refine ⟨rings, cake, _, sums, hrings, hcake, ?_, hout, hsums, ?_⟩
  · intro hnone
    simp only [intensity, hcake, hnone, Option.bind_eq_bind, Option.bind_some]
    rfl
  · intro a ha k lo hi hk
    obtain ⟨hlt, -⟩ := List.getElem?_eq_some_iff.mp hk
    have hflat := flat_lt ha hlt
    refine ⟨?_, hsumsAt a ha k hlt⟩
    rw [getD_zipWith (by rw [hsize]; exact hflat) (by rw [hoffLen]; exact hflat),
      rings_signal hof hrows hcakeAt hsigAt ha hk, getD_ringOffsets background ha hk, sub_eq_add_neg]

theorem fourEntries_row_lt : ∀ e ∈ [(0, 0, (1 : ℚ)), (1, 1, 2), (2, 0, 3), (3, 1, 1)], e.1 < 4 := by decide

theorem fourEntries_col_lt : ∀ e ∈ [(0, 0, (1 : ℚ)), (1, 1, 2), (2, 0, 3), (3, 1, 1)], e.2.1 < 2 := by decide

/-- Two radial bins at two azimuths; one of the four has no norm. -/
def twoByTwo : Integrator where
  csc := ⟨4, 2, [(0, 0, 1), (1, 1, 2), (2, 0, 3), (3, 1, 1)], fourEntries_row_lt, fourEntries_col_lt⟩
  norm := [4, 0, 2, 1]
  radial := [1, 2]
  azimuthal := [0, 90]
  kind := .powder2d
  ringRanges := []
  offset := none
  norm_size := rfl

theorem rings_exact_twoByTwo :
    ∃ rings cake out sums,
      twoByTwo.rings [(0, 3), (2, 1)] (some [5, 7]) = some rings ∧
      twoByTwo.normalised (twoByTwo.csc.apply fun p => p + 8) none = some cake ∧
      (twoByTwo.offset = none →
        twoByTwo.intensity (twoByTwo.csc.apply fun p => p + 8) none = some cake) ∧
      rings.intensity (rings.csc.apply fun p => p + 8) none = some out ∧
      rings.ringFrame (rings.csc.apply fun p => p + 8) = some sums ∧
      ∀ a, a < 2 → ∀ k lo hi, [((0 : ℚ), (3 : ℚ)), (2, 1)][k]? = some (lo, hi) →
        out.getD (a * 2 + k) 0 =
          ((twoByTwo.inside lo hi).map fun r => cake.getD (r * 2 + a) 0).sum -
            backgroundSum (some [5, 7]) (twoByTwo.inside lo hi) ∧
        (sums.getD k []).getD a 0 = out.getD (a * 2 + k) 0 :=
  rings_exact twoByTwo rfl rfl [(0, 3), (2, 1)] (List.cons_ne_nil _ _) (some [5, 7])
    (fun bg h => by rw [← Option.some_inj.mp h]; rfl) fun p => p + 8

end Integrator

end Bslz4ToSparse.Conveyor
