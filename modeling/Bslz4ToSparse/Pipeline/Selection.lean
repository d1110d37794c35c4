import Bslz4ToSparse.Pipeline.Blocks
import Bslz4ToSparse.Pipeline.Dots
import Bslz4ToSparse.Pipeline.LowPlanesCalls

/-!
# The powder and the selection of pixels

The cut, the limit and the thresholds decide what is listed. A dot reads the decoded block, or
its non-zero pixels in lists of its own, so two calls that differ in the selection go through
the same workspace, the same cursors and the same powder. The lists have room for the pixels of
a block, and behind them lies what a list that is too long would overwrite: only the vsx collect
makes such a list, of a block that does not consist of groups of 64 pixels.
-/

namespace Bslz4ToSparse.Pipeline

open Dot Foundation Steps
open Lz4 (Byte)

variable {t : Dtype} {nij : Nat} {D : Type}

/-- The call with another selection of pixels. -/
def Call.select (q : Call t nij D) (cut : List (Pixel t)) (top : Option Top) : Call t nij D :=
  { q with cut, top }

/-- All that a dot works on is the same; the lists may differ. -/
structure SameCore (s s' : RunState t D) : Prop where
  work : s.work = s'.work
  cursors : s.cursors = s'.cursors
  powder : s.powder = s'.powder

namespace SameCore

variable {s s' : RunState t D}

theorem raise (h : SameCore s s') (q q' : Call t nij D) (f : Nat) :
    SameCore (raiseFrame q f s) (raiseFrame q' f s') := by
  have hkeep : ∀ (q : Call t nij D) (s : RunState t D), SameCore (raiseFrame q f s) s := by
    intro q s
    unfold raiseFrame
    cases q.top with
    | none => exact ⟨rfl, rfl, rfl⟩
    | some top => exact ⟨rfl, rfl, rfl⟩
  have h₁ := hkeep q s
  have h₂ := hkeep q' s'
  constructor
  · rw [h₁.work, h₂.work, h.work]
  · rw [h₁.cursors, h₂.cursors, h.cursors]
  · rw [h₁.powder, h₂.powder, h.powder]

theorem finish (h : SameCore s s') (q q' : Call t nij D) (f : Nat) :
    SameCore (endFrame q f s) (endFrame q' f s') := by
  have hkeep : ∀ (q : Call t nij D) (s : RunState t D), SameCore (endFrame q f s) s := by
    intro q s
    have hraise := SameCore.raise (s := s) ⟨rfl, rfl, rfl⟩ q { q with top := none } f
    unfold endFrame
    cases htop : q.top with
    | none => exact ⟨rfl, rfl, rfl⟩
    | some top => exact ⟨hraise.work, hraise.cursors, hraise.powder⟩
  have h₁ := hkeep q s
  have h₂ := hkeep q' s'
  constructor
  · rw [h₁.work, h₂.work, h.work]
  · rw [h₁.cursors, h₂.cursors, h.cursors]
  · rw [h₁.powder, h₂.powder, h.powder]

end SameCore

section

variable {E : Platform} {q : Call t nij D} {g : Geometry} {s s' : RunState t D} {f : Nat}
  (cut : List (Pixel t)) (top : Option Top)

theorem decodeStep_core (h : SameCore s s') :
    Agree (fun r r' => SameCore r.1 r'.1 ∧ r.2 = r'.2) (decodeStep E q g f s)
      (decodeStep E (q.select cut top) g f s') := by
  change Agree _ _ (decodeStep E q g f s')
  unfold decodeStep
  split
  · exact ⟨h, rfl⟩
  rw [← h.cursors, ← h.work]
  apply Agree.bind_same
  intro n
  apply Agree.bind_same
  exact fun r => ⟨⟨rfl, rfl, h.powder⟩, rfl⟩

theorem maskStep_core (h : SameCore s s') (b nzEnd : Nat) :
    SameCore (maskStep E q g b nzEnd s) (maskStep E (q.select cut top) g b nzEnd s') := by
  change SameCore _ (maskStep E q g b nzEnd s')
  unfold maskStep
  split
  · rw [h.work]
    exact ⟨rfl, h.cursors, h.powder⟩
  · exact h

/-- A kernel's workspace and powder do not depend on the cut and on where the list goes. -/
theorem sparseDotBlock_core (K : DotKernel (Pixel t) D) (collect : Collect) (sparse : Bool)
    (w : Work t) (cut' : Option (Pixel t)) (px : Nat → Pixel t) (ws : Workspace t)
    (o o' : Sink (Pixel t)) (powder : Nat → D) :
    (sparseDotBlock K collect sparse w px ws o powder).1 =
        (sparseDotBlock K collect sparse { w with cut := cut' } px ws o' powder).1 ∧
      (sparseDotBlock K collect sparse w px ws o powder).2.2 =
        (sparseDotBlock K collect sparse { w with cut := cut' } px ws o' powder).2.2 := by
  cases sparse with
  | true => exact ⟨rfl, rfl⟩
  | false => exact ⟨rfl, rfl⟩

theorem dotBlock_core (K : DotKernel (Pixel t) D) (sparse : Bool) (w : Work t)
    (cut' : Option (Pixel t)) (nbytes nzEnd : Nat) (ws : Workspace t) (o o' : Sink (Pixel t))
    (powder : Nat → D) :
    Agree (fun r r' => r.1 = r'.1 ∧ r.2.2 = r'.2.2)
      (dotBlock E q g K sparse f w nbytes nzEnd ws o powder)
      (dotBlock E (q.select cut top) g K sparse f { w with cut := cut' } nbytes nzEnd ws o' powder) := by
  change Agree _ _ (dotBlock E q g K sparse f { w with cut := cut' } nbytes nzEnd ws o' powder)
  unfold dotBlock
  apply Agree.bind_same (fusedList E q g w 0 nbytes nzEnd sparse ws ⟨ws.tval, ws.tidx, 0⟩)
  rintro ⟨ws₁, found⟩
  cases found with
  | some l => exact ⟨rfl, rfl⟩
  | none =>
    apply Agree.bind_same (blockPixels E q g f w.i0 nzEnd ws₁)
    exact fun r => sparseDotBlock_core K _ _ _ _ _ _ _ _ _

theorem blockStep_core (hd : q.dot.isSome) (h : SameCore s s') (b : Nat) :
    Agree SameCore (blockStep E q g b s f) (blockStep E (q.select cut top) g b s' f) := by
  unfold blockStep
  apply Agree.bind (decodeStep_core cut top h)
  rintro ⟨s₁, nbytes, nzEnd⟩ ⟨s₂, nbytes', nzEnd'⟩ ⟨hs, heq⟩
  obtain ⟨rfl, rfl⟩ := Prod.mk.inj heq
  obtain ⟨⟨route, dot⟩, hdot⟩ := Option.isSome_iff_exists.mp hd
  have hdot' : (q.select cut top).dot = some (route, dot) := hdot
  rw [hdot, hdot']
  dsimp only at hs ⊢
  have hcore := (maskStep_core (E := E) (q := q) (g := g) cut top hs b nzEnd).raise q
    (q.select cut top) f
  generalize raiseFrame q f (maskStep E q g b nzEnd s₁) = r₁ at hcore ⊢
  generalize raiseFrame (q.select cut top) f (maskStep E (q.select cut top) g b nzEnd s₂) = r₂
    at hcore ⊢
  rw [← hcore.work, ← hcore.powder]
  apply Agree.bind (dotBlock_core cut top dot.kernel _ _ _ _ _ _ _ _ _)
  rintro ⟨ws, o, powder⟩ ⟨ws', o', powder'⟩ ⟨hws, hpowder⟩
  dsimp only at hws hpowder
  subst hws hpowder
  refine ⟨rfl, hcore.cursors, ?_⟩
  change Function.update r₁.powder f powder = Function.update r₁.powder f powder
  rfl

theorem tailBlockStep_core (h : SameCore s s') :
    Agree (fun r r' => SameCore r.1 r'.1 ∧ r.2 = r'.2) (tailBlockStep E q g f s)
      (tailBlockStep E (q.select cut top) g f s') := by
  change Agree _ _ (tailBlockStep E q g f s')
  unfold tailBlockStep
  dsimp only
  split
  · exact ⟨h, rfl⟩
  rw [← h.cursors, ← h.work]
  apply Agree.bind_same
  intro n
  split
  · rfl
  apply Agree.bind_same
  intro _
  split
  · rfl
  · exact ⟨⟨rfl, rfl, h.powder⟩, rfl⟩

theorem rawStep_core (h : SameCore s s') :
    Agree SameCore (rawStep q g f s) (rawStep (q.select cut top) g f s') := by
  change Agree SameCore _ (rawStep q g f s')
  unfold rawStep
  dsimp only
  split
  · exact h
  rw [← h.cursors, ← h.work]
  apply Agree.bind_same
  exact fun _ => ⟨rfl, rfl, h.powder⟩

theorem tailStep_core (hd : q.dot.isSome) (h : SameCore s s') :
    Agree SameCore (tailStep E q g s f) (tailStep E (q.select cut top) g s' f) := by
  unfold tailStep
  apply Agree.bind (tailBlockStep_core cut top h)
  rintro ⟨s₁, nbytes⟩ ⟨s₂, nbytes'⟩ ⟨hs, heq⟩
  dsimp only at hs heq
  subst heq
  apply Agree.bind (rawStep_core cut top hs)
  intro s₃ s₄ hs
  have hcore := hs.raise q (q.select cut top) f
  generalize raiseFrame q f s₃ = r₁ at hcore ⊢
  generalize raiseFrame (q.select cut top) f s₄ = r₂ at hcore ⊢
  obtain ⟨⟨route, dot⟩, hdot⟩ := Option.isSome_iff_exists.mp hd
  have hdot' : (q.select cut top).dot = some (route, dot) := hdot
  rw [hdot, hdot']
  dsimp only
  rw [← hcore.work, ← hcore.powder]
  change SameCore (endFrame _ _ _) (endFrame _ _ _)
  apply SameCore.finish
  have hblock := sparseDotBlock_core dot.kernel q.pipe.collect (tailSparse q g route nbytes)
    ⟨q.emask, g.total / g.blocksize * g.blockElems t, (q.rawBytes g + q.tailBytes g) / t.size,
      q.cutAt (r₁.level f)⟩ ((q.select cut top).cutAt (r₂.level f))
    (if q.pixels then framePixels q f (g.total / g.blocksize * g.blockElems t)
      else pixelAt t r₁.work.block) r₁.work (r₁.out nij f) (r₂.out nij f) (r₁.powder f)
  constructor
  · exact hblock.1
  · exact hcore.cursors
  · exact congrArg (fun p => Function.update r₁.powder f fun i => dot.finish (p i)) hblock.2

/-- Two calls with the same matrix, from the same workspace: both refuse the batch with the same
error, or leave the same powder. -/
theorem runTails_core (hd : q.dot.isSome) (s : RunState t D) (n : Nat) :
    Agree SameCore (runTails E q g s n) (runTails E (q.select cut top) g s n) := by
  have hstart : SameCore (startRun q s) (startRun (q.select cut top) s) := ⟨rfl, rfl, rfl⟩
  unfold runTails
  apply Agree.bind
  · apply foldlM_range_agree (fun _ => SameCore) hstart
    intro b _ s s' hs
    exact foldlM_range_agree (fun _ => SameCore) hs fun f _ s s' hs =>
      blockStep_core cut top hd hs b
  · intro s s' hs
    exact foldlM_range_agree (fun _ => SameCore) hs fun f _ s s' hs => tailStep_core cut top hd hs

end

/-- What is accepted does not depend on the selection, but for the checks of the selection. -/
theorem accept_select {q : Call t nij D} {cut : List (Pixel t)} {top : Option Top} {g g' : Geometry}
    (h : accept q = .ok g) (h' : accept (q.select cut top) = .ok g') : g = g' := by
  have hgeom := (accept_ok.mp h).geometry
  have hgeom' : readGeometry q = .ok g' := (accept_ok.mp h').geometry
  rw [hgeom] at hgeom'
  exact Except.ok.inj hgeom'

/-! ## The lists of a dot -/

/-- A list in arrays for `n` entries that stays there and holds pixels of the block at `i0`. -/
structure FitsBlock (i0 n : Nat) (o l : Sink (Pixel t)) : Prop where
  npx : l.npx ≤ n
  vals : ∀ i, n ≤ i → l.vals i = o.vals i
  adr : ∀ i, n ≤ i → l.adr i = o.adr i
  pixels : ∀ i, i < l.npx → i0 ≤ l.adr i ∧ l.adr i < i0 + n

/-- The list that the low planes of block `b` of frame `f` give a dot: the arrays before and after. -/
def fusedDotList (E : Platform) (q : Call t nij D) (g : Geometry) (b : Nat) (s : RunState t D) (f : Nat) :
    Option (Sink (Pixel t) × Sink (Pixel t)) :=
  match q.dot, decodeStep E q g f s with
  | some (route, _), .ok (s, nbytes, nzEnd) =>
      let s := raiseFrame q f (maskStep E q g b nzEnd s)
      let w : Work t := ⟨q.bmask g, b * g.blockElems t, g.blockElems t, q.cutAt (s.level f)⟩
      let o : Sink (Pixel t) := ⟨s.work.tval, s.work.tidx, 0⟩
      match fusedList E q g w 0 nbytes nzEnd (blockSparse q g route nbytes) s.work o with
      | .ok (_, some l) => some (o, l)
      | _ => none
  | _, _ => none

/-- No list of the run leaves `tidx` and `tval`, which have `block_elems` entries each. -/
def DotListsFit (E : Platform) (q : Call t nij D) (s : RunState t D) : Prop :=
  ∀ g b f s', ReachesBlock E q s g b f s' → ∀ o l, fusedDotList E q g b s' f = some (o, l) →
    FitsBlock (b * g.blockElems t) (g.blockElems t) o l

/-- No block that the run reaches is listed by the vsx collect, unless it has whole groups of 64
pixels. -/
def WholeGroups (E : Platform) (q : Call t nij D) (s : RunState t D) : Prop :=
  ∀ g b f s', ReachesBlock E q s g b f s' → .collectVsx ∈ kernelsAt E q g b s' f →
    64 ∣ g.blockElems t

/-- What is listed of a block stays in the arrays. -/
theorem FitsBlock.of_emits {o l : Sink (Pixel t)} {sel : Nat → Bool} {px : Nat → Pixel t}
    {i0 n : Nat} (h : Emits o l (collected sel px i0 0 n) n) (ho : o.npx = 0) : FitsBlock i0 n o l := by
  have hlen := h.length_le
  have hnpx := h.npx
  rw [ho, Nat.zero_add] at hnpx
  refine ⟨by omega, fun i hi => h.vals.outside i (by omega), fun i hi => h.adr.outside i (by omega),
    fun i hi => ?_⟩
  obtain ⟨e, he⟩ : ∃ e, (collected sel px i0 0 n)[i]? = some e :=
    ⟨_, List.getElem?_eq_getElem (by omega)⟩
  have hadr : l.adr i = e.1 := by
    have hin := h.adr.inside i e.1 (by rw [List.getElem?_map, he]; rfl)
    rwa [ho, Nat.zero_add] at hin
  have hmem := List.mem_of_getElem? he
  unfold collected at hmem
  obtain ⟨k, hk, rfl⟩ := List.mem_map.mp hmem
  have hrange := List.mem_range'_1.mp (List.mem_of_mem_filter hk)
  rw [hadr]
  dsimp only
  omega

section

variable {E : Platform} {q : Call t nij D} {g : Geometry}

/-- The masked planes are planes again. -/
theorem maskStep_stores {s : RunState t D} {L : Memory} {b nzEnd : Nat} (hpos : 0 < g.blockElems t)
    (hst : Stores L g.blocksize nzEnd s.work.mem) :
    ∃ L', Stores L' g.blocksize nzEnd (maskStep E q g b nzEnd s).work.mem := by
  unfold maskStep
  split
  · next hc =>
    have hplanes := ((Bool.and_eq_true _ _).mp hc).1
    unfold Call.maskplanes at hplanes
    simp only [Bool.and_eq_true, beq_iff_eq] at hplanes
    have h64 := Nat.dvd_of_mod_eq_zero hplanes.2
    exact ⟨_, stores_maskPlanes hst E.avx512 E.avx512 (offset q.mask (b * g.blockElems t))
      ((by decide : 8 ≤ 64).trans (Nat.le_of_dvd hpos h64))⟩
  · exact ⟨L, hst⟩

/-- A block without pixels has an empty list, if it has one. -/
theorem lowplanesList_nil {value : Untranspose} {raw scratch raw' scratch' : Memory}
    {nzEnd nbytes blocksize i0 : Nat} {mask : Mask} {o l : Sink (Pixel t)} (ho : o.npx = 0)
    (h : lowplanesList E.kernels value raw scratch 0 nzEnd nbytes blocksize mask i0 0 o =
      .ok (raw', scratch', some l)) : FitsBlock i0 0 o l := by
  have hself : FitsBlock i0 0 o o :=
    ⟨ho.le, fun _ _ => rfl, fun _ _ => rfl, fun i hi => by omega⟩
  have hfail : ∀ {r : Except Err (Memory × Sink (Pixel t))}, (∃ e, r = .error e) →
      (r.bind fun x => (.ok (x.1, scratch, some x.2) : Except Err _)) ≠ .ok (raw', scratch', some l) := by
    rintro r ⟨e, rfl⟩ hok
    cases hok
  have hopen : ∀ raw : Memory, openPlanes raw 0 nzEnd = .error .fault := fun raw => rfl
  cases value with
  | lowplanesVbmi =>
    rw [lowplanesList, if_neg (by omega)] at h
    dsimp only at h
    split at h
    · cases h
    · rw [if_neg (by omega)] at h
      exact absurd h (hfail ⟨_, by rw [lowplanesCollectVbmi, hopen]; rfl⟩)
  | lowplanesAvx2 =>
    rw [lowplanesList, if_neg (by omega)] at h
    dsimp only at h
    split at h
    · cases h
    · rw [if_neg (by omega)] at h
      exact absurd h (hfail ⟨_, by rw [lowplanesCollectAvx2, hopen]; rfl⟩)
  | lowplanesVsx =>
    rw [lowplanesList, if_neg (by omega)] at h
    dsimp only at h
    split at h
    · cases h
    · rw [if_neg (by omega)] at h
      exact absurd h (hfail ⟨_, by rw [lowplanesCollectVsx, hopen]; rfl⟩)
  | lowplanesC =>
    rw [lowplanesList, if_neg (by omega)] at h
    dsimp only at h
    split at h
    · cases h
    · rw [if_neg (by omega)] at h
      split at h
      · cases h
      · injection h with h
        injection h with _ h
        injection h with _ h
        injection h with h
        rw [← h]
        exact hself
  | kcb | neon | scalar => cases h

/-- A list of low planes fits, unless it is the vsx collect's and the block has a part of a group. -/
theorem lowplanesList_fits (hK : E.kernels.Inverse) {value : Untranspose} (ht : t.size = 2)
    {raw scratch raw' scratch' : Memory} {ne nzEnd nbytes blocksize i0 : Nat} {mask : Mask}
    {o l : Sink (Pixel t)} (ho : o.npx = 0)
    (hst : 0 < ne → ∃ L, Stores L (2 * ne) nzEnd raw)
    (hwhole : .collectVsx ∈ (listKernel value raw ne nzEnd 0).toList → 64 ∣ ne)
    (h : lowplanesList E.kernels value raw scratch ne nzEnd nbytes blocksize mask i0 0 o =
      .ok (raw', scratch', some l)) : FitsBlock i0 ne o l := by
  have hdvd : 8 ∣ ne := by
    by_contra hno
    have h8 : ne % 8 ≠ 0 := fun hmod => hno (Nat.dvd_of_mod_eq_zero hmod)
    cases value with
    | lowplanesVbmi =>
      rw [lowplanesList, if_pos (by omega)] at h
      cases h
    | lowplanesAvx2 =>
      rw [lowplanesList, if_pos (by omega)] at h
      cases h
    | lowplanesVsx =>
      rw [lowplanesList, if_pos (Or.inl h8)] at h
      cases h
    | lowplanesC =>
      rw [lowplanesList, if_pos h8] at h
      cases h
    | kcb | neon | scalar => cases h
  rcases Nat.eq_zero_or_pos ne with rfl | hpos
  · exact lowplanesList_nil ho h
  · obtain ⟨L, hst⟩ := hst hpos
    have hspec : ListSpec value L raw mask ne nzEnd i0 0 o _ :=
      lowplanesList_spec hK ht value hdvd hpos hst scratch nbytes blocksize o
    have htaken : takesBlock value ne = true ∧ ∀ i, ne ≤ i → i < 2 * ne → L i = 0#8 := by
      by_contra hno
      obtain ⟨_, _, hr, -⟩ := hspec.kept hno
      rw [h] at hr
      cases hr
    obtain ⟨_, _, o', hr, hemits⟩ := hspec.taken htaken.1 htaken.2
    rw [h] at hr
    obtain rfl : l = o' := by
      injection hr with hr
      injection hr with _ hr
      injection hr with _ hr
      injection hr
    have h64 : value = .lowplanesVsx → 64 ∣ ne := by
      rintro rfl
      apply hwhole
      rw [listKernel, if_pos]
      · exact List.mem_singleton.mpr rfl
      · have htakes := htaken.1
        rw [takesBlock, Bool.and_eq_true, beq_iff_eq, decide_eq_true_eq] at htakes
        exact ⟨htakes, (highPlanesZero_spec (by decide) (by decide) hdvd hst).1.mpr htaken.2,
          by decide⟩
    apply FitsBlock.of_emits _ ho
    · exact selects (aboveCut 0) mask (planePixel t L ne) i0
    · exact planePixel t L ne
    unfold listExtra listRoom at hemits
    split at hemits
    · next hvsx =>
      have hgroups := h64 hvsx.1
      rw [vsxExtra_eq_nil hgroups, List.append_nil] at hemits
      apply hemits.mono
      unfold vsxLanes
      omega
    · rwa [List.append_nil] at hemits

/-- In a run without parts of groups every list of a dot fits. -/
theorem dotListsFit_of_whole (hK : E.kernels.Inverse) {s : RunState t D} (h : WholeGroups E q s) :
    DotListsFit E q s := by
  intro g b f s' hreach o l hlist
  have hwhole := h g b f s' hreach
  unfold fusedDotList at hlist
  unfold kernelsAt at hwhole
  have hsize : g.blocksize ≤ 2 ^ 31 - 1 := by
    have hsmall := (accept_ok.mp hreach.1).small
    have hblock := hreach.2.1
    have hle : g.blocksize ≤ g.total := by
      by_contra hlt
      rw [Nat.div_eq_of_lt (by omega)] at hblock
      omega
    omega
  cases hdot : q.dot with
  | none =>
    rw [hdot] at hlist
    cases hlist
  | some d =>
    obtain ⟨route, dot⟩ := d
    rw [hdot] at hlist hwhole
    have hdecoded := decodeStep_spec (E := E) (q := q) (g := g) (b := b) (f := f) (fun _ => hsize) s'
    cases hd : decodeStep E q g f s' with
    | error e =>
      rw [hd] at hlist
      cases hlist
    | ok r =>
      obtain ⟨s₁, nbytes, nzEnd⟩ := r
      rw [hd] at hlist hwhole hdecoded
      obtain ⟨x, -, hx⟩ := hdecoded.ok_left
      have hholds := hx.holds
      dsimp only at hlist hwhole hholds
      split at hlist
      · next ws l' hfused =>
        obtain ⟨rfl, rfl⟩ := Prod.mk.inj (Option.some.inj hlist)
        unfold fusedList at hfused
        split at hfused
        · next hgoes =>
          simp only [Bool.and_eq_true, Bool.not_eq_true'] at hgoes
          obtain ⟨⟨raw, scratch, found⟩, hl, hok⟩ := bind_eq_ok.mp hfused
          obtain ⟨-, rfl⟩ := Prod.mk.inj (Except.ok.inj hok)
          rw [hgoes.2, hgoes.1.1] at hwhole
          have ht : t.size = 2 := by rw [q.pipe.lowplanes_u16 hgoes.1.1]; rfl
          cases hholds with
          | frame hq =>
            rw [hq] at hgoes
            cases hgoes.2
          | planes hq L hst hpx =>
            have hle : 2 * g.blockElems t ≤ g.blocksize := by
              rw [Geometry.blockElems, ht]
              exact Nat.mul_div_le g.blocksize 2
            apply lowplanesList_fits hK ht rfl ?_ ?_ hl
            · intro hpos
              dsimp only at hpos ⊢
              obtain ⟨L', hst'⟩ := maskStep_stores (E := E) (q := q) (b := b) hpos hst
              rw [raiseFrame_work]
              exact ⟨L', fun i hi hlt => hst'.stored i hi (by omega),
                fun i hi hlt => hst'.zeros i hi (by omega)⟩
            · intro hk
              apply hwhole
              rw [if_neg (by decide)]
              apply List.mem_append_left
              rw [hgoes.1.2, if_pos rfl]
              exact hk
        · cases hfused
      · cases hlist

/-! ## Two selections -/

/-- Another selection reaches its blocks with the same workspace, cursors and powder. -/
theorem runTo_core (cut : List (Pixel t)) (top : Option Top) (hd : q.dot.isSome) (s : RunState t D)
    (b f : Nat) : Agree SameCore (runTo E q g s b f) (runTo E (q.select cut top) g s b f) := by
  have hstart : SameCore (startRun q s) (startRun (q.select cut top) s) := ⟨rfl, rfl, rfl⟩
  unfold runTo
  apply Agree.bind
  · apply foldlM_range_agree (fun _ => SameCore) hstart
    intro b _ s s' hs
    exact foldlM_range_agree (fun _ => SameCore) hs fun f _ s s' hs =>
      blockStep_core cut top hd hs b
  · intro s s' hs
    exact foldlM_range_agree (fun _ => SameCore) hs fun f _ s s' hs => blockStep_core cut top hd hs b

/-- The kernels that a block enters for a dot do not depend on the selection. -/
theorem kernelsAt_core (cut : List (Pixel t)) (top : Option Top) (hd : q.dot.isSome)
    {s s' : RunState t D} (h : SameCore s s') (b f : Nat) :
    kernelsAt E q g b s f = kernelsAt E (q.select cut top) g b s' f := by
  obtain ⟨⟨route, dot⟩, hdot⟩ := Option.isSome_iff_exists.mp hd
  have hdot' : (q.select cut top).dot = some (route, dot) := hdot
  have hdecode := decodeStep_core (E := E) (q := q) (g := g) (f := f) cut top h
  unfold kernelsAt
  cases hr : decodeStep E q g f s with
  | error e =>
    cases hr' : decodeStep E (q.select cut top) g f s' with
    | error e' => rfl
    | ok r' =>
      rw [hr, hr'] at hdecode
      exact hdecode.elim
  | ok r =>
    rw [hr] at hdecode
    obtain ⟨r', hr', hs, heq⟩ := hdecode.ok_left
    rw [hr']
    obtain ⟨s₁, nbytes, nzEnd⟩ := r
    obtain ⟨s₂, nbytes', nzEnd'⟩ := r'
    obtain ⟨rfl, rfl⟩ := Prod.mk.inj heq
    have hcore := (maskStep_core (E := E) (q := q) (g := g) cut top hs b nzEnd).raise q
      (q.select cut top) f
    dsimp only at hcore ⊢
    rw [hdot, hdot']
    dsimp only
    rw [← hcore.work]
    rfl

/-- Whole groups are those of the blocks, whatever is selected. -/
theorem WholeGroups.select {s : RunState t D} {cut cut' : List (Pixel t)} {top top' : Option Top}
    (hd : q.dot.isSome) (ha : accept (q.select cut top) = .ok g)
    (h : WholeGroups E (q.select cut top) s) : WholeGroups E (q.select cut' top') s := by
  intro g' b f s' hreach hk
  obtain rfl : g = g' := accept_select (q := q.select cut top) ha hreach.1
  have hcore := runTo_core (E := E) (g := g) (q := q.select cut' top') cut top hd s b f
  rw [hreach.2.2.2] at hcore
  obtain ⟨s₁, hs₁, hsame⟩ := hcore.ok_left
  apply h g b f s₁ ⟨ha, hreach.2.1, hreach.2.2.1, hs₁⟩
  rwa [kernelsAt_core (q := q.select cut' top') cut top hd hsame b f] at hk

end

/-- What two selections should share: no list of either run leaves its arrays, and the batch fails with
the same error or gives the same powder. -/
structure SamePowder (E : Platform) (q : Call t nij D) (s : RunState t D) (cut cut' : List (Pixel t))
    (top top' : Option Top) : Prop where
  fits : DotListsFit E (q.select cut top) s
  fits' : DotListsFit E (q.select cut' top') s
  powder : Agree (fun r r' => r.powder = r'.powder) (run E (q.select cut top) s)
    (run E (q.select cut' top') s)

/-- The powder does not depend on the selection, for any two accepted choices of the cut, the limit
and the thresholds, where the vsx collect is handed whole groups of 64 pixels. -/
theorem powder_of_selection (E : Platform) (hK : E.kernels.Inverse) (q : Call t nij D)
    (hd : q.dot.isSome) (s : RunState t D) {cut cut' : List (Pixel t)} {top top' : Option Top}
    {g g' : Geometry} (h : accept (q.select cut top) = .ok g)
    (h' : accept (q.select cut' top') = .ok g') (hwhole : WholeGroups E (q.select cut top) s) :
    SamePowder E q s cut cut' top top' := by
  refine ⟨dotListsFit_of_whole hK hwhole, dotListsFit_of_whole hK (hwhole.select hd h), ?_⟩
  obtain rfl : g = g' := accept_select (q := q.select cut top) h h'
  unfold run
  rw [h, h']
  have hcore := runTails_core (E := E) (g := g) (q := q.select cut top) cut' top' hd s
    q.chunks.nframes
  exact hcore.mono fun _ _ hs => hs.powder

/-- Eight pixels that go to eight bins, in one block of literals. -/
def eightBins : Call .u8 8 (BitVec 64) where
  chunks :=
    { nframes := 1
      bytes := fun _ => [0#8, 0#8, 0#8, 0#8, 0#8, 0#8, 0#8, 8#8, 0#8, 0#8, 0#8, 8#8,
        0#8, 0#8, 0#8, 9#8, 0x80#8, 1#8, 2#8, 3#8, 4#8, 5#8, 6#8, 7#8, 8#8]
      nframes_lt := oneFrame_lt
      length_lt := fun _ => by decide }
  mask := fun _ => 1#8
  cut := [0#8]
  pipe := ⟨.lz4Stock, .pixel, .kcb, .scalar, nofun, fun h => absurd rfl h⟩
  dot := some (.ratioRule, nosplitIntStep id)
  top := none
  workspaceLen := 64

theorem eightBins_whole : WholeGroups .plain (eightBins.select [0#8] none) (.zeros 0#64) := by
  intro g b f s' _ hk
  unfold kernelsAt at hk
  split at hk
  · cases hk
  · cases hk

theorem powder_of_selection_eightBins :
    SamePowder .plain eightBins (.zeros 0#64) [0#8] [200#8] none (some ⟨2, 1, fun _ => 250⟩) :=
  powder_of_selection .plain Kernels.scalarOnly_inverse eightBins rfl (.zeros 0#64) rfl rfl
    eightBins_whole

/-- Eight pixels of 255 in one block, whose planes are eight bytes of ones and eight zeros. -/
def brightChunk : List Byte :=
  [0#8, 0#8, 0#8, 0#8, 0#8, 0#8, 0#8, 16#8, 0#8, 0#8, 0#8, 16#8, 0#8, 0#8, 0#8, 18#8, 0xF0#8, 1#8] ++
    List.replicate 8 255#8 ++ List.replicate 8 0#8

theorem brightChunk_lt (_ : Nat) : brightChunk.length < 2 ^ 31 := by decide

theorem bright_lowplanes : Untranspose.lowplanesVsx.lowplanes = true → Dtype.u16 = .u16 := fun _ => rfl

theorem bright_collect : Collect.scalar ≠ .scalar → Dtype.u16 = .u16 ∨ Dtype.u16 = .u32 := fun _ => .inl rfl

def eightBright : Call .u16 8 (BitVec 64) where
  chunks := ⟨1, fun _ => brightChunk, oneFrame_lt, brightChunk_lt⟩
  mask := fun _ => 1#8
  cut := [0#16]
  pipe := ⟨.lz4Stock, .pixel, .lowplanesVsx, .scalar, bright_lowplanes, bright_collect⟩
  dot := some (.sparse, nosplitIntStep id)
  top := none
  workspaceLen := 96

/-- The vsx collect lists 64 entries of the eight pixels. -/
theorem eightBright_overruns :
    (accept (eightBright.select [0#16] none)).toBool = true ∧
      (accept (eightBright.select [300#16] (some ⟨2, 0, fun _ => 0⟩))).toBool = true ∧
      ¬SamePowder .plain eightBright (.zeros 0#64) [0#16] [300#16] none (some ⟨2, 0, fun _ => 0⟩) := by
  refine ⟨by decide, by decide, fun h => ?_⟩
  have hcount : (fusedDotList .plain (eightBright.select [0#16] none) ⟨16, 16⟩ 0
      (startRun (eightBright.select [0#16] none) (.zeros 0#64)) 0).map (fun l => l.2.npx) = some 64 := by
    decide +kernel
  obtain ⟨⟨o, l⟩, hl, hnpx⟩ := Option.map_eq_some_iff.mp hcount
  have hfits := h.fits ⟨16, 16⟩ 0 0 _ ⟨rfl, by decide, by decide, rfl⟩ o l hl
  have hle : l.npx ≤ 8 := hfits.npx
  dsimp only at hnpx
  omega

end Bslz4ToSparse.Pipeline
