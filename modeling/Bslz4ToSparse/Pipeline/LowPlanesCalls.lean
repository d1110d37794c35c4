import Bslz4ToSparse.Pipeline.Cursors

/-!
# What the low-planes kernels are called with

The guards in front of the low-planes kernels divide the pixels of a block by the kernels'
group sizes. A block size of one byte gives blocks of no pixel, and the vsx value takes groups
of 64 pixels behind a guard for 8.
-/

namespace Bslz4ToSparse.Pipeline

open Dot Foundation Steps
open Lz4 (Byte)

variable {t : Dtype} {nij : Nat} {D : Type}

/-! ## The kernels -/

/-- The kernels behind `bslz4_lowplanes_list` and `bslz4_lowplanes_block`. -/
inductive LowKernel where
  | collectVbmi | collectAvx2 | collectVsx | collectC
  | untransVbmi | widenAvx2
  deriving DecidableEq, Repr

/-- The pixels that a kernel takes at a time. -/
def LowKernel.granularity : LowKernel → Nat
  | collectVbmi | collectVsx | untransVbmi | widenAvx2 => 64
  | collectAvx2 => 256
  | collectC => 8

/-- What a kernel needs of a block of `ne` pixels. -/
structure LowKernel.Needs (k : LowKernel) (ne blocksize : Nat) : Prop where
  plane : 0 < ne / 8
  pos : 0 < ne
  whole : k.granularity ∣ ne
  inside : 16 * (ne / 8) ≤ blocksize

/-- The kernel that `bslz4_lowplanes_list` enters. -/
def listKernel (value : Untranspose) (raw : Memory) (ne nzEnd cut : Nat) : Option LowKernel :=
  match value with
  | .lowplanesVbmi =>
      if ne % 64 = 0 ∧ (highPlanesZero 64 raw ne nzEnd).1 ∧ cut < 255 then some .collectVbmi else none
  | .lowplanesAvx2 =>
      if ne % 256 = 0 ∧ (highPlanesZero 8 raw ne nzEnd).1 ∧ cut < 255 then some .collectAvx2 else none
  | .lowplanesVsx =>
      if (ne % 8 = 0 ∧ ne / 8 ≤ zeroPlaneBytes) ∧ (highPlanesZero 8 raw ne nzEnd).1 ∧ cut < 255 then
        some .collectVsx
      else none
  | .lowplanesC =>
      if ne % 8 = 0 ∧ (highPlanesZeroC raw ne nzEnd).1 ∧ cut < 255 then some .collectC else none
  | _ => none

/-- The kernel that `bslz4_lowplanes_block` enters. -/
def blockKernel (value : Untranspose) (raw : Memory) (ne nzEnd : Nat) : Option LowKernel :=
  let filled := if nzEnd < 2 * ne then zeroFill raw nzEnd (2 * ne - nzEnd) else raw
  match value with
  | .lowplanesVbmi =>
      if ne % 64 = 0 ∧ (nzEnd ≤ ne ∨ allZero 64 (offset filled ne) ne) then some .untransVbmi else none
  | .lowplanesAvx2 =>
      if ne % 64 = 0 ∧ (nzEnd ≤ ne ∨ allZero 8 (offset filled ne) ne) then some .widenAvx2 else none
  | _ => none

/-- The guards leave a kernel what it needs, but for a block without pixels and for vsx. -/
theorem listKernel_needs {value : Untranspose} {raw : Memory} {ne nzEnd cut blocksize : Nat}
    {k : LowKernel} (h : listKernel value raw ne nzEnd cut = some k) (hbs : 2 * ne ≤ blocksize) :
    k.Needs ne blocksize ↔ 0 < ne ∧ (value = .lowplanesVsx → 64 ∣ ne) := by
  have hdvd : ∀ {m : Nat}, ne % m = 0 → m ∣ ne := Nat.dvd_of_mod_eq_zero
  have hneeds : ∀ k : LowKernel, k.granularity ∣ ne → 8 ∣ k.granularity →
      (k.Needs ne blocksize ↔ 0 < ne) := by
    intro k hk h8
    have hne : 8 ∣ ne := h8.trans hk
    exact ⟨fun hn => hn.pos, fun hpos => ⟨by omega, hpos, hk, by omega⟩⟩
  cases value with
  | lowplanesVbmi =>
    obtain ⟨hc, hk⟩ := Option.ite_none_right_eq_some.mp h
    cases hk
    rw [hneeds .collectVbmi (hdvd hc.1) (by decide)]
    simp
  | lowplanesAvx2 =>
    obtain ⟨hc, hk⟩ := Option.ite_none_right_eq_some.mp h
    cases hk
    rw [hneeds .collectAvx2 (hdvd hc.1) (by decide)]
    simp
  | lowplanesVsx =>
    obtain ⟨hc, hk⟩ := Option.ite_none_right_eq_some.mp h
    cases hk
    constructor
    · exact fun hn => ⟨hn.pos, fun _ => hn.whole⟩
    · exact fun hn => (hneeds .collectVsx (hn.2 rfl) (by decide)).mpr hn.1
  | lowplanesC =>
    obtain ⟨hc, hk⟩ := Option.ite_none_right_eq_some.mp h
    cases hk
    rw [hneeds .collectC (hdvd hc.1) (by decide)]
    simp
  | kcb | neon | scalar => cases h

theorem blockKernel_needs {value : Untranspose} {raw : Memory} {ne nzEnd blocksize : Nat}
    {k : LowKernel} (h : blockKernel value raw ne nzEnd = some k) (hbs : 2 * ne ≤ blocksize) :
    k.Needs ne blocksize ↔ 0 < ne ∧ (value = .lowplanesVsx → 64 ∣ ne) := by
  have hneeds : ne % 64 = 0 → k.granularity = 64 → (k.Needs ne blocksize ↔ 0 < ne) := by
    intro hmod hk
    have h64 := Nat.dvd_of_mod_eq_zero hmod
    exact ⟨fun hn => hn.pos, fun hpos => ⟨by omega, hpos, hk ▸ h64, by omega⟩⟩
  cases value with
  | lowplanesVbmi =>
    obtain ⟨hc, hk⟩ := Option.ite_none_right_eq_some.mp h
    cases hk
    rw [hneeds hc.1 rfl]
    simp
  | lowplanesAvx2 =>
    obtain ⟨hc, hk⟩ := Option.ite_none_right_eq_some.mp h
    cases hk
    rw [hneeds hc.1 rfl]
    simp
  | lowplanesVsx | lowplanesC | kcb | neon | scalar => cases h

/-- The only division by zero is a kernel's, by the plane size. -/
theorem lowplanesList_fault {K : Kernels} {value : Untranspose} {raw scratch : Memory}
    {ne nzEnd n blocksize : Nat} {mask : Mask} {i0 cut : Nat} {o : Sink (Pixel t)} {e : Err}
    (h : lowplanesList K value raw scratch ne nzEnd n blocksize mask i0 cut o = .error e) :
    ∃ k, listKernel value raw ne nzEnd cut = some k ∧ ne / 8 = 0 := by
  have hopen : ∀ {α β : Type} {raw : Memory} {f : Nat × Memory → Except Err α}
      {k : α → Except Err β}, (∀ r, Fails (fun _ => False) (f r)) →
      (∀ a, Fails (fun _ => False) (k a)) →
      ((openPlanes raw ne nzEnd >>= f) >>= k) = .error e → ne / 8 = 0 := by
    intro α β raw f k hf hk herr
    rcases bind_eq_error.mp herr with hx | ⟨a, -, ha⟩
    · rcases bind_eq_error.mp hx with hp | ⟨r, -, hr⟩
      · unfold openPlanes at hp
        dsimp only at hp
        split at hp
        · assumption
        · cases hp
      · exact ((hf r).of_eq hr).elim
    · exact ((hk a).of_eq ha).elim
  cases value with
  | lowplanesVbmi =>
    rw [lowplanesList] at h
    split at h
    · cases h
    next hmod =>
    dsimp only at h
    split at h
    · cases h
    next hzero =>
    split at h
    · cases h
    next hcut =>
    refine ⟨.collectVbmi, if_pos ⟨by omega, by simpa using hzero, by omega⟩, ?_⟩
    exact hopen (fun _ => Fails.ok _) (fun _ => Fails.ok _) h
  | lowplanesAvx2 =>
    rw [lowplanesList] at h
    split at h
    · cases h
    next hmod =>
    dsimp only at h
    split at h
    · cases h
    next hzero =>
    split at h
    · cases h
    next hcut =>
    refine ⟨.collectAvx2, if_pos ⟨by omega, by simpa using hzero, by omega⟩, ?_⟩
    exact hopen (fun _ => Fails.ok _) (fun _ => Fails.ok _) h
  | lowplanesVsx =>
    rw [lowplanesList] at h
    split at h
    · cases h
    next hmod =>
    dsimp only at h
    split at h
    · cases h
    next hzero =>
    split at h
    · cases h
    next hcut =>
    refine ⟨.collectVsx, if_pos ⟨by omega, by simpa using hzero, by omega⟩, ?_⟩
    exact hopen (fun _ => Fails.ok _) (fun _ => Fails.ok _) h
  | lowplanesC =>
    rw [lowplanesList] at h
    split at h
    · cases h
    dsimp only at h
    split at h
    · cases h
    split at h
    · cases h
    split at h
    · cases h
    · cases h
  | kcb | neon | scalar => cases h

/-! ## The calls of the driver -/

/-- The kernels of one block: the one of the fused list, which gave `r`, and the one of the
untranspose where there is no list. -/
def entered (value : Untranspose) (raw : Memory) (ne nzEnd cut : Nat) (sparse : Bool)
    (r : Except Err (Workspace t × Option (Sink (Pixel t)))) : List LowKernel :=
  (if sparse then (listKernel value raw ne nzEnd cut).toList else []) ++
    match r with
    | .ok (ws, none) => (blockKernel value ws.mem ne nzEnd).toList
    | _ => []

/-- The kernels that block `b` of frame `f` enters. -/
def kernelsAt (E : Platform) (q : Call t nij D) (g : Geometry) (b : Nat) (s : RunState t D)
    (f : Nat) : List LowKernel :=
  match decodeStep E q g f s with
  | .error _ => []
  | .ok (s, nbytes, nzEnd) =>
      let s := raiseFrame q f (maskStep E q g b nzEnd s)
      let ne := g.blockElems t
      let w : Work t := ⟨q.bmask g, b * ne, ne, q.cutAt (s.level f)⟩
      let enter := fun sparse cut o => entered q.pipe.untranspose s.work.mem ne nzEnd cut sparse
        (fusedList E q g w cut nbytes nzEnd sparse s.work o)
      if q.pixels || !q.pipe.untranspose.lowplanes then []
      else
        match q.dot with
        | none => enter true (q.lowCut (s.level f)) (s.out nij f)
        | some (route, _) =>
            enter (blockSparse q g route nbytes) 0 ⟨s.work.tval, s.work.tidx, 0⟩

section

variable {E : Platform} {q : Call t nij D} {g : Geometry} {s : RunState t D} {b f : Nat}

theorem entered_needs {value : Untranspose} {raw : Memory} {ne nzEnd cut blocksize : Nat}
    {sparse : Bool} {r : Except Err (Workspace t × Option (Sink (Pixel t)))} {k : LowKernel}
    (hk : k ∈ entered value raw ne nzEnd cut sparse r) (hbs : 2 * ne ≤ blocksize) :
    k.Needs ne blocksize ↔ 0 < ne ∧ (value = .lowplanesVsx → 64 ∣ ne) := by
  rcases List.mem_append.mp hk with h | h
  · split at h
    · exact listKernel_needs (Option.mem_toList.mp h) hbs
    · cases h
  · split at h
    · exact blockKernel_needs (Option.mem_toList.mp h) hbs
    · cases h

/-- A kernel of a block has what it needs where the block has pixels, for vsx whole groups. -/
theorem kernelsAt_needs {k : LowKernel} (hk : k ∈ kernelsAt E q g b s f) :
    k.Needs (g.blockElems t) g.blocksize ↔
      0 < g.blockElems t ∧ (q.pipe.untranspose = .lowplanesVsx → 64 ∣ g.blockElems t) := by
  unfold kernelsAt at hk
  split at hk
  · cases hk
  dsimp only at hk
  split at hk
  · cases hk
  next hlow =>
  have hbs : 2 * g.blockElems t ≤ g.blocksize := by
    rw [Geometry.blockElems, q.pipe.lowplanes_u16 (by simp_all)]
    exact Nat.mul_div_le g.blocksize 2
  split at hk
  · exact entered_needs hk hbs
  · exact entered_needs hk hbs

theorem fusedList_fault {w : Work t} {lowCut nbytes nzEnd : Nat} {sparse : Bool}
    {ws : Workspace t} {o : Sink (Pixel t)} {e : Err}
    (h : fusedList E q g w lowCut nbytes nzEnd sparse ws o = .error e) :
    (q.pixels || !q.pipe.untranspose.lowplanes) = false ∧
      ∃ k ∈ entered q.pipe.untranspose ws.mem w.n nzEnd lowCut sparse
        (.error e : Except Err (Workspace t × Option (Sink (Pixel t)))), w.n / 8 = 0 := by
  unfold fusedList at h
  split at h
  · next hc =>
    simp only [Bool.and_eq_true, Bool.not_eq_true'] at hc
    rcases bind_eq_error.mp h with hl | ⟨r, -, hok⟩
    · obtain ⟨k, hk, hzero⟩ := lowplanesList_fault hl
      refine ⟨by rw [hc.2, hc.1.1]; rfl, k, ?_, hzero⟩
      apply List.mem_append_left
      rw [if_pos hc.1.2]
      exact Option.mem_toList.mpr hk
    · cases hok
  · cases h

theorem blockPixels_error {i0 nzEnd : Nat} {ws : Workspace t} {e : Err}
    (h : blockPixels E q g f i0 nzEnd ws = .error e) : e = .untranspose := by
  unfold blockPixels at h
  split at h
  · cases h
  rcases bind_eq_error.mp h with hu | ⟨_, -, hok⟩
  · unfold untransposeFull at hu
    dsimp only at hu
    split at hu
    · split at hu
      · cases hu
      · split at hu
        · cases hu
          rfl
        · cases hu
    · split at hu
      · cases hu
        rfl
      · cases hu
  · cases hok

theorem decodeStep_fault (hsize : g.blocksize ≤ 2 ^ 31 - 1) :
    decodeStep E q g f s ≠ .error .fault := by
  intro h
  unfold decodeStep at h
  split at h
  · cases h
  rcases bind_eq_error.mp h with hn | ⟨n, -, hrest⟩
  · cases (readSize_error.mp hn).1
  · rcases bind_eq_error.mp hrest with hd | ⟨r, -, hok⟩
    · have hspec := decodeBlock_spec E.codecs E.sse2 q.pipe.decode
        (blockBytes (q.chunks.bytes f) (s.cursors f) n) s.work.mem hsize
      split at hspec
      · rw [hspec] at hd
        cases hd
      · obtain ⟨raw, nzEnd, hok, -⟩ := hspec
        rw [hok] at hd
        cases hd
    · cases hok

/-- A block step is undefined only by the division of a kernel that it enters. -/
theorem blockStep_fault (hsize : g.blocksize ≤ 2 ^ 31 - 1)
    (h : blockStep E q g b s f = .error .fault) :
    ∃ k ∈ kernelsAt E q g b s f, g.blockElems t / 8 = 0 := by
  rcases bind_eq_error.mp h with hd | ⟨⟨s₁, nbytes, nzEnd⟩, hd, hrest⟩
  · exact absurd hd (decodeStep_fault hsize)
  · unfold kernelsAt
    rw [hd]
    dsimp only at hrest ⊢
    cases hdot : q.dot with
    | none =>
      rw [hdot] at hrest
      rcases bind_eq_error.mp hrest with hplain | ⟨_, -, hok⟩
      · rcases bind_eq_error.mp hplain with hfused | ⟨⟨ws, found⟩, -, hlast⟩
        · obtain ⟨hc, hk⟩ := fusedList_fault hfused
          rw [hc, hfused]
          exact hk
        · cases found with
          | some o => cases hlast
          | none =>
            rcases bind_eq_error.mp hlast with hpx | ⟨_, -, hok⟩
            · cases blockPixels_error hpx
            · cases hok
      · cases hok
    | some d =>
      rw [hdot] at hrest
      rcases bind_eq_error.mp hrest with hblock | ⟨_, -, hok⟩
      · rcases bind_eq_error.mp hblock with hfused | ⟨⟨ws, found⟩, -, hlast⟩
        · obtain ⟨hc, hk⟩ := fusedList_fault hfused
          rw [hc]
          dsimp only
          rw [hfused]
          exact hk
        · cases found with
          | some l => cases hlast
          | none =>
            rcases bind_eq_error.mp hlast with hpx | ⟨_, -, hok⟩
            · cases blockPixels_error hpx
            · cases hok
      · cases hok

theorem tailStep_fault : tailStep E q g s f ≠ .error .fault := by
  intro h
  refine Fails.of_eq (P := (· ≠ .fault)) ?_ h rfl
  apply Fails.bind
  · unfold tailBlockStep
    dsimp only
    split
    · exact Fails.ok _
    apply Fails.bind
    · unfold readSize
      apply Fails.bind (refuse_fails _ (by decide))
      intro _
      apply Fails.bind (refuse_fails _ (by decide))
      exact fun _ => Fails.ok _
    · intro n
      split
      · exact nofun
      apply Fails.bind (refuse_fails _ (by decide))
      intro _
      split
      · exact nofun
      · exact Fails.ok _
  · rintro ⟨s₁, nbytes⟩
    apply Fails.bind
    · unfold rawStep
      dsimp only
      split
      · exact Fails.ok _
      apply Fails.bind (refuse_fails _ (by decide))
      exact fun _ => Fails.ok _
    · intro s₂
      dsimp only
      cases q.dot with
      | none => exact Fails.ok _
      | some d => exact Fails.ok _

theorem checkFrames_fails (ch : Chunks) : Fails (· ≠ .fault) (checkFrames ch) := by
  unfold checkFrames
  apply Fails.bind (refuse_fails _ (by decide))
  intro _
  apply Fails.bind (refuse_fails _ (by decide))
  intro _
  apply Fails.bind (refuse_fails _ (by decide))
  exact fun _ => Fails.ok _

theorem readGeometry_fails : Fails (· ≠ .fault) (readGeometry q) := by
  unfold readGeometry
  split
  · apply Fails.bind (refuse_fails _ (by decide))
    intro _
    apply Fails.bind
    · cases h : (List.range q.chunks.nframes).foldlM (fun _ f => checkPixels q f) () with
      | ok u => trivial
      | error e =>
        obtain ⟨k, _, -, -, hk⟩ := foldlM_range_error h
        refine Fails.of_eq (P := (· ≠ .fault)) ?_ hk
        unfold checkPixels
        apply Fails.bind (refuse_fails _ (by decide))
        exact fun _ => refuse_fails _ (by decide)
    · exact fun _ => Fails.ok _
  · apply Fails.bind (checkFrames_fails _)
    exact fun _ => Fails.ok _

theorem accept_fault : accept q ≠ .error .fault := by
  intro h
  refine Fails.of_eq (P := (· ≠ .fault)) ?_ h rfl
  apply Fails.bind
  · apply Fails.bind (refuse_fails _ (by decide))
    exact fun _ => refuse_fails _ (by decide)
  intro _
  apply Fails.bind (refuse_fails _ (by decide))
  intro _
  apply Fails.bind readGeometry_fails
  intro g
  apply Fails.bind (refuse_fails _ (by decide))
  intro _
  apply Fails.bind (refuse_fails _ (by decide))
  intro _
  apply Fails.bind (refuse_fails _ (by decide))
  intro _
  apply Fails.bind (refuse_fails _ (by decide))
  intro _
  apply Fails.bind (refuse_fails _ (by decide))
  exact fun _ => Fails.ok _

/-- A run is undefined only at a block that it reaches. -/
theorem run_fault (h : run E q s = .error .fault) :
    ∃ g b f s', accept q = .ok g ∧ b < g.total / g.blocksize ∧ f < q.chunks.nframes ∧
      runTo E q g s b f = .ok s' ∧ blockStep E q g b s' f = .error .fault := by
  rcases bind_eq_error.mp h with ha | ⟨g, hg, htails⟩
  · exact absurd ha accept_fault
  rcases bind_eq_error.mp htails with hrows | ⟨s₁, -, htail⟩
  · obtain ⟨b, s₁, hb, hs₁, hrow⟩ := foldlM_range_error hrows
    obtain ⟨f, s₂, hf, hs₂, hstep⟩ := foldlM_range_error hrow
    exact ⟨g, b, f, s₂, hg, hb, hf, bind_eq_ok.mpr ⟨s₁, hs₁, hs₂⟩, hstep⟩
  · obtain ⟨f, s₂, -, -, hstep⟩ := foldlM_range_error htail
    exact absurd hstep tailStep_fault

/-! ## The low-planes collect on every header -/

/-- The full block `b` of frame `f` is reached in state `s'`. -/
def ReachesBlock (E : Platform) (q : Call t nij D) (s : RunState t D) (g : Geometry) (b f : Nat)
    (s' : RunState t D) : Prop :=
  accept q = .ok g ∧ b < g.total / g.blocksize ∧ f < q.chunks.nframes ∧ runTo E q g s b f = .ok s'

/-- Every low-planes kernel that the run enters gets what it needs, and no division by zero stops
the run. -/
structure LowplanesSound (E : Platform) (q : Call t nij D) (s : RunState t D) : Prop where
  needs : ∀ g b f s', ReachesBlock E q s g b f s' → ∀ k ∈ kernelsAt E q g b s' f,
    k.Needs (g.blockElems t) g.blocksize
  defined : run E q s ≠ .error .fault

/-- The kernels get what they need exactly where every block that enters one has pixels and, for
vsx, whole groups of 64. -/
theorem lowplanes_sound_iff (E : Platform) (q : Call t nij D) (s : RunState t D) :
    LowplanesSound E q s ↔
      ∀ g, accept q = .ok g →
        (0 < g.blockElems t ∧ (q.pipe.untranspose = .lowplanesVsx → 64 ∣ g.blockElems t)) ∨
          ∀ b f s', ReachesBlock E q s g b f s' → kernelsAt E q g b s' f = [] := by
  constructor
  · intro h g hg
    by_contra hbad
    obtain ⟨hgeom, hsome⟩ := not_or.mp hbad
    apply hsome
    intro b f s' hreach
    by_contra hne
    obtain ⟨k, hk⟩ := List.exists_mem_of_ne_nil _ hne
    exact hgeom ((kernelsAt_needs hk).mp (h.needs g b f s' hreach k hk))
  · intro h
    have hneeds : ∀ g b f s', ReachesBlock E q s g b f s' → ∀ k ∈ kernelsAt E q g b s' f,
        k.Needs (g.blockElems t) g.blocksize := by
      intro g b f s' hreach k hk
      rcases h g hreach.1 with hgeom | hnone
      · exact (kernelsAt_needs hk).mpr hgeom
      · rw [hnone b f s' hreach] at hk
        cases hk
    refine ⟨hneeds, fun hfault => ?_⟩
    obtain ⟨g, b, f, s', hg, hb, hf, hs', hstep⟩ := run_fault hfault
    have hsize : g.blocksize ≤ 2 ^ 31 - 1 := by
      have hsmall := (accept_ok.mp hg).small
      have hle : g.blocksize ≤ g.total := by
        by_contra hlt
        rw [Nat.div_eq_of_lt (by omega)] at hb
        omega
      omega
    obtain ⟨k, hk, hzero⟩ := blockStep_fault hsize hstep
    have hplane := (hneeds g b f s' ⟨hg, hb, hf, hs'⟩ k hk).plane
    omega

end

/-- The reference decoder and the scalar kernels. -/
def Platform.plain : Platform where
  codecs := ⟨fun src cap => Lz4.plainDecode cap src, fun _ _ => none⟩
  kernels := .scalarOnly
  sse2 := false
  avx512 := false

/-- One pixel in two blocks of one byte. -/
def oneByteBlocks : Chunks where
  nframes := 1
  bytes := fun _ => [0#8, 0#8, 0#8, 0#8, 0#8, 0#8, 0#8, 2#8, 0#8, 0#8, 0#8, 1#8,
    0#8, 0#8, 0#8, 2#8, 0x10#8, 5#8, 0#8, 0#8, 0#8, 2#8, 0x10#8, 0#8]
  nframes_lt := oneFrame_lt
  length_lt := fun _ => by decide

def oneByteCall : Call .u16 1 Unit where
  chunks := oneByteBlocks
  mask := fun _ => 1#8
  cut := [0#16]
  pipe := ⟨.lz4Stock, .pixel, .lowplanesVbmi, .scalar, fun _ => rfl, fun h => absurd rfl h⟩
  dot := none
  top := none
  workspaceLen := 3

/-- Memory that holds zeros. -/
def RunState.zeros (powder : D) : RunState t D where
  work := ⟨fun _ => 0#8, fun _ => 0#8, fun _ => 0, fun _ => 0#_⟩
  vals := fun _ => 0#_
  adr := fun _ => 0
  npx := fun _ => 0
  cursors := fun _ => 0
  level := fun _ => 0
  nabove := fun _ => 0
  powder := fun _ _ => powder

/-- A block size of one byte: the division by the plane size is reached. -/
theorem not_lowplanes_sound : ¬LowplanesSound .plain oneByteCall (.zeros ()) := fun h =>
  h.defined rfl

end Bslz4ToSparse.Pipeline
