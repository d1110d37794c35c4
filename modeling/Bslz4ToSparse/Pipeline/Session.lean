import Bslz4ToSparse.Pipeline.Resolve

/-!
# A session with a matrix (src/__init__.py)

A `chunk2sparseCSC` object keeps the pipeline, the dot and the layout of its matrix from call to
call. A call may settle the codec and the mask step, and its block size may ask for another
layout. The layouts are kept by the family, which other objects may share.
-/

namespace Bslz4ToSparse.Pipeline

open Foundation Matrix Steps
open Lz4 (Byte)

variable {F : Type}

/-- `_blocksize_bytes`. -/
def blocksizeBytes (cmp : List Byte) : Nat :=
  if cmp.length < 12 then defaultBlockBytes else headerBlocksize cmp

/-- `_codec_from_pipeline`. -/
def codecFromPipeline (arg : PipelineArg) : Option Codec :=
  arg.decode.map fun decode => if decode = .zstd then .zstd else .lz4

/-- What stays of a `chunk2sparseCSC` object: the pipeline as it was asked for, and whether every
pixel of its mask is active. -/
structure CscObject (F : Type) where
  host : Host
  family : Family F
  t : Dtype
  arg : PipelineArg
  allValid : Bool

/-- What changes from call to call. -/
structure Session (F : Type) where
  codecPending : Bool
  codec : Codec
  pipeline : StepValues
  maskPending : Bool
  dot : DotName
  layout : Layout F
  layouts : Layouts F           -- of the family

/-- What a call raises before the driver runs. -/
inductive SessionError where
  | resolve (why : ResolveError)
  | layout (dot : DotName) (why : LayoutFailure) (auto : DotName)
  deriving DecidableEq, Repr

/-- A call, with the first chunk of its batch. `planes` is what the test decode of `_settle_mask`
finds: most masked pixels of the first frame hold 65535. -/
inductive Input where
  | chunks (cmp : List Byte) (planes : Bool)
  | frames

/-- What a call gives the driver. A cut or a request for top pixels that is refused is refused
after this. -/
structure Passed (F : Type) where
  pipe : StepValues
  layout : Layout F

namespace CscObject

variable [DecidableEq F] [Zero F] [One F] [Inhabited F] (obj : CscObject F)

/-- `auto_dot` for this object. -/
def autoDot (blockElems : Option Nat) : DotName :=
  Matrix.autoDot (analyse obj.family.nm) obj.host.paddedAvx2 blockElems (intPixels32 obj.t)

/-- The block size that the object is made for. -/
def firstBlock : Nat := defaultBlockBytes / obj.t.size

/-- `_resolve`. -/
def resolve (codec : Codec) : Except SessionError StepValues :=
  (Pipeline.resolve obj.host obj.t obj.arg codec obj.allValid
    (obj.autoDot (some obj.firstBlock))).mapError .resolve

/-- `_build`, with the dot that the message names. -/
def build (layouts : Layouts F) (dot : DotName) (blockElems : Nat) :
    Layouts F × Except SessionError (Layout F) :=
  let r := obj.family.layout layouts dot blockElems obj.t
  (r.1, r.2.mapError fun why => .layout dot why
    (Matrix.autoDot (analyse obj.family.nm) false none (intPixels32 obj.t)))

/-- `__init__`. -/
def create (codec : Option Codec) (layouts : Layouts F) : Except SessionError (Session F) := do
  let codec := codec <|> codecFromPipeline obj.arg
  let pipeline ← obj.resolve (codec.getD .lz4)
  let r := obj.build layouts pipeline.dot obj.firstBlock
  let layout ← r.2
  return {
    codecPending := codec.isNone
    codec := codec.getD .lz4
    pipeline
    maskPending := obj.arg.mask.isNone && obj.t == .u16 && !obj.allValid
    dot := pipeline.dot
    layout
    layouts := r.1 }

/-- `_settle_codec`. -/
def settleCodec (s : Session F) (cmp : List Byte) : Session F × Except SessionError Unit :=
  let s := { s with codecPending := false }
  if codecOfChunk cmp = s.codec then (s, .ok ())
  else
    let s := { s with codec := codecOfChunk cmp }
    match obj.resolve s.codec with
    | .error why => (s, .error why)
    | .ok pipeline => ({ s with pipeline }, .ok ())

/-- `_settle_mask`. -/
def settleMask (s : Session F) (cmp : List Byte) (planes : Bool) : Session F :=
  let s := { s with maskPending := false }
  let blockElems := blocksizeBytes cmp / 2
  if 8192 < blockElems ∨ blockElems % 64 ≠ 0 then s
  else if planes then { s with pipeline := { s.pipeline with mask := .planes } }
  else s

/-- The automatic dot of another block size, chosen again by `_ensure_capacity`. -/
def rechoose (s : Session F) (be : Nat) : Session F :=
  if obj.arg.dot.isNone then
    let dot := obj.autoDot (some be)
    if dot ≠ s.dot then { s with dot, pipeline := { s.pipeline with dot } } else s
  else s

/-- `_ensure_capacity`, as far as the layout goes. -/
def ensureCapacity (s : Session F) (blocksize : Nat) : Session F × Except SessionError Unit :=
  let be := blocksize / obj.t.size
  if s.layout.blockElems.any (· != be) then
    let s := obj.rechoose s be
    let r := obj.build s.layouts s.dot be
    let s := { s with layouts := r.1 }
    match r.2 with
    | .error why => (s, .error why)
    | .ok layout => ({ s with layout }, .ok ())
  else (s, .ok ())

/-- `_run`, up to the driver. -/
def run (s : Session F) : Input → Session F × Except SessionError (Passed F)
  | .frames =>
    -- the pipeline is copied before the layout may change
    let pipe := { s.pipeline with decode := .pixels }
    let r := obj.ensureCapacity s defaultBlockBytes
    (r.1, r.2.map fun _ => ⟨pipe, r.1.layout⟩)
  | .chunks cmp planes =>
    let r := if s.codecPending then obj.settleCodec s cmp else (s, .ok ())
    match r.2 with
    | .error why => (r.1, .error why)
    | .ok _ =>
      let s := if r.1.maskPending then settleMask r.1 cmp planes else r.1
      let r := obj.ensureCapacity s (blocksizeBytes cmp)
      (r.1, r.2.map fun _ => ⟨r.1.pipeline, r.1.layout⟩)

/-- The pixels of a block of a call. -/
def blockElems : Input → Nat
  | .frames => obj.firstBlock
  | .chunks cmp _ => blocksizeBytes cmp / obj.t.size

/-! ## What stays true -/

/-- The dot that the object starts with. -/
def firstDot : DotName := obj.autoDot (some obj.firstBlock)

/-- What holds between the calls on an object with the automatic dot. -/
structure Consistent (s : Session F) : Prop where
  fixed : obj.family.fixed = none
  kept : obj.family.Kept s.layouts
  layout : ∃ be, obj.family.build s.dot be = .ok s.layout
  pipeline : s.pipeline.dot = s.dot
  block : s.dot.isBlock = true → s.dot = obj.firstDot
  pending : s.codecPending = true → s.dot = obj.firstDot

variable {obj} {s : Session F}

theorem firstBlock_le (obj : CscObject F) : obj.firstBlock ≤ 8192 :=
  Nat.div_le_self defaultBlockBytes obj.t.size

theorem firstBlock_pos (obj : CscObject F) : 1 ≤ obj.firstBlock := by
  unfold firstBlock defaultBlockBytes
  cases obj.t <;> decide

/-- At the first block size the automatic dot is the first one, at another it is, or no block dot. -/
theorem autoDot_isBlock {be : Nat} (h : (obj.autoDot (some be)).isBlock = true) :
    obj.autoDot (some be) = obj.firstDot :=
  autoDot_block _ _ _ obj.firstBlock_le h

theorem build_autoDot (hfixed : obj.family.fixed = none) (be : Nat) :
    ∃ lay, obj.family.build (obj.autoDot (some be)) be = .ok lay :=
  obj.family.build_autoDot hfixed _ be _

/-- `_build` of a dot that the family can build. -/
theorem build_kept {layouts : Layouts F} (h : obj.family.Kept layouts) {dot : DotName} {be : Nat}
    (hbe : 1 ≤ be) (hbuild : ∃ lay, obj.family.build dot be = .ok lay) :
    obj.family.Kept (obj.build layouts dot be).1 ∧ ∃ lay, (obj.build layouts dot be).2 = .ok lay ∧
      ∃ be', obj.family.build dot be' = .ok lay ∧ (dot.isBlock = true → be' = be) := by
  obtain ⟨hkept, hanswer⟩ := Family.layout_kept h dot be obj.t
  obtain ⟨lay, hlay⟩ := Family.layout_answers layouts obj.t hbe hbuild
  refine ⟨hkept, lay, ?_, hanswer lay hlay⟩
  rw [build, hlay]
  rfl

/-- The dot chosen again is the automatic one of the block size, in the pipeline as well. -/
theorem rechoose_eq (hauto : obj.arg.dot = none) (hpipe : s.pipeline.dot = s.dot) (be : Nat) :
    obj.rechoose s be = { s with
      dot := obj.autoDot (some be)
      pipeline := { s.pipeline with dot := obj.autoDot (some be) } } := by
  unfold rechoose
  rw [hauto, Option.isNone_none, if_pos rfl]
  by_cases hne : obj.autoDot (some be) ≠ s.dot
  · rw [if_pos hne]
  · have hsame : { s.pipeline with dot := s.dot } = s.pipeline := by rw [← hpipe]
    rw [if_neg hne, not_not.mp hne, hsame]

/-- `_ensure_capacity` finds a layout for the block size, or for none, or makes one. The first
block size keeps the dot. -/
theorem ensureCapacity_consistent (hauto : obj.arg.dot = none) (h : obj.Consistent s)
    (blocksize : Nat) (hbe : 1 ≤ blocksize / obj.t.size)
    (hfirst : s.codecPending = true → blocksize / obj.t.size = obj.firstBlock) :
    ∃ s', obj.ensureCapacity s blocksize = (s', .ok ()) ∧ obj.Consistent s' ∧
      (∀ be ∈ s'.layout.blockElems, be = blocksize / obj.t.size) ∧
      (blocksize / obj.t.size = obj.firstBlock → s'.dot = s.dot) := by
  obtain ⟨be₀, hbuilt⟩ := h.layout
  obtain ⟨-, -, hblock⟩ := Family.build_ok hbuilt
  by_cases hother : s.layout.blockElems.any (· != blocksize / obj.t.size) = true
  · -- the layout was built for another block size, so its dot is a block dot: the first one
    have hdot : s.dot = obj.firstDot := by
      apply h.block
      by_contra hfree
      rw [hblock, if_neg hfree] at hother
      cases hother
    obtain ⟨hkept, lay, hlay, be', hbuild, hsize⟩ := build_kept h.kept hbe
      (build_autoDot h.fixed (blocksize / obj.t.size))
    refine ⟨{ s with
        dot := obj.autoDot (some (blocksize / obj.t.size))
        pipeline := { s.pipeline with dot := obj.autoDot (some (blocksize / obj.t.size)) }
        layouts := (obj.build s.layouts (obj.autoDot (some (blocksize / obj.t.size)))
          (blocksize / obj.t.size)).1
        layout := lay }, ?_, ⟨h.fixed, hkept, ⟨be', hbuild⟩, rfl, autoDot_isBlock, ?_⟩, ?_, ?_⟩
    · rw [ensureCapacity]
      simp only [rechoose_eq hauto h.pipeline, if_pos hother, hlay]
    · intro hpending
      exact congrArg (fun be => obj.autoDot (some be)) (hfirst hpending)
    · intro be hmem
      have hlayBlock := (Family.build_ok hbuild).2.2
      rw [Option.mem_def, hlayBlock] at hmem
      split at hmem
      next hb => rw [← Option.some_inj.mp hmem, hsize hb]
      · cases hmem
    · intro heq
      rw [hdot]
      exact congrArg (fun be => obj.autoDot (some be)) heq
  · refine ⟨s, if_neg hother, h, fun be hmem => ?_, fun _ => rfl⟩
    rw [Option.mem_def.mp hmem] at hother
    simpa using hother

/-- Settling the codec resolves the pipeline with the first dot, which is still the dot. -/
theorem settleCodec_consistent (hauto : obj.arg.dot = none) (h : obj.Consistent s)
    (hpending : s.codecPending = true) (cmp : List Byte) :
    obj.Consistent (obj.settleCodec s cmp).1 ∧ (obj.settleCodec s cmp).1.codecPending = false := by
  unfold settleCodec
  by_cases hsame : codecOfChunk cmp = s.codec
  · rw [if_pos hsame]
    exact ⟨{ h with pending := fun hp => absurd hp Bool.false_ne_true }, rfl⟩
  · simp only [if_neg hsame]
    cases hresolve : obj.resolve (codecOfChunk cmp) with
    | error why => exact ⟨{ h with pending := fun hp => absurd hp Bool.false_ne_true }, rfl⟩
    | ok pipeline =>
      have hdot : pipeline.dot = s.dot := by
        rw [(resolve_ok (mapError_ok hresolve)).dot, hauto, h.pending hpending]
        rfl
      exact ⟨{ h with pipeline := hdot, pending := fun hp => absurd hp Bool.false_ne_true }, rfl⟩

omit [DecidableEq F] [Zero F] [One F] [Inhabited F] in
theorem settleMask_eq (s : Session F) (cmp : List Byte) (planes : Bool) :
    ∃ mask, settleMask s cmp planes =
      { s with maskPending := false, pipeline := { s.pipeline with mask } } := by
  unfold settleMask
  by_cases hplanes : 8192 < blocksizeBytes cmp / 2 ∨ blocksizeBytes cmp / 2 % 64 ≠ 0
  · exact ⟨s.pipeline.mask, if_pos hplanes⟩
  · simp only [if_neg hplanes]
    cases planes with
    | false => exact ⟨s.pipeline.mask, rfl⟩
    | true => exact ⟨.planes, rfl⟩

theorem resolve_error {codec : Codec} {e : SessionError} (h : obj.resolve codec = .error e) :
    ∃ why, e = .resolve why := by
  unfold resolve at h
  cases hresolve : Pipeline.resolve obj.host obj.t obj.arg codec obj.allValid
      (obj.autoDot (some obj.firstBlock)) with
  | ok v =>
    rw [hresolve] at h
    cases h
  | error why =>
    rw [hresolve] at h
    exact ⟨why, (Except.error.inj h).symm⟩

theorem settleCodec_error {cmp : List Byte} {e : SessionError}
    (h : (obj.settleCodec s cmp).2 = .error e) : ∃ why, e = .resolve why := by
  unfold settleCodec at h
  by_cases hsame : codecOfChunk cmp = s.codec
  · rw [if_pos hsame] at h
    cases h
  · simp only [if_neg hsame] at h
    cases hresolve : obj.resolve (codecOfChunk cmp) with
    | ok v =>
      rw [hresolve] at h
      cases h
    | error why =>
      rw [hresolve] at h
      obtain rfl := Except.error.inj h
      exact resolve_error hresolve

/-- What an object is made as. -/
theorem create_consistent (hauto : obj.arg.dot = none) {codec : Option Codec} {layouts : Layouts F}
    (hkept : obj.family.Kept layouts) (h : obj.create codec layouts = .ok s) : obj.Consistent s := by
  unfold create at h
  obtain ⟨pipeline, hresolve, h⟩ := bind_eq_ok.mp h
  obtain ⟨lay, hlay, h⟩ := bind_eq_ok.mp h
  obtain rfl := Except.ok.inj h
  have hdot : pipeline.dot = obj.firstDot := by
    rw [(resolve_ok (mapError_ok hresolve)).dot, hauto]
    rfl
  obtain ⟨hkept', hanswer⟩ := Family.layout_kept hkept pipeline.dot obj.firstBlock obj.t
  obtain ⟨be, hbuild, -⟩ := hanswer lay (mapError_ok hlay)
  refine ⟨?_, hkept', ⟨be, hbuild⟩, rfl, fun _ => hdot, fun _ => hdot⟩
  apply Family.fixed_none_of_build hbuild
  rw [hdot]
  exact autoDot_not_int _ _ _ _

/-- A matrix that is not a fixed-point one is never refused. -/
theorem create_error (hauto : obj.arg.dot = none) (hfixed : obj.family.fixed = none)
    {codec : Option Codec} {layouts : Layouts F} (hkept : obj.family.Kept layouts) {e : SessionError}
    (h : obj.create codec layouts = .error e) : ∃ why, e = .resolve why := by
  unfold create at h
  cases hresolve : obj.resolve ((codec <|> codecFromPipeline obj.arg).getD .lz4) with
  | error why =>
    simp only [hresolve] at h
    obtain rfl := Except.error.inj h
    exact resolve_error hresolve
  | ok pipeline =>
    have hdot : pipeline.dot = obj.autoDot (some obj.firstBlock) := by
      rw [(resolve_ok (mapError_ok hresolve)).dot, hauto]
      rfl
    obtain ⟨-, lay, hlay, -⟩ := build_kept hkept obj.firstBlock_pos
      (build_autoDot hfixed obj.firstBlock)
    simp only [hresolve, bind, Except.bind, hdot, hlay] at h
    cases h

/-- The call of a chunk once the codec is settled. -/
theorem ensureCapacity_settled (hauto : obj.arg.dot = none) (h : obj.Consistent s)
    (hpending : s.codecPending = false) (cmp : List Byte) (planes : Bool)
    (hbe : 1 ≤ blocksizeBytes cmp / obj.t.size) :
    ∃ s', obj.ensureCapacity (if s.maskPending then settleMask s cmp planes else s)
        (blocksizeBytes cmp) = (s', .ok ()) ∧ obj.Consistent s' ∧
      ∀ be ∈ s'.layout.blockElems, be = blocksizeBytes cmp / obj.t.size := by
  by_cases hmask : s.maskPending = true
  · obtain ⟨mask, heq⟩ := settleMask_eq s cmp planes
    have hs : obj.Consistent (settleMask s cmp planes) := by
      rw [heq]
      exact { h with }
    have hstill : (settleMask s cmp planes).codecPending = false := by rw [heq, hpending]
    obtain ⟨s', hs', hc, hsize, -⟩ := ensureCapacity_consistent hauto hs (blocksizeBytes cmp) hbe
      fun hp => absurd (hstill.symm.trans hp) Bool.false_ne_true
    exact ⟨s', by rw [if_pos hmask, hs'], hc, hsize⟩
  · obtain ⟨s', hs', hc, hsize, -⟩ := ensureCapacity_consistent hauto h (blocksizeBytes cmp) hbe
      fun hp => absurd (hpending.symm.trans hp) Bool.false_ne_true
    exact ⟨s', by rw [if_neg hmask, hs'], hc, hsize⟩

/-- One call: the layout is not refused, and what the driver is given goes together. -/
theorem run_consistent (hauto : obj.arg.dot = none) (h : obj.Consistent s) {i : Input}
    (hi : 1 ≤ obj.blockElems i) :
    obj.Consistent (obj.run s i).1 ∧
    (∀ e, (obj.run s i).2 = .error e → ∃ why, e = .resolve why) ∧
    ∀ p, (obj.run s i).2 = .ok p → p.layout = (obj.run s i).1.layout ∧
      p.pipe.dot = (obj.run s i).1.dot ∧ ∀ be ∈ p.layout.blockElems, be = obj.blockElems i := by
  cases i with
  | frames =>
    obtain ⟨s', hs', hc, hsize, hdot⟩ := ensureCapacity_consistent hauto h defaultBlockBytes hi
      fun _ => rfl
    simp only [run, hs']
    refine ⟨hc, fun e he => (by cases he), fun p hp => ?_⟩
    obtain rfl := Except.ok.inj hp
    exact ⟨rfl, h.pipeline.trans (hdot rfl).symm, hsize⟩
  | chunks cmp planes =>
    -- the codec is settled by now, or settled here
    have hsettled : ∃ r, (if s.codecPending then obj.settleCodec s cmp else (s, .ok ())) = r ∧
        obj.Consistent r.1 ∧ r.1.codecPending = false ∧
        ∀ e, r.2 = .error e → ∃ why, e = .resolve why := by
      by_cases hpending : s.codecPending = true
      · obtain ⟨hc, hdone⟩ := settleCodec_consistent hauto h hpending cmp
        exact ⟨_, if_pos hpending, hc, hdone, fun e he => settleCodec_error he⟩
      · exact ⟨_, if_neg hpending, h, Bool.eq_false_iff.mpr hpending, fun e he => (by cases he)⟩
    obtain ⟨⟨s₁, settled⟩, hr, hc₁, hdone, herr⟩ := hsettled
    cases settled with
    | error e =>
      simp only [run, hr]
      refine ⟨hc₁, fun e' he => ?_, fun p hp => (by cases hp)⟩
      obtain rfl := Except.error.inj he
      exact herr e rfl
    | ok _ =>
      obtain ⟨s', hs', hc, hsize⟩ := ensureCapacity_settled hauto hc₁ hdone cmp planes hi
      simp only [run, hr, hs']
      refine ⟨hc, fun e he => (by cases he), fun p hp => ?_⟩
      obtain rfl := Except.ok.inj hp
      exact ⟨rfl, hc.pipeline, hsize⟩

/-! ## Sessions -/

/-- What happens to an object: its calls, and what other objects of its family ask for. -/
inductive Event where
  | call (i : Input)
  | sibling (dot : DotName) (blockElems : Nat) (t : Dtype)

variable (obj) in
/-- The object after an event. -/
def step (s : Session F) : Event → Session F
  | .call i => (obj.run s i).1
  | .sibling dot blockElems t => { s with layouts := (obj.family.layout s.layouts dot blockElems t).1 }

variable (obj) in
/-- A call on blocks of at least one pixel. -/
def OnePixel : Event → Prop
  | .call i => 1 ≤ obj.blockElems i
  | .sibling _ _ _ => True

/-- The layouts of a family after requests of other objects. -/
def requested (f : Family F) (requests : List (DotName × Nat × Dtype)) : Layouts F :=
  requests.foldl (fun layouts q => (f.layout layouts q.1 q.2.1 q.2.2).1) []

theorem requested_kept (f : Family F) (requests : List (DotName × Nat × Dtype)) :
    f.Kept (requested f requests) := by
  suffices hfrom : ∀ layouts, f.Kept layouts →
      f.Kept (requests.foldl (fun layouts q => (f.layout layouts q.1 q.2.1 q.2.2).1) layouts) from
    hfrom [] Family.kept_nil
  induction requests with
  | nil => exact fun layouts h => h
  | cons q requests ih => exact fun layouts h => ih _ (Family.layout_kept h q.1 q.2.1 q.2.2).1

theorem step_consistent (hauto : obj.arg.dot = none) (h : obj.Consistent s) {e : Event}
    (he : obj.OnePixel e) : obj.Consistent (obj.step s e) := by
  cases e with
  | call i => exact (run_consistent hauto h he).1
  | sibling dot blockElems t => exact { h with kept := (Family.layout_kept h.kept dot blockElems t).1 }

theorem steps_consistent (hauto : obj.arg.dot = none) (h : obj.Consistent s) {events : List Event}
    (hevents : ∀ e ∈ events, obj.OnePixel e) : obj.Consistent (events.foldl obj.step s) := by
  induction events generalizing s with
  | nil => exact h
  | cons e events ih =>
    exact ih (step_consistent hauto h (hevents e List.mem_cons_self))
      fun e' he' => hevents e' (List.mem_cons_of_mem e he')

/-- In every session with the automatic dot the layout is never refused, neither when the object is
made from a matrix nor by a call, and a call passes the driver a pipeline with the dot that the
object reports and the layout of this dot, built for no block size or for the one of the call. -/
theorem session_consistent (obj : CscObject F) (hauto : obj.arg.dot = none) (codec : Option Codec)
    (requests : List (DotName × Nat × Dtype)) :
    (obj.family.fixed = none → ∀ e, obj.create codec (requested obj.family requests) = .error e →
      ∃ why, e = .resolve why) ∧
    ∀ s, obj.create codec (requested obj.family requests) = .ok s →
      ∀ events : List Event, (∀ e ∈ events, obj.OnePixel e) → ∀ i, obj.OnePixel (.call i) →
        (∀ e, (obj.run (events.foldl obj.step s) i).2 = .error e → ∃ why, e = .resolve why) ∧
        ∀ p, (obj.run (events.foldl obj.step s) i).2 = .ok p →
          p.pipe.dot = p.layout.dot ∧ p.layout.dot = (obj.run (events.foldl obj.step s) i).1.dot ∧
          (p.layout.blockElems = none ∨ p.layout.blockElems = some (obj.blockElems i)) ∧
          ∃ be, obj.family.build p.layout.dot be = .ok p.layout := by
  refine ⟨fun hfixed e => create_error hauto hfixed (requested_kept _ requests), ?_⟩
  intro s hs events hevents i hi
  have hsession := steps_consistent hauto
    (create_consistent hauto (requested_kept _ requests) hs) hevents
  obtain ⟨hc, herr, hpassed⟩ := run_consistent hauto hsession hi
  refine ⟨herr, fun p hp => ?_⟩
  obtain ⟨hlayout, hdot, hsize⟩ := hpassed p hp
  obtain ⟨be, hbuild⟩ := hc.layout
  have hlaid : p.layout.dot = (obj.run (events.foldl obj.step s) i).1.dot := by
    rw [hlayout]
    exact (Family.build_ok hbuild).2.1
  refine ⟨hdot.trans hlaid.symm, hlaid, ?_, be, ?_⟩
  · cases hblock : p.layout.blockElems with
    | none => exact Or.inl rfl
    | some be' => exact Or.inr (congrArg some (hsize be' hblock))
  · rw [hlaid, hlayout]
    exact hbuild

theorem splitPixel_mono : ∀ p, p < 3 → [0, 0, 3, 3].getD p 0 ≤ [0, 0, 3, 3].getD (p + 1) 0 := by decide

/-- A pixel that reaches three bins, between two that reach none. -/
def splitPixel : NormalMatrix Nat where
  data := [2, 3, 4]
  indices := [0, 1, 2]
  indptr := [0, 0, 3, 3]
  nbins := 3
  npix := 3
  length_data := rfl
  length_indptr := rfl
  indptr_zero := rfl
  indptr_mono := splitPixel_mono
  indptr_last := rfl
  indices_lt := threeIndices_lt
  nbins_lt := threeBins_lt
  entries_lt := threeEntries_lt

theorem noFixed (m : NormalMatrix Nat) :
    ∀ fx ∈ (none : Option ((w : Nat) × FixedPointMatrix Nat w)), fx.2.nm = m :=
  fun _ h => absurd h (Option.not_mem_none _)

/-- An object for uint16 pixels; its dot is padded. -/
def splitObject : CscObject Nat where
  host := ⟨true, fun u => u == .lowplanesC || u == .kcb, fun c => c == .scalar, false⟩
  family := ⟨splitPixel, none, noFixed splitPixel⟩
  t := .u16
  arg := ⟨none, none, none, none, none, none⟩
  allValid := true

/-- A call on plain frames comes through. -/
theorem session_consistent_split :
    ∃ s, splitObject.create none [] = .ok s ∧ (∃ p, (splitObject.run s .frames).2 = .ok p) ∧
      ∀ events : List Event, (∀ e ∈ events, splitObject.OnePixel e) →
        ∀ i, splitObject.OnePixel (.call i) →
          (∀ e, (splitObject.run (events.foldl splitObject.step s) i).2 = .error e →
            ∃ why, e = .resolve why) ∧
          ∀ p, (splitObject.run (events.foldl splitObject.step s) i).2 = .ok p →
            p.pipe.dot = p.layout.dot ∧
            p.layout.dot = (splitObject.run (events.foldl splitObject.step s) i).1.dot ∧
            (p.layout.blockElems = none ∨ p.layout.blockElems = some (splitObject.blockElems i)) ∧
            ∃ be, splitObject.family.build p.layout.dot be = .ok p.layout := by
  have hok : (splitObject.create none []).isOk = true := by decide
  cases hs : splitObject.create none [] with
  | error e =>
    rw [hs] at hok
    cases hok
  | ok s =>
    have hcall : ((splitObject.create none []).bind fun s => (splitObject.run s .frames).2).isOk = true := by decide
    rw [hs] at hcall
    change (splitObject.run s .frames).2.isOk = true at hcall
    refine ⟨s, rfl, ?_, (session_consistent splitObject rfl none []).2 s hs⟩
    cases hp : (splitObject.run s .frames).2 with
    | ok p => exact ⟨p, rfl⟩
    | error e =>
      rw [hp] at hcall
      cases hcall

end CscObject

end Bslz4ToSparse.Pipeline
