import Bslz4ToSparse.Conveyor.Sinks
import Bslz4ToSparse.Conveyor.Source
import Bslz4ToSparse.Foundation.Ragged
import Bslz4ToSparse.Foundation.Tiles
import Bslz4ToSparse.Pixel

/-!
# ImageD11's sparse file (src/conveyor/_sparsefile.py)

A sink that writes a file for every unit, which has to be a whole file of the input: the pixels of
its frames one after another, their number for each frame, and the powder beside them.
-/

namespace Bslz4ToSparse.Conveyor

open Foundation
open Lz4 (Byte)

variable {t : Dtype} {P : Type}

/-- What the decoder gives for a batch: the pixels of every frame (value and place), and a row of the powder for
each. -/
structure Results (t : Dtype) (P : Type) where
  frames : List (List (Pixel t × Nat))
  powder : Option (List (List P))

/-- A block of an `IntegratorStack`: its rows, and whether they are sums of counts. -/
structure StackBlock where
  name : String
  first : Nat
  last : Nat
  counts : Bool
  deriving DecidableEq, Repr

/-- A dataset of the powder. -/
structure PowderSet (P : Type) where
  rows : List (List P)
  scale : Option Int
  integrator : Option String

/-- The group of a sparse file. -/
structure SparseFile (t : Dtype) (P : Type) where
  nframes : Nat
  shape0 : Nat
  shape1 : Nat
  npx : Nat
  row : List (BitVec 16)
  col : List (BitVec 16)
  intensity : List (Pixel t)
  nnz : List (BitVec 32)
  powder : List (String × PowderSet P)

/-- The arguments of the sink, and what it is told at the begin; `keepLarge` is `keep_large_objects` when
`min_pixels` is given, and the powder is stored as it comes. -/
structure SparseSettings (t : Dtype) where
  shape0 : Nat
  shape1 : Nat
  powderFits : Bool                   -- `check_powder_size`
  name : String → String
  integrator : Option String
  exact : Bool                        -- the powder is of integers
  scale : Option Int                  -- `powder_scale`
  stack : Option (List StackBlock)
  keepLarge : Option (List (Pixel t × Nat) → List Bool)

/-- `held`, `powder` and `files`, and what the sink has left under each name in `out_dir`. -/
structure SparseState (t : Dtype) (P : Type) where
  held : List (List (Pixel t × Nat))
  powder : List (List (List P))
  files : List String
  dir : String → Option (SparseFile t P)

/-- `os.replace(out + ".tmp", out)`. -/
def replaceFile (dir : String → Option (SparseFile t P)) (out : String) (file : SparseFile t P) :
    String → Option (SparseFile t P) := fun name =>
  if name = out then some file else if name = out ++ ".tmp" then none else dir name

namespace SparseSettings

variable (c : SparseSettings t)

/-- `v[keep], ix[keep]`. -/
def cleaned (pixels : List (Pixel t × Nat)) : List (Pixel t × Nat) :=
  match c.keepLarge with
  | none => pixels
  | some keep => if pixels = [] then pixels else ((pixels.zip (keep pixels)).filter Prod.snd).map Prod.fst

/-- The datasets of the powder. -/
def parts (rows : List (List P)) : List (String × List (List P)) :=
  match c.stack with
  | none => [("powder", rows)]
  | some blocks => blocks.map fun b => ("powder_" ++ b.name, rows.map fun r => (r.drop b.first).take (b.last - b.first))

/-- `end_unit`: the file. -/
def file (held : List (List (Pixel t × Nat))) (powder : List (List (List P))) : SparseFile t P where
  nframes := held.length
  shape0 := c.shape0
  shape1 := c.shape1
  npx := held.flatten.length
  row := held.flatten.map fun p => BitVec.ofNat 16 (p.2 / c.shape1)
  col := held.flatten.map fun p => BitVec.ofNat 16 (p.2 % c.shape1)
  intensity := held.flatten.map Prod.fst
  nnz := held.map fun pixels => BitVec.ofNat 32 pixels.length
  powder :=
    if powder = [] then []
    else (c.parts powder.flatten).map fun p => (p.1, ⟨p.2, if c.exact then c.scale else none, c.integrator⟩)

/-- `ImageD11SparseSink`. -/
def sink (units : List WorkUnit) (results : Decoded → Results t P) : Sink (SparseState t P)
  | .begin, s => if !c.powderFits || decide (65536 < max c.shape0 c.shape1) then none else some s
  | .beginUnit u, s =>
      match units[u]? with
      | none => none
      | some w => if w.frame0 ≠ 0 ∨ w.n ≠ w.nfile then none else some { s with held := [] }
  | .write d, s =>
      let held := s.held ++ (results d).frames.map c.cleaned
      match (results d).powder with
      | none => some { s with held }
      | some rows =>
          -- the rows of a stack that are not sums of counts cannot be integers
          if c.exact && (c.stack.getD []).any fun b => !b.counts then none
          else some { s with held, powder := s.powder ++ [rows] }
  | .endUnit u, s =>
      match units[u]? with
      | none => none
      | some w =>
          -- `np.concatenate` of nothing
          if s.held = [] then none
          else some ⟨[], [], s.files ++ [c.name w.path],
            replaceFile s.dir (c.name w.path) (c.file s.held s.powder)⟩
  | .finish, s => some s

end SparseSettings

/-- The pixels of frame `i`, as a reader takes them from the file: row, column and value. -/
def SparseFile.frame (f : SparseFile t P) (i : Nat) : List ((Nat × Nat) × Pixel t) :=
  segment (fun p => (offsets (f.nnz.map BitVec.toNat)).getD p 0)
    (((f.row.map BitVec.toNat).zip (f.col.map BitVec.toNat)).zip f.intensity) i

/-! ## Reading back -/

/-- Frame by frame, the file holds the pixels with their coordinates. -/
theorem frame_file (c : SparseSettings t) {held : List (List (Pixel t × Nat))} (powder : List (List (List P)))
    (h0 : c.shape0 ≤ 65536) (h1 : c.shape1 ≤ 65536)
    (hplace : ∀ pixels ∈ held, ∀ p ∈ pixels, p.2 < c.shape0 * c.shape1)
    (hmany : ∀ pixels ∈ held, pixels.length < 2 ^ 32) {i : Nat} (hi : i < held.length) :
    (c.file held powder).frame i =
      (held.getD i []).map fun p => ((p.2 / c.shape1, p.2 % c.shape1), p.1) := by
  have hnnz : ((c.file held powder).nnz.map BitVec.toNat) = held.map List.length := by
    unfold SparseSettings.file
    rw [List.map_map]
    refine List.map_congr_left fun pixels hpixels => ?_
    exact (BitVec.toNat_ofNat _ _).trans (Nat.mod_eq_of_lt (hmany pixels hpixels))
  have hflat : ∀ p ∈ held.flatten, p.2 < c.shape0 * c.shape1 := by
    intro p hp
    obtain ⟨pixels, hpixels, hp⟩ := List.mem_flatten.mp hp
    exact hplace pixels hpixels p hp
  have hrow : (c.file held powder).row.map BitVec.toNat = held.flatten.map fun p => p.2 / c.shape1 := by
    unfold SparseSettings.file
    rw [List.map_map]
    refine List.map_congr_left fun p hp => ?_
    refine (BitVec.toNat_ofNat _ _).trans (Nat.mod_eq_of_lt ?_)
    have hlt := Nat.div_lt_of_lt_mul (Nat.mul_comm c.shape0 c.shape1 ▸ hflat p hp)
    omega
  have hcol : (c.file held powder).col.map BitVec.toNat = held.flatten.map fun p => p.2 % c.shape1 := by
    unfold SparseSettings.file
    rw [List.map_map]
    refine List.map_congr_left fun p hp => ?_
    refine (BitVec.toNat_ofNat _ _).trans (Nat.mod_eq_of_lt ?_)
    have hpos : 0 < c.shape1 := by
      rcases Nat.eq_zero_or_pos c.shape1 with hzero | hpos
      · have hlt := hflat p hp
        rw [hzero, Nat.mul_zero] at hlt
        exact absurd hlt (Nat.not_lt_zero _)
      · exact hpos
    have hlt := Nat.mod_lt p.2 hpos
    omega
  have hzip : (((c.file held powder).row.map BitVec.toNat).zip ((c.file held powder).col.map BitVec.toNat)).zip
      (c.file held powder).intensity =
      (held.map fun pixels => pixels.map fun p => ((p.2 / c.shape1, p.2 % c.shape1), p.1)).flatten := by
    rw [hrow, hcol, ← List.map_flatten]
    unfold SparseSettings.file
    rw [List.zip_map', List.zip_map']
  unfold SparseFile.frame
  rw [hzip, hnnz]
  have hlens : held.map List.length =
      (held.map fun pixels => pixels.map fun p => ((p.2 / c.shape1, p.2 % c.shape1), p.1)).map List.length := by
    rw [List.map_map]
    exact List.map_congr_left fun pixels _ => (List.length_map _).symm
  rw [hlens, segment_flatten _ (by rwa [List.length_map])]
  simp only [List.getD_eq_getElem?_getD, List.getElem?_map, List.getElem?_eq_getElem hi, Option.map_some,
    Option.getD_some]

/-- Objects that are too small are left out, nothing else is. -/
theorem cleaned_sublist (c : SparseSettings t) (pixels : List (Pixel t × Nat)) : (c.cleaned pixels).Sublist pixels := by
  unfold SparseSettings.cleaned
  split
  · exact List.Sublist.refl _
  · split
    · exact List.Sublist.refl _
    · next keep _ _ =>
      have hfst : ((pixels.zip (keep pixels)).map Prod.fst).Sublist pixels := by
        have hprefix : ∀ (xs : List (Pixel t × Nat)) (bs : List Bool), ((xs.zip bs).map Prod.fst).Sublist xs := by
          intro xs
          induction xs with
          | nil => intro bs; exact List.Sublist.refl _
          | cons x xs ih =>
            intro bs
            cases bs with
            | nil => exact List.nil_sublist _
            | cons b bs => exact (ih bs).cons_cons x
        exact hprefix pixels (keep pixels)
      exact (List.filter_sublist.map Prod.fst).trans hfst

/-! ## A unit -/

section

variable {E : Engine} {units : List WorkUnit} {results : Decoded → Results t P} {c : SparseSettings t}
  {s s' : SparseState t P} {u j : Nat}

/-- What a sink holds of the first `j` batches of a unit. -/
def heldBatches (E : Engine) (results : Decoded → Results t P) (c : SparseSettings t) (u j : Nat) :
    List (List (Pixel t × Nat)) :=
  (List.range j).flatMap fun i => (results (call E u i)).frames.map c.cleaned

def heldPowder (E : Engine) (results : Decoded → Results t P) (u j : Nat) : List (List (List P)) :=
  (List.range j).filterMap fun i => (results (call E u i)).powder

theorem opened_run (h : (c.sink units results).run (opened E u j) s = some s') :
    (∃ w, units[u]? = some w ∧ w.frame0 = 0 ∧ w.n = w.nfile) ∧
      s' = ⟨heldBatches E results c u j, s.powder ++ heldPowder E results u j, s.files, s.dir⟩ := by
  induction j generalizing s' with
  | zero =>
    rw [opened, calls, List.range_zero, List.map_nil, List.map_nil, Sink.run_one, SparseSettings.sink] at h
    split at h
    · cases h
    · next w hw =>
      split at h
      · cases h
      · next hwhole =>
        rw [not_or, not_not, not_not] at hwhole
        cases h
        exact ⟨⟨w, hw, hwhole⟩, by simp [heldBatches, heldPowder]⟩
  | succ j ih =>
    have hsplit : opened E u (j + 1) = opened E u j ++ [.write (call E u j)] := by
      rw [opened, opened, calls, calls, List.range_succ, List.map_append, List.map_append]
      rfl
    rw [hsplit, Sink.run_append] at h
    obtain ⟨s₁, hfirst, hlast⟩ := Option.bind_eq_some_iff.mp h
    obtain ⟨hunit, rfl⟩ := ih hfirst
    refine ⟨hunit, ?_⟩
    have hheld : heldBatches E results c u (j + 1) =
        heldBatches E results c u j ++ (results (call E u j)).frames.map c.cleaned := by
      rw [heldBatches, List.range_succ, List.flatMap_append, List.flatMap_singleton]
      rfl
    have hpowder : heldPowder E results u (j + 1) =
        heldPowder E results u j ++ ((results (call E u j)).powder).toList := by
      rw [heldPowder, List.range_succ, List.filterMap_append]
      cases hp : (results (call E u j)).powder <;> simp [heldPowder, hp]
    rw [Sink.run_one, SparseSettings.sink] at hlast
    dsimp only at hlast
    rw [hheld, hpowder]
    split at hlast
    · next hp =>
      cases hlast
      rw [hp]
      simp
    · next rows hp =>
      split at hlast
      · cases hlast
      · cases hlast
        rw [hp]
        simp

/-- The file of a whole unit. -/
theorem session_run (h : (c.sink units results).run (session E u) s = some s') (hs : s.powder = []) :
    ∃ w, units[u]? = some w ∧ w.frame0 = 0 ∧ w.n = w.nfile ∧ heldBatches E results c u (batches E u) ≠ [] ∧
      s' = ⟨[], [], s.files ++ [c.name w.path], replaceFile s.dir (c.name w.path)
        (c.file (heldBatches E results c u (batches E u)) (heldPowder E results u (batches E u)))⟩ := by
  rw [session, Sink.run_append] at h
  obtain ⟨s₁, hopened, hend⟩ := Option.bind_eq_some_iff.mp h
  obtain ⟨⟨w, hw, hfirst, hall⟩, rfl⟩ := opened_run hopened
  refine ⟨w, hw, hfirst, hall, ?_⟩
  rw [Sink.run_one, SparseSettings.sink, hw] at hend
  dsimp only at hend
  split at hend
  · cases hend
  · next hsome =>
    cases hend
    exact ⟨hsome, by rw [hs, List.nil_append]⟩

/-- The file a sink writes for a unit. -/
def unitFile (E : Engine) (results : Decoded → Results t P) (c : SparseSettings t) (u : Nat) : SparseFile t P :=
  c.file (heldBatches E results c u (batches E u)) (heldPowder E results u (batches E u))

/-- Its name. -/
def SparseSettings.outName (c : SparseSettings t) (units : List WorkUnit) (u : Nat) : String :=
  c.name ((units[u]?.map WorkUnit.path).getD "")

theorem SparseSettings.outName_eq (c : SparseSettings t) {units : List WorkUnit} {u : Nat} {w : WorkUnit}
    (hw : units[u]? = some w) : c.outName units u = c.name w.path := by
  rw [outName, hw]
  rfl

theorem sessions_run {us : List Nat} (hs : s.powder = [])
    (h : (c.sink units results).run (us.flatMap (session E)) s = some s') :
    (∀ u ∈ us, heldBatches E results c u (batches E u) ≠ [] ∧
        ∃ w, units[u]? = some w ∧ w.frame0 = 0 ∧ w.n = w.nfile) ∧ s'.powder = [] ∧
      s'.files = s.files ++ us.map (c.outName units) ∧
      s'.dir = us.foldl (fun dir u => replaceFile dir (c.outName units u) (unitFile E results c u)) s.dir := by
  induction us generalizing s with
  | nil =>
    cases h
    exact ⟨fun _ h => absurd h List.not_mem_nil, hs, (List.append_nil _).symm, rfl⟩
  | cons u us ih =>
    rw [List.flatMap_cons, Sink.run_append] at h
    obtain ⟨s₁, hfirst, hrest⟩ := Option.bind_eq_some_iff.mp h
    obtain ⟨w, hw, h0, hn, hsome, rfl⟩ := session_run hfirst hs
    obtain ⟨hunits, hpowder, hfiles, hdir⟩ := ih rfl hrest
    refine ⟨fun v hv => ?_, hpowder, ?_, ?_⟩
    · rcases List.mem_cons.mp hv with rfl | hv
      · exact ⟨hsome, w, hw, h0, hn⟩
      · exact hunits v hv
    · rw [hfiles, List.map_cons, c.outName_eq hw, List.append_assoc]
      rfl
    · rw [hdir, List.foldl_cons, c.outName_eq hw]
      rfl

/-- Files of other names stay. -/
theorem foldl_replaceFile (name : Nat → String) (file : Nat → SparseFile t P) {us : List Nat} {u : Nat}
    (hapart : ∀ v ∈ us, v ≠ u → name u ≠ name v ∧ name u ≠ name v ++ ".tmp")
    (dir : String → Option (SparseFile t P)) :
    us.foldl (fun dir v => replaceFile dir (name v) (file v)) dir (name u) =
      if u ∈ us then some (file u) else dir (name u) := by
  induction us generalizing dir with
  | nil => rfl
  | cons v us ih =>
    rw [List.foldl_cons, ih fun v hv => hapart v (List.mem_cons_of_mem _ hv)]
    by_cases hlater : u ∈ us
    · rw [if_pos hlater, if_pos (List.mem_cons_of_mem _ hlater)]
    · by_cases hv : v = u
      · rw [if_neg hlater, if_pos (List.mem_cons.mpr (Or.inl hv.symm)), hv]
        exact if_pos rfl
      · obtain ⟨hname, htmp⟩ := hapart v List.mem_cons_self hv
        have hout : u ∉ v :: us := fun h => (List.mem_cons.mp h).elim (fun h => hv h.symm) hlater
        rw [if_neg hlater, if_neg hout]
        exact (if_neg hname).trans (if_neg htmp)

/-- The batches of a unit have its frames in order. -/
theorem flatMap_batches (E : Engine) (u : Nat) :
    ((List.range (batches E u)).flatMap fun j =>
      List.range' (j * E.batch) (min E.batch ((E.job u).n - j * E.batch))) = List.range (E.job u).n := by
  have htiles := flatMap_tiles E.batch_pos 0 (E.job u).n
  rw [strided_zero E.batch_pos, Nat.sub_zero, List.flatMap_map, ← List.range_eq_range'] at htiles
  rw [← htiles]
  refine List.flatMap_congr fun j _ => ?_
  congr 1
  omega

end

/-- The decoder of a run: the frames of a batch, whatever batch they are in. -/
structure DecodesFrames (E : Engine) (results : Decoded → Results t P) (frame : Nat → Nat → List (Pixel t × Nat))
    (row : Option (Nat → Nat → List P)) : Prop where
  frames : ∀ u j, u < E.units.length → j < batches E u → (results (call E u j)).frames =
    (List.range' (j * E.batch) (min E.batch ((E.job u).n - j * E.batch))).map (frame u)
  powder : ∀ u j, u < E.units.length → j < batches E u → (results (call E u j)).powder =
    row.map fun r => (List.range' (j * E.batch) (min E.batch ((E.job u).n - j * E.batch))).map (r u)

section

variable {E : Engine} {results : Decoded → Results t P} {c : SparseSettings t}
  {frame : Nat → Nat → List (Pixel t × Nat)} {row : Option (Nat → Nat → List P)} {u : Nat}

theorem heldBatches_frames (h : DecodesFrames E results frame row) (hu : u < E.units.length) :
    heldBatches E results c u (batches E u) = (List.range (E.job u).n).map fun i => c.cleaned (frame u i) := by
  rw [← flatMap_batches, List.map_flatMap, heldBatches]
  refine List.flatMap_congr fun j hj => ?_
  rw [h.frames u j hu (List.mem_range.mp hj), List.map_map]
  rfl

theorem heldPowder_rows (h : DecodesFrames E results frame row) (hu : u < E.units.length) :
    (row = none → heldPowder E results u (batches E u) = []) ∧ ∀ r, row = some r →
      (heldPowder E results u (batches E u)).flatten = (List.range (E.job u).n).map (r u) := by
  refine ⟨fun hrow => ?_, fun r hrow => ?_⟩
  · refine List.filterMap_eq_nil_iff.mpr fun j hj => ?_
    rw [h.powder u j hu (List.mem_range.mp hj), hrow]
    rfl
  · have hrows : heldPowder E results u (batches E u) = (List.range (batches E u)).map fun j =>
        (List.range' (j * E.batch) (min E.batch ((E.job u).n - j * E.batch))).map (r u) := by
      rw [heldPowder, ← List.filterMap_eq_map]
      refine List.filterMap_congr fun j hj => ?_
      rw [h.powder u j hu (List.mem_range.mp hj), hrow]
      rfl
    rw [hrows, ← List.flatMap_def, ← flatMap_batches, List.map_flatMap]

end

/-- One frame of 2 × 3 pixels, with a powder of one bin. -/
def oneFile : WorkUnit where
  file := 0
  path := "a.h5"
  frame0 := 0
  n := 1
  nfile := 1
  start := 0
  span := 1
  offsets := [0]
  lengths := [1]

def twoByThree : SparseSettings .u16 where
  shape0 := 2
  shape1 := 3
  powderFits := true
  name := fun path => path ++ "_sparse.h5"
  integrator := none
  exact := true
  scale := some 1
  stack := none
  keepLarge := none

/-- Pixel 5 has the value 9. -/
def lastPixel (_ : Decoded) : Results .u16 Int := ⟨[[(9#16, 5)]], some [[9]]⟩

theorem lastPixel_decodes :
    DecodesFrames oneUnit lastPixel (fun _ _ => [(9#16, 5)]) (some fun _ _ => [(9 : Int)]) := by
  have hzero : ∀ u j, u < oneUnit.units.length → j < batches oneUnit u → u = 0 ∧ j = 0 := by
    intro u j hu hj
    obtain rfl : u = 0 := Nat.lt_one_iff.mp hu
    exact ⟨rfl, Nat.lt_one_iff.mp hj⟩
  constructor
  · intro u j hu hj
    obtain ⟨rfl, rfl⟩ := hzero u j hu hj
    rfl
  · intro u j hu hj
    obtain ⟨rfl, rfl⟩ := hzero u j hu hj
    rfl

theorem oneFile_names : ∀ u v, u < [oneFile].length → v < [oneFile].length → v ≠ u →
    twoByThree.outName [oneFile] u ≠ twoByThree.outName [oneFile] v ∧
      twoByThree.outName [oneFile] u ≠ twoByThree.outName [oneFile] v ++ ".tmp" := by
  intro u v hu hv hne
  rw [List.length_singleton, Nat.lt_one_iff] at hu hv
  exact absurd (hv.trans hu.symm) hne

end Bslz4ToSparse.Conveyor
