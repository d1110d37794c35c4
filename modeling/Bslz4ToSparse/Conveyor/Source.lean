import Bslz4ToSparse.Foundation.Loops
import Mathlib.Data.List.Nodup
import Mathlib.Data.List.Pairwise
import Mathlib.Tactic.Common
import Mathlib.Tactic.IntervalCases

/-!
# Work units (src/conveyor/_source.py)

A file is cut into units of consecutive frames, each read as one byte range of the file.
The chunk index gives the place of every frame's chunk; HDF5 may put the chunks in any order.
-/

namespace Bslz4ToSparse.Conveyor

open Foundation (mapM_ok)

/-- The chunk index of a file: where the chunk of each frame lies. Offsets and ends of chunks
in a file fit in an int64, so its arithmetic is that of the integers. -/
structure Index where
  dataset : String
  /-- Of a frame. -/
  shape : List Nat
  dtype : String
  offsets : List Int
  lengths : List Int
  length_eq : lengths.length = offsets.length

namespace Index

def nframes (ix : Index) : Nat := ix.offsets.length

def off (ix : Index) (k : Nat) : Int := ix.offsets.getD k 0

def ln (ix : Index) (k : Nat) : Int := ix.lengths.getD k 0

/-- The end of chunk `k`. -/
def fin (ix : Index) (k : Nat) : Int := ix.off k + ix.ln k

/-- Whether frame `k` still joins the unit that starts at frame `f0`. -/
def fits (ix : Index) (maxUnitBytes : Int) (f0 k : Nat) : Bool :=
  decide (ix.off k + ix.ln k - ix.off f0 ≤ maxUnitBytes)

end Index

structure WorkUnit where
  file : Nat
  path : String
  frame0 : Nat
  n : Nat
  nfile : Nat
  start : Int
  span : Int
  offsets : List Int
  lengths : List Int
  deriving DecidableEq, Repr

inductive SourceError where
  | noFiles
  | noIndex (path : String)
  | dataset (path found wanted : String)
  | differs (path : String)
  deriving DecidableEq, Repr

/-- The loop that grows a unit of `n` frames. -/
def grow (ix : Index) (maxUnitBytes : Int) (f0 : Nat) : Nat → Nat → Nat
  | 0, n => n
  | fuel + 1, n =>
      if f0 + n < ix.nframes ∧ ix.fits maxUnitBytes f0 (f0 + n) then
        grow ix maxUnitBytes f0 fuel (n + 1)
      else n

def workUnit (fi : Nat) (p : String) (ix : Index) (f0 n : Nat) : WorkUnit where
  file := fi
  path := p
  frame0 := f0
  n := n
  nfile := ix.nframes
  start := ix.off f0
  span := ix.off (f0 + n - 1) + ix.ln (f0 + n - 1) - ix.off f0
  offsets := (List.range' f0 n).map fun k => ix.off k - ix.off f0
  lengths := (List.range' f0 n).map ix.ln

/-- The units of one file from frame `f0` on. -/
def fileUnits (fi : Nat) (p : String) (ix : Index) (maxUnitBytes : Int) : Nat → Nat → List WorkUnit
  | 0, _ => []
  | fuel + 1, f0 =>
      if f0 < ix.nframes then
        let n := grow ix maxUnitBytes f0 ix.nframes 1
        workUnit fi p ix f0 n :: fileUnits fi p ix maxUnitBytes fuel (f0 + n)
      else []

/-- The index of a path, which has to be for the dataset. -/
def checkedIndex (indexOf : String → Except SourceError Index) (dset p : String) :
    Except SourceError Index := do
  let ix ← indexOf p
  if ix.dataset = dset then return ix else throw (.dataset p ix.dataset dset)

/-- The units of a file whose frames are like those of the first one. -/
def cutFile (first : Index) (maxUnitBytes : Int) (f : (String × Index) × Nat) :
    Except SourceError (List WorkUnit) :=
  if f.1.2.shape = first.shape ∧ f.1.2.dtype = first.dtype then
    .ok (fileUnits f.2 f.1.1 f.1.2 maxUnitBytes f.1.2.nframes 0)
  else .error (.differs f.1.1)

/-- `make_work_units`; `indexOf` is the sidecar of a path, or what `harvest` reads from HDF5. -/
def makeWorkUnits (indexOf : String → Except SourceError Index) (paths : List String)
    (dset : String) (maxUnitBytes : Int) : Except SourceError (List WorkUnit × List Nat × String) := do
  let idx ← paths.mapM (checkedIndex indexOf dset)
  match idx with
  | [] => throw .noFiles
  | first :: _ =>
    let out ← ((paths.zip idx).zipIdx).mapM (cutFile first maxUnitBytes)
    return (out.flatten, first.shape, first.dtype)

/-! ## Units -/

section

variable {ix : Index} {maxUnitBytes : Int} {fi : Nat} {p : String}

/-- A unit ends before the first frame that does not fit, or at the end of the file. -/
theorem grow_spec (f0 : Nat) : ∀ fuel n, ix.nframes ≤ f0 + n + fuel → f0 + n ≤ ix.nframes →
    n ≤ grow ix maxUnitBytes f0 fuel n ∧ f0 + grow ix maxUnitBytes f0 fuel n ≤ ix.nframes ∧
    (∀ k, f0 + n ≤ k → k < f0 + grow ix maxUnitBytes f0 fuel n → ix.fits maxUnitBytes f0 k = true) ∧
    (f0 + grow ix maxUnitBytes f0 fuel n < ix.nframes →
      ix.fits maxUnitBytes f0 (f0 + grow ix maxUnitBytes f0 fuel n) = false) := by
  intro fuel
  induction fuel with
  | zero =>
    intro n hfuel hle
    rw [grow]
    exact ⟨Nat.le_refl n, hle, fun k hk hlt => absurd hlt (by omega), fun hlt => absurd hlt (by omega)⟩
  | succ fuel ih =>
    intro n hfuel hle
    rw [grow]
    split
    · next h =>
      obtain ⟨hn, hend, hfit, hstop⟩ := ih (n + 1) (by omega) (by omega)
      refine ⟨by omega, hend, fun k hk hlt => ?_, hstop⟩
      rcases Nat.eq_or_lt_of_le hk with rfl | hgt
      · exact h.2
      · exact hfit k (by omega) hlt
    · next h =>
      refine ⟨Nat.le_refl n, hle, fun k hk hlt => absurd hlt (by omega), fun hlt => ?_⟩
      exact Bool.eq_false_iff.mpr fun hfit => h ⟨hlt, hfit⟩

/-- The frames at which units of the file start. -/
inductive Starts (ix : Index) (maxUnitBytes : Int) : Nat → Prop
  | first : Starts ix maxUnitBytes 0
  | next {f0 k : Nat} : Starts ix maxUnitBytes f0 → f0 < k →
      (∀ j, f0 < j → j < k → ix.fits maxUnitBytes f0 j = true) →
      ix.fits maxUnitBytes f0 k = false → Starts ix maxUnitBytes k

/-- Frame `k` is read with the unit that starts at `f0`. -/
structure Together (ix : Index) (maxUnitBytes : Int) (f0 k : Nat) : Prop where
  starts : Starts ix maxUnitBytes f0
  le : f0 ≤ k
  lt : k < ix.nframes
  fits : ∀ j, f0 < j → j ≤ k → ix.fits maxUnitBytes f0 j = true

/-- A unit as the loop makes it. -/
structure IsUnit (ix : Index) (maxUnitBytes : Int) (u : WorkUnit) : Prop where
  made : ∃ fi p, u = workUnit fi p ix u.frame0 u.n
  pos : 0 < u.n
  fin_le : u.frame0 + u.n ≤ ix.nframes
  starts : Starts ix maxUnitBytes u.frame0
  fits : ∀ k, u.frame0 < k → k < u.frame0 + u.n → ix.fits maxUnitBytes u.frame0 k = true
  stops : u.frame0 + u.n < ix.nframes → ix.fits maxUnitBytes u.frame0 (u.frame0 + u.n) = false

theorem isUnit_grow {f0 : Nat} (hs : Starts ix maxUnitBytes f0) (hlt : f0 < ix.nframes) :
    IsUnit ix maxUnitBytes (workUnit fi p ix f0 (grow ix maxUnitBytes f0 ix.nframes 1)) := by
  obtain ⟨hn, hend, hfit, hstop⟩ := @grow_spec ix maxUnitBytes f0 ix.nframes 1 (by omega) (by omega)
  exact ⟨⟨fi, p, rfl⟩, hn, hend, hs, fun k hk hlt => hfit k hk hlt, hstop⟩

theorem fileUnits_isUnit : ∀ fuel f0, Starts ix maxUnitBytes f0 → ∀ u,
    u ∈ fileUnits fi p ix maxUnitBytes fuel f0 → IsUnit ix maxUnitBytes u := by
  intro fuel
  induction fuel with
  | zero =>
    intro f0 _ u hu
    cases hu
  | succ fuel ih =>
    intro f0 hs u hu
    rw [fileUnits] at hu
    split at hu
    · next hlt =>
      have hunit := @isUnit_grow ix maxUnitBytes fi p f0 hs hlt
      rcases List.mem_cons.mp hu with rfl | hrest
      · exact hunit
      · by_cases hend : f0 + grow ix maxUnitBytes f0 ix.nframes 1 < ix.nframes
        · exact ih _ (.next hs (Nat.lt_add_of_pos_right hunit.pos) (fun j hj hlt => hunit.fits j hj hlt)
            (hunit.stops hend)) u hrest
        · -- nothing is left
          cases fuel with
          | zero => cases hrest
          | succ fuel =>
            rw [fileUnits, if_neg hend] at hrest
            cases hrest
    · cases hu

/-- The units hold the frames in order. -/
theorem fileUnits_frames : ∀ fuel f0, ix.nframes ≤ f0 + fuel → f0 ≤ ix.nframes →
    ((fileUnits fi p ix maxUnitBytes fuel f0).flatMap fun u => List.range' u.frame0 u.n) =
      List.range' f0 (ix.nframes - f0) := by
  intro fuel
  induction fuel with
  | zero =>
    intro f0 hfuel hle
    rw [show ix.nframes - f0 = 0 by omega]
    rfl
  | succ fuel ih =>
    intro f0 hfuel hle
    rw [fileUnits]
    split
    · next hlt =>
      obtain ⟨hn, hend, -, -⟩ := @grow_spec ix maxUnitBytes f0 ix.nframes 1 (by omega) (by omega)
      simp only
      set n := grow ix maxUnitBytes f0 ix.nframes 1
      rw [List.flatMap_cons, ih (f0 + n) (by omega) hend]
      change List.range' f0 n ++ _ = _
      rw [List.range'_append_1, show n + (ix.nframes - (f0 + n)) = ix.nframes - f0 by omega]
    · rw [show ix.nframes - f0 = 0 by omega]
      rfl

/-- Every frame at which a unit starts has its unit. -/
theorem exists_unit_of_starts {us : List WorkUnit}
    (hframes : (us.flatMap fun u => List.range' u.frame0 u.n) = List.range ix.nframes)
    (hunit : ∀ u ∈ us, IsUnit ix maxUnitBytes u) {f0 : Nat} (hs : Starts ix maxUnitBytes f0)
    (hlt : f0 < ix.nframes) : ∃ u ∈ us, u.frame0 = f0 := by
  have hin : ∀ k, k < ix.nframes → ∃ u ∈ us, u.frame0 ≤ k ∧ k < u.frame0 + u.n := by
    intro k hk
    have hmem : k ∈ us.flatMap fun u => List.range' u.frame0 u.n := by
      rw [hframes]
      exact List.mem_range.mpr hk
    obtain ⟨u, hu, hku⟩ := List.mem_flatMap.mp hmem
    exact ⟨u, hu, List.mem_range'_1.mp hku⟩
  -- no frame is in two units
  have hdisjoint : ∀ u ∈ us, ∀ u' ∈ us, ∀ k, u.frame0 ≤ k → k < u.frame0 + u.n →
      u'.frame0 ≤ k → k < u'.frame0 + u'.n → u = u' := by
    intro u hu u' hu' k h₁ h₂ h₃ h₄
    by_contra hne
    have hnd : (us.flatMap fun u => List.range' u.frame0 u.n).Nodup := hframes ▸ List.nodup_range
    have hpair := (List.nodup_flatMap.mp hnd).2
    have hsymm : Std.Symm (Function.onFun List.Disjoint fun u : WorkUnit =>
        List.range' u.frame0 u.n) := ⟨fun _ _ h _ ha hb => h hb ha⟩
    have hdis := hpair.forall hu hu' hne
    exact hdis (List.mem_range'_1.mpr ⟨h₁, h₂⟩) (List.mem_range'_1.mpr ⟨h₃, h₄⟩)
  induction hs with
  | first =>
    obtain ⟨u, hu, hle, -⟩ := hin 0 hlt
    exact ⟨u, hu, Nat.le_zero.mp hle⟩
  | @next f0 k _ hgt hfit hno ih =>
    obtain ⟨u, hu, rfl⟩ := ih (by omega)
    have hunit_u := hunit u hu
    have hpos := hunit_u.pos
    -- the unit ends where the next frame does not fit
    have hk : k = u.frame0 + u.n := by
      rcases Nat.lt_trichotomy k (u.frame0 + u.n) with h | h | h
      · rw [hunit_u.fits k hgt h] at hno
        cases hno
      · exact h
      · have hstop := hunit_u.stops (by omega)
        rw [hfit _ (by omega) h] at hstop
        cases hstop
    obtain ⟨u', hu', hle, hlt'⟩ := hin k hlt
    rcases Nat.eq_or_lt_of_le hle with heq | hbefore
    · exact ⟨u', hu', heq⟩
    · have hsame := hdisjoint u hu u' hu' (k - 1) (by omega) (by omega) (by omega) (by omega)
      subst hsame
      omega

/-- Of the frames read together, the first chunk has the lowest offset and the last one, before
the frame that does not fit or the end of the file, the highest end. -/
def FirstAndLast (ix : Index) (maxUnitBytes : Int) : Prop :=
  ∀ f0 k, Together ix maxUnitBytes f0 k → ix.off f0 ≤ ix.off k ∧
    ∀ m, k ≤ m → Together ix maxUnitBytes f0 m →
      (m + 1 < ix.nframes → ix.fits maxUnitBytes f0 (m + 1) = false) → ix.fin k ≤ ix.fin m

/-- Chunks in the order of the frames qualify whatever the size of a unit. -/
theorem firstAndLast_of_order (hoff : ∀ i j, i ≤ j → j < ix.nframes → ix.off i ≤ ix.off j)
    (hfin : ∀ i j, i ≤ j → j < ix.nframes → ix.fin i ≤ ix.fin j) : FirstAndLast ix maxUnitBytes :=
  fun f0 k hk => ⟨hoff f0 k hk.le hk.lt, fun m hkm hm _ => hfin k m hkm hm.lt⟩

/-- What is asked of the units of a file. -/
structure UnitsRight (ix : Index) (maxUnitBytes : Int) (us : List WorkUnit) : Prop where
  frames : (us.flatMap fun u => List.range' u.frame0 u.n) = List.range ix.nframes
  nonempty : ∀ u ∈ us, 0 < u.n
  offsets : ∀ u ∈ us, u.offsets = (List.range' u.frame0 u.n).map fun k => ix.off k - u.start
  lengths : ∀ u ∈ us, u.lengths = (List.range' u.frame0 u.n).map ix.ln
  inside : ∀ u ∈ us, ∀ i, i < u.n →
    0 ≤ u.offsets.getD i 0 ∧ u.offsets.getD i 0 + u.lengths.getD i 0 ≤ u.span
  small : ∀ u ∈ us, u.span ≤ maxUnitBytes ∨ u.n = 1

/-- A chunk lies in the span of its unit exactly when it starts behind the unit's first chunk and
ends before its last one. -/
theorem IsUnit.inside_iff {u : WorkUnit} (h : IsUnit ix maxUnitBytes u) {i : Nat} (hi : i < u.n) :
    (0 ≤ u.offsets.getD i 0 ∧ u.offsets.getD i 0 + u.lengths.getD i 0 ≤ u.span) ↔
      (ix.off u.frame0 ≤ ix.off (u.frame0 + i) ∧
        ix.fin (u.frame0 + i) ≤ ix.fin (u.frame0 + u.n - 1)) := by
  obtain ⟨⟨fi, p, hu⟩, hpos, -, -, -, -⟩ := h
  have hoffs : u.offsets.getD i 0 = ix.off (u.frame0 + i) - ix.off u.frame0 := by
    rw [hu, workUnit, List.getD_eq_getElem?_getD, List.getElem?_map, List.getElem?_range' hi]
    simp
  have hlens : u.lengths.getD i 0 = ix.ln (u.frame0 + i) := by
    rw [hu, workUnit, List.getD_eq_getElem?_getD, List.getElem?_map, List.getElem?_range' hi]
    simp
  have hspan : u.span = ix.fin (u.frame0 + u.n - 1) - ix.off u.frame0 := by
    rw [hu]
    rfl
  rw [hoffs, hlens, hspan]
  unfold Index.fin
  omega

/-- The frames of a unit are read together. -/
theorem IsUnit.together {u : WorkUnit} (h : IsUnit ix maxUnitBytes u) {k : Nat} (hk : u.frame0 ≤ k)
    (hlt : k < u.frame0 + u.n) : Together ix maxUnitBytes u.frame0 k := by
  have hend := h.fin_le
  exact ⟨h.starts, hk, by omega, fun j hj hjk => h.fits j hj (by omega)⟩

theorem unitsRight_iff {us : List WorkUnit}
    (hframes : (us.flatMap fun u => List.range' u.frame0 u.n) = List.range ix.nframes)
    (hunit : ∀ u ∈ us, IsUnit ix maxUnitBytes u) :
    UnitsRight ix maxUnitBytes us ↔ FirstAndLast ix maxUnitBytes := by
  constructor
  · intro hright f0 k hk
    obtain ⟨u, hu, rfl⟩ := exists_unit_of_starts hframes hunit hk.starts (Nat.lt_of_le_of_lt hk.le hk.lt)
    have h := hunit u hu
    have hpos := h.pos
    -- `k` is a frame of the unit
    have hlast : ∀ m, Together ix maxUnitBytes u.frame0 m → m < u.frame0 + u.n := by
      intro m hm
      by_contra hge
      have hlt := hm.lt
      have hstop := h.stops (by omega)
      rw [hm.fits _ (by omega) (by omega)] at hstop
      cases hstop
    have hkn := hlast k hk
    have hin := (h.inside_iff (show k - u.frame0 < u.n by omega)).mp
      (hright.inside u hu _ (by omega))
    rw [show u.frame0 + (k - u.frame0) = k by have := hk.le; omega] at hin
    refine ⟨hin.1, fun m hkm hm hstop => ?_⟩
    have hmn := hlast m hm
    have hm_last : m = u.frame0 + u.n - 1 := by
      by_contra hne
      have hend := h.fin_le
      have hle := hm.le
      have hno := hstop (by omega)
      rw [h.fits (m + 1) (by omega) (by omega)] at hno
      cases hno
    rw [hm_last]
    exact hin.2
  · intro hcond
    refine ⟨hframes, fun u hu => (hunit u hu).pos, fun u hu => ?_, fun u hu => ?_, fun u hu i hi => ?_,
      fun u hu => ?_⟩
    · obtain ⟨fi, p, hmade⟩ := (hunit u hu).made
      rw [hmade]
      rfl
    · obtain ⟨fi, p, hmade⟩ := (hunit u hu).made
      rw [hmade]
      rfl
    · have h := hunit u hu
      have hend := h.fin_le
      refine (h.inside_iff hi).mpr ?_
      obtain ⟨hlow, hhigh⟩ := hcond u.frame0 (u.frame0 + i) (h.together (by omega) (by omega))
      refine ⟨hlow, hhigh _ (by omega) (h.together (by omega) (by omega)) fun hlt => ?_⟩
      rw [show u.frame0 + u.n - 1 + 1 = u.frame0 + u.n by omega] at hlt ⊢
      exact h.stops hlt
    · -- the last frame of several was seen to fit
      have h := hunit u hu
      have hpos := h.pos
      by_cases hone : u.n = 1
      · exact Or.inr hone
      · have hfit := h.fits (u.frame0 + u.n - 1) (by omega) (by omega)
        obtain ⟨fi, p, hmade⟩ := h.made
        rw [hmade]
        exact Or.inl (of_decide_eq_true hfit)

theorem fileUnits_file : ∀ fuel f0, ∀ u ∈ fileUnits fi p ix maxUnitBytes fuel f0, u.file = fi := by
  intro fuel
  induction fuel with
  | zero =>
    intro f0 u hu
    cases hu
  | succ fuel ih =>
    intro f0 u hu
    rw [fileUnits] at hu
    split at hu
    · rcases List.mem_cons.mp hu with rfl | hrest
      · rfl
      · exact ih _ u hrest
    · cases hu

end

/-! ## The call -/

/-- The units of file `fi` among those of all files. -/
theorem filter_file {files : List (String × Index)} {maxUnitBytes : Int} {fi : Nat} {p : String}
    {ix : Index} : ∀ k, files[fi]? = some (p, ix) →
    ((files.zipIdx k).flatMap fun f => fileUnits f.2 f.1.1 f.1.2 maxUnitBytes f.1.2.nframes 0).filter
      (fun u => decide (u.file = k + fi)) = fileUnits (k + fi) p ix maxUnitBytes ix.nframes 0 := by
  have hnone : ∀ (files : List (String × Index)) k j, j < k →
      ((files.zipIdx k).flatMap fun f =>
        fileUnits f.2 f.1.1 f.1.2 maxUnitBytes f.1.2.nframes 0).filter
          (fun u => decide (u.file = j)) = [] := by
    intro files
    induction files with
    | nil => exact fun _ _ _ => rfl
    | cons f files ih =>
      intro k j hj
      rw [List.zipIdx_cons, List.flatMap_cons, List.filter_append, ih (k + 1) j (by omega),
        List.append_nil, List.filter_eq_nil_iff]
      intro u hu hfile
      have hk := fileUnits_file _ _ u hu
      have hj' := of_decide_eq_true hfile
      omega
  induction files generalizing fi with
  | nil =>
    intro k h
    cases h
  | cons f files ih =>
    intro k h
    rw [List.zipIdx_cons, List.flatMap_cons, List.filter_append]
    cases fi with
    | zero =>
      rw [List.getElem?_cons_zero] at h
      cases h
      rw [hnone files (k + 1) (k + 0) (by omega), List.append_nil, List.filter_eq_self.mpr]
      · rfl
      · intro u hu
        exact decide_eq_true (fileUnits_file _ _ u hu)
    | succ fi =>
      rw [List.getElem?_cons_succ] at h
      have hrest := ih (k + 1) h
      rw [show k + 1 + fi = k + (fi + 1) by omega] at hrest
      rw [hrest, List.filter_eq_nil_iff.mpr, List.nil_append]
      intro u hu hfile
      have hk := fileUnits_file _ _ u hu
      have hj' := of_decide_eq_true hfile
      omega

theorem makeWorkUnits_ok {indexOf : String → Except SourceError Index} {paths : List String}
    {dset : String} {maxUnitBytes : Int} {units : List WorkUnit} {shape : List Nat} {dtype : String}
    (h : makeWorkUnits indexOf paths dset maxUnitBytes = .ok (units, shape, dtype)) {fi : Nat}
    {p : String} (hp : paths[fi]? = some p) :
    ∃ ix, indexOf p = .ok ix ∧
      units.filter (fun u => decide (u.file = fi)) = fileUnits fi p ix maxUnitBytes ix.nframes 0 := by
  unfold makeWorkUnits at h
  cases hidx : paths.mapM (checkedIndex indexOf dset) with
  | error e =>
    rw [hidx] at h
    cases h
  | ok idx =>
    rw [hidx] at h
    obtain ⟨ix, hix, hread⟩ : ∃ ix, idx[fi]? = some ix ∧ checkedIndex indexOf dset p = .ok ix := by
      have hall := mapM_ok hidx
      have hlen := hall.length_eq
      obtain ⟨hlt, hpe⟩ := List.getElem?_eq_some_iff.mp hp
      refine ⟨idx[fi], List.getElem?_eq_getElem (by omega), ?_⟩
      rw [← hpe]
      exact List.forall₂_iff_get.mp hall |>.2 fi hlt (by omega)
    have hindex : indexOf p = .ok ix := by
      unfold checkedIndex at hread
      cases hone : indexOf p with
      | error e =>
        rw [hone] at hread
        cases hread
      | ok ix' =>
        rw [hone] at hread
        change (if ix'.dataset = dset then Except.ok ix' else _) = _ at hread
        split at hread
        · exact hread
        · cases hread
    cases idx with
    | nil => cases hix
    | cons first rest =>
      change ((paths.zip (first :: rest)).zipIdx.mapM (cutFile first maxUnitBytes)).bind
        (fun out => .ok (out.flatten, first.shape, first.dtype)) = _ at h
      cases hout : (paths.zip (first :: rest)).zipIdx.mapM (cutFile first maxUnitBytes) with
      | error e =>
        rw [hout] at h
        cases h
      | ok out =>
        rw [hout] at h
        cases h
        have hcut : out = (paths.zip (first :: rest)).zipIdx.map fun f =>
            fileUnits f.2 f.1.1 f.1.2 maxUnitBytes f.1.2.nframes 0 := by
          have hall := mapM_ok hout
          clear hout
          generalize (paths.zip (first :: rest)).zipIdx = files at hall
          induction hall with
          | nil => rfl
          | @cons f us files out hf _ ih =>
            rw [List.map_cons, ← ih]
            congr 1
            unfold cutFile at hf
            split at hf
            · exact (Except.ok.inj hf).symm
            · cases hf
        refine ⟨ix, hindex, ?_⟩
        have hzip : (paths.zip (first :: rest))[fi]? = some (p, ix) := by
          rw [List.getElem?_zip_eq_some]
          exact ⟨hp, hix⟩
        have hfile := @filter_file _ maxUnitBytes fi p ix 0 hzip
        rw [Nat.zero_add] at hfile
        rw [hcut, ← List.flatMap_def, hfile]

/-- The units of every file are right exactly when its index keeps the first and last chunk of
what is read together on the outside. -/
theorem makeWorkUnits_right_iff {indexOf : String → Except SourceError Index} {paths : List String}
    {dset : String} {maxUnitBytes : Int} {units : List WorkUnit} {shape : List Nat} {dtype : String}
    (h : makeWorkUnits indexOf paths dset maxUnitBytes = .ok (units, shape, dtype)) {fi : Nat}
    {p : String} {ix : Index} (hp : paths[fi]? = some p) (hix : indexOf p = .ok ix) :
    UnitsRight ix maxUnitBytes (units.filter fun u => decide (u.file = fi)) ↔
      FirstAndLast ix maxUnitBytes := by
  obtain ⟨ix', hix', hus⟩ := makeWorkUnits_ok h hp
  obtain rfl : ix = ix' := Except.ok.inj (hix.symm.trans hix')
  rw [hus]
  refine unitsRight_iff ?_ (fileUnits_isUnit _ 0 .first)
  have hframes := @fileUnits_frames ix maxUnitBytes fi p ix.nframes 0 (by omega) (by omega)
  rwa [Nat.sub_zero, ← List.range_eq_range'] at hframes

/-- Three chunks of 10 bytes in the order `offsets`. -/
def threeChunks (offsets : List Int) (h : offsets.length = 3) : Index where
  dataset := "/data"
  shape := [2, 2]
  dtype := "<u2"
  offsets := offsets
  lengths := [10, 10, 10]
  length_eq := h.symm

/-- In the order of the file, with two frames in a unit. -/
theorem makeWorkUnits_right_inOrder :
    ∃ units, makeWorkUnits (fun _ => .ok (threeChunks [100, 110, 120] rfl)) ["a.h5"] "/data" 20 =
        .ok (units, [2, 2], "<u2") ∧
      UnitsRight (threeChunks [100, 110, 120] rfl) 20
        (units.filter fun u => decide (u.file = 0)) := by
  have hrun : makeWorkUnits (fun _ => .ok (threeChunks [100, 110, 120] rfl)) ["a.h5"] "/data" 20 =
      .ok ([workUnit 0 "a.h5" (threeChunks [100, 110, 120] rfl) 0 2,
        workUnit 0 "a.h5" (threeChunks [100, 110, 120] rfl) 2 1], [2, 2], "<u2") := rfl
  have hread : (fun _ : String => (Except.ok (threeChunks [100, 110, 120] rfl) :
      Except SourceError Index)) "a.h5" = .ok (threeChunks [100, 110, 120] rfl) := rfl
  refine ⟨_, hrun, (makeWorkUnits_right_iff hrun rfl hread).mpr (firstAndLast_of_order ?_ ?_)⟩
  · intro i j hij hj
    have hlt : j < 3 := hj
    interval_cases j <;> interval_cases i <;> decide
  · intro i j hij hj
    have hlt : j < 3 := hj
    interval_cases j <;> interval_cases i <;> decide

/-- The chunk of frame 1 lies before that of frame 0: its offset in the unit is negative. -/
theorem not_makeWorkUnits_right :
    ¬ ∀ (indexOf : String → Except SourceError Index) (paths : List String) (dset : String)
      (maxUnitBytes : Int) (units : List WorkUnit) (shape : List Nat) (dtype : String),
      makeWorkUnits indexOf paths dset maxUnitBytes = .ok (units, shape, dtype) →
      ∀ (fi : Nat) (p : String) (ix : Index), paths[fi]? = some p → indexOf p = .ok ix →
        (∀ k, k < ix.nframes → 0 ≤ ix.off k ∧ 0 < ix.ln k) →
        UnitsRight ix maxUnitBytes (units.filter fun u => decide (u.file = fi)) := by
  intro h
  have hright := h (fun _ => .ok (threeChunks [110, 100, 120] rfl)) ["a.h5"] "/data" 100 _ _ _ rfl 0
    "a.h5" _ rfl rfl (by
      intro k hk
      have hlt : k < 3 := hk
      interval_cases k <;> decide)
  have hin := (hright.inside (workUnit 0 "a.h5" (threeChunks [110, 100, 120] rfl) 0 3)
    (by decide +kernel) 1 (by decide)).1
  revert hin
  decide +kernel

end Bslz4ToSparse.Conveyor
