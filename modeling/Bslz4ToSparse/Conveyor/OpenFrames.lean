import Bslz4ToSparse.Foundation.Rounds
import Mathlib.Data.List.GetD

/-!
# The chunks of the frames (`open_frames`, src/conveyor/diffmap_integrate.py)

Each source file is mapped once; a table says for each frame in which map its chunk lies, and where.
-/

namespace Bslz4ToSparse.Conveyor

open Foundation

/-- One of `sources`: frames `v0` to `v0 + count` are those of a dataset from `s0` on. -/
structure ChunkSource where
  fname : String
  dset : String
  v0 : Nat
  s0 : Nat
  count : Nat
  deriving DecidableEq, Repr

/-- A row of `table`. -/
structure ChunkPlace where
  map : Nat
  offset : Nat
  size : Nat
  deriving DecidableEq, Repr

/-- Why `open_frames` refuses the sources. -/
inductive OpenError where
  | notLocated (error : String)
  | noChunk (fname dset : String) (frame : Nat)
  | missing (frames first : Nat)
  deriving DecidableEq, Repr

/-- The offset and size of the chunks of a dataset, or the error that opening it or `locate_chunks` raises. -/
abbrev Locate := String → String → Except String (Nat → Option (Nat × Nat))

/-- The rows of the frames `[v, v + n)` of a source whose chunks lie at `off`. -/
def fillRows (off : Nat → Option (Nat × Nat)) (s : ChunkSource) (map : Nat) :
    Nat → Nat → List (Option ChunkPlace) → Except OpenError (List (Option ChunkPlace))
  | 0, _, table => .ok table
  | n + 1, v, table =>
      match off (s.s0 + v - s.v0) with
      | none => .error (.noChunk s.fname s.dset (s.s0 + v - s.v0))
      | some (o, size) => fillRows off s map n (v + 1) (table.set v (some ⟨map, o, size⟩))

/-- The loop over the sources: the files that are mapped, and the table. -/
def openSources (locate : Locate) (nframes : Nat) :
    List ChunkSource → List String → List (Option ChunkPlace) →
      Except OpenError (List String × List (Option ChunkPlace))
  | [], maps, table => .ok (maps, table)
  | s :: sources, maps, table =>
      let stop := min (s.v0 + s.count) nframes
      if stop ≤ s.v0 then openSources locate nframes sources maps table
      else do
        let off ← (locate s.fname s.dset).mapError OpenError.notLocated
        let table ← fillRows off s maps.length (stop - s.v0) s.v0 table
        openSources locate nframes sources (maps ++ [s.fname]) table

/-- `open_frames`; a row of -1 is `none`. -/
def openFrames (locate : Locate) (sources : List ChunkSource) (nframes : Nat) :
    Except OpenError (List String × List (Option ChunkPlace)) := do
  let (maps, table) ← openSources locate nframes sources [] (List.replicate nframes none)
  let missing := (List.range nframes).filter fun k => (table.getD k none).isNone
  if missing.isEmpty then .ok (maps, table) else .error (.missing missing.length (missing.getD 0 0))

/-! ## The rows of one source -/

/-- The source has frame `v`. -/
def ChunkSource.covers (s : ChunkSource) (v : Nat) : Bool := decide (s.v0 ≤ v ∧ v < s.v0 + s.count)

/-- Where the source has the chunk of frame `v`. -/
def ChunkSource.place (s : ChunkSource) (locate : Locate) (v : Nat) : Option (Nat × Nat) :=
  match locate s.fname s.dset with
  | .ok off => off (s.s0 + v - s.v0)
  | .error _ => none

section

variable {locate : Locate} {off : Nat → Option (Nat × Nat)} {nframes : Nat}

theorem ChunkSource.place_eq {s : ChunkSource} (h : locate s.fname s.dset = .ok off) (v : Nat) :
    s.place locate v = off (s.s0 + v - s.v0) := by
  rw [place, h]

theorem fillRows_ok_iff (s : ChunkSource) (map : Nat) :
    ∀ n v table, (∃ r, fillRows off s map n v table = .ok r) ↔
      ∀ u, v ≤ u → u < v + n → (off (s.s0 + u - s.v0)).isSome = true := by
  intro n
  induction n with
  | zero =>
    intro v table
    exact ⟨fun _ u hu hlt => by omega, fun _ => ⟨table, rfl⟩⟩
  | succ n ih =>
    intro v table
    rw [fillRows]
    cases hplace : off (s.s0 + v - s.v0) with
    | none =>
      constructor
      · rintro ⟨r, hr⟩
        cases hr
      · intro h
        have hv := h v (Nat.le_refl v) (by omega)
        rw [hplace] at hv
        cases hv
    | some p =>
      obtain ⟨o, size⟩ := p
      dsimp only
      rw [ih]
      constructor
      · intro h u hu hlt
        by_cases huv : u = v
        · rw [huv, hplace]
          rfl
        · exact h u (by omega) (by omega)
      · intro h u hu hlt
        exact h u (by omega) (by omega)

theorem fillRows_spec (s : ChunkSource) (map : Nat) :
    ∀ n v table r, v + n ≤ table.length → fillRows off s map n v table = .ok r →
      r.length = table.length ∧
        (∀ u, v ≤ u → u < v + n → ∃ o size, off (s.s0 + u - s.v0) = some (o, size) ∧
          r.getD u none = some ⟨map, o, size⟩) ∧
        ∀ u, (u < v ∨ v + n ≤ u) → r.getD u none = table.getD u none := by
  intro n
  induction n with
  | zero =>
    intro v table r _ h
    obtain rfl := Except.ok.inj h
    exact ⟨rfl, fun u hu hlt => by omega, fun u _ => rfl⟩
  | succ n ih =>
    intro v table r hle h
    rw [fillRows] at h
    cases hplace : off (s.s0 + v - s.v0) with
    | none =>
      rw [hplace] at h
      cases h
    | some p =>
      obtain ⟨o, size⟩ := p
      rw [hplace] at h
      obtain ⟨hlen, hin, hout⟩ := ih (v + 1) _ r (by rw [List.length_set]; omega) h
      rw [List.length_set] at hlen
      refine ⟨hlen, fun u hu hlt => ?_, fun u hu => ?_⟩
      · by_cases huv : u = v
        · subst huv
          refine ⟨o, size, hplace, ?_⟩
          rw [hout u (Or.inl (Nat.lt_succ_self u)), List.getD_eq_getElem _ _ (by rw [List.length_set]; omega),
            List.getElem_set_self]
        · exact hin u (by omega) (by omega)
      · rw [hout u (by omega), List.getD_eq_getElem?_getD, List.getD_eq_getElem?_getD,
          List.getElem?_set_ne (by omega)]

/-! ## All sources -/

/-- The last source that has frame `v`. -/
def lastSource (sources : List ChunkSource) (v : Nat) : Option ChunkSource :=
  (sources.filter fun s => s.covers v).getLast?

/-- The table has the chunk of frame `v` in source `s`. -/
def Tabled (locate : Locate) (maps : List String) (table : List (Option ChunkPlace)) (v : Nat)
    (s : ChunkSource) : Prop :=
  ∃ m o size, table.getD v none = some ⟨m, o, size⟩ ∧ s.place locate v = some (o, size) ∧
    maps[m]? = some s.fname

theorem lastSource_cons (s : ChunkSource) (sources : List ChunkSource) (v : Nat) :
    lastSource (s :: sources) v = (lastSource sources v).or (if s.covers v then some s else none) := by
  unfold lastSource
  rw [List.filter_cons]
  split
  · rw [List.getLast?_cons]
    cases (sources.filter fun s => s.covers v).getLast? <;> rfl
  · exact Option.or_none.symm

theorem lastSource_eq_some {sources : List ChunkSource} {v : Nat} {s : ChunkSource}
    (h : lastSource sources v = some s) : s ∈ sources ∧ s.covers v = true :=
  List.mem_filter.mp (List.mem_of_getLast? h)

/-- No frame below `nframes` is read of a source whose turn is passed over. -/
theorem not_covers {s : ChunkSource} {v : Nat} (hstop : min (s.v0 + s.count) nframes ≤ s.v0)
    (hv : v < nframes) : s.covers v = false := by
  rw [ChunkSource.covers, decide_eq_false_iff_not]
  omega

theorem openSources_cons (s : ChunkSource) (sources : List ChunkSource) (maps : List String)
    (table : List (Option ChunkPlace)) (hstop : ¬min (s.v0 + s.count) nframes ≤ s.v0) :
    openSources locate nframes (s :: sources) maps table =
      ((locate s.fname s.dset).mapError OpenError.notLocated).bind fun off =>
        (fillRows off s maps.length (min (s.v0 + s.count) nframes - s.v0) s.v0 table).bind
          (openSources locate nframes sources (maps ++ [s.fname])) := by
  rw [openSources, if_neg hstop]
  rfl

theorem openSources_ok_iff :
    ∀ sources maps table, (∃ r, openSources locate nframes sources maps table = .ok r) ↔
      ∀ s ∈ sources, ∀ v, v < nframes → s.covers v = true → (s.place locate v).isSome = true := by
  intro sources
  induction sources with
  | nil => exact fun maps table => ⟨fun _ s hs => absurd hs List.not_mem_nil, fun _ => ⟨_, rfl⟩⟩
  | cons s sources ih =>
    intro maps table
    rw [List.forall_mem_cons]
    by_cases hstop : min (s.v0 + s.count) nframes ≤ s.v0
    · rw [openSources, if_pos hstop, ih]
      refine ⟨fun h => ⟨fun v hv hcovers => ?_, h⟩, And.right⟩
      rw [not_covers hstop hv] at hcovers
      cases hcovers
    · rw [openSources_cons s sources maps table hstop]
      cases hlocate : locate s.fname s.dset with
      | error e =>
        -- the first frame of the source has no place
        refine ⟨fun ⟨r, hr⟩ => (nomatch hr), fun h => ?_⟩
        have hfirst := h.1 s.v0 (by omega) (decide_eq_true (by omega))
        rw [ChunkSource.place, hlocate] at hfirst
        cases hfirst
      | ok off =>
        have hfill := @fillRows_ok_iff off s maps.length (min (s.v0 + s.count) nframes - s.v0) s.v0 table
        have hrange : (∀ u, s.v0 ≤ u → u < s.v0 + (min (s.v0 + s.count) nframes - s.v0) →
            (off (s.s0 + u - s.v0)).isSome = true) ↔
            ∀ v, v < nframes → s.covers v = true → (s.place locate v).isSome = true := by
          constructor
          · intro h v hv hcovers
            have hin := of_decide_eq_true hcovers
            rw [ChunkSource.place_eq hlocate]
            exact h v hin.1 (by omega)
          · intro h u hu hlt
            rw [← ChunkSource.place_eq hlocate]
            exact h u (by omega) (decide_eq_true (by omega))
        rw [← hrange, ← hfill]
        change (∃ r, (fillRows off s maps.length (min (s.v0 + s.count) nframes - s.v0) s.v0 table).bind
          (openSources locate nframes sources (maps ++ [s.fname])) = .ok r) ↔ _
        constructor
        · rintro ⟨r, hr⟩
          obtain ⟨t, ht, hrest⟩ := bind_eq_ok.mp hr
          exact ⟨⟨t, ht⟩, (ih _ _).mp ⟨r, hrest⟩⟩
        · rintro ⟨⟨t, ht⟩, hrest⟩
          obtain ⟨r, hr⟩ := (ih (maps ++ [s.fname]) t).mpr hrest
          exact ⟨r, bind_eq_ok.mpr ⟨t, ht, hr⟩⟩

theorem Tabled.mono {maps maps' : List String} {table table' : List (Option ChunkPlace)} {v : Nat}
    {s : ChunkSource} (h : Tabled locate maps table v s) (hmaps : maps <+: maps')
    (htable : table'.getD v none = table.getD v none) : Tabled locate maps' table' v s := by
  obtain ⟨m, o, size, hrow, hplace, hmap⟩ := h
  obtain ⟨more, rfl⟩ := hmaps
  refine ⟨m, o, size, htable.trans hrow, hplace, ?_⟩
  rw [List.getElem?_append_left (List.getElem?_eq_some_iff.mp hmap).1, hmap]

theorem openSources_spec :
    ∀ sources maps table r, table.length = nframes → openSources locate nframes sources maps table = .ok r →
      r.2.length = nframes ∧ maps <+: r.1 ∧
        ∀ v, v < nframes → (∀ s, lastSource sources v = some s → Tabled locate r.1 r.2 v s) ∧
          (lastSource sources v = none → r.2.getD v none = table.getD v none) := by
  intro sources
  induction sources with
  | nil =>
    intro maps table r hlen h
    obtain rfl := Except.ok.inj h
    exact ⟨hlen, List.prefix_rfl, fun v _ => ⟨nofun, fun _ => rfl⟩⟩
  | cons s sources ih =>
    intro maps table r hlen h
    by_cases hstop : min (s.v0 + s.count) nframes ≤ s.v0
    · rw [openSources, if_pos hstop] at h
      obtain ⟨hlen', hmaps, hrows⟩ := ih maps table r hlen h
      refine ⟨hlen', hmaps, fun v hv => ?_⟩
      rw [lastSource_cons, not_covers hstop hv, if_neg Bool.false_ne_true, Option.or_none]
      exact hrows v hv
    · rw [openSources_cons s sources maps table hstop] at h
      obtain ⟨off, hoff, h⟩ := bind_eq_ok.mp h
      have hlocate : locate s.fname s.dset = .ok off := by
        cases hl : locate s.fname s.dset with
        | ok off' =>
          rw [hl] at hoff
          exact congrArg _ (Except.ok.inj hoff)
        | error e =>
          rw [hl] at hoff
          cases hoff
      obtain ⟨t, ht, hrest⟩ := bind_eq_ok.mp h
      obtain ⟨hlent, hin, hout⟩ := fillRows_spec s maps.length _ s.v0 table t (by omega) ht
      obtain ⟨hlen', hmaps, hrows⟩ := ih (maps ++ [s.fname]) t r (hlent.trans hlen) hrest
      refine ⟨hlen', (List.prefix_append maps [s.fname]).trans hmaps, fun v hv => ?_⟩
      obtain ⟨hlast, hnone⟩ := hrows v hv
      rw [lastSource_cons]
      cases hlater : lastSource sources v with
      | some s' =>
        rw [Option.some_or]
        exact ⟨fun s'' hs'' => hlast s'' (hlater.trans hs''), nofun⟩
      | none =>
        -- the row that the later sources leave alone
        have hkept := hnone hlater
        rw [Option.none_or]
        by_cases hcovers : s.covers v = true
        · rw [if_pos hcovers]
          refine ⟨fun s' hs' => ?_, nofun⟩
          obtain rfl := Option.some.inj hs'
          have hbounds := of_decide_eq_true hcovers
          obtain ⟨o, size, hplace, hrow⟩ := hin v hbounds.1 (by omega)
          have htabled : Tabled locate (maps ++ [s.fname]) t v s :=
            ⟨maps.length, o, size, hrow, (ChunkSource.place_eq hlocate v).trans hplace,
              List.getElem?_concat_length⟩
          exact htabled.mono hmaps hkept
        · rw [if_neg hcovers]
          refine ⟨nofun, fun _ => hkept.trans (hout v ?_)⟩
          rw [Bool.not_eq_true, ChunkSource.covers, decide_eq_false_iff_not] at hcovers
          omega

theorem exists_lastSource {sources : List ChunkSource} {v : Nat} :
    (∃ s, lastSource sources v = some s) ↔ ∃ s ∈ sources, s.covers v = true := by
  constructor
  · rintro ⟨s, hs⟩
    exact ⟨s, lastSource_eq_some hs⟩
  · rintro ⟨s, hs, hcovers⟩
    have hmem : s ∈ sources.filter fun s => s.covers v := List.mem_filter.mpr ⟨hs, hcovers⟩
    exact ⟨_, List.getLast?_eq_some_getLast (List.ne_nil_of_mem hmem)⟩

/-- Once the sources have been read, a frame is missing where none of them has it. -/
theorem missing_isEmpty {sources : List ChunkSource} {maps : List String} {table : List (Option ChunkPlace)}
    (h : openSources locate nframes sources [] (List.replicate nframes none) = .ok (maps, table)) :
    ((List.range nframes).filter fun k => (table.getD k none).isNone).isEmpty = true ↔
      ∀ v, v < nframes → ∃ s ∈ sources, s.covers v = true := by
  obtain ⟨-, -, hrows⟩ := openSources_spec sources [] _ _ List.length_replicate h
  rw [List.isEmpty_iff, List.filter_eq_nil_iff]
  constructor
  · intro hnone v hv
    rw [← exists_lastSource]
    cases hlast : lastSource sources v with
    | some s => exact ⟨s, rfl⟩
    | none =>
      have hrow := (hrows v hv).2 hlast
      have hempty : (List.replicate nframes (none : Option ChunkPlace)).getD v none = none := by
        rw [List.getD_eq_getElem?_getD, List.getElem?_replicate]
        split <;> rfl
      refine absurd ?_ (hnone v (List.mem_range.mpr hv))
      rw [hrow, hempty]
      rfl
  · intro hall v hv
    have hv' := List.mem_range.mp hv
    obtain ⟨s, hs⟩ := exists_lastSource.mpr (hall v hv')
    obtain ⟨m, o, size, hrow, -⟩ := (hrows v hv').1 s hs
    rw [hrow]
    simp

theorem openFrames_eq (sources : List ChunkSource) (r : List String × List (Option ChunkPlace)) :
    openFrames locate sources nframes = .ok r ↔
      openSources locate nframes sources [] (List.replicate nframes none) = .ok r ∧
        ∀ v, v < nframes → ∃ s ∈ sources, s.covers v = true := by
  refine Iff.trans bind_eq_ok ⟨fun h => ?_, fun h => ?_⟩
  · obtain ⟨⟨maps, table⟩, hopen, h⟩ := h
    dsimp only at h
    split_ifs at h with hmissing
    obtain rfl := Except.ok.inj h
    exact ⟨hopen, (missing_isEmpty hopen).mp hmissing⟩
  · obtain ⟨hopen, hall⟩ := h
    refine ⟨r, hopen, ?_⟩
    dsimp only
    rw [if_pos ((missing_isEmpty hopen).mpr hall)]

/-- The row of every frame. -/
theorem openFrames_tabled {sources : List ChunkSource} {maps : List String}
    {table : List (Option ChunkPlace)} (h : openFrames locate sources nframes = .ok (maps, table)) {v : Nat}
    (hv : v < nframes) : ∃ s, lastSource sources v = some s ∧ Tabled locate maps table v s := by
  obtain ⟨hopen, hall⟩ := (openFrames_eq sources _).mp h
  obtain ⟨-, -, hrows⟩ := openSources_spec sources [] _ _ List.length_replicate hopen
  obtain ⟨s, hs⟩ := exists_lastSource.mpr (hall v hv)
  exact ⟨s, hs, (hrows v hv).1 s hs⟩

end

/-- The sources are accepted exactly when each of them can be located and has a chunk for all its frames, and every
frame is in one of them; every frame is then read where the last source that has it keeps its chunk. -/
theorem openFrames_exact (locate : Locate) (sources : List ChunkSource) (nframes : Nat) :
    ((∃ r, openFrames locate sources nframes = .ok r) ↔
      (∀ s ∈ sources, ∀ v, v < nframes → s.covers v = true → (s.place locate v).isSome = true) ∧
        ∀ v, v < nframes → ∃ s ∈ sources, s.covers v = true) ∧
    ∀ maps table, openFrames locate sources nframes = .ok (maps, table) →
      table.length = nframes ∧ ∀ v, v < nframes →
        ∃ s, lastSource sources v = some s ∧ Tabled locate maps table v s := by
  refine ⟨?_, fun maps table h => ⟨?_, fun v hv => openFrames_tabled h hv⟩⟩
  · rw [← openSources_ok_iff sources [] (List.replicate nframes none)]
    constructor
    · rintro ⟨r, hr⟩
      obtain ⟨hopen, hall⟩ := (openFrames_eq sources r).mp hr
      exact ⟨⟨r, hopen⟩, hall⟩
    · rintro ⟨⟨r, hopen⟩, hall⟩
      exact ⟨r, (openFrames_eq sources r).mpr ⟨hopen, hall⟩⟩
  · exact (openSources_spec sources [] _ _ List.length_replicate ((openFrames_eq sources _).mp h).1).1

end Bslz4ToSparse.Conveyor
