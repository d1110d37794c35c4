import Bslz4ToSparse.Conveyor.EngineInv

/-!
# Every run of the conveyor

A slot is not filled while it is decoded, a run that ends without an error has decoded every
unit once, and a thread that has not ended never waits for what will not come.
-/

namespace Bslz4ToSparse.Conveyor

open Foundation
open Lz4 (Byte)

section

variable {E : Engine} {k j : Nat} {s s' : State} {sh sh' : Shared} {l l' : Lane} {lane : Nat → Lane}

/-! ## Nobody waits for ever -/

/-- The reader and the worker of every `k`. -/
def threads (n : Nat) : List (Role × Nat) :=
  (List.range n).map (Prod.mk .worker) ++ (List.range n).map (Prod.mk .reader)

theorem mem_threads {n : Nat} {t : Role × Nat} : t ∈ threads n ↔ t.2 < n := by
  obtain ⟨role, k⟩ := t
  cases role <;> simp [threads]

theorem nodup_threads (n : Nat) : (threads n).Nodup := by
  unfold threads
  rw [List.nodup_append]
  refine ⟨?_, ?_, ?_⟩
  · exact List.nodup_range.map fun a b h => (Prod.mk.inj h).2
  · exact List.nodup_range.map fun a b h => (Prod.mk.inj h).2
  · rintro a ha b hb rfl
    obtain ⟨i, -, rfl⟩ := List.mem_map.mp ha
    obtain ⟨j, -, hj⟩ := List.mem_map.mp hb
    cases hj

theorem length_threads (n : Nat) : (threads n).length = 2 * n := by
  simp [threads]
  omega

/-- Nobody reports twice. -/
theorem ResultsInv.length_le (h : ResultsInv E sh lane) (hm : sh.main ≠ .raised) :
    (sh.main.got ++ sh.res).length ≤ 2 * E.workers := by
  rw [← length_threads, ← @List.length_map _ _ (sh.main.got ++ sh.res) fun st => (st.role, st.k)]
  refine (List.subperm_of_subset (h.once hm) fun t ht => ?_).length_le
  obtain ⟨st, hst, rfl⟩ := List.mem_map.mp ht
  exact mem_threads.mpr ((h.reported hm st).mp hst).1

/-- Once all have ended, all have reported. -/
theorem ResultsInv.all (h : ResultsInv E sh lane) (hm : sh.main ≠ .raised)
    (hall : ∀ k, k < E.workers → ∀ role, ∃ error, doneAs (lane k) role error) :
    2 * E.workers ≤ (sh.main.got ++ sh.res).length := by
  rw [← length_threads, ← @List.length_map _ _ (sh.main.got ++ sh.res) fun st => (st.role, st.k)]
  refine (List.subperm_of_subset (nodup_threads _) fun t ht => ?_).length_le
  obtain ⟨role, k⟩ := t
  have hk : k < E.workers := mem_threads.mp ht
  obtain ⟨error, hd⟩ := hall k hk role
  exact List.mem_map.mpr ⟨⟨role, k, error⟩, (h.reported hm _).mpr ⟨hk, hd⟩, rfl⟩

/-- Some thread can take a step. -/
def CanStep (E : Engine) (s : State) : Prop := ∃ s', Step E s s'

theorem CanStep.reader (hk : k < E.workers) (h : ReaderStep E k s.sh (s.lane k) sh' l') : CanStep E s :=
  ⟨_, .reader k sh' l' hk h⟩

theorem CanStep.worker (hk : k < E.workers) (h : WorkerStep E k s.sh (s.lane k) sh' l') : CanStep E s :=
  ⟨_, .worker k sh' l' hk h⟩

theorem CanStep.main (h : MainStep E s.lane s.sh sh') : CanStep E s := ⟨_, .main sh' h⟩

/-- A worker waits in the barrier, for `go`, or for a unit; everywhere else it goes on. -/
theorem worker_waits (hk : k < E.workers) (hs : k < s.sh.started) :
    CanStep E s ∨ (∃ error, (s.lane k).worker = .done error) ∨
      (s.lane k).worker = .inBarrier ∧ s.sh.barrier.phase = .filling ∨
      (s.lane k).worker = .waitGo ∧ s.sh.go = false ∨
      (s.lane k).worker = .takeReady ∧ (s.lane k).ready = [] := by
  cases hw : (s.lane k).worker with
  | start => exact Or.inl (.worker hk (.start hw hs))
  | prepare => exact Or.inl (.worker hk (.prepare hw))
  | putSlots i =>
    rcases Nat.lt_or_ge i E.slotsPerWorker with hi | hi
    · exact Or.inl (.worker hk (.putSlot i hw hi))
    · exact Or.inl (.worker hk (.slotsPut i hw hi))
  | barrier =>
    by_cases hb : s.sh.barrier.phase = .broken
    · exact Or.inl (.worker hk (.broken (Or.inl hw) hb))
    · exact Or.inl (.worker hk (.enter hw hb))
  | inBarrier =>
    cases hb : s.sh.barrier.phase with
    | filling => exact Or.inr (Or.inr (Or.inl ⟨rfl, rfl⟩))
    | released => exact Or.inl (.worker hk (.released hw hb))
    | broken => exact Or.inl (.worker hk (.broken (Or.inr hw) hb))
  | waitGo =>
    cases hgo : s.sh.go with
    | true => exact Or.inl (.worker hk (.goes hw hgo))
    | false => exact Or.inr (Or.inr (Or.inr (Or.inl ⟨rfl, rfl⟩)))
  | takeReady =>
    cases hready : (s.lane k).ready with
    | nil => exact Or.inr (Or.inr (Or.inr (Or.inr ⟨rfl, rfl⟩)))
    | cons item rest => exact Or.inl (.worker hk (.takeReady item rest hw hready))
  | gotItem item =>
    cases item with
    | none => exact Or.inl (.worker hk (.leaves none hw (Or.inl rfl)))
    | some item =>
      obtain ⟨slot, u⟩ := item
      cases hstop : s.sh.stop with
      | true => exact Or.inl (.worker hk (.leaves _ hw (Or.inr hstop)))
      | false => exact Or.inl (.worker hk (.goesOn slot u hw hstop))
  | decoding slot u i =>
    rcases Nat.lt_or_ge (i * E.batch) (E.job u).n with hi | hi
    · exact Or.inl (.worker hk (.decode slot u i hw hi))
    · exact Or.inl (.worker hk (.decoded slot u i hw hi))
  | writing slot u i => exact Or.inl (.worker hk (.wrote slot u i hw))
  | putFree slot => exact Or.inl (.worker hk (.putFree slot hw))
  | wake i =>
    rcases Nat.lt_or_ge i (E.slotsPerWorker + 1) with hi | hi
    · exact Or.inl (.worker hk (.wake i hw hi))
    · exact Or.inl (.worker hk (.woken i hw hi))
  | sinkEnd => exact Or.inl (.worker hk (.sinkEnd hw))
  | setStop => exact Or.inl (.worker hk (.setStop hw))
  | abort => exact Or.inl (.worker hk (.abort hw))
  | wakeFailed i =>
    rcases Nat.lt_or_ge i (E.slotsPerWorker + 1) with hi | hi
    · exact Or.inl (.worker hk (.wakeFailed i hw hi))
    · exact Or.inl (.worker hk (.wokenFailed i hw hi))
  | report error => exact Or.inl (.worker hk (.report error hw))
  | done error => exact Or.inr (Or.inl ⟨error, rfl⟩)

/-- There is an end in the queue for every reader that asks. -/
theorem Inv.todo_ne_nil (h : Inv E s) (hk : k < E.workers) {slot : Nat}
    (hr : (s.lane k).reader = .takeTodo slot) : s.sh.todo ≠ [] := by
  have hm := (h.lanes k hk).gate.normal (by rw [hr]; exact List.cons_ne_nil _ _)
  obtain ⟨us, n, htodo, hn⟩ := h.todo.normal hm
  obtain ⟨rest, hshares, -⟩ := shares_update asking s.lane hk (s.lane k)
  have hask : asking (s.lane k) = [()] := by
    rw [asking, hr]
    rfl
  rw [hshares.length_eq, hask, List.length_append, List.length_singleton] at hn
  intro hnil
  rw [hnil] at htodo
  have hlen := congrArg List.length htodo
  rw [List.length_append, List.length_replicate, List.length_nil] at hlen
  omega

/-- A reader waits for `go` or for a free slot; everywhere else it goes on. -/
theorem Inv.reader_waits (h : Inv E s) (hk : k < E.workers) (hs : E.workers + k < s.sh.started) :
    CanStep E s ∨ (∃ error, (s.lane k).reader = .done error) ∨
      (s.lane k).reader = .waitGo ∧ s.sh.go = false ∨
      (s.lane k).reader = .takeFree ∧ (s.lane k).free = [] := by
  cases hr : (s.lane k).reader with
  | start => exact Or.inl (.reader hk (.start hr hs))
  | waitGo =>
    cases hgo : s.sh.go with
    | true => exact Or.inl (.reader hk (.goes hr hgo))
    | false => exact Or.inr (Or.inr (Or.inl ⟨rfl, rfl⟩))
  | takeFree =>
    cases hfree : (s.lane k).free with
    | nil => exact Or.inr (Or.inr (Or.inr ⟨rfl, rfl⟩))
    | cons slot rest => exact Or.inl (.reader hk (.takeFree slot rest hr hfree))
  | gotSlot slot =>
    cases hstop : s.sh.stop with
    | true => exact Or.inl (.reader hk (.stopped slot hr hstop))
    | false => exact Or.inl (.reader hk (.goesOn slot hr hstop))
  | takeTodo slot =>
    have hne := h.todo_ne_nil hk hr
    cases htodo : s.sh.todo with
    | nil => exact absurd htodo hne
    | cons x rest =>
      cases x with
      | none => exact Or.inl (.reader hk (.noMore slot rest hr htodo))
      | some u => exact Or.inl (.reader hk (.takeTodo slot u rest hr htodo))
  | reading slot u got =>
    rcases Nat.lt_or_ge got (E.job u).span with hgot | hgot
    · by_cases hio : E.ioBytes = 0
      · refine Or.inl (.reader hk (.read slot u got 1 hr hgot Nat.one_pos ?_))
        unfold want
        rw [if_pos hio]
        omega
      · refine Or.inl (.reader hk (.read slot u got 1 hr hgot Nat.one_pos ?_))
        unfold want
        rw [if_neg hio]
        omega
    · exact Or.inl (.reader hk (.readAll slot u got hr hgot))
  | putReady slot u => exact Or.inl (.reader hk (.putReady slot u hr))
  | putDone => exact Or.inl (.reader hk (.putDone hr))
  | setStop => exact Or.inl (.reader hk (.setStop hr))
  | putDoneFailed => exact Or.inl (.reader hk (.putDoneFailed hr))
  | report error => exact Or.inl (.reader hk (.report error hr))
  | done error => exact Or.inr (Or.inl ⟨error, rfl⟩)

/-- A reader that finds no free slot has a worker that still puts one: a worker in its loop has
all the slots, one that has left it has put one to wake the reader. -/
theorem LaneInv.free_ne_nil (h : LaneInv E k sh l) (hr : l.reader = .takeFree)
    (hw : (∃ error, l.worker = .done error) ∨ l.worker = .takeReady ∧ l.ready = []) : l.free ≠ [] := by
  intro hfree
  rcases hw with ⟨error, hw⟩ | ⟨hw, hready⟩
  · rcases (h.flow.woken (by rw [hw]; rfl) (by rw [hr]; rfl)).2 with hne | hne
    · exact hne hfree
    · rw [hr] at hne
      exact hne rfl
  · have honce := h.slots.once (by rw [hr]; rfl) (by rw [hw]; rfl) (k * E.slotsPerWorker)
    rw [hfree, hr, hready, hw] at honce
    have hpos := E.slots_pos
    have hmem : k * E.slotsPerWorker ∈ List.range' (k * E.slotsPerWorker) E.slotsPerWorker :=
      List.mem_range'_1.mpr ⟨Nat.le_refl _, by omega⟩
    have hcount := List.count_pos_iff.mpr hmem
    simp only [ReaderPc.spare, ReaderPc.slots, readySlots_nil, WorkerPc.slots, WorkerPc.given,
      List.count_nil] at honce
    omega

/-- A worker that finds no unit has a reader that has not put its last item. -/
theorem LaneInv.not_last (h : LaneInv E k sh l) (hw : l.worker = .takeReady) (hready : l.ready = []) :
    l.reader.last = false := by
  by_contra hlast
  rcases h.flow.closed (by simpa using hlast) with ⟨items, -, hitems, -⟩ | ⟨-, hor⟩
  · rw [hready] at hitems
    cases items <;> cases hitems
  · rw [hw] at hor
    rcases hor with hor | hor <;> cases hor

/-- After `go`, a worker and its reader go on until both have ended. -/
theorem Inv.lane_goes (h : Inv E s) (hk : k < E.workers) (hs : 2 * E.workers ≤ s.sh.started)
    (hgo : s.sh.go = true) (hb : s.sh.barrier.phase ≠ .filling) :
    CanStep E s ∨ ∀ role, ∃ error, doneAs (s.lane k) role error := by
  have hlane := h.lanes k hk
  have hwaits := worker_waits (E := E) (s := s) hk (by omega)
  have hreads := h.reader_waits hk (by omega)
  rcases hwaits with hstep | hwdone | ⟨-, hf⟩ | ⟨-, hg⟩ | hwready
  · exact Or.inl hstep
  · rcases hreads with hstep | hrdone | ⟨-, hg⟩ | ⟨hr, hfree⟩
    · exact Or.inl hstep
    · refine Or.inr fun role => ?_
      cases role with
      | worker => exact hwdone
      | reader => exact hrdone
    · rw [hgo] at hg
      cases hg
    · exact absurd hfree (hlane.free_ne_nil hr (Or.inl hwdone))
  · exact absurd hf hb
  · rw [hgo] at hg
    cases hg
  · have hlast := hlane.not_last hwready.1 hwready.2
    rcases hreads with hstep | ⟨error, hr⟩ | ⟨-, hg⟩ | ⟨hr, hfree⟩
    · exact Or.inl hstep
    · rw [hr] at hlast
      cases hlast
    · rw [hgo] at hg
      cases hg
    · exact absurd hfree (hlane.free_ne_nil hr (Or.inr hwready))

/-- The barrier fills: not all of the workers can wait in it. -/
theorem Inv.barrier_goes (h : Inv E s) (hm : s.sh.main = .inBarrier)
    (hb : s.sh.barrier.phase = .filling) : CanStep E s := by
  by_contra hno
  have hs := h.main.started (by rw [hm]; nofun)
  have hall : ∀ k, k < E.workers → some k ∈ s.sh.barrier.arrived := by
    intro k hk
    have hgate := (h.lanes k hk).gate
    have hwaits := worker_waits (E := E) (s := s) hk (by omega)
    rcases hwaits with hstep | ⟨error, hw⟩ | ⟨hw, -⟩ | ⟨hw, -⟩ | ⟨hw, -⟩
    · exact absurd hstep hno
    · exact absurd hb (hgate.passed (by rw [hw]; rfl))
    · exact hgate.waits hw hb
    · exact absurd hb (hgate.passed (by rw [hw]; rfl))
    · exact absurd hb (hgate.passed (by rw [hw]; rfl))
  have hnone := h.main.waits hm hb
  have hlen := h.main.filling hb
  have hsub : none :: (List.range E.workers).map some ⊆ s.sh.barrier.arrived := by
    intro p hp
    rcases List.mem_cons.mp hp with rfl | hp
    · exact hnone
    · obtain ⟨k, hk, rfl⟩ := List.mem_map.mp hp
      exact hall k (List.mem_range.mp hk)
  have hnodup : (none :: (List.range E.workers).map some).Nodup := by
    refine List.nodup_cons.mpr ⟨?_, List.nodup_range.map (Option.some_injective Nat)⟩
    simp
  have hle := (List.subperm_of_subset hnodup hsub).length_le
  rw [List.length_cons, List.length_map, List.length_range] at hle
  omega

/-- A thread has not ended. -/
def Unfinished (E : Engine) (s : State) : Prop :=
  (s.sh.main ≠ .raised ∧ ∀ got, s.sh.main ≠ .finished got) ∨
    ∃ k, k < E.workers ∧ ∃ role, ∀ error, ¬doneAs (s.lane k) role error

/-- With `go` set, some thread can go on as long as one has not ended. -/
theorem Inv.goes (h : Inv E s) (hw : s.sh.main.wentOn = true) (hun : Unfinished E s) : CanStep E s := by
  by_contra hno
  have hs := h.main.started fun hm => by rw [hm] at hw; cases hw
  have hb : s.sh.barrier.phase ≠ .filling := by
    apply h.main.past
    cases hm : s.sh.main <;> rw [hm] at hw <;> first | rfl | cases hw
  have hall : ∀ k, k < E.workers → ∀ role, ∃ error, doneAs (s.lane k) role error := fun k hk =>
    (h.lane_goes hk hs (h.main.wentOn hw) hb).resolve_left hno
  rcases hun with ⟨hraised, hfinished⟩ | ⟨k, hk, role, hrole⟩
  · have hmany := h.results.all hraised hall
    rw [List.length_append] at hmany
    have hres : s.sh.main.got.length < 2 * E.workers → ∃ st rest, s.sh.res = st :: rest := by
      intro hlt
      apply List.exists_cons_of_length_pos
      omega
    have hpos := E.workers_pos
    cases hm : s.sh.main with
    | collectFailed got =>
      rw [hm] at hres
      rcases Nat.lt_or_ge got.length E.workers with hlt | hge
      · obtain ⟨st, rest, hst⟩ := hres (show got.length < _ by omega)
        exact hno (.main (.collectFailed got st rest hm hlt hst))
      · exact hno (.main (.raised got hm hge))
    | collect got =>
      rw [hm] at hres
      rcases Nat.lt_or_ge got.length (2 * E.workers) with hlt | hge
      · obtain ⟨st, rest, hst⟩ := hres hlt
        exact hno (.main (.collect got st rest hm hlt hst))
      · exact hno (.main (.collected got hm hge))
    | joining got i =>
      rcases Nat.lt_or_ge i (2 * E.workers) with hlt | hge
      · refine hno (.main (.join got i hm hlt ?_))
        unfold ended
        split
        · next hi => exact hall i hi .worker
        · exact hall (i - E.workers) (by omega) .reader
      · exact hno (.main (.joined got i hm hge))
    | finished got => exact hfinished got hm
    | raised => exact hraised hm
    | _ => rw [hm] at hw; cases hw
  · obtain ⟨error, hd⟩ := hall k hk role
    exact hrole error hd

theorem Inv.canStep (h : Inv E s) (hun : Unfinished E s) : CanStep E s := by
  cases hm : s.sh.main with
  | starting =>
    rcases Nat.lt_or_ge s.sh.started (2 * E.workers) with hlt | hge
    · exact .main (.startThread hm hlt)
    · exact .main (.started hm hge)
  | barrier =>
    by_cases hb : s.sh.barrier.phase = .broken
    · exact .main (.broken (Or.inl hm) hb)
    · exact .main (.enter hm hb)
  | inBarrier =>
    cases hb : s.sh.barrier.phase with
    | filling => exact h.barrier_goes hm hb
    | released => exact .main (.released hm hb)
    | broken => exact .main (.broken (Or.inr hm) hb)
  | setStop => exact .main (.setStop hm)
  | setGo => exact .main (.setGo hm)
  | putUnits i =>
    rcases Nat.lt_or_ge i E.units.length with hi | hi
    · exact .main (.putUnit i hm hi)
    · exact .main (.unitsPut i hm hi)
  | putDones i =>
    rcases Nat.lt_or_ge i E.workers with hi | hi
    · exact .main (.putDone i hm hi)
    · exact .main (.donesPut i hm hi)
  | go => exact .main (.go hm)
  | _ => exact h.goes (by rw [hm]; rfl) hun

/-! ## Slots and units -/

/-- No slot is filled while a worker has it, from the unit's taking to its last write: whatever reader goes on,
those slots keep their bytes. -/
structure Undisturbed (E : Engine) (s : State) : Prop where
  apart : ∀ k j, k < E.workers → j < E.workers → ∀ slot u got slot' u',
    (s.lane k).reader = .reading slot u got → (s.lane j).worker.job = some (slot', u') → slot ≠ slot'
  bytes : ∀ k j, k < E.workers → j < E.workers → ∀ sh' l' slot' u',
    ReaderStep E k s.sh (s.lane k) sh' l' → (s.lane j).worker.job = some (slot', u') →
      ∀ a, a < E.slotBytes → sh'.buf (slot' * E.slotBytes + a) = s.sh.buf (slot' * E.slotBytes + a)

theorem Inv.undisturbed (h : Inv E s) : Undisturbed E s := by
  have happart : ∀ k j, k < E.workers → j < E.workers → ∀ slot u got slot' u',
      (s.lane k).reader = .reading slot u got → (s.lane j).worker.job = some (slot', u') →
        slot ≠ slot' := by
    intro k j hk hj slot u got slot' u' hr hw
    by_cases hkj : k = j
    · subst hkj
      have hnot := ((h.lanes k hk).slots.filling_ne hr (WorkerPc.job_inLoop hw)).2
      rintro rfl
      exact hnot (WorkerPc.job_slots hw)
    · apply Mine.ne hkj
      · exact (h.lanes k hk).slots.heldMine (by simp [hr, ReaderPc.slots])
      · exact (h.lanes j hj).slots.heldMine (by simp [WorkerPc.job_slots hw])
  refine ⟨happart, fun k j hk hj sh' l' slot' u' hstep hw a ha => ?_⟩
  cases hstep with
  | read slot u got r hr hgot _ hwant =>
    have hne := happart k j hk hj slot u got slot' u' hr hw
    apply readInto_other _ hne.symm ha
    have hspan := span_le E u
    unfold want at hwant
    omega
  | _ => rfl

/-- Every thread of a run that ends without an error has ended without one. -/
theorem Inv.all_succeed (h : Inv E s) {got : List Stats} (hm : s.sh.main = .finished got)
    (hok : ∀ st ∈ got, st.error = false) (hk : k < E.workers) (role : Role) :
    doneAs (s.lane k) role false := by
  have hne : s.sh.main ≠ .raised := by rw [hm]; nofun
  have hgot : s.sh.main.got = got := by rw [hm]; rfl
  -- all results were taken
  have hres : s.sh.res = [] := by
    have hmany := h.results.enough got (Or.inl hm)
    have hfew := h.results.length_le hne
    rw [hgot, List.length_append] at hfew
    apply List.eq_nil_of_length_eq_zero
    omega
  have hended : ∃ error, doneAs (s.lane k) role error := by
    have hall := h.results.finished got hm
    cases role with
    | worker =>
      have he := hall k (by omega)
      rwa [ended, if_pos hk] at he
    | reader =>
      have he := hall (E.workers + k) (by omega)
      rwa [ended, if_neg (by omega), Nat.add_sub_cancel_left] at he
  obtain ⟨error, hd⟩ := hended
  have hmem := (h.results.reported hne ⟨role, k, error⟩).mpr ⟨hk, hd⟩
  rw [hgot, hres, List.append_nil] at hmem
  have herror : error = false := hok _ hmem
  rwa [herror] at hd

/-- The calls of the decoder that decode every unit once, from its own bytes. -/
def decodesAll (E : Engine) : List Decoded :=
  (List.range E.units.length).flatMap fun u => calls E u (batches E u)

theorem Inv.decoded (h : Inv E s) {got : List Stats} (hm : s.sh.main = .finished got)
    (hok : ∀ st ∈ got, st.error = false) : s.sh.log.Perm (decodesAll E) := by
  have hworker : ∀ k, k < E.workers → (s.lane k).worker = .done false := fun k hk =>
    h.all_succeed hm hok hk .worker
  have hreader : ∀ k, k < E.workers → (s.lane k).reader = .done false := fun k hk =>
    h.all_succeed hm hok hk .reader
  have hstop : s.sh.stop = false := by
    by_contra hs
    rcases h.cause (by simpa using hs) with hg | ⟨k, hk, hfailed⟩
    · rw [hm] at hg
      cases hg
    · rw [Lane.failed, hworker k hk, hreader k hk] at hfailed
      cases hfailed
  have hclean : Clean E s.sh s.lane := by
    refine ⟨hstop, fun k hk => ?_⟩
    rw [Lane.failed, hworker k hk, hreader k hk]
    rfl
  have hdrained : ∀ x ∈ s.sh.todo, x = none := by
    have hgone := (h.lanes 0 E.workers_pos).gate.drained (by rw [hreader 0 E.workers_pos]; rfl)
    rcases hgone with hs | hd
    · rw [hstop] at hs
      cases hs
    · exact hd.2
  have hqueued : queued s.sh.todo = [] := by
    apply List.filterMap_eq_nil_iff.mpr
    intro x hx
    exact hdrained x hx
  have hunits : shares E.workers Lane.units s.lane = [] := by
    apply shares_nil
    intro k hk
    have hready : (s.lane k).ready = [] := by
      rcases (h.lanes k hk).flow.left (by rw [hworker k hk]; rfl) with hs | hl
      · rw [hstop] at hs
        cases hs
      · exact hl.2
    rw [Lane.units, hworker k hk, hreader k hk, hready]
    rfl
  have hcalls : shares E.workers (Lane.calls E) s.lane = [] := by
    apply shares_nil
    intro k hk
    rw [Lane.calls, hworker k hk]
    rfl
  obtain ⟨decoded, hall, hmade⟩ := (h.accounts hclean).units
  rw [hqueued, hunits, hm, List.append_nil] at hall
  rw [hcalls, List.append_nil] at hmade
  have hsame : decoded.Perm (List.range E.units.length) := by
    simpa only [MainPc.pending, List.append_nil] using hall
  exact hmade.trans (hsame.flatMap_right _)

end

/-- Whatever the order of the steps and wherever a reader, a worker or the start fails: no slot is
filled while it is decoded; a run that ends without an error has decoded every unit once, from
its own bytes; and as long as a thread has not ended some thread can go on. -/
theorem conveyor_safe (E : Engine) (buf : Nat → Byte) (s : State) (h : Reachable E buf s) :
    Undisturbed E s ∧
    (∀ got, s.sh.main = .finished got → (∀ st ∈ got, st.error = false) →
      s.sh.log.Perm (decodesAll E)) ∧
    (Unfinished E s → CanStep E s) := by
  have hinv := h.inv
  refine ⟨hinv.undisturbed, ?_, ?_⟩
  · intro got hm hok
    exact hinv.decoded hm hok
  · exact hinv.canStep

end Bslz4ToSparse.Conveyor
