import Bslz4ToSparse.Conveyor.EngineUnits

/-!
# Every reachable state

The invariants together hold at the start, and steps and failures preserve them.
-/

namespace Bslz4ToSparse.Conveyor

open Foundation
open Lz4 (Byte)

/-- What holds of a worker and its reader. -/
structure LaneInv (E : Engine) (k : Nat) (sh : Shared) (l : Lane) : Prop where
  slots : SlotsInv E k sh.stop l
  flow : FlowInv sh.stop l
  gate : GateInv k sh l
  bytes : l.worker.inLoop = true → BytesInv E sh.buf l

/-- What holds in every state of a run. -/
structure Inv (E : Engine) (s : State) : Prop where
  lanes : ∀ k, k < E.workers → LaneInv E k s.sh (s.lane k)
  main : MainInv E s.sh
  todo : TodoInv E s.sh s.lane
  results : ResultsInv E s.sh s.lane
  cause : CauseInv E s.sh s.lane
  accounts : Clean E s.sh s.lane → Accounts E s.sh s.lane

section

variable {E : Engine} {k j : Nat} {s s' : State} {sh sh' : Shared} {l l' : Lane} {lane : Nat → Lane}

/-! ## One step -/

theorem ReaderStep.worker_eq (hstep : ReaderStep E k sh l sh' l') : l'.worker = l.worker := by
  cases hstep <;> rfl

theorem ReaderStep.stop (hstep : ReaderStep E k sh l sh' l') : sh.stop = true → sh'.stop = true :=
  (hstep.grows 0).stop

theorem WorkerStep.stop (hstep : WorkerStep E k sh l sh' l') : sh.stop = true → sh'.stop = true :=
  (hstep.grows 0).stop

theorem ReaderStep.main_eq (hstep : ReaderStep E k sh l sh' l') : sh'.main = sh.main := by
  cases hstep <;> rfl

theorem WorkerStep.main_eq (hstep : WorkerStep E k sh l sh' l') : sh'.main = sh.main := by
  cases hstep <;> rfl

theorem MainStep.buf_eq (hstep : MainStep E lane sh sh') : sh'.buf = sh.buf := by
  cases hstep <;> rfl

namespace LaneInv

/-- Another thread takes a step. -/
theorem mono (h : LaneInv E k sh l) (hg : Grows k sh sh') (hk : Keeps E k sh.buf sh'.buf) :
    LaneInv E k sh' l where
  slots := h.slots.mono hg.stop
  flow := h.flow.mono hg.stop
  gate := h.gate.mono hg
  bytes := fun hw => (h.bytes hw).keep h.slots hk

theorem reader (h : LaneInv E k sh l) (hstep : ReaderStep E k sh l sh' l') (hm : MainInv E sh)
    (ht : TodoInv E sh lane) : LaneInv E k sh' l' where
  slots := h.slots.reader hstep
  flow := h.flow.reader hstep
  gate := h.gate.reader hstep hm.opened fun _ hrest => ht.ends hrest
  bytes := fun hw => by
    rw [hstep.worker_eq] at hw
    exact (h.bytes hw).reader h.slots hw hstep

theorem worker (h : LaneInv E k sh l) (hstep : WorkerStep E k sh l sh' l') : LaneInv E k sh' l' where
  slots := by
    apply h.slots.worker hstep
    · intro hw
      have hlast := (h.flow.last_of_gotNone hw).1
      by_contra hin
      rw [ReaderPc.last_of_inLoop (by simpa using hin)] at hlast
      cases hlast
    · intro hw
      exact h.flow.failing (by rw [hw]; rfl)
  flow := h.flow.worker hstep
  gate := h.gate.worker hstep
  bytes := BytesInv.worker h.bytes h.slots hstep

theorem readerFault (h : LaneInv E k sh l) (ht : l.reader.tries = true) :
    LaneInv E k sh { l with reader := .setStop } where
  slots := h.slots.readerFault
  flow := h.flow.readerFault ht
  gate := h.gate.readerFault
  bytes := fun hw => ⟨(h.bytes hw).ready, nofun, nofun, (h.bytes hw).got⟩

theorem workerFault (h : LaneInv E k sh l) (ht : l.worker.tries = true) :
    LaneInv E k sh { l with worker := .setStop } where
  slots := h.slots.workerFault ht
  flow := h.flow.workerFault
  gate := h.gate.workerFault
  bytes := nofun

end LaneInv

/-- The other workers do not notice. -/
theorem lanes_update (h : ∀ j, j < E.workers → LaneInv E j sh (lane j)) (hself : LaneInv E k sh' l')
    (hg : ∀ j, j ≠ k → Grows j sh sh') (hkeep : ∀ j, j ≠ k → Keeps E j sh.buf sh'.buf) :
    ∀ j, j < E.workers → LaneInv E j sh' (Function.update lane k l' j) := by
  intro j hj
  by_cases hjk : j = k
  · subst hjk
    rw [Function.update_self]
    exact hself
  · rw [Function.update_of_ne hjk]
    exact (h j hj).mono (hg j hjk) (hkeep j hjk)

/-- Somebody has failed. -/
theorem not_clean (hk : k < E.workers) (hf : l'.failed = true) :
    ¬Clean E sh' (Function.update lane k l') := by
  intro hclean
  have hno := hclean.2 k hk
  rw [Function.update_self, hf] at hno
  cases hno

namespace Inv

theorem reader (h : Inv E s) (hk : k < E.workers) (hstep : ReaderStep E k s.sh (s.lane k) sh' l') :
    Inv E ⟨sh', Function.update s.lane k l'⟩ where
  lanes := lanes_update h.lanes ((h.lanes k hk).reader hstep h.main h.todo)
    (fun j _ => hstep.grows j) fun _ hjk => hstep.keeps (h.lanes k hk).slots hjk
  main := h.main.reader hstep
  todo := h.todo.reader hk (h.lanes k hk).gate hstep
  results := h.results.thread hk hstep.main_eq hstep.reports
  cause := h.cause.reader hk hstep
  accounts := fun hclean =>
    (h.accounts (hclean.before hk hstep.stop hstep.failed)).reader hk hstep hclean

theorem worker (h : Inv E s) (hk : k < E.workers) (hstep : WorkerStep E k s.sh (s.lane k) sh' l') :
    Inv E ⟨sh', Function.update s.lane k l'⟩ where
  lanes := lanes_update h.lanes ((h.lanes k hk).worker hstep)
    (fun j _ => hstep.grows j) fun _ hjk => hstep.keeps hjk
  main := h.main.worker hstep
  todo := h.todo.worker hk hstep
  results := h.results.thread hk hstep.main_eq hstep.reports
  cause := h.cause.worker hk hstep
  accounts := fun hclean =>
    (h.accounts (hclean.before hk hstep.stop hstep.failed)).worker hk (h.lanes k hk).bytes hstep hclean

theorem mainStep (h : Inv E s) (hstep : MainStep E s.lane s.sh sh') : Inv E ⟨sh', s.lane⟩ where
  lanes := fun j hj => (h.lanes j hj).mono (hstep.grows j) fun slot i _ _ => by rw [hstep.buf_eq]
  main := h.main.main hstep
  todo := h.todo.main hstep
  results := h.results.main hstep
  cause := h.cause.main hstep
  accounts := fun hclean => by
    have hbefore : Clean E s.sh s.lane := by
      refine ⟨?_, hclean.2⟩
      by_contra hs
      have hs' := hclean.1
      rw [(hstep.grows 0).stop (by simpa using hs)] at hs'
      cases hs'
    exact (h.accounts hbefore).main hstep hclean.1 h.main.gaveUp

theorem step (h : Inv E s) (hstep : Step E s s') : Inv E s' := by
  cases hstep with
  | reader k sh l hk hr => exact h.reader hk hr
  | worker k sh l hk hw => exact h.worker hk hw
  | main sh hm => exact h.mainStep hm

/-! ## A failure -/

theorem fault (h : Inv E s) (hf : Fault E s s') : Inv E s' := by
  cases hf with
  | reader k hk _ ht =>
    have hfailed : Lane.failed { s.lane k with reader := .setStop } = true := rfl
    refine ⟨?_, h.main, ?_, ?_, ?_, fun hclean => ?_⟩
    · exact lanes_update h.lanes ((h.lanes k hk).readerFault ht) (fun j _ => Grows.refl j s.sh)
        fun _ _ _ _ _ _ => rfl
    · exact h.todo.keep hk rfl rfl (asking_stays fun h => by cases h)
    · refine h.results.thread hk rfl (.no rfl fun role e => ?_)
      cases role with
      | worker => exact Iff.rfl
      | reader =>
        refine ⟨fun h => (by cases h), fun hd => ?_⟩
        rw [doneAs] at hd
        rw [hd] at ht
        cases ht
    · exact h.cause.thread hk rfl Or.inl fun hno => by cases hfailed.symm.trans hno
    · exact (not_clean hk hfailed hclean).elim
  | worker k hk _ ht =>
    have hfailed : Lane.failed { s.lane k with worker := .setStop } = true := Bool.or_true _
    have hgrows : ∀ j, j ≠ k → Grows j s.sh { s.sh with barrier :=
        { s.sh.barrier with arrived := s.sh.barrier.arrived.erase (some k) } } := by
      intro j hjk
      refine ⟨id, id, id, fun _ _ => id, id, fun hin => ?_⟩
      have hne : some j ≠ some k := fun heq => hjk (Option.some.inj heq)
      exact (List.mem_erase_of_ne hne).mpr hin
    refine ⟨?_, h.main.workerFault k, ?_, ?_, ?_, fun hclean => ?_⟩
    · refine lanes_update h.lanes ?_ hgrows fun _ _ _ _ _ _ => rfl
      have hself := (h.lanes k hk).workerFault ht
      exact ⟨hself.slots, hself.flow, ⟨hself.gate.go, hself.gate.normal, hself.gate.drained,
        fun h => (by cases h), fun h => (by cases h)⟩, fun h => by cases h⟩
    · exact h.todo.keep hk rfl rfl (asking_stays id)
    · refine h.results.thread hk rfl (.no rfl fun role e => ?_)
      cases role with
      | reader => exact Iff.rfl
      | worker =>
        refine ⟨fun h => (by cases h), fun hd => ?_⟩
        rw [doneAs] at hd
        rw [hd] at ht
        cases ht
    · exact h.cause.thread hk rfl Or.inl fun hno => by cases hfailed.symm.trans hno
    · exact (not_clean hk hfailed hclean).elim
  | timeout hm hb =>
    refine ⟨fun j hj => ?_, h.main.timeout hm, ?_, ?_, ?_, fun hclean => ?_⟩
    · refine (h.lanes j hj).mono ⟨id, id, ?_, fun _ _ => id, fun h => (by cases h), id⟩ fun _ _ _ _ => rfl
      rw [hm]
      intro h
      cases h
    · have htodo := h.todo
      unfold TodoInv at htodo
      rw [hm] at htodo
      exact htodo
    · refine h.results.takes (fun _ => ⟨fun h => (by rw [hm] at h; cases h), ?_⟩) rfl rfl ?_
        (fun _ _ h => by cases h) fun _ h => by cases h
      · rw [hm]
        rfl
      · rintro got (h | ⟨i, h⟩)
        · cases h
        · cases h
    · intro hs
      rcases h.cause hs with hg | hfail
      · rw [hm] at hg
        cases hg
      · exact Or.inr hfail
    · refine (h.accounts ⟨hclean.1, hclean.2⟩).keep rfl ?_
      rw [hm]
      rfl

end Inv

/-! ## Every run -/

theorem inv_initial (E : Engine) (buf : Nat → Byte) : Inv E (initial buf) where
  lanes := fun k _ => {
    slots := ⟨nofun, fun _ _ _ => rfl, nofun, nofun⟩
    flow := ⟨fun _ => ⟨nofun, nofun⟩, nofun, nofun, nofun, nofun, nofun⟩
    gate := ⟨nofun, fun h => absurd rfl h, nofun, nofun, nofun⟩
    bytes := fun _ => ⟨nofun, nofun, nofun, nofun⟩ }
  main := ⟨fun h => absurd rfl h, nofun, nofun, nofun, nofun, nofun, fun _ => Nat.zero_le _⟩
  todo := rfl
  results := by
    refine ⟨fun _ st => ⟨nofun, fun h => ?_⟩, fun _ => List.nodup_nil, nofun, nofun, nofun⟩
    obtain ⟨-, hd⟩ := h
    cases hrole : st.role <;> (rw [hrole] at hd; cases hd)
  cause := nofun
  accounts := fun _ => by
    have hunits : shares E.workers Lane.units (initial buf).lane = [] := shares_nil fun _ _ => rfl
    have hcalls : shares E.workers (Lane.calls E) (initial buf).lane = [] := shares_nil fun _ _ => rfl
    refine ⟨⟨[], ?_, ?_⟩, nofun⟩
    · rw [hunits, List.append_nil]
      exact List.Perm.refl _
    · rw [hcalls]
      exact List.Perm.refl _

theorem Reachable.inv {buf : Nat → Byte} (h : Reachable E buf s) : Inv E s := by
  induction h with
  | refl => exact inv_initial E buf
  | tail _ hor ih =>
    rcases hor with hstep | hf
    · exact ih.step hstep
    · exact ih.fault hf

end

end Bslz4ToSparse.Conveyor
