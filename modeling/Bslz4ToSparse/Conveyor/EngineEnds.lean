import Bslz4ToSparse.Conveyor.EngineSafe
import Bslz4ToSparse.Foundation.Ends

/-!
# Every run of the engine ends

What is left to do of a unit is counted where the unit is: with the main thread, in the queue,
with a reader, in a queue of units that were read, or with a worker. An exception leaves less to
do than what it interrupts.
-/

namespace Bslz4ToSparse.Conveyor

open Foundation
open Lz4 (Byte)

/-- The steps that unit `u` asks for once a reader has it: its reads, its batches, and the way between. -/
def Engine.unitCost (E : Engine) (u : Nat) : Nat := (E.job u).span + 2 * (E.job u).n + 9

def Engine.todoCost (E : Engine) : Option Nat → Nat
  | none => 0
  | some u => E.unitCost u

def Engine.readyCost (E : Engine) : Option (Nat × Nat) → Nat
  | none => 1
  | some (_, u) => 2 * (E.job u).n + 4

def ReaderPc.cost (E : Engine) : ReaderPc → Nat
  | start => 10
  | waitGo => 9
  | takeFree => 8
  | gotSlot _ => 7
  | takeTodo _ => 6
  | reading _ u got => 2 * (E.job u).n + 14 + ((E.job u).span - got)
  | putReady _ u => 2 * (E.job u).n + 13
  | putDone => 5
  | setStop => 4
  | putDoneFailed => 3
  | report _ => 1
  | done _ => 0

def WorkerPc.cost (E : Engine) : WorkerPc → Nat
  | start => 3 * E.slotsPerWorker + 15
  | prepare => 3 * E.slotsPerWorker + 14
  | putSlots i => 2 * E.slotsPerWorker + 13 + (E.slotsPerWorker - i)
  | barrier => 2 * E.slotsPerWorker + 12
  | inBarrier => 2 * E.slotsPerWorker + 11
  | waitGo => 2 * E.slotsPerWorker + 10
  | takeReady => 2 * E.slotsPerWorker + 9
  | gotItem none => 2 * E.slotsPerWorker + 9
  | gotItem (some (_, u)) => 2 * E.slotsPerWorker + 12 + 2 * (E.job u).n
  | decoding _ u j => 2 * E.slotsPerWorker + 11 + 2 * ((E.job u).n - j)
  | writing _ u j => 2 * E.slotsPerWorker + 12 + 2 * ((E.job u).n - (j + 1))
  | putFree _ => 2 * E.slotsPerWorker + 10
  | wake i => E.slotsPerWorker + 7 + (E.slotsPerWorker + 1 - i)
  | sinkEnd => E.slotsPerWorker + 6
  | setStop => E.slotsPerWorker + 5
  | abort => E.slotsPerWorker + 4
  | wakeFailed i => 2 + (E.slotsPerWorker + 1 - i)
  | report _ => 1
  | done _ => 0

def Lane.cost (E : Engine) (l : Lane) : Nat :=
  l.reader.cost E + l.worker.cost E + (l.ready.map E.readyCost).sum

/-- The units from `i` on, which the main thread has still to put. -/
def Engine.unputCost (E : Engine) (i : Nat) : Nat :=
  ((List.range' i (E.units.length - i)).map fun u => E.unitCost u + 1).sum

def MainPc.cost (E : Engine) : MainPc → Nat
  | starting => E.unputCost 0 + 5 * E.workers + 8
  | barrier => E.unputCost 0 + 5 * E.workers + 7
  | inBarrier => E.unputCost 0 + 5 * E.workers + 6
  | putUnits i => E.unputCost i + 5 * E.workers + 5
  | putDones i => 4 * E.workers + 4 + (E.workers - i)
  | go => 4 * E.workers + 3
  | collect got => 2 * E.workers + 2 + (2 * E.workers - got.length)
  | joining _ i => 1 + (2 * E.workers - i)
  | finished _ => 0
  | setStop => E.workers + 3
  | setGo => E.workers + 2
  | collectFailed got => 1 + (E.workers - got.length)
  | raised => 0
def Shared.cost (E : Engine) (sh : Shared) : Nat :=
  sh.main.cost E + (2 * E.workers - sh.started) + (sh.todo.map E.todoCost).sum

/-- The steps that a run can still have. -/
def State.cost (E : Engine) (s : State) : Nat :=
  s.sh.cost E + ∑ k ∈ Finset.range E.workers, (s.lane k).cost E

section

variable {E : Engine} {k : Nat} {sh sh' : Shared} {l l' : Lane} {lane : Nat → Lane}

theorem ReaderStep.cost_lt (h : ReaderStep E k sh l sh' l') :
    sh'.cost E + l'.cost E < sh.cost E + l.cost E := by
  cases h with
  | start hr | goes hr | stopped slot hr | goesOn slot hr | takeFree slot rest hr =>
    simp [Lane.cost, hr, ReaderPc.cost]
  | noMore slot rest hr htodo =>
    simp [Lane.cost, Shared.cost, hr, htodo, ReaderPc.cost, Engine.todoCost]
  | takeTodo slot u rest hr htodo =>
    simp [Lane.cost, Shared.cost, hr, htodo, ReaderPc.cost, Engine.todoCost, Engine.unitCost]
    omega
  | read slot u got r hr hlt hpos hle =>
    simp [Lane.cost, Shared.cost, hr, ReaderPc.cost]
    omega
  | readAll slot u got hr hle =>
    simp [Lane.cost, hr, ReaderPc.cost]
    omega
  | putReady slot u hr =>
    simp [Lane.cost, hr, ReaderPc.cost, Engine.readyCost]
    omega
  | putDone hr | putDoneFailed hr =>
    simp [Lane.cost, hr, ReaderPc.cost, Engine.readyCost]
    omega
  | setStop hr | report error hr =>
    simp [Lane.cost, Shared.cost, hr, ReaderPc.cost]

theorem batch_lt (E : Engine) {u j : Nat} (h : j * E.batch < (E.job u).n) : j < (E.job u).n :=
  Nat.lt_of_le_of_lt (Nat.le_mul_of_pos_right j E.batch_pos) h

theorem WorkerStep.cost_lt (h : WorkerStep E k sh l sh' l') :
    sh'.cost E + l'.cost E < sh.cost E + l.cost E := by
  cases h with
  | start hw | goes hw | enter hw hb | released hw hb | sinkEnd hw | setStop hw | report error hw
  | putFree slot hw =>
    simp [Lane.cost, Shared.cost, hw, WorkerPc.cost]
  | prepare hw | abort hw =>
    simp [Lane.cost, Shared.cost, hw, WorkerPc.cost]
    omega
  | putSlot i hw hi | slotsPut i hw hi | wake i hw hi | woken i hw hi | wakeFailed i hw hi
  | wokenFailed i hw hi =>
    simp [Lane.cost, Shared.cost, hw, WorkerPc.cost]
    omega
  | broken hw hb =>
    rcases hw with hw | hw <;> simp [Lane.cost, Shared.cost, hw, WorkerPc.cost] <;> omega
  | takeReady item rest hw hready =>
    cases item with
    | none => simp [Lane.cost, hw, hready, WorkerPc.cost, Engine.readyCost]
    | some item =>
      simp [Lane.cost, hw, hready, WorkerPc.cost, Engine.readyCost]
      omega
  | leaves item hw hor =>
    cases item <;> simp [Lane.cost, hw, WorkerPc.cost] <;> omega
  | goesOn slot u hw hstop | wrote slot u j hw =>
    simp [Lane.cost, hw, WorkerPc.cost]
  | decode slot u j hw hj =>
    have hlt := batch_lt E hj
    simp [Lane.cost, Shared.cost, hw, WorkerPc.cost]
    omega
  | decoded slot u j hw hj =>
    simp [Lane.cost, hw, WorkerPc.cost]
    omega

/-- A unit that is put goes on to the queue. -/
theorem unputCost_succ (E : Engine) {i : Nat} (h : i < E.units.length) :
    E.unputCost i = E.unitCost i + 1 + E.unputCost (i + 1) := by
  have hlen : E.units.length - i = (E.units.length - (i + 1)) + 1 := by omega
  unfold Engine.unputCost
  rw [hlen, List.range'_succ, List.map_cons, List.sum_cons]

theorem MainStep.cost_lt (h : MainStep E lane sh sh') : sh'.cost E < sh.cost E := by
  cases h with
  | startThread hm hlt | join got i hm hlt hend | putDone i hm hlt =>
    simp [Shared.cost, hm, MainPc.cost, Engine.todoCost]
    omega
  | started hm hle | enter hm hb | released hm hb | setStop hm =>
    simp [Shared.cost, hm, MainPc.cost]
  | setGo hm | go hm | unitsPut i hm hle =>
    simp [Shared.cost, hm, MainPc.cost]
    omega
  | broken hm hb =>
    rcases hm with hm | hm <;> simp [Shared.cost, hm, MainPc.cost] <;> omega
  | collectFailed got st rest hm hlt hres | collect got st rest hm hlt hres =>
    simp [Shared.cost, hm, MainPc.cost]
    omega
  | raised got hm hle | joined got i hm hle =>
    simp [Shared.cost, hm, MainPc.cost]
  | collected got hm hle | donesPut i hm hle =>
    simp [Shared.cost, hm, MainPc.cost]
    omega
  | putUnit i hm hlt =>
    have hcost := unputCost_succ E hlt
    simp [Shared.cost, hm, MainPc.cost, Engine.todoCost]
    omega

/-- What is left to do after an exception is less than what its block still had to do. -/
theorem ReaderPc.cost_lt_of_tries {pc : ReaderPc} (h : pc.tries = true) :
    ReaderPc.setStop.cost E < pc.cost E := by
  cases pc with
  | setStop | putDoneFailed | report error | done error => cases h
  | reading slot u got =>
    simp only [ReaderPc.cost]
    omega
  | _ => simp [ReaderPc.cost]

theorem WorkerPc.cost_lt_of_tries {pc : WorkerPc} (h : pc.tries = true) :
    WorkerPc.setStop.cost E < pc.cost E := by
  cases pc with
  | gotItem item => cases item <;> simp [WorkerPc.cost] <;> omega
  | setStop | abort | wakeFailed i | report error | done error => cases h
  | _ => simp [WorkerPc.cost]; try omega

/-- A lane and what is shared have less to do, the other lanes the same. -/
theorem cost_lt_of_lane {s : State} (hk : k < E.workers)
    (h : sh'.cost E + l'.cost E < s.sh.cost E + (s.lane k).cost E) :
    State.cost E ⟨sh', Function.update s.lane k l'⟩ < s.cost E := by
  have hsum := sum_update (Lane.cost E) s.lane hk l'
  unfold State.cost
  dsimp only
  omega

theorem Step.cost_lt {s s' : State} (h : Step E s s') : s'.cost E < s.cost E := by
  cases h with
  | reader k sh l hk h => exact cost_lt_of_lane hk h.cost_lt
  | worker k sh l hk h => exact cost_lt_of_lane hk h.cost_lt
  | main sh h => exact Nat.add_lt_add_right h.cost_lt _

theorem Fault.cost_lt {s s' : State} (h : Fault E s s') : s'.cost E < s.cost E := by
  cases h with
  | reader k hk hs htries =>
    have hcost := ReaderPc.cost_lt_of_tries (E := E) htries
    refine cost_lt_of_lane hk ?_
    unfold Lane.cost
    dsimp only
    omega
  | worker k hk hs htries =>
    have hcost := WorkerPc.cost_lt_of_tries (E := E) htries
    refine cost_lt_of_lane hk ?_
    unfold Lane.cost Shared.cost
    dsimp only
    omega
  | timeout hm hb =>
    refine Nat.add_lt_add_right ?_ _
    unfold Shared.cost
    rw [hm]
    simp only [MainPc.cost]
    omega

end

/-- The steps of a run at most: those of the units, and a number for each worker and its slots. -/
def stepBound (E : Engine) : Nat :=
  (E.units.map fun u => u.span + 2 * u.n + 10).sum + E.workers * (3 * E.slotsPerWorker + 32) + 8

theorem initial_cost (E : Engine) (buf : Nat → Byte) : (initial buf).cost E = stepBound E := by
  have hunits : E.unputCost 0 = (E.units.map fun u => u.span + 2 * u.n + 10).sum := by
    unfold Engine.unputCost
    rw [Nat.sub_zero, ← List.range_eq_range']
    congr 1
    refine List.ext_getElem (by simp) fun i hi hi' => ?_
    have hlt : i < E.units.length := by simpa using hi'
    simp [Engine.unitCost, Engine.job, List.getD_eq_getElem?_getD, List.getElem?_eq_getElem hlt]
  simp [State.cost, Shared.cost, Lane.cost, initial, MainPc.cost, ReaderPc.cost, WorkerPc.cost, hunits, stepBound]
  ring

/-- Every run of the engine comes to its end, wherever readers, workers and sinks fail: no run has more steps than
its units and workers ask for, and wherever the threads stand they can go on until all of them have ended and
`run` has returned or raised its error; a run that cannot go on has ended so. -/
theorem run_ends (E : Engine) (buf : Nat → Byte) :
    (∀ run : List State, (initial buf :: run).IsChain (fun s s' => Step E s s' ∨ Fault E s s') →
      run.length ≤ stepBound E) ∧
    ∀ s, Reachable E buf s →
      (∃ s', Relation.ReflTransGen (Step E) s s' ∧ ¬Unfinished E s') ∧ (Unfinished E s → CanStep E s) := by
  refine ⟨fun run hrun => ?_, fun s hs => ⟨?_, hs.inv.canStep⟩⟩
  · rw [← initial_cost E buf]
    refine length_le_measure (m := State.cost E) (fun s s' h => ?_) hrun
    exact h.elim Step.cost_lt Fault.cost_lt
  · obtain ⟨s', hrun, hstuck⟩ := exists_stuck (fun s s' h => Step.cost_lt (E := E) h) s
    refine ⟨s', hrun, fun hun => ?_⟩
    have hreach : Reachable E buf s' :=
      hs.trans (Relation.ReflTransGen.mono (fun _ _ h => Or.inl h) _ _ hrun)
    obtain ⟨s'', hstep⟩ := hreach.inv.canStep hun
    exact hstuck s'' hstep

end Bslz4ToSparse.Conveyor
