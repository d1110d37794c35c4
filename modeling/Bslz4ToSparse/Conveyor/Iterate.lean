import Bslz4ToSparse.Conveyor.Sinks

/-!
# Results from a for loop (src/conveyor/_iter.py)

The engine runs in a thread of its own. Its sinks put their batches into one queue of bounded
length, from which the consumer takes them; a consumer that stops sets an event, and the sinks
give up.
-/

namespace Bslz4ToSparse.Conveyor

open Foundation
open Lz4 (Byte)

/-- Where the thread `go` is; `checking`: in `run`, before that starts its threads. -/
inductive GoPc where
  | checking
  | running
  | putEnd
  | done
  deriving DecidableEq, Repr

/-- `run` is over. -/
def GoPc.over : GoPc → Bool
  | putEnd | done => true
  | _ => false

/-- Where the generator is; `early`: left without the end marker. -/
inductive ConsumerPc where
  | asking
  | yielded
  | closing (early : Bool)
  | joining (early : Bool)
  | ended (early : Bool)
  deriving DecidableEq, Repr

/-- The engine, the items that the sinks are about to put, and what the consumer shares with them. -/
structure IterState where
  engine : State
  offers : Nat → Option Decoded
  queue : List (Option Decoded)       -- `none` is `_END`
  closed : Bool
  failure : Option String             -- `repr(box["error"])`
  go : GoPc
  ran : Bool                          -- `run` has started its threads
  consumer : ConsumerPc
  taken : List Decoded

/-- `q.put` goes through. A queue of size 0 has no bound. -/
def IterState.Room (size : Nat) (x : IterState) : Prop := size = 0 ∨ x.queue.length < size

/-- The exception of a worker, one that is in its `try` block. -/
def workerFails (s : State) (k : Nat) : State where
  sh := { s.sh with barrier := { s.sh.barrier with arrived := s.sh.barrier.arrived.erase (some k) } }
  lane := Function.update s.lane k { s.lane k with worker := .setStop }

/-- The workers whose sinks are in `write` stay where they are. -/
def IterState.Holds (x : IterState) (s : State) : Prop :=
  ∀ k, (x.offers k).isSome = true → (s.lane k).worker = (x.engine.lane k).worker

/-- The items of the sinks after a step of the engine. -/
def IterState.offered (E : Engine) (x : IterState) (s : State) (k : Nat) : Option Decoded :=
  (x.offers k).or
    (written (sinkCalls E x.engine.sh.buf (x.engine.lane k).worker (s.lane k).worker)).head?

/-- `run` comes back without an error. -/
def Succeeded (main : MainPc) : Prop := ∃ got, main = .finished got ∧ ∀ st ∈ got, st.error = false

/-- `run` raises an error. -/
def Failed (main : MainPc) : Prop :=
  main = .raised ∨ ∃ got, main = .finished got ∧ ∃ st ∈ got, st.error = true

/-- What a thread of `iterate` does next, with a queue of size `size`: nobody fails and the consumer does not stop. -/
inductive IterMove (E : Engine) (size : Nat) (x : IterState) : IterState → Prop
  | begin : x.go = .checking → IterMove E size x { x with go := .running, ran := true }
  | engine (s : State) : x.ran = true → Step E x.engine s → x.Holds s →
      IterMove E size x { x with engine := s, offers := x.offered E s }
  | put (k : Nat) (d : Decoded) : k < E.workers → x.offers k = some d → x.Room size →
      IterMove E size x { x with
        offers := Function.update x.offers k none
        queue := x.queue ++ [some d] }
  | giveUp (k : Nat) (d : Decoded) : k < E.workers → x.offers k = some d → x.closed = true →
      Fault E x.engine (workerFails x.engine k) →
      IterMove E size x { x with
        engine := workerFails x.engine k
        offers := Function.update x.offers k none }
  | succeeded : x.go = .running → Succeeded x.engine.sh.main →
      IterMove E size x { x with go := .putEnd, failure := none }
  | failed (error : String) : x.go = .running → Failed x.engine.sh.main →
      IterMove E size x { x with go := .putEnd, failure := some error }
  | putEnd : x.go = .putEnd → x.Room size →
      IterMove E size x { x with go := .done, queue := x.queue ++ [none] }
  | leave : x.go = .putEnd → x.closed = true → IterMove E size x { x with go := .done }
  | take (d : Decoded) (rest : List (Option Decoded)) : x.consumer = .asking → x.queue = some d :: rest →
      IterMove E size x { x with consumer := .yielded, queue := rest, taken := x.taken ++ [d] }
  | takeEnd (rest : List (Option Decoded)) : x.consumer = .asking → x.queue = none :: rest →
      IterMove E size x { x with consumer := .closing false, queue := rest }
  | next : x.consumer = .yielded → IterMove E size x { x with consumer := .asking }
  | close (early : Bool) : x.consumer = .closing early →
      IterMove E size x { x with consumer := .joining early, closed := true }
  | join (early : Bool) : x.consumer = .joining early → x.go = .done →
      IterMove E size x { x with consumer := .ended early }

/-- One step of `iterate`. -/
inductive IterStep (E : Engine) (size : Nat) (x : IterState) : IterState → Prop
  | move {x' : IterState} : IterMove E size x x' → IterStep E size x x'
  | fault (s : State) : x.ran = true → Fault E x.engine s → x.Holds s → IterStep E size x { x with engine := s }
  | refused (error : String) : x.go = .checking →
      IterStep E size x { x with go := .putEnd, failure := some error }
  | stop : x.consumer = .asking ∨ x.consumer = .yielded →
      IterStep E size x { x with consumer := .closing true }

/-- `"_Closed" in text`. -/
def saysClosed (text : String) : Prop := "_Closed".toList <:+: text.toList

/-- `iterate` raises the error of `run` at its end. -/
def IterState.Raises (x : IterState) : Prop := ∃ error, x.failure = some error ∧ ¬ saysClosed error

/-- The thread `go` calls `run`. -/
def IterState.initial (buf : Nat → Byte) : IterState where
  engine := Conveyor.initial buf
  offers := fun _ => none
  queue := []
  closed := false
  failure := none
  go := .checking
  ran := false
  consumer := .asking
  taken := []

/-- The states of `iterate` with `depth` items a worker in its queue. -/
def IterReachable (E : Engine) (depth : Nat) (buf : Nat → Byte) (x : IterState) : Prop :=
  Relation.ReflTransGen (IterStep E (depth * E.workers)) (IterState.initial buf) x

/-! ## The engine under its sinks -/

section

variable {E : Engine} {k : Nat} {sh sh' : Shared} {l l' : Lane} {s s' : State}

/-- A worker never stays where it is. -/
theorem WorkerStep.worker_ne (h : WorkerStep E k sh l sh' l') : l'.worker ≠ l.worker := by
  cases h with
  | broken hw hb => rcases hw with hw | hw <;> rw [hw] <;> nofun
  | putSlot i hw _ | wake i hw _ | wakeFailed i hw _ =>
    rw [hw]
    simp
  | start hw _ | prepare hw | slotsPut i hw _ | enter hw _ | released hw _ | goes hw _ | takeReady item rest hw _
  | leaves item hw _ | goesOn slot u hw _ | decode slot u j hw _ | wrote slot u j hw | decoded slot u j hw _
  | putFree slot hw | woken i hw _ | sinkEnd hw | setStop hw | abort hw | wokenFailed i hw _ | report error hw =>
    rw [hw]
    nofun

/-- A worker's sink is called for one batch at most, and the worker is in that call. -/
theorem WorkerStep.offers (h : WorkerStep E k sh l sh' l') :
    written (sinkCalls E sh.buf l.worker l'.worker) = [] ∨
      ∃ slot u j d, l'.worker = .writing slot u j ∧ written (sinkCalls E sh.buf l.worker l'.worker) = [d] := by
  cases h with
  | decode slot u j hw _ =>
    rw [hw]
    exact Or.inr ⟨slot, u, j, _, rfl, rfl⟩
  | leaves item hw _ =>
    rw [hw]
    rcases item with _ | ⟨slot, u⟩ <;> exact Or.inl rfl
  | broken hw _ => rcases hw with hw | hw <;> rw [hw] <;> exact Or.inl rfl
  | start hw _ | prepare hw | putSlot i hw _ | slotsPut i hw _ | enter hw _ | released hw _ | goes hw _
  | takeReady item rest hw _ | goesOn slot u hw _ | wrote slot u j hw | decoded slot u j hw _ | putFree slot hw
  | wake i hw _ | woken i hw _ | sinkEnd hw | setStop hw | abort hw | wakeFailed i hw _ | wokenFailed i hw _
  | report error hw =>
    rw [hw]
    exact Or.inl rfl

/-- A step is one of a worker, or leaves the workers and what they have decoded. -/
theorem Step.workers (h : Step E s s') :
    (∃ k sh l, k < E.workers ∧ WorkerStep E k s.sh (s.lane k) sh l ∧ s' = ⟨sh, Function.update s.lane k l⟩) ∨
      s'.sh.log = s.sh.log ∧ ∀ k, (s'.lane k).worker = (s.lane k).worker := by
  cases h with
  | worker k sh l hk hw => exact Or.inl ⟨k, sh, l, hk, hw, rfl⟩
  | main sh hm => exact Or.inr ⟨by cases hm <;> rfl, fun _ => rfl⟩
  | reader k sh l hk hr =>
    refine Or.inr ⟨by cases hr <;> rfl, fun j => ?_⟩
    dsimp only
    by_cases hjk : j = k
    · subst hjk
      rw [Function.update_self, hr.worker_eq]
    · rw [Function.update_of_ne hjk]

theorem Step.started_le (h : Step E s s') : s.sh.started ≤ s'.sh.started := by
  cases h with
  | worker k sh l hk hw => cases hw <;> exact Nat.le_refl _
  | reader k sh l hk hr => cases hr <;> exact Nat.le_refl _
  | main sh hm =>
    cases hm with
    | startThread hm hlt => exact Nat.le_succ _
    | _ => exact Nat.le_refl _

/-- `run` has returned, or raised its error. -/
def MainPc.isOver : MainPc → Bool
  | raised | finished _ => true
  | _ => false

theorem Succeeded.isOver {main : MainPc} (h : Succeeded main) : main.isOver = true := by
  obtain ⟨got, rfl, -⟩ := h
  rfl

theorem Failed.isOver {main : MainPc} (h : Failed main) : main.isOver = true := by
  obtain rfl | ⟨got, rfl, -⟩ := h <;> rfl

/-- It does one or the other. -/
theorem isOver_cases {main : MainPc} (h : main.isOver = true) : Succeeded main ∨ Failed main := by
  cases main with
  | raised => exact Or.inr (Or.inl rfl)
  | finished got =>
    by_cases hok : ∀ st ∈ got, st.error = false
    · exact Or.inl ⟨got, rfl, hok⟩
    · push Not at hok
      obtain ⟨st, hst, herr⟩ := hok
      exact Or.inr (Or.inr ⟨got, rfl, st, hst, by simpa using herr⟩)
  | _ => cases h

theorem Step.main_of_isOver (h : Step E s s') (hm : s.sh.main.isOver = true) : s'.sh.main = s.sh.main := by
  cases h with
  | worker k sh l hk hw => exact hw.main_eq
  | reader k sh l hk hr => exact hr.main_eq
  | main sh hstep =>
    cases hstep with
    | broken hb _ => rcases hb with hb | hb <;> rw [hb] at hm <;> cases hm
    | startThread _ _ => rfl
    | started hb _ | enter hb _ | released hb _ | setStop hb | setGo hb | collectFailed got st rest hb _ _
    | raised got hb _ | putUnit i hb _ | unitsPut i hb _ | putDone i hb _ | donesPut i hb _ | go hb
    | collect got st rest hb _ _ | collected got hb _ | join got i hb _ _ | joined got i hb _ =>
      rw [hb] at hm
      cases hm

theorem Fault.main_of_isOver (h : Fault E s s') (hm : s.sh.main.isOver = true) : s'.sh.main = s.sh.main := by
  cases h with
  | timeout hb _ =>
    rw [hb] at hm
    cases hm
  | reader k _ _ _ | worker k _ _ _ => rfl

theorem Fault.log_eq (h : Fault E s s') : s'.sh.log = s.sh.log := by cases h <;> rfl

theorem Fault.started_eq (h : Fault E s s') : s'.sh.started = s.sh.started := by cases h <;> rfl

/-- Nothing is decoded once every worker has ended. -/
theorem Step.log_eq (h : Step E s s') (hdone : ∀ k, k < E.workers → (s.lane k).worker = .done false) :
    s'.sh.log = s.sh.log := by
  rcases h.workers with ⟨k, sh, l, hk, hw, rfl⟩ | ⟨hlog, -⟩
  · have hd := hdone k hk
    have hwrites := hw.writes
    rw [hd] at hwrites
    rw [hwrites, show sinkCalls E s.sh.buf (.done false) l.worker = [] from rfl]
    exact List.append_nil _
  · exact hlog

/-- Only threads that were started do anything. -/
def Awake (E : Engine) (s : State) : Prop :=
  ∀ k, k < E.workers → (s.lane k).worker ≠ .start → k < s.sh.started

theorem Awake.step (h : Awake E s) (hstep : Step E s s') : Awake E s' := by
  intro j hj hne
  have hle := hstep.started_le
  rcases hstep.workers with ⟨k, sh, l, hk, hw, rfl⟩ | ⟨-, hsame⟩
  · dsimp only at hne hle ⊢
    by_cases hjk : j = k
    · subst hjk
      by_cases hstart : (s.lane j).worker = .start
      · cases hw with
        | start _ hlt => exact Nat.lt_of_lt_of_le hlt hle
        | broken hb _ => rw [hstart] at hb; rcases hb with hb | hb <;> cases hb
        | prepare hb | putSlot i hb _ | slotsPut i hb _ | enter hb _ | released hb _ | goes hb _
        | takeReady item rest hb _ | leaves item hb _ | goesOn slot u hb _ | decode slot u i hb _
        | wrote slot u i hb | decoded slot u i hb _ | putFree slot hb | wake i hb _ | woken i hb _ | sinkEnd hb
        | setStop hb | abort hb | wakeFailed i hb _ | wokenFailed i hb _ | report error hb =>
          cases hstart.symm.trans hb
      · exact Nat.lt_of_lt_of_le (h j hj hstart) hle
    · rw [Function.update_of_ne hjk] at hne
      exact Nat.lt_of_lt_of_le (h j hj hne) hle
  · rw [hsame j] at hne
    exact Nat.lt_of_lt_of_le (h j hj hne) hle

theorem Awake.fault (h : Awake E s) (hf : Fault E s s') : Awake E s' := by
  intro j hj hne
  rw [hf.started_eq]
  cases hf with
  | timeout _ _ => exact h j hj hne
  | reader k hk hs ht =>
    dsimp only at hne
    by_cases hjk : j = k
    · subst hjk
      rw [Function.update_self] at hne
      exact h j hj hne
    · rw [Function.update_of_ne hjk] at hne
      exact h j hj hne
  | worker k hk hs ht =>
    dsimp only at hne
    by_cases hjk : j = k
    · subst hjk
      exact hs
    · rw [Function.update_of_ne hjk] at hne
      exact h j hj hne

end

end Bslz4ToSparse.Conveyor
