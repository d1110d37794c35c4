import Bslz4ToSparse.Common
import Mathlib.Logic.Function.Basic
import Mathlib.Logic.Relation

/-!
# The conveyor engine (src/conveyor/_engine.py)

Every worker has a reader, a queue of free slots and a queue of units that were read. The
readers share the queue of units to do; the barrier and the events are shared by all.
A step is one operation on what is shared; a thread may raise an exception at any point of
its `try` block, and the main thread's wait at the barrier may run out of time.
-/

namespace Bslz4ToSparse.Conveyor

open Lz4 (Byte)

/-- A unit: its frames, and the bytes `[start, start + span)` of its file. -/
structure Job where
  n : Nat
  content : List Byte

def Job.span (u : Job) : Nat := u.content.length

/-- The arguments of `run`. -/
structure Engine where
  units : List Job
  workers : Nat
  slotsPerWorker : Nat
  batch : Nat
  ioBytes : Nat
  workers_pos : 0 < workers
  slots_pos : 0 < slotsPerWorker
  batch_pos : 0 < batch

namespace Engine

variable (E : Engine)

def job (u : Nat) : Job := E.units.getD u ⟨0, []⟩

/-- The bytes of a slot: the largest unit, in whole pages. -/
def slotBytes : Nat := ((E.units.map Job.span).foldl max 0 + 4095) / 4096 * 4096

end Engine

inductive Role where
  | worker | reader
  deriving DecidableEq, Repr

/-- What a thread puts into `res_q` at its end. -/
structure Stats where
  role : Role
  k : Nat
  error : Bool
  deriving DecidableEq, Repr

/-- A call of the decoder: the frames of unit `u` from `f0` on, and the bytes it was given. -/
structure Decoded where
  u : Nat
  f0 : Nat
  data : List Byte
  deriving DecidableEq, Repr

/-- Where a reader is. -/
inductive ReaderPc where
  | start
  | waitGo
  | takeFree
  | gotSlot (slot : Nat)
  | takeTodo (slot : Nat)
  | reading (slot u got : Nat)
  | putReady (slot u : Nat)
  | putDone
  | setStop                           -- the `except` block
  | putDoneFailed
  | report (error : Bool)
  | done (error : Bool)
  deriving DecidableEq, Repr

/-- Where a worker is. -/
inductive WorkerPc where
  | start
  | prepare                           -- `make_worker`, `sink.begin`
  | putSlots (i : Nat)
  | barrier
  | inBarrier
  | waitGo
  | takeReady
  | gotItem (item : Option (Nat × Nat))
  | decoding (slot u j : Nat)
  | writing (slot u j : Nat)          -- in `sink.write`
  | putFree (slot : Nat)
  | wake (i : Nat)
  | sinkEnd
  | setStop                           -- the `except` block
  | abort
  | wakeFailed (i : Nat)
  | report (error : Bool)
  | done (error : Bool)
  deriving DecidableEq, Repr

/-- Where `run` is. -/
inductive MainPc where
  | starting
  | barrier
  | inBarrier
  | setStop                           -- the barrier was broken
  | setGo
  | collectFailed (got : List Stats)
  | raised
  | putUnits (i : Nat)
  | putDones (i : Nat)
  | go
  | collect (got : List Stats)
  | joining (got : List Stats) (i : Nat)
  | finished (got : List Stats)
  deriving DecidableEq, Repr

inductive Phase where
  | filling | released | broken
  deriving DecidableEq, Repr

/-- `Barrier`: the parties that wait in it (`none` is the main thread). -/
structure Barrier where
  arrived : List (Option Nat)
  phase : Phase

/-- A party waits; the last one of `parties` releases all. -/
def Barrier.enter (b : Barrier) (p : Option Nat) (parties : Nat) : Barrier where
  arrived := p :: b.arrived
  phase := if b.arrived.length + 1 = parties then .released else b.phase

/-- What the threads share, and where the main thread is. -/
structure Shared where
  main : MainPc
  started : Nat
  todo : List (Option Nat)
  res : List Stats
  go : Bool
  stop : Bool
  barrier : Barrier
  buf : Nat → Byte
  log : List Decoded

/-- A worker, its reader, and the queues between them. -/
structure Lane where
  reader : ReaderPc
  worker : WorkerPc
  ready : List (Option (Nat × Nat))
  free : List Nat

structure State where
  sh : Shared
  lane : Nat → Lane

/-- `preadv` of `r` bytes. -/
def readInto (buf : Nat → Byte) (base : Nat) (content : List Byte) (got r : Nat) : Nat → Byte :=
  fun a => if base + got ≤ a ∧ a < base + got + r then content.getD (a - base) 0#8 else buf a

/-- The first touch of the slots of worker `k`. -/
def touch (E : Engine) (k : Nat) (buf : Nat → Byte) : Nat → Byte := fun a =>
  if k * E.slotsPerWorker * E.slotBytes ≤ a ∧ a < (k + 1) * E.slotsPerWorker * E.slotBytes ∧
    a % 4096 = 0 then 0#8 else buf a

/-- `buf[base : base + u.span]`. -/
def slotData (E : Engine) (buf : Nat → Byte) (slot u : Nat) : List Byte :=
  (List.range (E.job u).span).map fun i => buf (slot * E.slotBytes + i)

/-- The bytes of a read call. -/
def want (E : Engine) (u got : Nat) : Nat :=
  min (if E.ioBytes = 0 then (E.job u).span else E.ioBytes) ((E.job u).span - got)

/-- `_reader`. -/
inductive ReaderStep (E : Engine) (k : Nat) (sh : Shared) (l : Lane) : Shared → Lane → Prop
  | start : l.reader = .start → E.workers + k < sh.started →
      ReaderStep E k sh l sh { l with reader := .waitGo }
  | goes : l.reader = .waitGo → sh.go = true →
      ReaderStep E k sh l sh { l with reader := .takeFree }
  | takeFree (slot : Nat) (rest : List Nat) : l.reader = .takeFree → l.free = slot :: rest →
      ReaderStep E k sh l sh { l with reader := .gotSlot slot, free := rest }
  | stopped (slot : Nat) : l.reader = .gotSlot slot → sh.stop = true →
      ReaderStep E k sh l sh { l with reader := .putDone }
  | goesOn (slot : Nat) : l.reader = .gotSlot slot → sh.stop = false →
      ReaderStep E k sh l sh { l with reader := .takeTodo slot }
  | noMore (slot : Nat) (rest : List (Option Nat)) : l.reader = .takeTodo slot →
      sh.todo = none :: rest →
      ReaderStep E k sh l { sh with todo := rest } { l with reader := .putDone }
  | takeTodo (slot u : Nat) (rest : List (Option Nat)) : l.reader = .takeTodo slot →
      sh.todo = some u :: rest →
      ReaderStep E k sh l { sh with todo := rest } { l with reader := .reading slot u 0 }
  | read (slot u got r : Nat) : l.reader = .reading slot u got → got < (E.job u).span → 0 < r →
      r ≤ want E u got →
      ReaderStep E k sh l
        { sh with buf := readInto sh.buf (slot * E.slotBytes) (E.job u).content got r }
        { l with reader := .reading slot u (got + r) }
  | readAll (slot u got : Nat) : l.reader = .reading slot u got → (E.job u).span ≤ got →
      ReaderStep E k sh l sh { l with reader := .putReady slot u }
  | putReady (slot u : Nat) : l.reader = .putReady slot u →
      ReaderStep E k sh l sh
        { l with reader := .takeFree, ready := l.ready ++ [some (slot, u)] }
  | putDone : l.reader = .putDone →
      ReaderStep E k sh l sh { l with reader := .report false, ready := l.ready ++ [none] }
  | setStop : l.reader = .setStop →
      ReaderStep E k sh l { sh with stop := true } { l with reader := .putDoneFailed }
  | putDoneFailed : l.reader = .putDoneFailed →
      ReaderStep E k sh l sh { l with reader := .report true, ready := l.ready ++ [none] }
  | report (error : Bool) : l.reader = .report error →
      ReaderStep E k sh l { sh with res := sh.res ++ [⟨.reader, k, error⟩] }
        { l with reader := .done error }

/-- `_worker`. -/
inductive WorkerStep (E : Engine) (k : Nat) (sh : Shared) (l : Lane) : Shared → Lane → Prop
  | start : l.worker = .start → k < sh.started →
      WorkerStep E k sh l { sh with buf := touch E k sh.buf } { l with worker := .prepare }
  | prepare : l.worker = .prepare →
      WorkerStep E k sh l sh { l with worker := .putSlots 0 }
  | putSlot (i : Nat) : l.worker = .putSlots i → i < E.slotsPerWorker →
      WorkerStep E k sh l sh
        { l with worker := .putSlots (i + 1), free := l.free ++ [k * E.slotsPerWorker + i] }
  | slotsPut (i : Nat) : l.worker = .putSlots i → E.slotsPerWorker ≤ i →
      WorkerStep E k sh l sh { l with worker := .barrier }
  | enter : l.worker = .barrier → sh.barrier.phase ≠ .broken →
      WorkerStep E k sh l { sh with barrier := sh.barrier.enter (some k) (E.workers + 1) }
        { l with worker := .inBarrier }
  | broken : l.worker = .barrier ∨ l.worker = .inBarrier → sh.barrier.phase = .broken →
      WorkerStep E k sh l sh { l with worker := .setStop }
  | released : l.worker = .inBarrier → sh.barrier.phase = .released →
      WorkerStep E k sh l sh { l with worker := .waitGo }
  | goes : l.worker = .waitGo → sh.go = true →
      WorkerStep E k sh l sh { l with worker := .takeReady }
  | takeReady (item : Option (Nat × Nat)) (rest : List (Option (Nat × Nat))) :
      l.worker = .takeReady → l.ready = item :: rest →
      WorkerStep E k sh l sh { l with worker := .gotItem item, ready := rest }
  | leaves (item : Option (Nat × Nat)) : l.worker = .gotItem item →
      item = none ∨ sh.stop = true →
      WorkerStep E k sh l sh { l with worker := .wake 0 }
  | goesOn (slot u : Nat) : l.worker = .gotItem (some (slot, u)) → sh.stop = false →
      WorkerStep E k sh l sh { l with worker := .decoding slot u 0 }
  | decode (slot u j : Nat) : l.worker = .decoding slot u j → j * E.batch < (E.job u).n →
      WorkerStep E k sh l
        { sh with log := sh.log ++ [⟨u, j * E.batch, slotData E sh.buf slot u⟩] }
        { l with worker := .writing slot u j }
  | wrote (slot u j : Nat) : l.worker = .writing slot u j →
      WorkerStep E k sh l sh { l with worker := .decoding slot u (j + 1) }
  | decoded (slot u j : Nat) : l.worker = .decoding slot u j → (E.job u).n ≤ j * E.batch →
      WorkerStep E k sh l sh { l with worker := .putFree slot }
  | putFree (slot : Nat) : l.worker = .putFree slot →
      WorkerStep E k sh l sh { l with worker := .takeReady, free := l.free ++ [slot] }
  | wake (i : Nat) : l.worker = .wake i → i < E.slotsPerWorker + 1 →
      WorkerStep E k sh l sh { l with worker := .wake (i + 1), free := l.free ++ [0] }
  | woken (i : Nat) : l.worker = .wake i → E.slotsPerWorker + 1 ≤ i →
      WorkerStep E k sh l sh { l with worker := .sinkEnd }
  | sinkEnd : l.worker = .sinkEnd →
      WorkerStep E k sh l sh { l with worker := .report false }
  | setStop : l.worker = .setStop →
      WorkerStep E k sh l { sh with stop := true } { l with worker := .abort }
  | abort : l.worker = .abort →
      WorkerStep E k sh l { sh with barrier := { sh.barrier with phase := .broken } }
        { l with worker := .wakeFailed 0 }
  | wakeFailed (i : Nat) : l.worker = .wakeFailed i → i < E.slotsPerWorker + 1 →
      WorkerStep E k sh l sh { l with worker := .wakeFailed (i + 1), free := l.free ++ [0] }
  | wokenFailed (i : Nat) : l.worker = .wakeFailed i → E.slotsPerWorker + 1 ≤ i →
      WorkerStep E k sh l sh { l with worker := .report true }
  | report (error : Bool) : l.worker = .report error →
      WorkerStep E k sh l { sh with res := sh.res ++ [⟨.worker, k, error⟩] }
        { l with worker := .done error }

/-- Thread `i` of `ws + rs` has ended. -/
def ended (E : Engine) (lane : Nat → Lane) (i : Nat) : Prop :=
  if i < E.workers then ∃ error, (lane i).worker = .done error
  else ∃ error, (lane (i - E.workers)).reader = .done error

/-- `run`, from the start of the threads on. -/
inductive MainStep (E : Engine) (lane : Nat → Lane) (sh : Shared) : Shared → Prop
  | startThread : sh.main = .starting → sh.started < 2 * E.workers →
      MainStep E lane sh { sh with started := sh.started + 1 }
  | started : sh.main = .starting → 2 * E.workers ≤ sh.started →
      MainStep E lane sh { sh with main := .barrier }
  | enter : sh.main = .barrier → sh.barrier.phase ≠ .broken →
      MainStep E lane sh { sh with
        main := .inBarrier
        barrier := sh.barrier.enter none (E.workers + 1) }
  | broken : sh.main = .barrier ∨ sh.main = .inBarrier → sh.barrier.phase = .broken →
      MainStep E lane sh { sh with main := .setStop }
  | released : sh.main = .inBarrier → sh.barrier.phase = .released →
      MainStep E lane sh { sh with main := .putUnits 0 }
  | setStop : sh.main = .setStop →
      MainStep E lane sh { sh with main := .setGo, stop := true }
  | setGo : sh.main = .setGo →
      MainStep E lane sh { sh with main := .collectFailed [], go := true }
  | collectFailed (got : List Stats) (st : Stats) (rest : List Stats) :
      sh.main = .collectFailed got → got.length < E.workers → sh.res = st :: rest →
      MainStep E lane sh { sh with main := .collectFailed (got ++ [st]), res := rest }
  | raised (got : List Stats) : sh.main = .collectFailed got → E.workers ≤ got.length →
      MainStep E lane sh { sh with main := .raised }
  | putUnit (i : Nat) : sh.main = .putUnits i → i < E.units.length →
      MainStep E lane sh { sh with main := .putUnits (i + 1), todo := sh.todo ++ [some i] }
  | unitsPut (i : Nat) : sh.main = .putUnits i → E.units.length ≤ i →
      MainStep E lane sh { sh with main := .putDones 0 }
  | putDone (i : Nat) : sh.main = .putDones i → i < E.workers →
      MainStep E lane sh { sh with main := .putDones (i + 1), todo := sh.todo ++ [none] }
  | donesPut (i : Nat) : sh.main = .putDones i → E.workers ≤ i →
      MainStep E lane sh { sh with main := .go }
  | go : sh.main = .go →
      MainStep E lane sh { sh with main := .collect [], go := true }
  | collect (got : List Stats) (st : Stats) (rest : List Stats) :
      sh.main = .collect got → got.length < 2 * E.workers → sh.res = st :: rest →
      MainStep E lane sh { sh with main := .collect (got ++ [st]), res := rest }
  | collected (got : List Stats) : sh.main = .collect got → 2 * E.workers ≤ got.length →
      MainStep E lane sh { sh with main := .joining got 0 }
  | join (got : List Stats) (i : Nat) : sh.main = .joining got i → i < 2 * E.workers →
      ended E lane i → MainStep E lane sh { sh with main := .joining got (i + 1) }
  | joined (got : List Stats) (i : Nat) : sh.main = .joining got i → 2 * E.workers ≤ i →
      MainStep E lane sh { sh with main := .finished got }

/-- One step of one thread. -/
inductive Step (E : Engine) (s : State) : State → Prop
  | reader (k : Nat) (sh : Shared) (l : Lane) : k < E.workers →
      ReaderStep E k s.sh (s.lane k) sh l → Step E s ⟨sh, Function.update s.lane k l⟩
  | worker (k : Nat) (sh : Shared) (l : Lane) : k < E.workers →
      WorkerStep E k s.sh (s.lane k) sh l → Step E s ⟨sh, Function.update s.lane k l⟩
  | main (sh : Shared) : MainStep E s.lane s.sh sh → Step E s ⟨sh, s.lane⟩

/-- The reader is in its `try` block. -/
def ReaderPc.tries : ReaderPc → Bool
  | setStop | putDoneFailed | report _ | done _ => false
  | _ => true

/-- The worker is in its `try` block. -/
def WorkerPc.tries : WorkerPc → Bool
  | setStop | abort | wakeFailed _ | report _ | done _ => false
  | _ => true

/-- An exception of a reader or a worker; one that waits in the barrier leaves it. The wait of
the main thread has a timeout, which breaks the barrier. -/
inductive Fault (E : Engine) (s : State) : State → Prop
  | reader (k : Nat) : k < E.workers → E.workers + k < s.sh.started →
      (s.lane k).reader.tries = true →
      Fault E s ⟨s.sh, Function.update s.lane k { s.lane k with reader := .setStop }⟩
  | worker (k : Nat) : k < E.workers → k < s.sh.started → (s.lane k).worker.tries = true →
      Fault E s ⟨{ s.sh with barrier :=
          { s.sh.barrier with arrived := s.sh.barrier.arrived.erase (some k) } },
        Function.update s.lane k { s.lane k with worker := .setStop }⟩
  | timeout : s.sh.main = .inBarrier → s.sh.barrier.phase = .filling →
      Fault E s ⟨{ s.sh with
        main := .setStop
        barrier := { s.sh.barrier with phase := .broken } }, s.lane⟩

/-- Before the threads are started; the buffer may hold anything. -/
def initial (buf : Nat → Byte) : State where
  sh := {
    main := .starting
    started := 0
    todo := []
    res := []
    go := false
    stop := false
    barrier := ⟨[], .filling⟩
    buf := buf
    log := [] }
  lane := fun _ => ⟨.start, .start, [], []⟩

/-- The states of a run, whatever the order of the steps and wherever a thread fails. -/
def Reachable (E : Engine) (buf : Nat → Byte) (s : State) : Prop :=
  Relation.ReflTransGen (fun s s' => Step E s s' ∨ Fault E s s') (initial buf) s

end Bslz4ToSparse.Conveyor
