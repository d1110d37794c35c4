import Bslz4ToSparse.Conveyor.EngineSafe

/-!
# What a sink is called (src/conveyor/_engine.py, _sinks.py)

Every worker has a sink of its own and calls it for each of its units: the begin of the unit, its
batches, its end. An exception of the sink is one of the worker.
-/

namespace Bslz4ToSparse.Conveyor

open Foundation
open Lz4 (Byte)

/-- A call of a sink. -/
inductive SinkCall where
  | begin
  | beginUnit (u : Nat)
  | write (d : Decoded)
  | endUnit (u : Nat)
  | finish                            -- `end`
  deriving DecidableEq, Repr

/-- The calls that a worker's sink gets while the worker goes from one place to another; a batch is written when the
call begins, and the call may still fail. -/
def sinkCalls (E : Engine) (buf : Nat → Byte) : WorkerPc → WorkerPc → List SinkCall
  | .prepare, .putSlots _ => [.begin]
  | .gotItem (some (_, u)), .decoding _ _ _ => [.beginUnit u]
  | .decoding slot u j, .writing _ _ _ => [.write ⟨u, j * E.batch, slotData E buf slot u⟩]
  | .decoding _ u _, .putFree _ => [.endUnit u]
  | .sinkEnd, .report _ => [.finish]
  | _, _ => []

/-- What a call makes of a sink; `none`: it raises an exception. -/
abbrev Sink (σ : Type) : Type := SinkCall → σ → Option σ

def Sink.run {σ : Type} (sink : Sink σ) (calls : List SinkCall) (s : σ) : Option σ :=
  calls.foldlM (fun s c => sink c s) s

/-- A step of the engine whose workers have sinks. A worker whose sink raises an exception fails. -/
inductive SinkStep {σ : Type} (E : Engine) (sink : Sink σ) (x : State × (Nat → σ)) :
    State × (Nat → σ) → Prop
  | step (s' : State) (sinks' : Nat → σ) : Step E x.1 s' →
      (∀ k, sink.run (sinkCalls E x.1.sh.buf (x.1.lane k).worker (s'.lane k).worker) (x.2 k) =
        some (sinks' k)) → SinkStep E sink x (s', sinks')
  | fault (s' : State) : Fault E x.1 s' → SinkStep E sink x (s', x.2)

/-- The states of a run with the sinks, each `s₀` at its start. -/
def SinkReachable {σ : Type} (E : Engine) (sink : Sink σ) (s₀ : σ) (buf : Nat → Byte)
    (x : State × (Nat → σ)) : Prop :=
  Relation.ReflTransGen (SinkStep E sink) (initial buf, fun _ => s₀) x

/-- The sink that writes down what it is called. -/
def recorder : Sink (List SinkCall) := fun c calls => some (calls ++ [c])

/-! ## Sinks and their calls -/

section

variable {σ τ : Type}

theorem Sink.run_append (sink : Sink σ) (cs ds : List SinkCall) (s : σ) :
    sink.run (cs ++ ds) s = (sink.run cs s).bind (sink.run ds) := List.foldlM_append

theorem Sink.run_one (sink : Sink σ) (c : SinkCall) (s : σ) : sink.run [c] s = sink c s := by
  unfold Sink.run
  cases h : sink c s <;> simp [h]

theorem recorder_run (cs calls : List SinkCall) : recorder.run cs calls = some (calls ++ cs) := by
  induction cs generalizing calls with
  | nil => rw [List.append_nil]; rfl
  | cons c cs ih =>
    have hrest := ih (calls ++ [c])
    rw [List.append_assoc, List.singleton_append] at hrest
    exact hrest

/-- A run of any sinks is one of recorders, and a sink is what its calls have made of it. -/
theorem SinkReachable.recorded {E : Engine} {sink : Sink σ} {s₀ : σ} {buf : Nat → Byte} {s : State}
    {sinks : Nat → σ} (h : SinkReachable E sink s₀ buf (s, sinks)) :
    ∃ calls, SinkReachable E recorder [] buf (s, calls) ∧ ∀ k, sink.run (calls k) s₀ = some (sinks k) := by
  generalize hx : (s, sinks) = x at h
  induction h generalizing s sinks with
  | refl =>
    cases hx
    exact ⟨fun _ => [], .refl, fun _ => rfl⟩
  | @tail y x _ hstep ih =>
    obtain ⟨calls, hreach, hruns⟩ := ih rfl
    cases hstep with
    | step s' sinks' hs hsinks =>
      cases hx
      refine ⟨fun k => calls k ++ sinkCalls E y.1.sh.buf (y.1.lane k).worker (s.lane k).worker,
        hreach.tail (.step _ _ hs fun k => recorder_run _ _), fun k => ?_⟩
      rw [Sink.run_append, hruns k]
      exact hsinks k
    | fault s' hf =>
      cases hx
      exact ⟨calls, hreach.tail (.fault _ hf), hruns⟩

theorem SinkReachable.reachable {E : Engine} {sink : Sink σ} {s₀ : σ} {buf : Nat → Byte}
    {x : State × (Nat → σ)} (h : SinkReachable E sink s₀ buf x) : Reachable E buf x.1 := by
  induction h with
  | refl => exact .refl
  | tail _ hstep ih =>
    cases hstep with
    | step s' sinks' hs _ => exact ih.tail (Or.inl hs)
    | fault s' hf => exact ih.tail (Or.inr hf)

end

/-! ## The sessions of a sink -/

/-- The calls for a unit up to batch `j`. -/
def opened (E : Engine) (u j : Nat) : List SinkCall := .beginUnit u :: (calls E u j).map .write

/-- The calls for a whole unit. -/
def session (E : Engine) (u : Nat) : List SinkCall := opened E u (batches E u) ++ [.endUnit u]

/-- The calls of a sink that is open and in no unit. -/
def sessions (E : Engine) (us : List Nat) : List SinkCall := .begin :: us.flatMap (session E)

/-- The calls of a worker that has failed: whole units, and perhaps a part of one more. -/
def Cut (E : Engine) (cs : List SinkCall) : Prop :=
  cs = [] ∨ ∃ us part, (part = [] ∨ ∃ u j, j ≤ batches E u ∧ part = opened E u j) ∧ cs = sessions E us ++ part

/-- What the sink of a worker was called so far. -/
def CallsInv (E : Engine) (w : WorkerPc) (cs : List SinkCall) : Prop :=
  match w with
  | .start | .prepare => cs = []
  | .decoding _ u j => j ≤ batches E u ∧ ∃ us, cs = sessions E us ++ opened E u j
  | .writing _ u j => j + 1 ≤ batches E u ∧ ∃ us, cs = sessions E us ++ opened E u (j + 1)
  | .report false | .done false => ∃ us, cs = sessions E us ++ [.finish]
  | .setStop | .abort | .wakeFailed _ | .report true | .done true => Cut E cs
  | _ => ∃ us, cs = sessions E us

section

variable {E : Engine} {k : Nat} {sh sh' : Shared} {l l' : Lane} {cs : List SinkCall}

/-- A worker that stays where it is calls nothing. -/
theorem sinkCalls_self (buf : Nat → Byte) (w : WorkerPc) : sinkCalls E buf w w = [] := by
  cases w with
  | gotItem item => rcases item with _ | ⟨slot, u⟩ <;> rfl
  | _ => rfl

/-- A worker may fail anywhere in its `try` block. -/
theorem CallsInv.cut {w : WorkerPc} (h : CallsInv E w cs) (ht : w.tries = true) : Cut E cs := by
  have hopen : (∃ us, cs = sessions E us) → Cut E cs := by
    intro ⟨us, hus⟩
    exact Or.inr ⟨us, [], Or.inl rfl, by rw [hus, List.append_nil]⟩
  cases w with
  | start => exact Or.inl h
  | prepare => exact Or.inl h
  | decoding slot u j | writing slot u j =>
    obtain ⟨hj, us, hus⟩ := h
    exact Or.inr ⟨us, opened E u _, Or.inr ⟨u, _, hj, rfl⟩, hus⟩
  | setStop | abort | wakeFailed i | report e | done e => cases ht
  | putSlots i | barrier | inBarrier | waitGo | takeReady | gotItem item | putFree slot | wake i | sinkEnd =>
    exact hopen h

/-- A step of a worker. -/
theorem CallsInv.worker (h : CallsInv E l.worker cs) (hstep : WorkerStep E k sh l sh' l')
    (hbytes : ∀ slot u j, l.worker = .decoding slot u j → slotData E sh.buf slot u = (E.job u).content) :
    CallsInv E l'.worker (cs ++ sinkCalls E sh.buf l.worker l'.worker) := by
  cases hstep with
  | start hw _ => rw [hw] at h ⊢; rw [show cs = [] from h]; rfl
  | prepare hw =>
    rw [hw] at h ⊢
    rw [show cs = [] from h]
    exact ⟨[], rfl⟩
  | goesOn slot u hw _ =>
    rw [hw] at h ⊢
    obtain ⟨us, rfl⟩ := h
    exact ⟨Nat.zero_le _, us, rfl⟩
  | decode slot u j hw hj =>
    rw [hw] at h ⊢
    obtain ⟨-, us, rfl⟩ := h
    refine ⟨(batches_spec E u j).mpr hj, us, ?_⟩
    have hwrite : sinkCalls E sh.buf (.decoding slot u j) (.writing slot u j) = [.write (call E u j)] := by
      rw [sinkCalls, hbytes slot u j hw]
      rfl
    rw [hwrite, List.append_assoc, opened, opened, calls, calls, List.range_succ, List.map_append,
      List.map_append]
    rfl
  | wrote slot u j hw =>
    rw [hw] at h ⊢
    obtain ⟨hle, us, rfl⟩ := h
    exact ⟨hle, us, List.append_nil _⟩
  | decoded slot u j hw hj =>
    rw [hw] at h ⊢
    obtain ⟨hle, us, rfl⟩ := h
    have hall : j = batches E u := by
      have hge : ¬ j < batches E u := fun hlt => absurd ((batches_spec E u j).mp hlt) (by omega)
      omega
    refine ⟨us ++ [u], ?_⟩
    rw [sessions, sessions, List.flatMap_append, List.flatMap_singleton, session, hall, List.append_assoc]
    rfl
  | sinkEnd hw =>
    rw [hw] at h ⊢
    obtain ⟨us, rfl⟩ := h
    exact ⟨us, rfl⟩
  | broken hw _ =>
    have htries : l.worker.tries = true := by rcases hw with hw | hw <;> rw [hw] <;> rfl
    have hcut := h.cut htries
    have hnone : sinkCalls E sh.buf l.worker .setStop = [] := by rcases hw with hw | hw <;> rw [hw] <;> rfl
    rw [hnone, List.append_nil]
    exact hcut
  | report error hw =>
    rw [hw] at h ⊢
    rw [show sinkCalls E sh.buf (.report error) (.done error) = [] from rfl, List.append_nil]
    cases error <;> exact h
  | takeReady item rest hw _ =>
    rw [hw] at h ⊢
    rw [show sinkCalls E sh.buf .takeReady (.gotItem item) = [] from rfl, List.append_nil]
    exact h
  | leaves item hw _ =>
    rw [hw] at h ⊢
    have hnone : sinkCalls E sh.buf (.gotItem item) (.wake 0) = [] := by rcases item with _ | ⟨slot, u⟩ <;> rfl
    rw [hnone, List.append_nil]
    exact h
  | putSlot i hw _ | slotsPut i hw _ | enter hw _ | released hw _ | goes hw _ | putFree slot hw | wake i hw _
  | woken i hw _ | setStop hw | abort hw | wakeFailed i hw _ | wokenFailed i hw _ =>
    rw [hw] at h ⊢
    simp only [sinkCalls, List.append_nil]
    exact h

/-- The batches in the calls. -/
def written (cs : List SinkCall) : List Decoded :=
  cs.filterMap fun c => match c with
    | .write d => some d
    | _ => none

theorem written_append (cs ds : List SinkCall) : written (cs ++ ds) = written cs ++ written ds :=
  List.filterMap_append

theorem written_opened (u j : Nat) : written (opened E u j) = calls E u j := by
  unfold opened written
  rw [List.filterMap_cons_none rfl, List.filterMap_map]
  exact List.filterMap_some

/-- A worker writes to its sink what it decodes. -/
theorem WorkerStep.writes (hstep : WorkerStep E k sh l sh' l') :
    sh'.log = sh.log ++ written (sinkCalls E sh.buf l.worker l'.worker) := by
  cases hstep with
  | decode slot u j hw _ =>
    rw [hw]
    rfl
  | leaves item hw _ =>
    rw [hw]
    rcases item with _ | ⟨slot, u⟩ <;> exact (List.append_nil _).symm
  | broken hw _ =>
    rcases hw with hw | hw <;> rw [hw] <;> exact (List.append_nil _).symm
  | start hw _ | prepare hw | putSlot i hw _ | slotsPut i hw _ | enter hw _ | released hw _ | goes hw _
  | takeReady item rest hw _ | goesOn slot u hw _ | wrote slot u j hw | decoded slot u j hw _ | putFree slot hw
  | wake i hw _ | woken i hw _ | sinkEnd hw | setStop hw | abort hw | wakeFailed i hw _ | wokenFailed i hw _
  | report error hw =>
    rw [hw]
    exact (List.append_nil _).symm

end

/-! ## The units of a sink -/

/-- The units that a sink has seen to the end. -/
def endedUnits (cs : List SinkCall) : List Nat :=
  cs.filterMap fun c => match c with
    | .endUnit u => some u
    | _ => none

theorem endedUnits_append (cs ds : List SinkCall) : endedUnits (cs ++ ds) = endedUnits cs ++ endedUnits ds :=
  List.filterMap_append

theorem endedUnits_session (E : Engine) (u : Nat) : endedUnits (session E u) = [u] := by
  have hopened : endedUnits (opened E u (batches E u)) = [] := by
    refine List.filterMap_eq_nil_iff.mpr fun c hc => ?_
    rcases List.mem_cons.mp hc with rfl | hc
    · rfl
    · obtain ⟨d, -, rfl⟩ := List.mem_map.mp hc
      rfl
  rw [session, endedUnits_append, hopened]
  rfl

theorem endedUnits_sessions (E : Engine) (us : List Nat) : endedUnits (sessions E us) = us := by
  rw [sessions, endedUnits, List.filterMap_cons_none rfl]
  induction us with
  | nil => rfl
  | cons u us ih =>
    rw [List.flatMap_cons, List.filterMap_append, ih]
    exact congrArg (· ++ us) (endedUnits_session E u)

section

variable {E : Engine} {k : Nat} {sh sh' : Shared} {l l' : Lane} {lane : Nat → Lane}

/-- A reader hands units over. -/
theorem ReaderStep.units (hstep : ReaderStep E k sh l sh' l') (hok : l'.failed = false) :
    (queued sh'.todo ++ l'.units).Perm (queued sh.todo ++ l.units) := by
  cases hstep with
  | takeTodo slot u rest hr htodo =>
    unfold Lane.units queued
    rw [hr, htodo]
    exact List.perm_middle
  | noMore slot rest hr htodo =>
    unfold Lane.units queued
    rw [hr, htodo]
    exact List.Perm.refl _
  | putReady slot u hr =>
    refine List.perm_iff_count.mpr fun x => ?_
    simp [Lane.units, readyUnits, hr, ReaderPc.units, List.count_cons]
    omega
  | putDone hr =>
    unfold Lane.units readyUnits
    rw [hr, List.filterMap_append]
    exact List.Perm.of_eq (by simp [ReaderPc.units])
  | setStop hr | putDoneFailed hr => cases hok
  | start hr _ | goes hr _ | takeFree slot rest hr _ | stopped slot hr _ | goesOn slot hr _ | read slot u got r hr _ _ _
  | readAll slot u got hr _ | report error hr =>
    unfold Lane.units
    rw [hr]
    exact List.Perm.refl _

/-- A worker takes units, and ends them. -/
theorem WorkerStep.units (hstep : WorkerStep E k sh l sh' l') (hok : l'.failed = false) (hstop : sh.stop = false) :
    (endedUnits (sinkCalls E sh.buf l.worker l'.worker) ++ (queued sh'.todo ++ l'.units)).Perm
      (queued sh.todo ++ l.units) := by
  have hfails : ∀ w : WorkerPc, w.failed = true → l'.worker = w → False := by
    intro w hw hl
    rw [Lane.failed, hl, hw, Bool.or_true] at hok
    cases hok
  cases hstep with
  | takeReady item rest hw hready =>
    refine List.perm_iff_count.mpr fun x => ?_
    rcases item with _ | ⟨slot, u⟩ <;>
      simp [Lane.units, readyUnits, hready, hw, WorkerPc.units, sinkCalls, endedUnits, List.count_cons]
  | leaves item hw hor =>
    rcases hor with rfl | hs
    · unfold Lane.units
      rw [hw]
      exact List.Perm.refl _
    · rw [hstop] at hs
      cases hs
  | decoded slot u j hw hj =>
    refine List.perm_iff_count.mpr fun x => ?_
    simp [Lane.units, hw, WorkerPc.units, sinkCalls, endedUnits, List.count_cons]
    omega
  | decode slot u j hw _ | wrote slot u j hw =>
    unfold Lane.units
    rw [hw]
    exact List.Perm.refl _
  | broken hw _ => exact (hfails _ rfl rfl).elim
  | setStop hw | abort hw | wakeFailed i hw _ | wokenFailed i hw _ => exact (hfails _ rfl rfl).elim
  | start hw _ | prepare hw | putSlot i hw _ | slotsPut i hw _ | enter hw _ | released hw _ | goes hw _
  | goesOn slot u hw _ | putFree slot hw | wake i hw _ | woken i hw _ | sinkEnd hw | report error hw =>
    unfold Lane.units
    rw [hw]
    exact List.Perm.refl _

/-- The units of all, when a thread hands some over. -/
theorem units_thread (hk : k < E.workers) (hmain : sh'.main = sh.main) (ended : List Nat)
    (hunits : (ended ++ (queued sh'.todo ++ l'.units)).Perm (queued sh.todo ++ (lane k).units)) :
    (ended ++ ((queued sh'.todo ++ sh'.main.pending E.units.length) ++
        shares E.workers Lane.units (Function.update lane k l'))).Perm
      ((queued sh.todo ++ sh.main.pending E.units.length) ++ shares E.workers Lane.units lane) := by
  obtain ⟨rest, hbefore, hafter⟩ := shares_update Lane.units lane hk l'
  rw [hmain]
  refine List.perm_iff_count.mpr fun x => ?_
  have hu := hunits.count_eq x
  have hb := hbefore.count_eq x
  have ha := hafter.count_eq x
  simp only [List.count_append] at hu hb ha ⊢
  omega

/-- The main thread puts units into the queue. -/
theorem MainStep.units (hstep : MainStep E lane sh sh') (hstop : sh'.stop = false)
    (hgave : sh.main.gaveUp = true → sh.stop = true) :
    queued sh'.todo ++ sh'.main.pending E.units.length = queued sh.todo ++ sh.main.pending E.units.length := by
  have hgo : sh.stop = false → sh.main.gaveUp = true → False := by
    intro hs hg
    rw [hgave hg] at hs
    cases hs
  cases hstep with
  | setStop hm => cases hstop
  | setGo hm | collectFailed got st rest hm _ _ | raised got hm _ => exact (hgo hstop (by rw [hm]; rfl)).elim
  | putUnit i hm hi =>
    obtain ⟨m, hn⟩ : ∃ m, E.units.length - i = m + 1 := ⟨E.units.length - i - 1, by omega⟩
    have hrest : E.units.length - (i + 1) = m := by omega
    simp only [hm, MainPc.pending, hn, hrest, List.range'_succ, queued, List.filterMap_append]
    exact List.append_assoc _ _ _
  | unitsPut i hm hi =>
    have hnone : E.units.length - i = 0 := by omega
    simp only [hm, MainPc.pending, hnone, List.range'_zero]
  | putDone i hm _ =>
    simp only [hm, MainPc.pending, queued, List.filterMap_append]
    exact List.append_assoc _ _ _
  | released hm _ => simp only [hm, MainPc.pending, Nat.sub_zero, List.range_eq_range']
  | broken hm _ => rcases hm with hm | hm <;> rw [hm] <;> rfl
  | startThread hm _ => rfl
  | started hm _ | enter hm _ | donesPut i hm _ | go hm | collect got st rest hm _ _ | collected got hm _
  | join got i hm _ _ | joined got i hm _ => rw [hm]; rfl

end

/-- Whatever state a run is in, every worker's sink was called for whole units and at most one more, and all
that was decoded was written. -/
structure SinksInv (E : Engine) (s : State) (calls : Nat → List SinkCall) : Prop where
  inv : Inv E s
  worker : ∀ k, k < E.workers → CallsInv E (s.lane k).worker (calls k)
  log : s.sh.log.Perm (shares E.workers written calls)
  units : Clean E s.sh s.lane →
    (shares E.workers endedUnits calls ++ (queued s.sh.todo ++ s.sh.main.pending E.units.length) ++
      shares E.workers Lane.units s.lane).Perm (List.range E.units.length)

section

variable {E : Engine} {s s' : State} {calls : Nat → List SinkCall} {buf : Nat → Byte}

/-- Nobody's sink is called. -/
theorem SinksInv.silent (h : SinksInv E s calls) (hinv : Inv E s')
    (hworker : ∀ k, (s'.lane k).worker = (s.lane k).worker) (hlog : s'.sh.log = s.sh.log)
    (hunits : Clean E s'.sh s'.lane → Clean E s.sh s.lane ∧
      ((queued s'.sh.todo ++ s'.sh.main.pending E.units.length) ++ shares E.workers Lane.units s'.lane).Perm
        ((queued s.sh.todo ++ s.sh.main.pending E.units.length) ++ shares E.workers Lane.units s.lane)) :
    SinksInv E s' fun k => calls k ++ sinkCalls E s.sh.buf (s.lane k).worker (s'.lane k).worker := by
  have hsame : (fun k => calls k ++ sinkCalls E s.sh.buf (s.lane k).worker (s'.lane k).worker) = calls := by
    funext k
    rw [hworker k, sinkCalls_self, List.append_nil]
  rw [hsame]
  refine ⟨hinv, fun k hk => by rw [hworker k]; exact h.worker k hk, hlog ▸ h.log, fun hclean => ?_⟩
  obtain ⟨hbefore, hperm⟩ := hunits hclean
  have hall := h.units hbefore
  rw [List.append_assoc] at hall ⊢
  exact (hperm.append_left _).trans hall

/-- The sink of worker `k` is called. -/
theorem SinksInv.worker_step (h : SinksInv E s calls) {k : Nat} {sh : Shared} {l : Lane} (hk : k < E.workers)
    (hw : WorkerStep E k s.sh (s.lane k) sh l) :
    SinksInv E ⟨sh, Function.update s.lane k l⟩
      (Function.update calls k (calls k ++ sinkCalls E s.sh.buf (s.lane k).worker l.worker)) := by
  refine ⟨h.inv.worker hk hw, fun j hj => ?_, ?_, fun hclean => ?_⟩
  · dsimp only
    by_cases hjk : j = k
    · subst hjk
      rw [Function.update_self, Function.update_self]
      refine (h.worker j hk).worker hw fun slot u i hdec => ?_
      exact slotData_eq (((h.inv.lanes j hk).bytes (by rw [hdec]; rfl)).got slot u (by rw [hdec]; rfl))
    · rw [Function.update_of_ne hjk, Function.update_of_ne hjk]
      exact h.worker j hj
  · obtain ⟨rest, hbefore, hafter⟩ := shares_update written calls hk
      (calls k ++ sinkCalls E s.sh.buf (s.lane k).worker l.worker)
    rw [written_append, List.append_assoc] at hafter
    rw [hw.writes]
    refine ((h.log.trans hbefore).append_right _).trans (List.Perm.trans ?_ hafter.symm)
    rw [List.append_assoc]
    exact List.perm_append_comm.append_left _
  · have hbefore := hclean.before hk hw.stop hw.failed
    have hok : l.failed = false := by
      have hall := hclean.2 k hk
      dsimp only at hall
      rwa [Function.update_self] at hall
    have hmoved := units_thread hk hw.main_eq _ (hw.units hok hbefore.1)
    obtain ⟨rest, hold, hnew⟩ := shares_update endedUnits calls hk
      (calls k ++ sinkCalls E s.sh.buf (s.lane k).worker l.worker)
    rw [endedUnits_append] at hnew
    refine List.Perm.trans ?_ (h.units hbefore)
    refine List.perm_iff_count.mpr fun x => ?_
    have hm := hmoved.count_eq x
    have ho := hold.count_eq x
    have hn := hnew.count_eq x
    simp only [List.count_append] at hm ho hn ⊢
    omega

theorem SinksInv.step (h : SinksInv E s calls) (hstep : Step E s s') :
    SinksInv E s' fun k => calls k ++ sinkCalls E s.sh.buf (s.lane k).worker (s'.lane k).worker := by
  have hinv := h.inv.step hstep
  cases hstep with
  | reader k sh l hk hr =>
    refine h.silent hinv (fun j => ?_) ?_ fun hclean => ⟨hclean.before hk hr.stop hr.failed, ?_⟩
    · dsimp only
      by_cases hjk : j = k
      · subst hjk
        rw [Function.update_self, hr.worker_eq]
      · rw [Function.update_of_ne hjk]
    · cases hr <;> rfl
    · have hok := hclean.2 k hk
      dsimp only at hok
      rw [Function.update_self] at hok
      exact units_thread hk hr.main_eq [] (hr.units hok)
  | main sh hm =>
    refine h.silent hinv (fun _ => rfl) ?_ fun hclean => ?_
    · cases hm <;> rfl
    · have hstop : s.sh.stop = false := by
        by_contra hs
        have hgrown := (hm.grows 0).stop (by simpa using hs)
        cases hgrown.symm.trans hclean.1
      exact ⟨⟨hstop, hclean.2⟩, by rw [hm.units hclean.1 h.inv.main.gaveUp]⟩
  | worker k sh l hk hw =>
    have hcalls : (fun j => calls j ++ sinkCalls E s.sh.buf (s.lane j).worker
          (Function.update s.lane k l j).worker) =
        Function.update calls k (calls k ++ sinkCalls E s.sh.buf (s.lane k).worker l.worker) := by
      funext j
      by_cases hjk : j = k
      · subst hjk
        rw [Function.update_self, Function.update_self]
      · rw [Function.update_of_ne hjk, Function.update_of_ne hjk, sinkCalls_self, List.append_nil]
    dsimp only
    rw [hcalls]
    exact h.worker_step hk hw

theorem SinksInv.fault (h : SinksInv E s calls) (hf : Fault E s s') : SinksInv E s' calls := by
  have hinv := h.inv.fault hf
  cases hf with
  | reader k hk _ _ =>
    refine ⟨hinv, fun j hj => ?_, h.log, fun hclean => (not_clean hk rfl hclean).elim⟩
    have hworker := h.worker j hj
    dsimp only
    by_cases hjk : j = k
    · subst hjk
      rw [Function.update_self]
      exact hworker
    · rw [Function.update_of_ne hjk]
      exact hworker
  | worker k hk _ ht =>
    have hfailed : Lane.failed { s.lane k with worker := .setStop } = true := Bool.or_true _
    refine ⟨hinv, fun j hj => ?_, h.log, fun hclean => (not_clean hk hfailed hclean).elim⟩
    dsimp only
    by_cases hjk : j = k
    · subst hjk
      rw [Function.update_self]
      exact (h.worker j hj).cut ht
    · rw [Function.update_of_ne hjk]
      exact h.worker j hj
  | timeout hm _ =>
    refine ⟨hinv, h.worker, h.log, fun hclean => ?_⟩
    have hall := h.units hclean
    rw [hm] at hall
    exact hall

theorem SinkReachable.inv (h : SinkReachable E recorder [] buf (s, calls)) : SinksInv E s calls := by
  generalize hx : (s, calls) = x at h
  induction h generalizing s calls with
  | refl =>
    cases hx
    have hnone : shares E.workers endedUnits (fun _ => ([] : List SinkCall)) = [] := shares_nil fun _ _ => rfl
    have hwritten : shares E.workers written (fun _ => ([] : List SinkCall)) = [] := shares_nil fun _ _ => rfl
    refine ⟨inv_initial E buf, fun k _ => rfl, List.Perm.of_eq hwritten.symm, fun _ => ?_⟩
    have hunits : shares E.workers Lane.units (initial buf).lane = [] := shares_nil fun _ _ => rfl
    rw [hnone, hunits, List.append_nil]
    exact List.Perm.refl _
  | @tail y x _ hstep ih =>
    have hbefore := ih rfl
    cases hstep with
    | step s' sinks' hs hsinks =>
      cases hx
      have hcalls : calls = fun k => y.2 k ++ sinkCalls E y.1.sh.buf (y.1.lane k).worker (s.lane k).worker := by
        funext k
        exact (Option.some.inj ((recorder_run _ _).symm.trans (hsinks k))).symm
      rw [hcalls]
      exact hbefore.step hs
    | fault s' hf =>
      cases hx
      exact hbefore.fault hf

/-- No unit is left anywhere in a run that ends without an error. -/
theorem Inv.no_units (h : Inv E s) {got : List Stats} (hm : s.sh.main = .finished got)
    (hok : ∀ st ∈ got, st.error = false) :
    Clean E s.sh s.lane ∧ queued s.sh.todo = [] ∧ shares E.workers Lane.units s.lane = [] := by
  have hworker : ∀ k, k < E.workers → (s.lane k).worker = .done false := fun k hk =>
    h.all_succeed hm hok hk .worker
  have hreader : ∀ k, k < E.workers → (s.lane k).reader = .done false := fun k hk =>
    h.all_succeed hm hok hk .reader
  have hfailed : ∀ k, k < E.workers → (s.lane k).failed = false := fun k hk => by
    rw [Lane.failed, hworker k hk, hreader k hk]
    rfl
  have hstop : s.sh.stop = false := by
    by_contra hs
    rcases h.cause (by simpa using hs) with hg | ⟨k, hk, hf⟩
    · rw [hm] at hg
      cases hg
    · cases hf.symm.trans (hfailed k hk)
  have hdrained : ∀ x ∈ s.sh.todo, x = none := by
    rcases (h.lanes 0 E.workers_pos).gate.drained (by rw [hreader 0 E.workers_pos]; rfl) with hs | hd
    · cases hs.symm.trans hstop
    · exact hd.2
  refine ⟨⟨hstop, hfailed⟩, List.filterMap_eq_nil_iff.mpr fun x hx => hdrained x hx, shares_nil fun k hk => ?_⟩
  have hready : (s.lane k).ready = [] := by
    rcases (h.lanes k hk).flow.left (by rw [hworker k hk]; rfl) with hs | hl
    · cases hs.symm.trans hstop
    · exact hl.2
  rw [Lane.units, hworker k hk, hreader k hk, hready]
  rfl

/-- The sinks of a run that ends without an error share the units out. -/
theorem SinksInv.finished (h : SinksInv E s calls) {got : List Stats} (hm : s.sh.main = .finished got)
    (hok : ∀ st ∈ got, st.error = false) :
    ∃ us : Nat → List Nat, (∀ k, k < E.workers → calls k = sessions E (us k) ++ [.finish]) ∧
      ((List.range E.workers).flatMap us).Perm (List.range E.units.length) := by
  have hshape : ∀ k, k < E.workers → calls k = sessions E (endedUnits (calls k)) ++ [.finish] := by
    intro k hk
    have hworker := h.worker k hk
    rw [h.inv.all_succeed hm hok hk .worker] at hworker
    obtain ⟨us, hus⟩ := hworker
    have hended : endedUnits (calls k) = us := by
      rw [hus, endedUnits_append, endedUnits_sessions]
      exact List.append_nil us
    rw [hended]
    exact hus
  obtain ⟨hclean, hqueued, hnone⟩ := h.inv.no_units hm hok
  have hall := h.units hclean
  rw [hqueued, hnone, hm, List.append_nil] at hall
  refine ⟨fun k => endedUnits (calls k), hshape, ?_⟩
  simp only [MainPc.pending, List.append_nil] at hall
  exact hall

end

/-- Whatever the order of the steps and wherever a reader, a worker or a sink fails: the sink of a worker has got
the begin, batches and end of whole units, of one unit at most a part, and the batches are those that were decoded;
in a run that ends without an error the sinks together have got every unit once, each from its own bytes, and every
sink was closed. -/
theorem sink_calls {σ : Type} (E : Engine) (sink : Sink σ) (s₀ : σ) (buf : Nat → Byte) {s : State} {sinks : Nat → σ}
    (h : SinkReachable E sink s₀ buf (s, sinks)) :
    ∃ calls : Nat → List SinkCall, (∀ k, sink.run (calls k) s₀ = some (sinks k)) ∧
      (∀ k, k < E.workers → Cut E (calls k) ∨ ∃ us, calls k = sessions E us ++ [.finish]) ∧
      s.sh.log.Perm (shares E.workers written calls) ∧
      ∀ got, s.sh.main = .finished got → (∀ st ∈ got, st.error = false) →
        ∃ us : Nat → List Nat, (∀ k, k < E.workers → calls k = sessions E (us k) ++ [.finish]) ∧
          ((List.range E.workers).flatMap us).Perm (List.range E.units.length) := by
  obtain ⟨calls, hrecorded, hruns⟩ := h.recorded
  have hinv := hrecorded.inv
  refine ⟨calls, hruns, fun k hk => ?_, hinv.log, fun got hm hok => hinv.finished hm hok⟩
  have hworker := hinv.worker k hk
  cases hw : (s.lane k).worker with
  | report error | done error =>
    rw [hw] at hworker
    cases error with
    | false => exact Or.inr hworker
    | true => exact Or.inl hworker
  | setStop | abort | wakeFailed i =>
    rw [hw] at hworker
    exact Or.inl hworker
  | start | prepare | putSlots i | barrier | inBarrier | waitGo | takeReady | gotItem item | decoding slot u j
  | writing slot u j | putFree slot | wake i | sinkEnd =>
    refine Or.inl (hworker.cut ?_)
    rw [hw]
    rfl

/-! ## A run with one unit -/

/-- One worker with one slot, and a unit of one frame. -/
def oneUnit : Engine where
  units := [⟨1, [7#8]⟩]
  workers := 1
  slotsPerWorker := 1
  batch := 1
  ioBytes := 0
  workers_pos := Nat.one_pos
  slots_pos := Nat.one_pos
  batch_pos := Nat.one_pos

/-- Before the lane is started. -/
def idle : Lane := ⟨.start, .start, [], []⟩

/-- A run of it has come to the shared state `sh`, its lane to `l` and its sink to `x`. -/
def OneRun {σ : Type} (sink : Sink σ) (s₀ : σ) (sh : Shared) (l : Lane) (x : σ) : Prop :=
  SinkReachable oneUnit sink s₀ (fun _ => 0#8)
    (⟨sh, Function.update (fun _ => idle) 0 l⟩, Function.update (fun _ => s₀) 0 x)

section

variable {σ : Type} {sink : Sink σ} {s₀ x x' : σ} {sh sh' : Shared} {l l' : Lane}

theorem updates {α : Type} (f : Nat → α) (a b : α) :
    Function.update (Function.update f 0 a) 0 b = Function.update f 0 b := Function.update_idem a b f

theorem OneRun.start (sink : Sink σ) (s₀ : σ) :
    OneRun sink s₀ (initial fun _ => 0#8).sh idle s₀ := by
  unfold OneRun
  rw [Function.update_eq_self_iff.mpr rfl, Function.update_eq_self_iff.mpr rfl]
  exact .refl

theorem OneRun.main (h : OneRun sink s₀ sh l x)
    (hm : MainStep oneUnit (Function.update (fun _ => idle) 0 l) sh sh') :
    OneRun sink s₀ sh' l x :=
  h.tail (.step _ _ (.main _ hm) fun k => by
    dsimp only
    rw [sinkCalls_self]
    rfl)

theorem OneRun.reader (h : OneRun sink s₀ sh l x) (hr : ReaderStep oneUnit 0 sh l sh' l') :
    OneRun sink s₀ sh' l' x := by
  unfold OneRun
  rw [← updates (fun _ => idle) l l']
  refine h.tail (.step _ _ (.reader 0 _ _ (by decide) (by dsimp only; rw [Function.update_self]; exact hr)) fun k => ?_)
  dsimp only
  by_cases hk : k = 0
  · subst hk
    rw [Function.update_self, Function.update_self, hr.worker_eq, sinkCalls_self]
    rfl
  · rw [Function.update_of_ne hk, Function.update_of_ne hk, Function.update_of_ne hk, sinkCalls_self]
    rfl

theorem OneRun.worker (h : OneRun sink s₀ sh l x) (hw : WorkerStep oneUnit 0 sh l sh' l')
    (hx : sink.run (sinkCalls oneUnit sh.buf l.worker l'.worker) x = some x') : OneRun sink s₀ sh' l' x' := by
  unfold OneRun
  rw [← updates (fun _ => idle) l l', ← updates (fun _ => s₀) x x']
  refine h.tail (.step _ _ (.worker 0 _ _ (by decide) (by dsimp only; rw [Function.update_self]; exact hw)) fun k => ?_)
  dsimp only
  by_cases hk : k = 0
  · subst hk
    rw [Function.update_self, Function.update_self, Function.update_self, Function.update_self]
    exact hx
  · simp only [Function.update_of_ne hk]
    rw [sinkCalls_self]
    rfl

/-- With any sink that takes the unit, a run comes to its end. -/
theorem OneRun.finishes {x₁ x₂ x₃ x₄ : σ} (hbegin : sink .begin s₀ = some x₁)
    (hbeginUnit : sink (.beginUnit 0) x₁ = some x₂) (hwrite : sink (.write (call oneUnit 0 0)) x₂ = some x₃)
    (hendUnit : sink (.endUnit 0) x₃ = some x₄) (hfinish : sink .finish x₄ = some x) :
    ∃ sh l, OneRun sink s₀ sh l x ∧ sh.main = .finished [⟨.reader, 0, false⟩, ⟨.worker, 0, false⟩] := by
  have hone : ∀ {c : SinkCall} {y y' : σ}, sink c y = some y' → sink.run [c] y = some y' := fun h =>
    (Sink.run_one sink _ _).trans h
  -- the threads start and meet at the barrier
  have h := OneRun.start sink s₀
  have h := h.main (.startThread rfl (by decide))
  have h := h.main (.startThread rfl (by decide))
  have h := h.main (.started rfl (by decide))
  have h := h.worker (.start rfl (by decide)) rfl
  have h := h.worker (.prepare rfl) (hone hbegin)
  have h := h.worker (.putSlot 0 rfl (by decide)) rfl
  have h := h.worker (.slotsPut 1 rfl (by decide)) rfl
  have h := h.worker (.enter rfl (by decide)) rfl
  have h := h.main (.enter rfl (by decide))
  have h := h.worker (.released rfl rfl) rfl
  have h := h.main (.released rfl rfl)
  -- the unit is put
  have h := h.main (.putUnit 0 rfl (by decide))
  have h := h.main (.unitsPut 1 rfl (by decide))
  have h := h.main (.putDone 0 rfl (by decide))
  have h := h.main (.donesPut 1 rfl (by decide))
  have h := h.main (.go rfl)
  have h := h.worker (.goes rfl rfl) rfl
  -- it is read and decoded
  have h := h.reader (.start rfl (by decide))
  have h := h.reader (.goes rfl rfl)
  have h := h.reader (.takeFree 0 [] rfl rfl)
  have h := h.reader (.goesOn 0 rfl rfl)
  have h := h.reader (.takeTodo 0 0 [none] rfl rfl)
  have h := h.reader (.read 0 0 0 1 rfl (by decide) (by decide) (by decide))
  have h := h.reader (.readAll 0 0 1 rfl (by decide))
  have h := h.reader (.putReady 0 0 rfl)
  have h := h.worker (.takeReady (some (0, 0)) [] rfl rfl) rfl
  have h := h.worker (.goesOn 0 0 rfl rfl) (hone hbeginUnit)
  have hdata := slotData_eq ((((SinkReachable.reachable h).inv.lanes 0 (by decide)).bytes rfl).got 0 0 rfl)
  have h := h.worker (.decode 0 0 0 rfl (by decide)) (by
    dsimp only
    rw [sinkCalls, hdata]
    exact hone hwrite)
  have h := h.worker (.wrote 0 0 0 rfl) rfl
  have h := h.worker (.decoded 0 0 1 rfl (by decide)) (hone hendUnit)
  have h := h.worker (.putFree 0 rfl) rfl
  -- there are no more
  have h := h.reader (.takeFree 0 [] rfl rfl)
  have h := h.reader (.goesOn 0 rfl rfl)
  have h := h.reader (.noMore 0 [] rfl rfl)
  have h := h.reader (.putDone rfl)
  have h := h.reader (.report false rfl)
  have h := h.worker (.takeReady none [] rfl rfl) rfl
  have h := h.worker (.leaves none rfl (Or.inl rfl)) rfl
  have h := h.worker (.wake 0 rfl (by decide)) rfl
  have h := h.worker (.wake 1 rfl (by decide)) rfl
  have h := h.worker (.woken 2 rfl (by decide)) rfl
  have h := h.worker (.sinkEnd rfl) (hone hfinish)
  have h := h.worker (.report false rfl) rfl
  have h := h.main (.collect [] ⟨.reader, 0, false⟩ [⟨.worker, 0, false⟩] rfl (by decide) rfl)
  have h := h.main (.collect [⟨.reader, 0, false⟩] ⟨.worker, 0, false⟩ [] rfl (by decide) rfl)
  have h := h.main (.collected _ rfl (by decide))
  have h := h.main (.join _ 0 rfl (by decide) ⟨false, rfl⟩)
  have h := h.main (.join _ 1 rfl (by decide) ⟨false, rfl⟩)
  exact ⟨_, _, h.main (.joined _ 2 rfl (by decide)), rfl⟩

end

/-- A run that ends without an error has decoded its unit. -/
theorem conveyor_safe_oneUnit : ∃ s got, Reachable oneUnit (fun _ => 0#8) s ∧ s.sh.main = .finished got ∧
    (∀ st ∈ got, st.error = false) ∧ Undisturbed oneUnit s ∧ s.sh.log.Perm [⟨0, 0, [7#8]⟩] := by
  obtain ⟨sh, l, hrun, hm⟩ := @OneRun.finishes _ recorder [] _ _ _ _ _ rfl rfl rfl rfl rfl
  have hok : ∀ st ∈ [(⟨.reader, 0, false⟩ : Stats), ⟨.worker, 0, false⟩], st.error = false := by decide
  have hreach := SinkReachable.reachable hrun
  obtain ⟨hslots, hall, -⟩ := conveyor_safe oneUnit _ _ hreach
  exact ⟨_, _, hreach, hm, hok, hslots, hall _ hm hok⟩

/-- The sink has got the unit, and was closed. -/
theorem sink_calls_oneUnit : ∃ s calls, SinkReachable oneUnit recorder [] (fun _ => 0#8) (s, calls) ∧
    ∃ us : Nat → List Nat, calls 0 = sessions oneUnit (us 0) ++ [.finish] ∧ (us 0).Perm [0] := by
  have hends : ∃ sh l, OneRun recorder [] sh l
      [.begin, .beginUnit 0, .write (call oneUnit 0 0), .endUnit 0, .finish] ∧
        sh.main = .finished [⟨.reader, 0, false⟩, ⟨.worker, 0, false⟩] := OneRun.finishes rfl rfl rfl rfl rfl
  obtain ⟨sh, l, hrun, hm⟩ := hends
  obtain ⟨calls, hruns, -, -, hfinished⟩ := sink_calls oneUnit recorder [] _ hrun
  have hok : ∀ st ∈ [(⟨.reader, 0, false⟩ : Stats), ⟨.worker, 0, false⟩], st.error = false := by decide
  obtain ⟨us, hcalls, hperm⟩ := hfinished _ hm hok
  have hzero := hruns 0
  rw [recorder_run] at hzero
  refine ⟨_, _, hrun, us, ?_, ?_⟩
  · rw [← hcalls 0 (by decide)]
    exact (Option.some.inj hzero).symm
  · rw [show List.range oneUnit.workers = [0] from rfl, List.flatMap_singleton] at hperm
    exact hperm

end Bslz4ToSparse.Conveyor
