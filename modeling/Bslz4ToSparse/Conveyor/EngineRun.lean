import Bslz4ToSparse.Conveyor.EngineShared
import Bslz4ToSparse.Foundation.Shares

/-!
# Runs of the conveyor

What holds in every reachable state: the events follow from where the main thread is, every
thread reports once, and as long as nobody failed each unit is waiting, with one of the
workers, or decoded.
-/

namespace Bslz4ToSparse.Conveyor

open Foundation
open Lz4 (Byte)

/-! ## The main thread -/

/-- `run` gave up after the barrier was broken, and has set `stop`. -/
def MainPc.gaveUp : MainPc → Bool
  | setGo | collectFailed _ | raised => true
  | _ => false

/-- `run` has left the barrier. -/
def MainPc.past : MainPc → Bool
  | starting | barrier | inBarrier => false
  | _ => true

/-- `run` has set `go`. -/
def MainPc.wentOn : MainPc → Bool
  | collectFailed _ | raised | collect _ | joining _ _ | finished _ => true
  | _ => false

/-- The results `run` has taken from the queue. -/
def MainPc.got : MainPc → List Stats
  | collectFailed got | collect got | joining got _ | finished got => got
  | _ => []

/-- The events and the barrier. -/
structure MainInv (E : Engine) (sh : Shared) : Prop where
  started : sh.main ≠ .starting → 2 * E.workers ≤ sh.started
  opened : sh.go = true → sh.stop = true ∨ sh.main.normal = true
  wentOn : sh.main.wentOn = true → sh.go = true
  gaveUp : sh.main.gaveUp = true → sh.stop = true
  past : sh.main.past = true → sh.barrier.phase ≠ .filling
  waits : sh.main = .inBarrier → sh.barrier.phase = .filling → none ∈ sh.barrier.arrived
  filling : sh.barrier.phase = .filling → sh.barrier.arrived.length ≤ E.workers

section

variable {E : Engine} {k : Nat} {sh sh' : Shared} {l l' : Lane} {lane : Nat → Lane}

/-- What a thread other than the main one changes of the events and the barrier. -/
theorem MainInv.keep (h : MainInv E sh) (hmain : sh'.main = sh.main) (hstarted : sh'.started = sh.started)
    (hgo : sh'.go = sh.go) (hstop : sh.stop = true → sh'.stop = true)
    (hphase : sh'.barrier.phase = .filling → sh.barrier.phase = .filling)
    (hnone : none ∈ sh.barrier.arrived → none ∈ sh'.barrier.arrived)
    (hlen : sh'.barrier.phase = .filling → sh'.barrier.arrived.length ≤ E.workers) :
    MainInv E sh' where
  started := fun hm => hstarted ▸ h.started (hmain ▸ hm)
  opened := fun hg => by
    rw [hmain]
    exact (h.opened (hgo ▸ hg)).imp_left hstop
  wentOn := fun hm => hgo ▸ h.wentOn (hmain ▸ hm)
  gaveUp := fun hm => hstop (h.gaveUp (hmain ▸ hm))
  past := fun hm hf => h.past (hmain ▸ hm) (hphase hf)
  waits := fun hm hf => hnone (h.waits (hmain ▸ hm) (hphase hf))
  filling := hlen

theorem MainInv.reader (h : MainInv E sh) (hstep : ReaderStep E k sh l sh' l') : MainInv E sh' := by
  have hg := hstep.grows 0
  cases hstep <;> exact h.keep rfl rfl rfl hg.stop id id h.filling

/-- The last party finds the barrier open. -/
theorem Barrier.enter_length {b : Barrier} {p : Option Nat} {parties : Nat}
    (hlen : b.phase = .filling → b.arrived.length + 1 ≤ parties)
    (h : (b.enter p parties).phase = .filling) : (b.enter p parties).arrived.length + 1 ≤ parties := by
  have hle := hlen (Barrier.enter_phase h)
  unfold Barrier.enter at h ⊢
  dsimp only [List.length_cons] at h ⊢
  split at h
  · cases h
  · omega

theorem MainInv.worker (h : MainInv E sh) (hstep : WorkerStep E k sh l sh' l') : MainInv E sh' := by
  have hg := hstep.grows 0
  cases hstep with
  | enter _ _ =>
    refine h.keep rfl rfl rfl hg.stop hg.phase (List.mem_cons_of_mem _) fun hf => ?_
    have hlen := Barrier.enter_length (fun hf => Nat.succ_le_succ (h.filling hf)) hf
    exact Nat.le_of_succ_le_succ hlen
  | abort _ => exact h.keep rfl rfl rfl hg.stop hg.phase id nofun
  | _ => exact h.keep rfl rfl rfl hg.stop id id h.filling

/-- The main thread goes on without touching the events and the barrier. -/
theorem MainInv.moves {m : MainPc} (todo : List (Option Nat)) (res : List Stats) (h : MainInv E sh)
    (hs : 2 * E.workers ≤ sh.started) (hnormal : sh.main.normal = true → m.normal = true)
    (hwent : m.wentOn = true → sh.main.wentOn = true)
    (hgave : m.gaveUp = true → sh.main.gaveUp = true)
    (hpast : m.past = true → sh.barrier.phase ≠ .filling) (hin : m ≠ .inBarrier) :
    MainInv E { sh with main := m, todo := todo, res := res } where
  started := fun _ => hs
  opened := fun hg => (h.opened hg).imp_right hnormal
  wentOn := fun hm => h.wentOn (hwent hm)
  gaveUp := fun hm => h.gaveUp (hgave hm)
  past := hpast
  waits := fun hm => absurd hm hin
  filling := h.filling

theorem MainInv.main (h : MainInv E sh) (hstep : MainStep E lane sh sh') : MainInv E sh' := by
  cases hstep with
  | startThread hm _ =>
    exact ⟨fun hne => absurd hm hne, h.opened, h.wentOn, h.gaveUp, h.past, h.waits, h.filling⟩
  | started hm hle => exact h.moves _ _ hle (by rw [hm]; nofun) nofun nofun nofun nofun
  | enter hm hb =>
    refine ⟨fun _ => h.started (by rw [hm]; nofun), fun hg => (h.opened hg).imp_right ?_, nofun, nofun,
      nofun, fun _ _ => List.mem_cons_self, fun hf => ?_⟩
    · rw [hm]
      nofun
    · have hlen := Barrier.enter_length (fun hf => Nat.succ_le_succ (h.filling hf)) hf
      exact Nat.le_of_succ_le_succ hlen
  | broken hm hb =>
    have hs := h.started (by rcases hm with hm | hm <;> (rw [hm]; nofun))
    exact h.moves _ _ hs (by rcases hm with hm | hm <;> (rw [hm]; nofun)) nofun nofun
      (fun _ => by rw [hb]; nofun) nofun
  | released hm hb =>
    exact h.moves _ _ (h.started (by rw [hm]; nofun)) (by rw [hm]; nofun) nofun nofun
      (fun _ => by rw [hb]; nofun) nofun
  | setStop hm =>
    exact ⟨fun _ => h.started (by rw [hm]; nofun), fun _ => Or.inl rfl, nofun, fun _ => rfl,
      fun _ => h.past (by rw [hm]; rfl), nofun, h.filling⟩
  | setGo hm =>
    have hs := h.gaveUp (by rw [hm]; rfl)
    exact ⟨fun _ => h.started (by rw [hm]; nofun), fun _ => Or.inl hs, fun _ => rfl, fun _ => hs,
      fun _ => h.past (by rw [hm]; rfl), nofun, h.filling⟩
  | go hm =>
    exact ⟨fun _ => h.started (by rw [hm]; nofun), fun _ => Or.inr rfl, fun _ => rfl, nofun,
      fun _ => h.past (by rw [hm]; rfl), nofun, h.filling⟩
  | collectFailed got st rest hm _ _ =>
    exact h.moves _ _ (h.started (by rw [hm]; nofun)) (by rw [hm]; nofun) (by rw [hm]; exact id)
      (by rw [hm]; exact id) (fun _ => h.past (by rw [hm]; rfl)) nofun
  | raised got hm _ =>
    exact h.moves _ _ (h.started (by rw [hm]; nofun)) (by rw [hm]; nofun) (by rw [hm]; exact id)
      (by rw [hm]; exact id) (fun _ => h.past (by rw [hm]; rfl)) nofun
  | putUnit i hm _ =>
    exact h.moves _ _ (h.started (by rw [hm]; nofun)) (by rw [hm]; nofun) nofun nofun
      (fun _ => h.past (by rw [hm]; rfl)) nofun
  | unitsPut i hm _ =>
    exact h.moves _ _ (h.started (by rw [hm]; nofun)) (by rw [hm]; nofun) nofun nofun
      (fun _ => h.past (by rw [hm]; rfl)) nofun
  | putDone i hm _ =>
    exact h.moves _ _ (h.started (by rw [hm]; nofun)) (by rw [hm]; nofun) nofun nofun
      (fun _ => h.past (by rw [hm]; rfl)) nofun
  | donesPut i hm _ =>
    exact h.moves _ _ (h.started (by rw [hm]; nofun)) (by rw [hm]; nofun) nofun nofun
      (fun _ => h.past (by rw [hm]; rfl)) nofun
  | collect got st rest hm _ _ =>
    exact h.moves _ _ (h.started (by rw [hm]; nofun)) (fun _ => rfl) (by rw [hm]; exact id) nofun
      (fun _ => h.past (by rw [hm]; rfl)) nofun
  | collected got hm _ =>
    exact h.moves _ _ (h.started (by rw [hm]; nofun)) (fun _ => rfl) (by rw [hm]; exact id) nofun
      (fun _ => h.past (by rw [hm]; rfl)) nofun
  | join got i hm _ _ =>
    exact h.moves _ _ (h.started (by rw [hm]; nofun)) (fun _ => rfl) (by rw [hm]; exact id) nofun
      (fun _ => h.past (by rw [hm]; rfl)) nofun
  | joined got i hm _ =>
    exact h.moves _ _ (h.started (by rw [hm]; nofun)) (fun _ => rfl) (by rw [hm]; exact id) nofun
      (fun _ => h.past (by rw [hm]; rfl)) nofun

/-- A thread that leaves the barrier with an exception. -/
theorem MainInv.workerFault (h : MainInv E sh) (k : Nat) :
    MainInv E { sh with barrier :=
      { sh.barrier with arrived := sh.barrier.arrived.erase (some k) } } := by
  refine h.keep rfl rfl rfl id id (fun hn => ?_) fun hf => ?_
  · exact (List.mem_erase_of_ne (Option.some_ne_none k).symm).mpr hn
  · exact (List.length_erase_le).trans (h.filling hf)

theorem MainInv.timeout (h : MainInv E sh) (hm : sh.main = .inBarrier) :
    MainInv E { sh with main := .setStop, barrier := { sh.barrier with phase := .broken } } := by
  refine ⟨fun _ => h.started (by rw [hm]; nofun), fun hg => (h.opened hg).imp_right ?_, nofun, nofun,
    fun _ => nofun, nofun, nofun⟩
  rw [hm]
  nofun

end

/-! ## The queue of units -/

/-- A token for a reader that still asks for units. -/
def asking (l : Lane) : List Unit := if l.reader.inLoop then [()] else []

/-- The units that `run` has put, and the ends: there is one for every reader that asks. -/
def TodoInv (E : Engine) (sh : Shared) (lane : Nat → Lane) : Prop :=
  match sh.main with
  | .putUnits i => i ≤ E.units.length ∧ sh.todo = (List.range i).map some
  | .putDones i => sh.todo = (List.range E.units.length).map some ++ List.replicate i none
  | .go => ∃ n, E.workers ≤ n ∧
      sh.todo = (List.range E.units.length).map some ++ List.replicate n none
  | .collect _ | .joining _ _ | .finished _ => ∃ (us : List Nat) (n : Nat),
      sh.todo = us.map some ++ List.replicate n none ∧ (shares E.workers asking lane).length ≤ n
  | _ => sh.todo = []

section

variable {E : Engine} {k : Nat} {sh sh' : Shared} {l l' : Lane} {lane : Nat → Lane}

theorem length_shares_asking (n : Nat) (lane : Nat → Lane) : (shares n asking lane).length ≤ n := by
  induction n with
  | zero => exact Nat.le_refl 0
  | succ n ih =>
    have hone : (asking (lane n)).length ≤ 1 := by
      unfold asking
      split
      · exact Nat.le_refl 1
      · exact Nat.zero_le 1
    unfold shares at ih ⊢
    rw [List.range_succ, List.flatMap_append, List.flatMap_singleton, List.length_append]
    omega

/-- A step that takes nothing from the queue. -/
theorem TodoInv.keep (h : TodoInv E sh lane) (hk : k < E.workers) (hmain : sh'.main = sh.main)
    (htodo : sh'.todo = sh.todo) (hask : (asking l').length ≤ (asking (lane k)).length) :
    TodoInv E sh' (Function.update lane k l') := by
  have hlen : (shares E.workers asking (Function.update lane k l')).length ≤
      (shares E.workers asking lane).length := by
    obtain ⟨rest, hbefore, hafter⟩ := shares_update asking lane hk l'
    rw [hbefore.length_eq, hafter.length_eq, List.length_append, List.length_append]
    omega
  unfold TodoInv at h ⊢
  rw [hmain, htodo]
  split at h
  · exact h
  · exact h
  · exact h
  · obtain ⟨us, n, hus, hn⟩ := h
    exact ⟨us, n, hus, hlen.trans hn⟩
  · obtain ⟨us, n, hus, hn⟩ := h
    exact ⟨us, n, hus, hlen.trans hn⟩
  · obtain ⟨us, n, hus, hn⟩ := h
    exact ⟨us, n, hus, hlen.trans hn⟩
  · exact h

/-- Once `run` has put everything. -/
theorem TodoInv.normal (h : TodoInv E sh lane) (hm : sh.main.normal = true) :
    ∃ (us : List Nat) (n : Nat), sh.todo = us.map some ++ List.replicate n none ∧
      (shares E.workers asking lane).length ≤ n := by
  unfold TodoInv at h
  cases hmain : sh.main with
  | collect got => rw [hmain] at h; exact h
  | joining got i => rw [hmain] at h; exact h
  | finished got => rw [hmain] at h; exact h
  | _ => rw [hmain] at hm; cases hm

theorem TodoInv.ofNormal (hm : sh.main.normal = true) (us : List Nat) (n : Nat)
    (htodo : sh.todo = us.map some ++ List.replicate n none)
    (hn : (shares E.workers asking lane).length ≤ n) : TodoInv E sh lane := by
  unfold TodoInv
  cases hmain : sh.main with
  | collect got => exact ⟨us, n, htodo, hn⟩
  | joining got i => exact ⟨us, n, htodo, hn⟩
  | finished got => exact ⟨us, n, htodo, hn⟩
  | _ => rw [hmain] at hm; cases hm

/-- The ends are behind the units. -/
theorem TodoInv.ends (h : TodoInv E sh lane) {rest : List (Option Nat)} (hrest : sh.todo = none :: rest) :
    ∀ x ∈ rest, x = none := by
  have hshape : ∃ (us : List Nat) (n : Nat), sh.todo = us.map some ++ List.replicate n none := by
    unfold TodoInv at h
    split at h
    · exact ⟨List.range _, 0, by rw [h.2, List.replicate_zero, List.append_nil]⟩
    · exact ⟨_, _, h⟩
    · obtain ⟨n, -, h⟩ := h
      exact ⟨_, _, h⟩
    · obtain ⟨us, n, h, -⟩ := h
      exact ⟨us, n, h⟩
    · obtain ⟨us, n, h, -⟩ := h
      exact ⟨us, n, h⟩
    · obtain ⟨us, n, h, -⟩ := h
      exact ⟨us, n, h⟩
    · exact ⟨[], 0, h⟩
  obtain ⟨us, n, htodo⟩ := hshape
  rw [hrest] at htodo
  intro x hx
  cases us with
  | cons u us => cases htodo
  | nil =>
    have hmem : x ∈ none :: rest := List.mem_cons_of_mem _ hx
    rw [htodo, List.map_nil, List.nil_append] at hmem
    exact List.eq_of_mem_replicate hmem

theorem asking_stays (hin : l'.reader.inLoop = true → l.reader.inLoop = true) :
    (asking l').length ≤ (asking l).length := by
  unfold asking
  by_cases h : l'.reader.inLoop = true
  · rw [if_pos h, if_pos (hin h)]
  · rw [if_neg h]
    exact Nat.zero_le _

theorem TodoInv.reader (h : TodoInv E sh lane) (hk : k < E.workers) (hg : GateInv k sh (lane k))
    (hstep : ReaderStep E k sh (lane k) sh' l') : TodoInv E sh' (Function.update lane k l') := by
  cases hstep with
  | noMore slot rest hr htodo =>
    have hm := hg.normal (by rw [hr]; exact List.cons_ne_nil _ _)
    obtain ⟨us, n, hus, hn⟩ := h.normal hm
    -- the end was this reader's
    obtain ⟨others, hbefore, hafter⟩ := shares_update asking lane hk
      { lane k with reader := .putDone }
    have hasked : asking (lane k) = [()] := by
      rw [asking, hr]
      rfl
    rw [hbefore.length_eq, hasked, List.length_append, List.length_singleton] at hn
    rw [htodo] at hus
    cases us with
    | cons u us => cases hus
    | nil =>
      cases n with
      | zero => cases hus
      | succ n =>
        refine TodoInv.ofNormal hm [] n (List.cons.inj hus).2 ?_
        rw [hafter.length_eq]
        change others.length ≤ n
        omega
  | takeTodo slot u rest hr htodo =>
    have hm := hg.normal (by rw [hr]; exact List.cons_ne_nil _ _)
    obtain ⟨us, n, hus, hn⟩ := h.normal hm
    rw [htodo] at hus
    cases us with
    | nil =>
      cases n with
      | zero => cases hus
      | succ n => cases hus
    | cons u' us =>
      have hsame : (shares E.workers asking (Function.update lane k
          { lane k with reader := .reading slot u 0 })).length ≤
          (shares E.workers asking lane).length := by
        obtain ⟨others, hbefore, hafter⟩ := shares_update asking lane hk
          { lane k with reader := .reading slot u 0 }
        have hask := @asking_stays (lane k) { lane k with reader := .reading slot u 0 }
          fun _ => by rw [hr]; rfl
        rw [hbefore.length_eq, hafter.length_eq, List.length_append, List.length_append]
        omega
      exact TodoInv.ofNormal hm us n (List.cons.inj hus).2 (hsame.trans hn)
  | start hr _ => exact h.keep hk rfl rfl (asking_stays fun _ => by rw [hr]; rfl)
  | goes hr _ => exact h.keep hk rfl rfl (asking_stays fun _ => by rw [hr]; rfl)
  | takeFree slot rest hr _ => exact h.keep hk rfl rfl (asking_stays fun _ => by rw [hr]; rfl)
  | goesOn slot hr _ => exact h.keep hk rfl rfl (asking_stays fun _ => by rw [hr]; rfl)
  | read slot u got r hr _ _ _ => exact h.keep hk rfl rfl (asking_stays fun _ => by rw [hr]; rfl)
  | readAll slot u got hr _ => exact h.keep hk rfl rfl (asking_stays fun _ => by rw [hr]; rfl)
  | putReady slot u hr => exact h.keep hk rfl rfl (asking_stays fun _ => by rw [hr]; rfl)
  | _ => exact h.keep hk rfl rfl (asking_stays nofun)

theorem TodoInv.worker (h : TodoInv E sh lane) (hk : k < E.workers)
    (hstep : WorkerStep E k sh (lane k) sh' l') : TodoInv E sh' (Function.update lane k l') := by
  cases hstep <;> exact h.keep hk rfl rfl (asking_stays id)

theorem TodoInv.main (h : TodoInv E sh lane) (hstep : MainStep E lane sh sh') : TodoInv E sh' lane := by
  unfold TodoInv at h
  cases hstep with
  | startThread hm _ =>
    rw [hm] at h
    unfold TodoInv
    rw [hm]
    exact h
  | started hm _ => rw [hm] at h; exact h
  | enter hm _ => rw [hm] at h; exact h
  | broken hm _ => rcases hm with hm | hm <;> (rw [hm] at h; exact h)
  | released hm _ => rw [hm] at h; exact ⟨Nat.zero_le _, h⟩
  | setStop hm => rw [hm] at h; exact h
  | setGo hm => rw [hm] at h; exact h
  | collectFailed got st rest hm _ _ => rw [hm] at h; exact h
  | raised got hm _ => rw [hm] at h; exact h
  | putUnit i hm hi =>
    rw [hm] at h
    refine ⟨hi, ?_⟩
    rw [h.2, List.range_succ, List.map_append]
    rfl
  | unitsPut i hm hi =>
    rw [hm] at h
    have hlen : i = E.units.length := Nat.le_antisymm h.1 hi
    rw [hlen] at h
    exact h.2.trans (List.append_nil _).symm
  | putDone i hm _ =>
    rw [hm] at h
    have hnext : (List.range E.units.length).map some ++ List.replicate i none ++ [none] =
        (List.range E.units.length).map some ++ List.replicate (i + 1) none := by
      rw [List.append_assoc, ← List.replicate_succ']
    exact (congrArg (· ++ [none]) h).trans hnext
  | donesPut i hm hi => rw [hm] at h; exact ⟨i, hi, h⟩
  | go hm =>
    rw [hm] at h
    obtain ⟨n, hn, htodo⟩ := h
    exact ⟨_, n, htodo, (length_shares_asking _ _).trans hn⟩
  | collect got st rest hm _ _ => rw [hm] at h; exact h
  | collected got hm _ => rw [hm] at h; exact h
  | join got i hm _ _ => rw [hm] at h; exact h
  | joined got i hm _ => rw [hm] at h; exact h

end

/-! ## The results -/

/-- A thread has ended, with or without an error. -/
def doneAs (l : Lane) : Role → Bool → Prop
  | .worker, error => l.worker = .done error
  | .reader, error => l.reader = .done error

/-- Every thread that has ended has reported once. Nobody reads the results after the start failed. -/
structure ResultsInv (E : Engine) (sh : Shared) (lane : Nat → Lane) : Prop where
  reported : sh.main ≠ .raised → ∀ st, st ∈ sh.main.got ++ sh.res ↔
    st.k < E.workers ∧ doneAs (lane st.k) st.role st.error
  once : sh.main ≠ .raised → ((sh.main.got ++ sh.res).map fun st => (st.role, st.k)).Nodup
  enough : ∀ got, (sh.main = .finished got ∨ ∃ i, sh.main = .joining got i) →
    2 * E.workers ≤ got.length
  joined : ∀ got i, sh.main = .joining got i → ∀ j, j < i → ended E lane j
  finished : ∀ got, sh.main = .finished got → ∀ j, j < 2 * E.workers → ended E lane j

/-- What a step of a thread does to the results. -/
inductive Reports (k : Nat) (sh sh' : Shared) (l l' : Lane) : Prop
  | no : sh'.res = sh.res → (∀ role error, doneAs l' role error ↔ doneAs l role error) →
      Reports k sh sh' l l'
  | yes (role : Role) (error : Bool) : sh'.res = sh.res ++ [⟨role, k, error⟩] →
      (∀ e, ¬doneAs l role e) →
      (∀ r e, doneAs l' r e ↔ doneAs l r e ∨ r = role ∧ e = error) → Reports k sh sh' l l'

section

variable {E : Engine} {k : Nat} {sh sh' : Shared} {l l' : Lane} {lane : Nat → Lane}

theorem ReaderStep.reports (hstep : ReaderStep E k sh l sh' l') : Reports k sh sh' l l' := by
  cases hstep with
  | report error hr =>
    refine .yes .reader error rfl (fun e h => ?_) fun r e => ?_
    · rw [doneAs, hr] at h
      cases h
    · cases r with
      | worker => simp [doneAs]
      | reader => simp [doneAs, hr, eq_comm]
  | _ =>
    refine .no rfl fun role e => ?_
    cases role with
    | worker => exact Iff.rfl
    | reader => simp_all [doneAs]

theorem WorkerStep.reports (hstep : WorkerStep E k sh l sh' l') : Reports k sh sh' l l' := by
  cases hstep with
  | report error hr =>
    refine .yes .worker error rfl (fun e h => ?_) fun r e => ?_
    · rw [doneAs, hr] at h
      cases h
    · cases r with
      | reader => simp [doneAs]
      | worker => simp [doneAs, hr, eq_comm]
  | broken hw _ =>
    refine .no rfl fun role e => ?_
    cases role with
    | reader => exact Iff.rfl
    | worker => rcases hw with hw | hw <;> simp [doneAs, hw]
  | _ =>
    refine .no rfl fun role e => ?_
    cases role with
    | reader => exact Iff.rfl
    | worker => simp_all [doneAs]

theorem ended_keep (hk : k < E.workers) (hd : ∀ role e, doneAs (lane k) role e → doneAs l' role e)
    {i : Nat} (h : ended E lane i) : ended E (Function.update lane k l') i := by
  unfold ended at h ⊢
  split at h
  · next hi =>
    rw [if_pos hi]
    obtain ⟨e, he⟩ := h
    by_cases hik : i = k
    · subst hik
      rw [Function.update_self]
      exact ⟨e, hd .worker e he⟩
    · rw [Function.update_of_ne hik]
      exact ⟨e, he⟩
  · next hi =>
    rw [if_neg hi]
    obtain ⟨e, he⟩ := h
    by_cases hik : i - E.workers = k
    · rw [hik] at he ⊢
      rw [Function.update_self]
      exact ⟨e, hd .reader e he⟩
    · rw [Function.update_of_ne hik]
      exact ⟨e, he⟩

theorem ResultsInv.thread (h : ResultsInv E sh lane) (hk : k < E.workers) (hmain : sh'.main = sh.main)
    (hr : Reports k sh sh' (lane k) l') : ResultsInv E sh' (Function.update lane k l') := by
  have hkeep : ∀ role e, doneAs (lane k) role e → doneAs l' role e := by
    intro role e hd
    cases hr with
    | no _ hiff => exact (hiff role e).mpr hd
    | yes _ _ _ _ hiff => exact (hiff role e).mpr (Or.inl hd)
  refine ⟨fun hm st => ?_, fun hm => ?_, ?_, ?_, ?_⟩
  · rw [hmain] at hm ⊢
    have hold := h.reported hm
    by_cases hst : st.k = k
    · subst hst
      rw [Function.update_self]
      cases hr with
      | no hres hiff => rw [hres, hold, hiff]
      | yes role error hres _ hiff =>
        rw [hres, ← List.append_assoc, List.mem_append, hold, hiff, List.mem_singleton, and_or_left]
        constructor
        · rintro (hleft | heq)
          · exact Or.inl hleft
          · refine Or.inr ⟨hk, ?_, ?_⟩ <;> rw [heq]
        · rintro (hleft | ⟨-, hrole, herr⟩)
          · exact Or.inl hleft
          · right
            cases st
            simp_all
    · rw [Function.update_of_ne hst]
      cases hr with
      | no hres _ => rw [hres, hold]
      | yes role error hres _ _ =>
        rw [hres, ← List.append_assoc, List.mem_append, hold, List.mem_singleton]
        constructor
        · rintro (hleft | heq)
          · exact hleft
          · exact absurd (by rw [heq]) hst
        · exact Or.inl
  · rw [hmain] at hm ⊢
    have honce := h.once hm
    cases hr with
    | no hres _ => rwa [hres]
    | yes role error hres hfresh _ =>
      rw [hres, ← List.append_assoc, List.map_append, List.nodup_append]
      refine ⟨honce, List.nodup_singleton _, ?_⟩
      rintro a ha b hb rfl
      obtain ⟨st, hmem, hst⟩ := List.mem_map.mp ha
      rw [List.map_singleton, List.mem_singleton] at hb
      rw [hb] at hst
      obtain ⟨hrole, hkey⟩ := Prod.mk.inj hst
      have hdone := ((h.reported hm st).mp hmem).2
      rw [hrole, hkey] at hdone
      exact hfresh _ hdone
  · rw [hmain]
    exact h.enough
  · rw [hmain]
    exact fun got i hm j hj => ended_keep hk hkeep (h.joined got i hm j hj)
  · rw [hmain]
    exact fun got hm j hj => ended_keep hk hkeep (h.finished got hm j hj)

/-- The main thread only takes results, in their order. -/
theorem ResultsInv.takes {m : MainPc} {res : List Stats} (h : ResultsInv E sh lane)
    (hall : m ≠ .raised → sh.main ≠ .raised ∧ m.got ++ res = sh.main.got ++ sh.res)
    (hm : sh'.main = m) (hres : sh'.res = res)
    (henough : ∀ got, (m = .finished got ∨ ∃ i, m = .joining got i) → 2 * E.workers ≤ got.length)
    (hjoined : ∀ got i, m = .joining got i → ∀ j, j < i → ended E lane j)
    (hfinished : ∀ got, m = .finished got → ∀ j, j < 2 * E.workers → ended E lane j) :
    ResultsInv E sh' lane := by
  subst hm hres
  refine ⟨fun hm => ?_, fun hm => ?_, henough, hjoined, hfinished⟩
  · obtain ⟨hm', heq⟩ := hall hm
    rw [heq]
    exact h.reported hm'
  · obtain ⟨hm', heq⟩ := hall hm
    rw [heq]
    exact h.once hm'

theorem ResultsInv.main (h : ResultsInv E sh lane) (hstep : MainStep E lane sh sh') :
    ResultsInv E sh' lane := by
  cases hstep with
  | startThread hm _ =>
    refine h.takes (fun _ => ⟨by rw [hm]; nofun, rfl⟩) rfl rfl ?_ ?_ ?_
    · exact h.enough
    · exact h.joined
    · exact h.finished
  | started hm _ =>
    exact h.takes (fun _ => ⟨by rw [hm]; nofun, by rw [hm]; rfl⟩) rfl rfl nofun nofun nofun
  | enter hm _ =>
    exact h.takes (fun _ => ⟨by rw [hm]; nofun, by rw [hm]; rfl⟩) rfl rfl nofun nofun nofun
  | broken hm _ =>
    rcases hm with hm | hm <;>
      exact h.takes (fun _ => ⟨by rw [hm]; nofun, by rw [hm]; rfl⟩) rfl rfl nofun nofun nofun
  | released hm _ =>
    exact h.takes (fun _ => ⟨by rw [hm]; nofun, by rw [hm]; rfl⟩) rfl rfl nofun nofun nofun
  | setStop hm =>
    exact h.takes (fun _ => ⟨by rw [hm]; nofun, by rw [hm]; rfl⟩) rfl rfl nofun nofun nofun
  | setGo hm =>
    exact h.takes (fun _ => ⟨by rw [hm]; nofun, by rw [hm]; rfl⟩) rfl rfl nofun nofun nofun
  | collectFailed got st rest hm _ hres =>
    refine h.takes (fun _ => ⟨by rw [hm]; nofun, ?_⟩) rfl rfl nofun nofun nofun
    rw [hm, hres]
    exact List.append_assoc got [st] rest
  | raised got hm _ => exact h.takes (fun hne => absurd rfl hne) rfl rfl nofun nofun nofun
  | putUnit i hm _ =>
    exact h.takes (fun _ => ⟨by rw [hm]; nofun, by rw [hm]; rfl⟩) rfl rfl nofun nofun nofun
  | unitsPut i hm _ =>
    exact h.takes (fun _ => ⟨by rw [hm]; nofun, by rw [hm]; rfl⟩) rfl rfl nofun nofun nofun
  | putDone i hm _ =>
    exact h.takes (fun _ => ⟨by rw [hm]; nofun, by rw [hm]; rfl⟩) rfl rfl nofun nofun nofun
  | donesPut i hm _ =>
    exact h.takes (fun _ => ⟨by rw [hm]; nofun, by rw [hm]; rfl⟩) rfl rfl nofun nofun nofun
  | go hm => exact h.takes (fun _ => ⟨by rw [hm]; nofun, by rw [hm]; rfl⟩) rfl rfl nofun nofun nofun
  | collect got st rest hm _ hres =>
    refine h.takes (fun _ => ⟨by rw [hm]; nofun, ?_⟩) rfl rfl nofun nofun nofun
    rw [hm, hres]
    exact List.append_assoc got [st] rest
  | collected got hm hlen =>
    refine h.takes (fun _ => ⟨by rw [hm]; nofun, by rw [hm]; rfl⟩) rfl rfl ?_ ?_ nofun
    · rintro got' (hf | ⟨i, hf⟩)
      · cases hf
      · obtain ⟨rfl, -⟩ := MainPc.joining.inj hf
        exact hlen
    · intro got' i hf j hj
      obtain ⟨-, rfl⟩ := MainPc.joining.inj hf
      exact absurd hj (Nat.not_lt_zero j)
  | join got i hm hi hended =>
    refine h.takes (fun _ => ⟨by rw [hm]; nofun, by rw [hm]; rfl⟩) rfl rfl ?_ ?_ nofun
    · rintro got' (hf | ⟨i', hf⟩)
      · cases hf
      · obtain ⟨rfl, -⟩ := MainPc.joining.inj hf
        exact h.enough got (Or.inr ⟨i, hm⟩)
    · intro got' i' hf j hj
      obtain ⟨-, rfl⟩ := MainPc.joining.inj hf
      rcases Nat.eq_or_lt_of_le (Nat.le_of_lt_succ hj) with rfl | hlt
      · exact hended
      · exact h.joined got i hm j hlt
  | joined got i hm hi =>
    refine h.takes (fun _ => ⟨by rw [hm]; nofun, by rw [hm]; rfl⟩) rfl rfl ?_ nofun ?_
    · rintro got' (hf | ⟨i', hf⟩)
      · obtain rfl := MainPc.finished.inj hf
        exact h.enough got (Or.inr ⟨i, hm⟩)
      · cases hf
    · intro got' _ j hj
      exact h.joined got i hm j (by omega)

end

end Bslz4ToSparse.Conveyor
