import Bslz4ToSparse.Conveyor.EngineRun

/-!
# Where the units are

As long as nobody has failed, every unit is to be put, in the queue, with one of the workers
and its reader, or decoded; and the decoder was called for every batch of a decoded unit,
with the bytes of the unit.
-/

namespace Bslz4ToSparse.Conveyor

open Foundation
open Lz4 (Byte)

def ReaderPc.failed : ReaderPc → Bool
  | setStop | putDoneFailed | report true | done true => true
  | _ => false

def WorkerPc.failed : WorkerPc → Bool
  | setStop | abort | wakeFailed _ | report true | done true => true
  | _ => false

/-- One of the two had an exception. -/
def Lane.failed (l : Lane) : Bool := l.reader.failed || l.worker.failed

/-- Nobody has failed so far, and nobody has to stop. -/
def Clean (E : Engine) (sh : Shared) (lane : Nat → Lane) : Prop :=
  sh.stop = false ∧ ∀ k, k < E.workers → (lane k).failed = false

/-- The batches of a unit. -/
def batches (E : Engine) (u : Nat) : Nat := ((E.job u).n + E.batch - 1) / E.batch

/-- The call of the decoder for batch `j` of unit `u`, with the bytes of the unit. -/
def call (E : Engine) (u j : Nat) : Decoded := ⟨u, j * E.batch, (E.job u).content⟩

/-- The calls for the first `n` batches. -/
def calls (E : Engine) (u n : Nat) : List Decoded := (List.range n).map (call E u)

def ReaderPc.units : ReaderPc → List Nat
  | reading _ u _ | putReady _ u => [u]
  | _ => []

def WorkerPc.units : WorkerPc → List Nat
  | gotItem (some (_, u)) | decoding _ u _ | writing _ u _ => [u]
  | _ => []

def readyUnits (ready : List (Option (Nat × Nat))) : List Nat :=
  ready.filterMap (Option.map Prod.snd)

/-- The units a worker and its reader have. -/
def Lane.units (l : Lane) : List Nat := l.reader.units ++ (readyUnits l.ready ++ l.worker.units)

/-- The unit that is being decoded, and how many of its batches were. -/
def WorkerPc.begun : WorkerPc → Option (Nat × Nat)
  | decoding _ u j => some (u, j)
  | writing _ u j => some (u, j + 1)
  | _ => none

/-- The calls for the unit that is being decoded. -/
def Lane.calls (E : Engine) (l : Lane) : List Decoded :=
  match l.worker.begun with
  | some (u, n) => Conveyor.calls E u n
  | none => []

/-- The units in the queue. -/
def queued (todo : List (Option Nat)) : List Nat := todo.filterMap id

/-- The units that are still to be put. -/
def MainPc.pending (n : Nat) : MainPc → List Nat
  | starting | barrier | inBarrier | setStop => List.range n
  | putUnits i => List.range' i (n - i)
  | _ => []

/-- Where the units are, and which calls were made. -/
structure Accounts (E : Engine) (sh : Shared) (lane : Nat → Lane) : Prop where
  units : ∃ decoded : List Nat,
    (decoded ++ (queued sh.todo ++ sh.main.pending E.units.length) ++
      shares E.workers Lane.units lane).Perm (List.range E.units.length) ∧
    sh.log.Perm (decoded.flatMap (fun u => calls E u (batches E u)) ++
      shares E.workers (Lane.calls E) lane)
  batch : ∀ k, k < E.workers → ∀ u n, (lane k).worker.begun = some (u, n) → n ≤ batches E u

section

variable {E : Engine} {k : Nat} {sh sh' : Shared} {l l' : Lane} {lane : Nat → Lane}

/-! ## Failures -/

theorem ReaderStep.failed (hstep : ReaderStep E k sh l sh' l') (h : l'.failed = false) :
    l.failed = false := by
  unfold Lane.failed at h ⊢
  cases hstep with
  | report error hr =>
    rw [hr]
    cases error <;> exact h
  | setStop hr => cases h
  | putDoneFailed hr => cases h
  | start hr _ => rw [hr]; exact h
  | goes hr _ => rw [hr]; exact h
  | takeFree slot rest hr _ => rw [hr]; exact h
  | stopped slot hr _ => rw [hr]; exact h
  | goesOn slot hr _ => rw [hr]; exact h
  | noMore slot rest hr _ => rw [hr]; exact h
  | takeTodo slot u rest hr _ => rw [hr]; exact h
  | read slot u got r hr _ _ _ => rw [hr]; exact h
  | readAll slot u got hr _ => rw [hr]; exact h
  | putReady slot u hr => rw [hr]; exact h
  | putDone hr => rw [hr]; exact h

theorem WorkerStep.failed (hstep : WorkerStep E k sh l sh' l') (h : l'.failed = false) :
    l.failed = false := by
  unfold Lane.failed at h ⊢
  rw [Bool.or_eq_false_iff] at h ⊢
  refine ⟨?_, ?_⟩
  · cases hstep <;> exact h.1
  · obtain ⟨-, h⟩ := h
    cases hstep with
    | report error hw => rw [hw]; cases error <;> exact h
    | broken hw _ => cases h
    | setStop hw => cases h
    | abort hw => cases h
    | wakeFailed i hw _ => cases h
    | wokenFailed i hw _ => cases h
    | start hw _ => rw [hw]; rfl
    | prepare hw => rw [hw]; rfl
    | putSlot i hw _ => rw [hw]; rfl
    | slotsPut i hw _ => rw [hw]; rfl
    | enter hw _ => rw [hw]; rfl
    | released hw _ => rw [hw]; rfl
    | goes hw _ => rw [hw]; rfl
    | takeReady item rest hw _ => rw [hw]; rfl
    | leaves item hw _ => rw [hw]; rfl
    | goesOn slot u hw _ => rw [hw]; rfl
    | decode slot u j hw _ => rw [hw]; rfl
    | wrote slot u j hw => rw [hw]; rfl
    | decoded slot u j hw _ => rw [hw]; rfl
    | putFree slot hw => rw [hw]; rfl
    | wake i hw _ => rw [hw]; rfl
    | woken i hw _ => rw [hw]; rfl
    | sinkEnd hw => rw [hw]; rfl

/-- Clean before, when clean after. -/
theorem Clean.before (h : Clean E sh' (Function.update lane k l')) (hk : k < E.workers)
    (hstop : sh.stop = true → sh'.stop = true)
    (hfailed : l'.failed = false → (lane k).failed = false) : Clean E sh lane := by
  refine ⟨?_, fun j hj => ?_⟩
  · by_contra hs
    have hs' := h.1
    rw [hstop (by simpa using hs)] at hs'
    cases hs'
  · have hall := h.2
    by_cases hjk : j = k
    · subst hjk
      apply hfailed
      have hself := hall j hj
      rwa [Function.update_self] at hself
    · have hother := hall j hj
      rwa [Function.update_of_ne hjk] at hother

/-- `stop` was set for a reason. -/
def CauseInv (E : Engine) (sh : Shared) (lane : Nat → Lane) : Prop :=
  sh.stop = true → sh.main.gaveUp = true ∨ ∃ k, k < E.workers ∧ (lane k).failed = true

theorem CauseInv.thread (h : CauseInv E sh lane) (hk : k < E.workers) (hmain : sh'.main = sh.main)
    (hstop : sh'.stop = true → sh.stop = true ∨ l'.failed = true)
    (hfailed : l'.failed = false → (lane k).failed = false) :
    CauseInv E sh' (Function.update lane k l') := by
  intro hs
  rw [hmain]
  have hself : (Function.update lane k l' k).failed = l'.failed := by rw [Function.update_self]
  rcases hstop hs with hold | hnew
  · rcases h hold with hg | ⟨j, hj, hfail⟩
    · exact Or.inl hg
    · by_cases hjk : j = k
      · subst hjk
        refine Or.inr ⟨j, hj, ?_⟩
        rw [hself]
        by_contra hl
        rw [hfailed (by simpa using hl)] at hfail
        cases hfail
      · refine Or.inr ⟨j, hj, ?_⟩
        rwa [Function.update_of_ne hjk]
  · exact Or.inr ⟨k, hk, hself.trans hnew⟩

theorem CauseInv.reader (h : CauseInv E sh lane) (hk : k < E.workers)
    (hstep : ReaderStep E k sh (lane k) sh' l') : CauseInv E sh' (Function.update lane k l') := by
  have hf := hstep.failed
  cases hstep with
  | setStop hr => exact h.thread hk rfl (fun _ => Or.inr rfl) hf
  | _ => exact h.thread hk rfl Or.inl hf

theorem CauseInv.worker (h : CauseInv E sh lane) (hk : k < E.workers)
    (hstep : WorkerStep E k sh (lane k) sh' l') : CauseInv E sh' (Function.update lane k l') := by
  have hf := hstep.failed
  cases hstep with
  | setStop hr =>
    refine h.thread hk rfl (fun _ => Or.inr ?_) hf
    exact Bool.or_true _
  | _ => exact h.thread hk rfl Or.inl hf

theorem CauseInv.main (h : CauseInv E sh lane) (hstep : MainStep E lane sh sh') :
    CauseInv E sh' lane := by
  intro hs
  have hold : sh.main.gaveUp = false → sh.stop = true →
      ∃ k, k < E.workers ∧ (lane k).failed = true := by
    intro hg hs
    rcases h hs with hg' | hf
    · rw [hg] at hg'
      cases hg'
    · exact hf
  cases hstep with
  | setStop hm => exact Or.inl rfl
  | setGo hm => exact Or.inl rfl
  | collectFailed got st rest hm _ _ => exact Or.inl rfl
  | raised got hm _ => exact Or.inl rfl
  | startThread hm _ => exact h hs
  | broken hm _ => exact Or.inr (hold (by rcases hm with hm | hm <;> (rw [hm]; rfl)) hs)
  | started hm _ => exact Or.inr (hold (by rw [hm]; rfl) hs)
  | enter hm _ => exact Or.inr (hold (by rw [hm]; rfl) hs)
  | released hm _ => exact Or.inr (hold (by rw [hm]; rfl) hs)
  | putUnit i hm _ => exact Or.inr (hold (by rw [hm]; rfl) hs)
  | unitsPut i hm _ => exact Or.inr (hold (by rw [hm]; rfl) hs)
  | putDone i hm _ => exact Or.inr (hold (by rw [hm]; rfl) hs)
  | donesPut i hm _ => exact Or.inr (hold (by rw [hm]; rfl) hs)
  | go hm => exact Or.inr (hold (by rw [hm]; rfl) hs)
  | collect got st rest hm _ _ => exact Or.inr (hold (by rw [hm]; rfl) hs)
  | collected got hm _ => exact Or.inr (hold (by rw [hm]; rfl) hs)
  | join got i hm _ _ => exact Or.inr (hold (by rw [hm]; rfl) hs)
  | joined got i hm _ => exact Or.inr (hold (by rw [hm]; rfl) hs)

/-! ## Units and calls -/

/-- A thread moves units, ends some, and makes some calls. -/
theorem Accounts.thread (h : Accounts E sh lane) (hk : k < E.workers) (hmain : sh'.main = sh.main)
    (ended : List Nat) (new : List Decoded)
    (hunits : (ended ++ (queued sh'.todo ++ l'.units)).Perm (queued sh.todo ++ (lane k).units))
    (hlog : sh'.log = sh.log ++ new)
    (hcalls : (new ++ Lane.calls E (lane k)).Perm
      (ended.flatMap (fun u => calls E u (batches E u)) ++ Lane.calls E l'))
    (hbatch : ∀ u n, l'.worker.begun = some (u, n) → n ≤ batches E u) :
    Accounts E sh' (Function.update lane k l') := by
  obtain ⟨decoded, hall, hmade⟩ := h.units
  refine ⟨⟨decoded ++ ended, ?_, ?_⟩, fun j hj u n hw => ?_⟩
  · obtain ⟨rest, hbefore, hafter⟩ := shares_update Lane.units lane hk l'
    rw [hmain]
    refine List.Perm.trans ?_ hall
    apply List.perm_iff_count.mpr
    intro x
    have hu := hunits.count_eq x
    have hb := hbefore.count_eq x
    have ha := hafter.count_eq x
    simp only [List.count_append] at hu hb ha ⊢
    omega
  · obtain ⟨rest, hbefore, hafter⟩ := shares_update (Lane.calls E) lane hk l'
    rw [hlog, List.flatMap_append]
    apply List.perm_iff_count.mpr
    intro x
    have hm := hmade.count_eq x
    have hc := hcalls.count_eq x
    have hb := hbefore.count_eq x
    have ha := hafter.count_eq x
    simp only [List.count_append] at hm hc hb ha ⊢
    omega
  · by_cases hjk : j = k
    · subst hjk
      rw [Function.update_self] at hw
      exact hbatch u n hw
    · rw [Function.update_of_ne hjk] at hw
      exact h.batch j hj u n hw

/-- A step that only hands over, or does nothing with units. -/
theorem Accounts.moves (h : Accounts E sh lane) (hk : k < E.workers) (hmain : sh'.main = sh.main)
    (hlog : sh'.log = sh.log) (hunits : queued sh'.todo ++ l'.units = queued sh.todo ++ (lane k).units)
    (hcalls : Lane.calls E l' = Lane.calls E (lane k))
    (hbatch : ∀ u n, l'.worker.begun = some (u, n) → n ≤ batches E u) :
    Accounts E sh' (Function.update lane k l') := by
  apply h.thread hk hmain [] []
  · rw [List.nil_append, hunits]
  · rw [hlog, List.append_nil]
  · rw [hcalls]
    exact List.Perm.refl _
  · exact hbatch

theorem Accounts.reader (h : Accounts E sh lane) (hk : k < E.workers)
    (hstep : ReaderStep E k sh (lane k) sh' l') (hclean : Clean E sh' (Function.update lane k l')) :
    Accounts E sh' (Function.update lane k l') := by
  have hb := h.batch k hk
  cases hstep with
  | start hr _ => exact h.moves hk rfl rfl (by unfold Lane.units; rw [hr]; rfl) rfl hb
  | goes hr _ => exact h.moves hk rfl rfl (by unfold Lane.units; rw [hr]; rfl) rfl hb
  | takeFree slot rest hr _ => exact h.moves hk rfl rfl (by unfold Lane.units; rw [hr]; rfl) rfl hb
  | stopped slot hr _ => exact h.moves hk rfl rfl (by unfold Lane.units; rw [hr]; rfl) rfl hb
  | goesOn slot hr _ => exact h.moves hk rfl rfl (by unfold Lane.units; rw [hr]; rfl) rfl hb
  | noMore slot rest hr htodo =>
    exact h.moves hk rfl rfl (by unfold Lane.units queued; rw [hr, htodo]; rfl) rfl hb
  | takeTodo slot u rest hr htodo =>
    refine h.thread hk ?_ [] [] ?_ ?_ ?_ ?_
    · rfl
    · unfold Lane.units queued
      rw [hr, htodo]
      exact List.perm_middle
    · exact (List.append_nil _).symm
    · exact List.Perm.refl _
    · exact hb
  | read slot u got r hr _ _ _ => exact h.moves hk rfl rfl (by unfold Lane.units; rw [hr]; rfl) rfl hb
  | readAll slot u got hr _ => exact h.moves hk rfl rfl (by unfold Lane.units; rw [hr]; rfl) rfl hb
  | putReady slot u hr =>
    apply h.thread hk rfl [] []
    · apply List.perm_iff_count.mpr
      intro x
      simp [Lane.units, readyUnits, hr, ReaderPc.units, List.count_cons]
      omega
    · exact (List.append_nil _).symm
    · exact List.Perm.refl _
    · exact hb
  | putDone hr =>
    exact h.moves hk rfl rfl (by simp [Lane.units, readyUnits, hr, ReaderPc.units]) rfl hb
  | setStop hr => cases hclean.1
  | putDoneFailed hr =>
    have hf := hclean.2 k hk
    rw [Function.update_self] at hf
    cases hf
  | report error hr => exact h.moves hk rfl rfl (by unfold Lane.units; rw [hr]; rfl) rfl hb

/-- A decoded unit had all its bytes in the slot. -/
theorem slotData_eq {buf : Nat → Byte} {slot u : Nat} (h : Loaded E buf slot u (E.job u).span) :
    slotData E buf slot u = (E.job u).content := by
  unfold slotData
  refine List.ext_getElem ?_ fun i h₁ h₂ => ?_
  · rw [List.length_map, List.length_range]
    rfl
  · rw [List.getElem_map, List.getElem_range, h i h₂, List.getD_eq_getElem _ _ h₂]

theorem batches_spec (E : Engine) (u j : Nat) : j < batches E u ↔ j * E.batch < (E.job u).n := by
  have hpos := E.batch_pos
  unfold batches
  rw [← Nat.succ_le_iff, Nat.le_div_iff_mul_le hpos, Nat.succ_mul]
  omega

theorem Accounts.worker (h : Accounts E sh lane) (hk : k < E.workers)
    (hbytes : (lane k).worker.inLoop = true → BytesInv E sh.buf (lane k))
    (hstep : WorkerStep E k sh (lane k) sh' l') (hclean : Clean E sh' (Function.update lane k l')) :
    Accounts E sh' (Function.update lane k l') := by
  have hfails : ∀ w, w.failed = true → l'.worker = w → False := by
    intro w hw hl
    have hf := hclean.2 k hk
    rw [Function.update_self, Lane.failed, hl, hw, Bool.or_true] at hf
    cases hf
  cases hstep with
  | start hw _ =>
    exact h.moves hk rfl rfl (by unfold Lane.units; rw [hw]; rfl) (by unfold Lane.calls; rw [hw]; rfl) nofun
  | prepare hw =>
    exact h.moves hk rfl rfl (by unfold Lane.units; rw [hw]; rfl) (by unfold Lane.calls; rw [hw]; rfl) nofun
  | putSlot i hw _ =>
    exact h.moves hk rfl rfl (by unfold Lane.units; rw [hw]; rfl) (by unfold Lane.calls; rw [hw]; rfl) nofun
  | slotsPut i hw _ =>
    exact h.moves hk rfl rfl (by unfold Lane.units; rw [hw]; rfl) (by unfold Lane.calls; rw [hw]; rfl) nofun
  | enter hw _ =>
    exact h.moves hk rfl rfl (by unfold Lane.units; rw [hw]; rfl) (by unfold Lane.calls; rw [hw]; rfl) nofun
  | broken hw _ => exact (hfails _ rfl rfl).elim
  | released hw _ =>
    exact h.moves hk rfl rfl (by unfold Lane.units; rw [hw]; rfl) (by unfold Lane.calls; rw [hw]; rfl) nofun
  | goes hw _ =>
    exact h.moves hk rfl rfl (by unfold Lane.units; rw [hw]; rfl) (by unfold Lane.calls; rw [hw]; rfl) nofun
  | takeReady item rest hw hready =>
    cases item with
    | none =>
      refine h.moves hk rfl rfl ?_ (by unfold Lane.calls; rw [hw]; rfl) nofun
      unfold Lane.units
      rw [hw, hready]
      rfl
    | some item =>
      obtain ⟨slot, u⟩ := item
      apply h.thread hk rfl [] []
      · apply List.perm_iff_count.mpr
        intro x
        simp [Lane.units, readyUnits, hready, hw, WorkerPc.units, List.count_cons]
      · exact (List.append_nil _).symm
      · unfold Lane.calls
        rw [hw]
        exact List.Perm.refl _
      · nofun
  | leaves item hw hor =>
    rcases hor with rfl | hs
    · exact h.moves hk rfl rfl (by unfold Lane.units; rw [hw]; rfl) (by unfold Lane.calls; rw [hw]; rfl)
        nofun
    · have hs' := hclean.1
      rw [hs] at hs'
      cases hs'
  | goesOn slot u hw _ =>
    refine h.moves hk rfl rfl (by unfold Lane.units; rw [hw]; rfl) (by unfold Lane.calls; rw [hw]; rfl)
      fun v n hn => ?_
    obtain ⟨rfl, rfl⟩ := Prod.mk.inj (Option.some.inj hn)
    exact Nat.zero_le _
  | decode slot u j hw hj =>
    have hload := (hbytes (by rw [hw]; rfl)).got slot u (by rw [hw]; rfl)
    refine h.thread hk ?_ [] [call E u j] ?_ ?_ ?_ ?_
    · rfl
    · unfold Lane.units
      rw [hw]
      exact List.Perm.refl _
    · rw [call, ← slotData_eq hload]
    · unfold Lane.calls calls
      rw [hw]
      dsimp only [WorkerPc.begun]
      rw [List.range_succ, List.map_append]
      exact List.perm_append_comm
    · intro v n hn
      obtain ⟨rfl, rfl⟩ := Prod.mk.inj (Option.some.inj hn)
      exact (batches_spec E u j).mpr hj
  | wrote slot u j hw =>
    refine h.moves hk rfl rfl (by unfold Lane.units; rw [hw]; rfl) (by unfold Lane.calls; rw [hw]; rfl)
      fun v n hn => h.batch k hk v n ?_
    rw [hw]
    exact hn
  | decoded slot u j hw hj =>
    have hle := h.batch k hk u j (by rw [hw]; rfl)
    have hge : batches E u ≤ j := by
      by_contra hlt
      exact absurd ((batches_spec E u j).mp (by omega)) (by omega)
    apply h.thread hk rfl [u] []
    · apply List.perm_iff_count.mpr
      intro x
      simp [Lane.units, hw, WorkerPc.units, List.count_cons]
      omega
    · exact (List.append_nil _).symm
    · unfold Lane.calls
      rw [hw, Nat.le_antisymm hle hge]
      simp [WorkerPc.begun]
    · nofun
  | putFree slot hw =>
    exact h.moves hk rfl rfl (by unfold Lane.units; rw [hw]; rfl) (by unfold Lane.calls; rw [hw]; rfl) nofun
  | wake i hw _ =>
    exact h.moves hk rfl rfl (by unfold Lane.units; rw [hw]; rfl) (by unfold Lane.calls; rw [hw]; rfl) nofun
  | woken i hw _ =>
    exact h.moves hk rfl rfl (by unfold Lane.units; rw [hw]; rfl) (by unfold Lane.calls; rw [hw]; rfl) nofun
  | sinkEnd hw =>
    exact h.moves hk rfl rfl (by unfold Lane.units; rw [hw]; rfl) (by unfold Lane.calls; rw [hw]; rfl) nofun
  | setStop hw => cases hclean.1
  | abort hw => exact (hfails _ rfl rfl).elim
  | wakeFailed i hw _ => exact (hfails _ rfl rfl).elim
  | wokenFailed i hw _ => exact (hfails _ rfl rfl).elim
  | report error hw =>
    exact h.moves hk rfl rfl (by unfold Lane.units; rw [hw]; rfl) (by unfold Lane.calls; rw [hw]; rfl) nofun

/-- The main thread moves units to the queue only. -/
theorem Accounts.keep (h : Accounts E sh lane) (hlog : sh'.log = sh.log)
    (hunits : queued sh'.todo ++ sh'.main.pending E.units.length =
      queued sh.todo ++ sh.main.pending E.units.length) : Accounts E sh' lane := by
  obtain ⟨decoded, hall, hmade⟩ := h.units
  refine ⟨⟨decoded, ?_, ?_⟩, h.batch⟩
  · rw [hunits]
    exact hall
  · rw [hlog]
    exact hmade

theorem Accounts.main (h : Accounts E sh lane) (hstep : MainStep E lane sh sh')
    (hstop : sh'.stop = false) (hgave : sh.main.gaveUp = true → sh.stop = true) :
    Accounts E sh' lane := by
  have hgo : sh.stop = false → sh.main.gaveUp = true → False := by
    intro hs hg
    rw [hgave hg] at hs
    cases hs
  cases hstep with
  | setStop hm => cases hstop
  | setGo hm => exact (hgo hstop (by rw [hm]; rfl)).elim
  | collectFailed got st rest hm _ _ => exact (hgo hstop (by rw [hm]; rfl)).elim
  | raised got hm _ => exact (hgo hstop (by rw [hm]; rfl)).elim
  | putUnit i hm hi =>
    refine h.keep rfl ?_
    obtain ⟨m, hn⟩ : ∃ m, E.units.length - i = m + 1 := ⟨E.units.length - i - 1, by omega⟩
    have hrest : E.units.length - (i + 1) = m := by omega
    simp only [hm, MainPc.pending, hn, hrest, List.range'_succ, queued, List.filterMap_append]
    exact List.append_assoc _ _ _
  | unitsPut i hm hi =>
    refine h.keep rfl ?_
    have hnone : E.units.length - i = 0 := by omega
    simp only [hm, MainPc.pending, hnone, List.range'_zero]
  | putDone i hm _ =>
    refine h.keep rfl ?_
    simp only [hm, MainPc.pending, queued, List.filterMap_append]
    exact List.append_assoc _ _ _
  | released hm _ =>
    refine h.keep rfl ?_
    simp only [hm, MainPc.pending, Nat.sub_zero, List.range_eq_range']
  | broken hm _ => rcases hm with hm | hm <;> exact h.keep rfl (by rw [hm]; rfl)
  | startThread hm _ => exact h.keep rfl rfl
  | started hm _ => exact h.keep rfl (by rw [hm]; rfl)
  | enter hm _ => exact h.keep rfl (by rw [hm]; rfl)
  | donesPut i hm _ => exact h.keep rfl (by rw [hm]; rfl)
  | go hm => exact h.keep rfl (by rw [hm]; rfl)
  | collect got st rest hm _ _ => exact h.keep rfl (by rw [hm]; rfl)
  | collected got hm _ => exact h.keep rfl (by rw [hm]; rfl)
  | join got i hm _ _ => exact h.keep rfl (by rw [hm]; rfl)
  | joined got i hm _ => exact h.keep rfl (by rw [hm]; rfl)

end

end Bslz4ToSparse.Conveyor
