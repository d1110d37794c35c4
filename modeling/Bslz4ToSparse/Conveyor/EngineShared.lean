import Bslz4ToSparse.Conveyor.EngineLane
import Mathlib.Data.List.Nodup

/-!
# A worker and what all share

The events and the barrier only ever move one way, and nobody else writes to the slots of a
worker. So what a worker and its reader have seen of them stays true.
-/

namespace Bslz4ToSparse.Conveyor

open Lz4 (Byte)

/-- `run` has put every unit, one end for every reader, and has set `go`. -/
def MainPc.normal : MainPc → Bool
  | collect _ | joining _ _ | finished _ => true
  | _ => false

/-- The reader has passed `go.wait()`. -/
def ReaderPc.going : ReaderPc → Bool
  | takeFree | gotSlot _ | takeTodo _ | reading _ _ _ | putReady _ _ => true
  | _ => false

/-- The reader left its loop without an exception. -/
def ReaderPc.gone : ReaderPc → Bool
  | putDone | report false | done false => true
  | _ => false

/-- The barrier no longer fills. -/
def WorkerPc.passed : WorkerPc → Bool
  | waitGo | takeReady | gotItem _ | decoding _ _ _ | writing _ _ _ | putFree _ | wake _ | sinkEnd
  | wakeFailed _ | report _ | done _ => true
  | _ => false

/-- Every unit was taken. -/
def Drained (sh : Shared) : Prop := sh.main.normal = true ∧ ∀ x ∈ sh.todo, x = none

/-- What a worker and its reader have seen. -/
structure GateInv (k : Nat) (sh : Shared) (l : Lane) : Prop where
  go : l.reader.going = true → sh.go = true
  normal : l.reader.slots ≠ [] → sh.main.normal = true
  drained : l.reader.gone = true → sh.stop = true ∨ Drained sh
  passed : l.worker.passed = true → sh.barrier.phase ≠ .filling
  waits : l.worker = .inBarrier → sh.barrier.phase = .filling → some k ∈ sh.barrier.arrived

/-- What all share moves one way; `k` stays in the barrier. -/
structure Grows (k : Nat) (sh sh' : Shared) : Prop where
  stop : sh.stop = true → sh'.stop = true
  go : sh.go = true → sh'.go = true
  normal : sh.main.normal = true → sh'.main.normal = true
  todo : sh.main.normal = true → ∀ x ∈ sh'.todo, x ∈ sh.todo
  phase : sh'.barrier.phase = .filling → sh.barrier.phase = .filling
  arrived : some k ∈ sh.barrier.arrived → some k ∈ sh'.barrier.arrived

section

variable {E : Engine} {k j : Nat} {sh sh' : Shared} {l l' : Lane} {lane : Nat → Lane}

theorem Grows.refl (k : Nat) (sh : Shared) : Grows k sh sh :=
  ⟨id, id, id, fun _ _ => id, id, id⟩

theorem ReaderStep.grows (hstep : ReaderStep E k sh l sh' l') (j : Nat) : Grows j sh sh' := by
  have htail : ∀ {x : Option Nat} {rest : List (Option Nat)}, sh.todo = x :: rest →
      ∀ y ∈ rest, y ∈ sh.todo := by
    intro x rest h y hy
    rw [h]
    exact List.mem_cons_of_mem x hy
  cases hstep with
  | noMore slot rest _ h => exact { Grows.refl j sh with todo := fun _ => htail h }
  | takeTodo slot u rest _ h => exact { Grows.refl j sh with todo := fun _ => htail h }
  | setStop _ => exact { Grows.refl j sh with stop := fun _ => rfl }
  | read slot u got r _ _ _ _ => exact ⟨id, id, id, fun _ _ => id, id, id⟩
  | report error _ => exact ⟨id, id, id, fun _ _ => id, id, id⟩
  | _ => exact Grows.refl j sh

theorem Barrier.enter_phase {b : Barrier} {p : Option Nat} {parties : Nat}
    (h : (b.enter p parties).phase = .filling) : b.phase = .filling := by
  unfold Barrier.enter at h
  dsimp only at h
  split at h
  · cases h
  · exact h

theorem WorkerStep.grows (hstep : WorkerStep E k sh l sh' l') (j : Nat) : Grows j sh sh' := by
  cases hstep with
  | start _ _ => exact ⟨id, id, id, fun _ _ => id, id, id⟩
  | enter _ _ =>
    exact ⟨id, id, id, fun _ _ => id, Barrier.enter_phase, List.mem_cons_of_mem _⟩
  | decode slot u j _ _ => exact ⟨id, id, id, fun _ _ => id, id, id⟩
  | setStop _ => exact ⟨fun _ => rfl, id, id, fun _ _ => id, id, id⟩
  | abort _ => exact ⟨id, id, id, fun _ _ => id, nofun, id⟩
  | report error _ => exact ⟨id, id, id, fun _ _ => id, id, id⟩
  | _ => exact Grows.refl j sh

theorem MainStep.grows (hstep : MainStep E lane sh sh') (j : Nat) : Grows j sh sh' := by
  cases hstep with
  | startThread h _ => exact ⟨id, id, id, fun _ _ => id, id, id⟩
  | started h _ => exact ⟨id, id, by rw [h]; nofun, fun _ _ => id, id, id⟩
  | enter h _ =>
    exact ⟨id, id, by rw [h]; nofun, fun _ _ => id, Barrier.enter_phase, List.mem_cons_of_mem _⟩
  | broken h _ => exact ⟨id, id, by rcases h with h | h <;> (rw [h]; nofun), fun _ _ => id, id, id⟩
  | released h _ => exact ⟨id, id, by rw [h]; nofun, fun _ _ => id, id, id⟩
  | setStop h => exact ⟨fun _ => rfl, id, by rw [h]; nofun, fun _ _ => id, id, id⟩
  | setGo h => exact ⟨id, fun _ => rfl, by rw [h]; nofun, fun _ _ => id, id, id⟩
  | collectFailed got st rest h _ _ => exact ⟨id, id, by rw [h]; nofun, fun _ _ => id, id, id⟩
  | raised got h _ => exact ⟨id, id, by rw [h]; nofun, fun _ _ => id, id, id⟩
  | putUnit i h _ => exact ⟨id, id, by rw [h]; nofun, by rw [h]; nofun, id, id⟩
  | unitsPut i h _ => exact ⟨id, id, by rw [h]; nofun, fun _ _ => id, id, id⟩
  | putDone i h _ => exact ⟨id, id, by rw [h]; nofun, by rw [h]; nofun, id, id⟩
  | donesPut i h _ => exact ⟨id, id, by rw [h]; nofun, fun _ _ => id, id, id⟩
  | go h => exact ⟨id, fun _ => rfl, by rw [h]; nofun, fun _ _ => id, id, id⟩
  | collect got st rest h _ _ => exact ⟨id, id, fun _ => rfl, fun _ _ => id, id, id⟩
  | collected got h _ => exact ⟨id, id, fun _ => rfl, fun _ _ => id, id, id⟩
  | join got i h _ _ => exact ⟨id, id, fun _ => rfl, fun _ _ => id, id, id⟩
  | joined got i h _ => exact ⟨id, id, fun _ => rfl, fun _ _ => id, id, id⟩

namespace GateInv

theorem mono (h : GateInv k sh l) (hg : Grows k sh sh') : GateInv k sh' l where
  go := fun hr => hg.go (h.go hr)
  normal := fun hr => hg.normal (h.normal hr)
  drained := fun hr => by
    rcases h.drained hr with hs | ⟨hn, htodo⟩
    · exact Or.inl (hg.stop hs)
    · exact Or.inr ⟨hg.normal hn, fun x hx => htodo x (hg.todo hn x hx)⟩
  passed := fun hw hf => h.passed hw (hg.phase hf)
  waits := fun hw hf => hg.arrived (h.waits hw (hg.phase hf))

/-- `hopen`: once `go` is set, `run` has either put all units or set `stop`; `hends`: the ends
are behind the units. -/
theorem reader (h : GateInv k sh l) (hstep : ReaderStep E k sh l sh' l')
    (hopen : sh.go = true → sh.stop = true ∨ sh.main.normal = true)
    (hends : ∀ rest, sh.todo = none :: rest → ∀ x ∈ rest, x = none) : GateInv k sh' l' := by
  have hg := h.mono (hstep.grows k)
  cases hstep with
  | start hr _ => exact ⟨nofun, fun hn => absurd rfl hn, nofun, hg.passed, hg.waits⟩
  | goes hr hgo => exact ⟨fun _ => hgo, fun hn => absurd rfl hn, nofun, hg.passed, hg.waits⟩
  | takeFree slot rest hr _ =>
    exact ⟨fun _ => h.go (by rw [hr]; rfl), fun hn => absurd rfl hn, nofun, hg.passed, hg.waits⟩
  | stopped slot hr hs =>
    exact ⟨nofun, fun hn => absurd rfl hn, fun _ => Or.inl hs, hg.passed, hg.waits⟩
  | goesOn slot hr hs =>
    have hgo := h.go (by rw [hr]; rfl)
    refine ⟨fun _ => hgo, fun _ => ?_, nofun, hg.passed, hg.waits⟩
    rcases hopen hgo with hs' | hn
    · rw [hs] at hs'
      cases hs'
    · exact hn
  | noMore slot rest hr htodo =>
    refine ⟨nofun, fun hn => absurd rfl hn, fun _ => Or.inr ⟨?_, hends rest htodo⟩, hg.passed,
      hg.waits⟩
    exact h.normal (by rw [hr]; exact List.cons_ne_nil _ _)
  | takeTodo slot u rest hr _ =>
    exact ⟨fun _ => h.go (by rw [hr]; rfl), fun _ => h.normal (by rw [hr]; exact List.cons_ne_nil _ _),
      nofun, hg.passed, hg.waits⟩
  | read slot u got r hr _ _ _ =>
    exact ⟨fun _ => h.go (by rw [hr]; rfl), fun _ => h.normal (by rw [hr]; exact List.cons_ne_nil _ _),
      nofun, hg.passed, hg.waits⟩
  | readAll slot u got hr _ =>
    exact ⟨fun _ => h.go (by rw [hr]; rfl), fun _ => h.normal (by rw [hr]; exact List.cons_ne_nil _ _),
      nofun, hg.passed, hg.waits⟩
  | putReady slot u hr =>
    exact ⟨fun _ => h.go (by rw [hr]; rfl), fun hn => absurd rfl hn, nofun, hg.passed, hg.waits⟩
  | putDone hr =>
    exact ⟨nofun, fun hn => absurd rfl hn, fun _ => h.drained (by rw [hr]; rfl), hg.passed, hg.waits⟩
  | setStop hr => exact ⟨nofun, fun hn => absurd rfl hn, nofun, hg.passed, hg.waits⟩
  | putDoneFailed hr => exact ⟨nofun, fun hn => absurd rfl hn, nofun, hg.passed, hg.waits⟩
  | report error hr =>
    have hdrained := h.drained
    rw [hr] at hdrained
    refine ⟨nofun, fun hn => absurd rfl hn, fun hgone => ?_, hg.passed, hg.waits⟩
    cases error with
    | true => cases hgone
    | false => exact hdrained rfl

theorem worker (h : GateInv k sh l) (hstep : WorkerStep E k sh l sh' l') : GateInv k sh' l' := by
  have hg := h.mono (hstep.grows k)
  cases hstep with
  | enter hw _ => exact ⟨hg.go, hg.normal, hg.drained, nofun, fun _ _ => List.mem_cons_self⟩
  | released hw hb =>
    refine ⟨hg.go, hg.normal, hg.drained, fun _ => ?_, nofun⟩
    rw [hb]
    nofun
  | goes hw _ =>
    exact ⟨hg.go, hg.normal, hg.drained, fun _ => hg.passed (by rw [hw]; rfl), nofun⟩
  | takeReady item rest hw _ =>
    exact ⟨hg.go, hg.normal, hg.drained, fun _ => hg.passed (by rw [hw]; rfl), nofun⟩
  | leaves item hw _ =>
    exact ⟨hg.go, hg.normal, hg.drained, fun _ => hg.passed (by rw [hw]; rfl), nofun⟩
  | goesOn slot u hw _ =>
    exact ⟨hg.go, hg.normal, hg.drained, fun _ => hg.passed (by rw [hw]; rfl), nofun⟩
  | decode slot u j hw _ =>
    exact ⟨hg.go, hg.normal, hg.drained, fun _ => hg.passed (by rw [hw]; rfl), nofun⟩
  | wrote slot u j hw =>
    exact ⟨hg.go, hg.normal, hg.drained, fun _ => hg.passed (by rw [hw]; rfl), nofun⟩
  | decoded slot u j hw _ =>
    exact ⟨hg.go, hg.normal, hg.drained, fun _ => hg.passed (by rw [hw]; rfl), nofun⟩
  | putFree slot hw =>
    exact ⟨hg.go, hg.normal, hg.drained, fun _ => hg.passed (by rw [hw]; rfl), nofun⟩
  | wake i hw _ =>
    exact ⟨hg.go, hg.normal, hg.drained, fun _ => hg.passed (by rw [hw]; rfl), nofun⟩
  | woken i hw _ =>
    exact ⟨hg.go, hg.normal, hg.drained, fun _ => hg.passed (by rw [hw]; rfl), nofun⟩
  | sinkEnd hw =>
    exact ⟨hg.go, hg.normal, hg.drained, fun _ => hg.passed (by rw [hw]; rfl), nofun⟩
  | abort hw => exact ⟨hg.go, hg.normal, hg.drained, fun _ => nofun, nofun⟩
  | wakeFailed i hw _ =>
    exact ⟨hg.go, hg.normal, hg.drained, fun _ => hg.passed (by rw [hw]; rfl), nofun⟩
  | wokenFailed i hw _ =>
    exact ⟨hg.go, hg.normal, hg.drained, fun _ => hg.passed (by rw [hw]; rfl), nofun⟩
  | report error hw =>
    exact ⟨hg.go, hg.normal, hg.drained, fun _ => hg.passed (by rw [hw]; rfl), nofun⟩
  | _ => exact ⟨hg.go, hg.normal, hg.drained, nofun, nofun⟩

theorem readerFault (h : GateInv k sh l) : GateInv k sh { l with reader := .setStop } :=
  ⟨nofun, fun hn => absurd rfl hn, nofun, h.passed, h.waits⟩

theorem workerFault (h : GateInv k sh l) : GateInv k sh { l with worker := .setStop } :=
  ⟨h.go, h.normal, h.drained, nofun, nofun⟩

end GateInv

/-! ## The slots in the buffer -/

theorem span_le (E : Engine) (u : Nat) : (E.job u).span ≤ E.slotBytes := by
  have hmax : ∀ (xs : List Nat) (m : Nat), m ≤ xs.foldl max m ∧ ∀ x ∈ xs, x ≤ xs.foldl max m := by
    intro xs
    induction xs with
    | nil => exact fun m => ⟨le_rfl, nofun⟩
    | cons y xs ih =>
      intro m
      obtain ⟨hstart, hall⟩ := ih (max m y)
      refine ⟨(Nat.le_max_left m y).trans hstart, fun x hx => ?_⟩
      rcases List.mem_cons.mp hx with rfl | hmem
      · exact (Nat.le_max_right m x).trans hstart
      · exact hall x hmem
  have hspan : (E.job u).span ≤ (E.units.map Job.span).foldl max 0 := by
    rw [Engine.job, List.getD_eq_getElem?_getD]
    cases hu : E.units[u]? with
    | none => exact Nat.zero_le _
    | some job => exact (hmax _ 0).2 _ (List.mem_map_of_mem (List.mem_of_getElem? hu))
  unfold Engine.slotBytes
  omega

/-- Slots do not overlap. -/
theorem slot_ne {B slot slot' i i' : Nat} (hne : slot ≠ slot') (hi : i < B) (hi' : i' < B) :
    slot * B + i ≠ slot' * B + i' := by
  intro heq
  apply hne
  have hdiv := congrArg (· / B) heq
  have hpos : 0 < B := by omega
  simp only [Nat.mul_comm _ B, Nat.mul_add_div hpos, Nat.div_eq_of_lt hi, Nat.div_eq_of_lt hi',
    Nat.add_zero] at hdiv
  exact hdiv

/-- The slots of different workers differ. -/
theorem Mine.ne {slot slot' : Nat} (hkj : k ≠ j) (h : Mine E k E.slotsPerWorker slot)
    (h' : Mine E j E.slotsPerWorker slot') : slot ≠ slot' := by
  rintro rfl
  have hlow := h.1
  have hhigh := h.2
  have hlow' := h'.1
  have hhigh' := h'.2
  rcases Nat.lt_or_gt_of_ne hkj with hlt | hlt
  · have hmul := Nat.mul_le_mul_right E.slotsPerWorker (show k + 1 ≤ j from hlt)
    rw [Nat.succ_mul] at hmul
    omega
  · have hmul := Nat.mul_le_mul_right E.slotsPerWorker (show j + 1 ≤ k from hlt)
    rw [Nat.succ_mul] at hmul
    omega

/-- The first `n` bytes of unit `u` are in a slot. -/
def Loaded (E : Engine) (buf : Nat → Byte) (slot u n : Nat) : Prop :=
  ∀ i, i < n → buf (slot * E.slotBytes + i) = (E.job u).content.getD i 0#8

/-- The slot and the unit the worker has. -/
def WorkerPc.job : WorkerPc → Option (Nat × Nat)
  | gotItem (some item) => some item
  | decoding slot u _ | writing slot u _ => some (slot, u)
  | _ => none

/-- Units that were read are in their slots. -/
structure BytesInv (E : Engine) (buf : Nat → Byte) (l : Lane) : Prop where
  ready : ∀ slot u, some (slot, u) ∈ l.ready → Loaded E buf slot u (E.job u).span
  reading : ∀ slot u got, l.reader = .reading slot u got →
    got ≤ (E.job u).span ∧ Loaded E buf slot u got
  putReady : ∀ slot u, l.reader = .putReady slot u → Loaded E buf slot u (E.job u).span
  got : ∀ slot u, l.worker.job = some (slot, u) → Loaded E buf slot u (E.job u).span

/-- The slots of worker `k` keep their bytes. -/
def Keeps (E : Engine) (k : Nat) (buf buf' : Nat → Byte) : Prop :=
  ∀ slot i, Mine E k E.slotsPerWorker slot → i < E.slotBytes →
    buf' (slot * E.slotBytes + i) = buf (slot * E.slotBytes + i)

theorem Loaded.keep {buf buf' : Nat → Byte} {slot u n : Nat} (h : Loaded E buf slot u n)
    (hk : Keeps E k buf buf') (hmine : Mine E k E.slotsPerWorker slot) (hn : n ≤ (E.job u).span) :
    Loaded E buf' slot u n := by
  intro i hi
  have hspan := span_le E u
  rw [hk slot i hmine (by omega)]
  exact h i hi

theorem mem_readySlots {ready : List (Option (Nat × Nat))} {slot u : Nat}
    (h : some (slot, u) ∈ ready) : slot ∈ readySlots ready :=
  List.mem_filterMap.mpr ⟨_, h, rfl⟩

theorem WorkerPc.job_slots {w : WorkerPc} {slot u : Nat} (h : w.job = some (slot, u)) :
    slot ∈ w.slots := by
  cases w with
  | gotItem item =>
    cases item with
    | none => cases h
    | some item =>
      obtain rfl := Option.some.inj h
      exact List.mem_singleton_self slot
  | decoding s v j | writing s v j =>
    obtain ⟨rfl, rfl⟩ := Prod.mk.inj (Option.some.inj h)
    exact List.mem_singleton_self s
  | _ => cases h

theorem WorkerPc.job_inLoop {w : WorkerPc} {slot u : Nat} (h : w.job = some (slot, u)) :
    w.inLoop = true := by
  cases w with
  | gotItem item | decoding s v j | writing s v j => rfl
  | _ => cases h

theorem BytesInv.keep {buf buf' : Nat → Byte} (h : BytesInv E buf l) (hs : SlotsInv E k sh.stop l)
    (hk : Keeps E k buf buf') : BytesInv E buf' l where
  ready := fun slot u hmem => (h.ready slot u hmem).keep hk
    (hs.heldMine (by simp [mem_readySlots hmem])) le_rfl
  reading := fun slot u got hr => by
    obtain ⟨hle, hload⟩ := h.reading slot u got hr
    exact ⟨hle, hload.keep hk (hs.heldMine (by simp [hr, ReaderPc.slots])) hle⟩
  putReady := fun slot u hr => (h.putReady slot u hr).keep hk
    (hs.heldMine (by simp [hr, ReaderPc.slots])) le_rfl
  got := fun slot u hw => (h.got slot u hw).keep hk
    (hs.heldMine (by simp [WorkerPc.job_slots hw])) le_rfl

/-- The slot that is being filled is nobody else's. -/
theorem SlotsInv.filling_ne (h : SlotsInv E k sh.stop l) {slot u got : Nat}
    (hr : l.reader = .reading slot u got) (hw : l.worker.inLoop = true) :
    slot ∉ readySlots l.ready ∧ slot ∉ l.worker.slots := by
  have honce := h.once (by rw [hr]; rfl) hw slot
  have hnodup := List.nodup_iff_count_le_one.mp (List.nodup_range' (s := k * E.slotsPerWorker)
    (n := l.worker.given E.slotsPerWorker)) slot
  have hself : l.reader.slots.count slot = 1 := by simp [hr, ReaderPc.slots]
  constructor
  · intro hmem
    have hpos := List.count_pos_iff.mpr hmem
    omega
  · intro hmem
    have hpos := List.count_pos_iff.mpr hmem
    omega

theorem readInto_other {buf : Nat → Byte} {B slot slot' i got r : Nat} (content : List Byte)
    (hne : slot' ≠ slot) (hi : i < B) (hend : got + r ≤ B) :
    readInto buf (slot * B) content got r (slot' * B + i) = buf (slot' * B + i) := by
  rw [readInto, if_neg]
  rintro ⟨hlow, hhigh⟩
  have heq : slot' * B + i = slot * B + (slot' * B + i - slot * B) := by omega
  exact slot_ne hne hi (show slot' * B + i - slot * B < B by omega) heq

theorem readInto_self (buf : Nat → Byte) (base : Nat) (content : List Byte) (got r i : Nat) :
    readInto buf base content got r (base + i) =
      if got ≤ i ∧ i < got + r then content.getD i 0#8 else buf (base + i) := by
  unfold readInto
  by_cases hi : got ≤ i ∧ i < got + r
  · rw [if_pos hi, if_pos (by omega), Nat.add_sub_cancel_left]
  · rw [if_neg hi, if_neg (by omega)]

/-- A read stays in the slot. -/
theorem ReaderStep.keeps (hs : SlotsInv E k sh.stop l) (hstep : ReaderStep E k sh l sh' l')
    (hkj : j ≠ k) : Keeps E j sh.buf sh'.buf := by
  intro slot' i hmine hi
  cases hstep with
  | read slot u got r hr hgot _ hwant =>
    have hne := Mine.ne hkj hmine (@SlotsInv.heldMine _ _ _ _ hs slot (by simp [hr, ReaderPc.slots]))
    apply readInto_other _ hne hi
    have hspan := span_le E u
    unfold want at hwant
    omega
  | _ => rfl

/-- The first touch stays in the slots of the worker. -/
theorem WorkerStep.keeps (hstep : WorkerStep E k sh l sh' l') (hkj : j ≠ k) :
    Keeps E j sh.buf sh'.buf := by
  intro slot i hmine hi
  cases hstep with
  | start _ _ =>
    refine if_neg fun h => ?_
    obtain ⟨hlow, hhigh, -⟩ := h
    -- the address would lie in two slots
    have hB : 0 < E.slotBytes := by omega
    have hdiv : (slot * E.slotBytes + i) / E.slotBytes = slot := by
      rw [Nat.mul_comm, Nat.mul_add_div hB, Nat.div_eq_of_lt hi, Nat.add_zero]
    have hge := (Nat.le_div_iff_mul_le hB).mpr hlow
    have hlt := (Nat.div_lt_iff_lt_mul hB).mpr hhigh
    rw [hdiv] at hge hlt
    rw [Nat.succ_mul] at hlt
    exact Mine.ne hkj hmine ⟨hge, hlt⟩ rfl
  | _ => rfl

namespace BytesInv

theorem reader (h : BytesInv E sh.buf l) (hs : SlotsInv E k sh.stop l)
    (hw : l.worker.inLoop = true) (hstep : ReaderStep E k sh l sh' l') : BytesInv E sh'.buf l' := by
  cases hstep with
  | read slot u got r hr hgot hpos hwant =>
    obtain ⟨hready, hjob⟩ := hs.filling_ne hr hw
    obtain ⟨hle, hload⟩ := h.reading slot u got hr
    have hspan := span_le E u
    have hend : got + r ≤ (E.job u).span := by
      unfold want at hwant
      omega
    have hother : ∀ slot' v, slot' ≠ slot → Loaded E sh.buf slot' v (E.job v).span →
        Loaded E (readInto sh.buf (slot * E.slotBytes) (E.job u).content got r) slot' v
          (E.job v).span := by
      intro slot' v hne hl i hi
      have hspan' := span_le E v
      rw [readInto_other _ hne (show i < E.slotBytes by omega) (by omega)]
      exact hl i hi
    refine ⟨fun slot' v hmem => ?_, fun slot' v got' hr' => ?_, nofun, fun slot' v hjob' => ?_⟩
    · apply hother slot' v _ (h.ready slot' v hmem)
      rintro rfl
      exact hready (mem_readySlots hmem)
    · obtain ⟨rfl, rfl, rfl⟩ := ReaderPc.reading.inj hr'
      refine ⟨hend, fun i hi => (readInto_self _ _ _ _ _ _).trans ?_⟩
      by_cases hnew : got ≤ i
      · rw [if_pos ⟨hnew, hi⟩]
      · rw [if_neg fun h => hnew h.1]
        exact hload i (by omega)
    · apply hother slot' v _ (h.got slot' v hjob')
      rintro rfl
      exact hjob (WorkerPc.job_slots hjob')
  | takeTodo slot u rest hr _ =>
    refine ⟨h.ready, fun slot' v got' hr' => ?_, nofun, h.got⟩
    obtain ⟨rfl, rfl, rfl⟩ := ReaderPc.reading.inj hr'
    exact ⟨Nat.zero_le _, fun i hi => absurd hi (Nat.not_lt_zero i)⟩
  | readAll slot u got hr hgot =>
    obtain ⟨hle, hload⟩ := h.reading slot u got hr
    refine ⟨h.ready, nofun, fun slot' v hr' => ?_, h.got⟩
    obtain ⟨rfl, rfl⟩ := ReaderPc.putReady.inj hr'
    rwa [Nat.le_antisymm hle hgot] at hload
  | putReady slot u hr =>
    refine ⟨fun slot' v hmem => ?_, nofun, nofun, h.got⟩
    rcases List.mem_append.mp hmem with hold | hnew
    · exact h.ready slot' v hold
    · obtain ⟨rfl, rfl⟩ := Prod.mk.inj (Option.some.inj (List.mem_singleton.mp hnew))
      exact h.putReady slot' v hr
  | putDone hr =>
    refine ⟨fun slot v hmem => h.ready slot v ?_, nofun, nofun, h.got⟩
    simpa using hmem
  | putDoneFailed hr =>
    refine ⟨fun slot v hmem => h.ready slot v ?_, nofun, nofun, h.got⟩
    simpa using hmem
  | _ => exact ⟨h.ready, nofun, nofun, h.got⟩

/-- Before its slots are put, a worker and its reader have none. -/
theorem before (hs : SlotsInv E k sh.stop l) (hw : l.worker = .start) (buf : Nat → Byte) :
    BytesInv E buf { l with worker := .prepare } := by
  have hnone : ∀ slot, slot ∉ l.reader.slots ++ readySlots l.ready := by
    intro slot hmem
    have hheld := hs.held slot (List.mem_append_left _ hmem)
    rw [hw] at hheld
    have hlow := hheld.1
    have hhigh := hheld.2
    simp only [WorkerPc.given] at hhigh
    omega
  refine ⟨fun slot u hmem => ?_, fun slot u got hr => ?_, fun slot u hr => ?_,
    fun slot u h => by cases h⟩
  · exact absurd (List.mem_append_right _ (mem_readySlots hmem)) (hnone slot)
  · have hr' : l.reader = .reading slot u got := hr
    exact absurd (by simp [hr', ReaderPc.slots]) (hnone slot)
  · have hr' : l.reader = .putReady slot u := hr
    exact absurd (by simp [hr', ReaderPc.slots]) (hnone slot)

theorem worker (h : l.worker.inLoop = true → BytesInv E sh.buf l) (hs : SlotsInv E k sh.stop l)
    (hstep : WorkerStep E k sh l sh' l') (hw' : l'.worker.inLoop = true) : BytesInv E sh'.buf l' := by
  cases hstep with
  | start hw _ => exact before hs hw _
  | takeReady item rest hw hready =>
    have hb := h (by rw [hw]; rfl)
    refine ⟨fun slot u hmem => hb.ready slot u ?_, hb.reading, hb.putReady, fun slot u hjob =>
      hb.ready slot u ?_⟩
    · rw [hready]
      exact List.mem_cons_of_mem item hmem
    · rw [hready]
      cases item with
      | none => cases hjob
      | some item =>
        obtain rfl := Option.some.inj hjob
        exact List.mem_cons_self
  | goesOn slot u hw _ =>
    have hb := h (by rw [hw]; rfl)
    refine ⟨hb.ready, hb.reading, hb.putReady, fun slot' v hjob => hb.got slot' v ?_⟩
    rw [hw]
    exact hjob
  | decode slot u j hw _ | wrote slot u j hw =>
    have hb := h (by rw [hw]; rfl)
    refine ⟨hb.ready, hb.reading, hb.putReady, fun slot' v hjob => hb.got slot' v ?_⟩
    rw [hw]
    exact hjob
  | prepare hw =>
    have hb := h (by rw [hw]; rfl)
    exact ⟨hb.ready, hb.reading, hb.putReady, nofun⟩
  | putSlot i hw _ =>
    have hb := h (by rw [hw]; rfl)
    exact ⟨hb.ready, hb.reading, hb.putReady, nofun⟩
  | slotsPut i hw _ =>
    have hb := h (by rw [hw]; rfl)
    exact ⟨hb.ready, hb.reading, hb.putReady, nofun⟩
  | enter hw _ =>
    have hb := h (by rw [hw]; rfl)
    exact ⟨hb.ready, hb.reading, hb.putReady, nofun⟩
  | released hw _ =>
    have hb := h (by rw [hw]; rfl)
    exact ⟨hb.ready, hb.reading, hb.putReady, nofun⟩
  | goes hw _ =>
    have hb := h (by rw [hw]; rfl)
    exact ⟨hb.ready, hb.reading, hb.putReady, nofun⟩
  | decoded slot u j hw _ =>
    have hb := h (by rw [hw]; rfl)
    exact ⟨hb.ready, hb.reading, hb.putReady, nofun⟩
  | putFree slot hw =>
    have hb := h (by rw [hw]; rfl)
    exact ⟨hb.ready, hb.reading, hb.putReady, nofun⟩
  | _ => cases hw'

end BytesInv

end

end Bslz4ToSparse.Conveyor
