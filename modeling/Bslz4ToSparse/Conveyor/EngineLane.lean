import Bslz4ToSparse.Conveyor.Engine
import Mathlib.Data.List.Count

/-!
# A worker and its reader

What holds between one worker, its reader and their queues, in every state of a run. A slot is
free, with the reader, in a unit that is ready, or with the worker. Slots that were put only
to wake the reader are taken only when it has to stop.
-/

namespace Bslz4ToSparse.Conveyor

open Lz4 (Byte)

/-- The reader still asks for units. -/
def ReaderPc.inLoop : ReaderPc → Bool
  | start | waitGo | takeFree | gotSlot _ | takeTodo _ | reading _ _ _ | putReady _ _ => true
  | _ => false

/-- The slot the reader has taken before it looks at `stop`. -/
def ReaderPc.spare : ReaderPc → List Nat
  | gotSlot slot => [slot]
  | _ => []

/-- The slot the reader fills. -/
def ReaderPc.slots : ReaderPc → List Nat
  | takeTodo slot | reading slot _ _ | putReady slot _ => [slot]
  | _ => []

/-- The reader has put its last item. -/
def ReaderPc.last : ReaderPc → Bool
  | report _ | done _ => true
  | _ => false

/-- The worker still takes units. -/
def WorkerPc.inLoop : WorkerPc → Bool
  | wake _ | sinkEnd | setStop | abort | wakeFailed _ | report _ | done _ => false
  | _ => true

/-- The slot of the unit the worker has. -/
def WorkerPc.slots : WorkerPc → List Nat
  | gotItem (some (slot, _)) | decoding slot _ _ | writing slot _ _ | putFree slot => [slot]
  | _ => []

/-- How many slots the worker has put. -/
def WorkerPc.given (S : Nat) : WorkerPc → Nat
  | start | prepare => 0
  | putSlots i => i
  | _ => S

/-- The slots of the units that are ready. -/
def readySlots (ready : List (Option (Nat × Nat))) : List Nat :=
  ready.filterMap (Option.map Prod.fst)

/-- One of the first `n` slots of worker `k`. -/
def Mine (E : Engine) (k n slot : Nat) : Prop :=
  k * E.slotsPerWorker ≤ slot ∧ slot < k * E.slotsPerWorker + n

/-- Where the slots of worker `k` are. -/
structure SlotsInv (E : Engine) (k : Nat) (stop : Bool) (l : Lane) : Prop where
  given : ∀ i, l.worker = .putSlots i → i ≤ E.slotsPerWorker
  once : l.reader.inLoop = true → l.worker.inLoop = true → ∀ slot,
    l.free.count slot + l.reader.spare.count slot + l.reader.slots.count slot +
        (readySlots l.ready).count slot + l.worker.slots.count slot =
      (List.range' (k * E.slotsPerWorker) (l.worker.given E.slotsPerWorker)).count slot
  held : ∀ slot ∈ l.reader.slots ++ readySlots l.ready ++ l.worker.slots,
    Mine E k (l.worker.given E.slotsPerWorker) slot
  spare : l.reader.inLoop = true → l.worker.inLoop = false → stop = true ∨
    l.worker = .setStop ∧ ∀ slot ∈ l.free ++ l.reader.spare, Mine E k E.slotsPerWorker slot

section

variable {E : Engine} {k : Nat} {sh sh' : Shared} {l l' : Lane}

@[simp] theorem readySlots_nil : readySlots [] = [] := rfl

@[simp] theorem readySlots_none (rest : List (Option (Nat × Nat))) :
    readySlots (none :: rest) = readySlots rest := rfl

@[simp] theorem readySlots_some (slot u : Nat) (rest : List (Option (Nat × Nat))) :
    readySlots (some (slot, u) :: rest) = slot :: readySlots rest := rfl

@[simp] theorem readySlots_append (ready rest : List (Option (Nat × Nat))) :
    readySlots (ready ++ rest) = readySlots ready ++ readySlots rest := List.filterMap_append

theorem WorkerPc.given_of_out {w : WorkerPc} (S : Nat) (h : w.inLoop = false) : w.given S = S := by
  cases w <;> first | rfl | cases h

theorem mine_of_count {n slot : Nat}
    (h : 0 < (List.range' (k * E.slotsPerWorker) n).count slot) : Mine E k n slot :=
  List.mem_range'_1.mp (List.count_pos_iff.mp h)

theorem Mine.mono {m n slot : Nat} (h : Mine E k m slot) (hmn : m ≤ n) : Mine E k n slot :=
  ⟨h.1, h.2.trans_le (Nat.add_le_add_left hmn _)⟩

namespace SlotsInv

theorem given_le (h : SlotsInv E k sh.stop l) :
    l.worker.given E.slotsPerWorker ≤ E.slotsPerWorker := by
  have hgiven := h.given
  cases hw : l.worker with
  | putSlots i => exact hgiven i hw
  | _ => simp [WorkerPc.given]

/-- Whatever the worker does, a slot that is held is one of its slots. -/
theorem heldMine (h : SlotsInv E k sh.stop l) {slot : Nat}
    (hs : slot ∈ l.reader.slots ++ readySlots l.ready ++ l.worker.slots) :
    Mine E k E.slotsPerWorker slot := (h.held slot hs).mono h.given_le

/-- As long as both are in their loops, the slots are those of the worker. -/
theorem mine (h : SlotsInv E k sh.stop l) (hr : l.reader.inLoop = true)
    (hw : l.worker.inLoop = true) :
    ∀ slot ∈ l.free ++ l.reader.spare, Mine E k (l.worker.given E.slotsPerWorker) slot := by
  intro slot hslot
  have honce := h.once hr hw slot
  have hpos := List.count_pos_iff.mpr hslot
  rw [List.count_append] at hpos
  apply mine_of_count
  omega

/-- A reader that goes on has got a slot of its worker. -/
theorem goesOn {slot : Nat} (h : SlotsInv E k sh.stop l) (hr : l.reader = .gotSlot slot)
    (hs : sh.stop = false) : Mine E k (l.worker.given E.slotsPerWorker) slot := by
  have hloop : l.reader.inLoop = true := by rw [hr]; rfl
  have hmem : slot ∈ l.free ++ l.reader.spare := by simp [hr, ReaderPc.spare]
  by_cases hw : l.worker.inLoop = true
  · exact h.mine hloop hw slot hmem
  · rcases h.spare hloop (by simpa using hw) with hstop | ⟨hset, hmine⟩
    · rw [hs] at hstop
      cases hstop
    · rw [hset]
      exact hmine slot hmem

theorem reader (h : SlotsInv E k sh.stop l) (hstep : ReaderStep E k sh l sh' l') :
    SlotsInv E k sh'.stop l' := by
  have hgoes := @goesOn E k sh l
  obtain ⟨hgiven, honce, hheld, hspare⟩ := h
  cases hstep with
  | takeFree slot rest hr hf =>
    rw [hr, hf] at honce hspare
    rw [hr] at hheld
    refine ⟨hgiven, fun _ hw s => ?_, hheld, fun _ hw => ?_⟩
    · have hs := honce rfl hw s
      simp only [ReaderPc.spare, ReaderPc.slots, List.count_cons, List.count_nil] at hs ⊢
      omega
    · simpa [ReaderPc.inLoop, ReaderPc.spare, or_comm] using hspare rfl hw
  | goesOn slot hr hs =>
    have hmine := hgoes ⟨hgiven, honce, hheld, hspare⟩ hr hs
    rw [hr] at honce hheld hspare
    refine ⟨hgiven, fun _ hw s => ?_, ?_, fun _ hw => ?_⟩
    · have hcount := honce rfl hw s
      simp only [ReaderPc.spare, ReaderPc.slots, List.count_nil] at hcount ⊢
      omega
    · simpa [ReaderPc.slots, hmine] using hheld
    · rcases hspare rfl hw with hstop | ⟨hset, hfree⟩
      · exact Or.inl hstop
      · exact Or.inr ⟨hset, fun s hmem => hfree s (List.mem_append_left _ (by
          simpa [ReaderPc.spare] using hmem))⟩
  | putReady slot u hr =>
    rw [hr] at honce hheld hspare
    refine ⟨hgiven, fun _ hw s => ?_, ?_, hspare⟩
    · have hcount := honce rfl hw s
      simp only [ReaderPc.slots, ReaderPc.spare, readySlots_append, readySlots_some, readySlots_nil,
        List.count_append, List.count_nil] at hcount ⊢
      omega
    · intro s hs
      apply hheld
      simp only [ReaderPc.slots, readySlots_append, readySlots_some, readySlots_nil,
        List.mem_append, List.mem_singleton, List.not_mem_nil] at hs ⊢
      tauto
  | _ => constructor <;> simp_all [ReaderPc.inLoop, ReaderPc.spare, ReaderPc.slots]

/-- A worker that keeps what it has. -/
theorem stays {w : WorkerPc} (h : SlotsInv E k sh.stop l) (hslots : w.slots = l.worker.slots)
    (hgiven : w.given E.slotsPerWorker = l.worker.given E.slotsPerWorker)
    (hloop : l.worker.inLoop = true) (hin : w.inLoop = true)
    (hput : ∀ i, w = .putSlots i → i ≤ E.slotsPerWorker) :
    SlotsInv E k sh.stop { l with worker := w } := by
  refine ⟨hput, fun hr _ slot => ?_, ?_, fun _ hw => ?_⟩
  · have honce := h.once hr hloop slot
    rw [← hslots, ← hgiven] at honce
    exact honce
  · rw [hslots, hgiven]
    exact h.held
  · rw [hin] at hw
    cases hw

/-- A worker that has left its loop may put slots once the reader has to stop. -/
theorem out {w : WorkerPc} {stop : Bool} (free : List Nat) (h : SlotsInv E k sh.stop l)
    (hstop : l.reader.inLoop = true → stop = true) (hslots : w.slots = []) (hout : w.inLoop = false) :
    SlotsInv E k stop { l with worker := w, free := free } := by
  refine ⟨fun i hi => ?_, fun _ hw => ?_, fun slot hs => ?_, fun hr _ => Or.inl (hstop hr)⟩
  · obtain rfl : w = .putSlots i := hi
    cases hout
  · rw [hout] at hw
    cases hw
  · rw [hslots, List.append_nil] at hs
    rw [WorkerPc.given_of_out _ hout]
    exact h.heldMine (List.mem_append_left _ hs)

/-- `hlast`: a worker that got the last item has no reader any more; `hstop`: a failing one has
stopped the others. -/
theorem worker (h : SlotsInv E k sh.stop l) (hstep : WorkerStep E k sh l sh' l')
    (hlast : l.worker = .gotItem none → l.reader.inLoop = false)
    (hstop : l.worker = .abort → sh.stop = true) : SlotsInv E k sh'.stop l' := by
  have hout : l.worker.inLoop = false → l.worker ≠ .setStop → l.reader.inLoop = true →
      sh.stop = true := fun hw hne hr => (h.spare hr hw).resolve_right fun hset => hne hset.1
  obtain ⟨hgiven, honce, hheld, hspare⟩ := id h
  cases hstep with
  | putSlot i hw hi =>
    rw [hw] at honce hheld hspare
    refine ⟨fun j hj => ?_, fun hr _ s => ?_, fun s hs => (hheld s hs).mono (Nat.le_succ i), nofun⟩
    · obtain rfl := WorkerPc.putSlots.inj hj
      exact hi
    · have hcount := honce hr rfl s
      simp only [WorkerPc.slots, WorkerPc.given, List.count_append, List.range'_concat, Nat.one_mul,
        List.count_nil] at hcount ⊢
      omega
  | slotsPut i hw hi =>
    have hle := hgiven i hw
    obtain rfl : i = E.slotsPerWorker := by omega
    rw [hw] at honce hheld
    exact ⟨nofun, fun hr _ => honce hr rfl, hheld, nofun⟩
  | broken hw hb =>
    have hloop : l.worker.inLoop = true := by rcases hw with hw | hw <;> (rw [hw]; rfl)
    refine ⟨nofun, nofun, ?_, fun hr _ => ?_⟩
    · rcases hw with hw | hw <;> (rw [hw] at hheld; exact hheld)
    · exact Or.inr ⟨rfl, fun s hs => (h.mine hr hloop s hs).mono h.given_le⟩
  | takeReady item rest hw hready =>
    rw [hw] at honce hheld
    rw [hready] at honce hheld
    cases item with
    | none => exact ⟨nofun, fun hr _ => honce hr rfl, hheld, nofun⟩
    | some e =>
      obtain ⟨slot, u⟩ := e
      refine ⟨nofun, fun hr _ s => ?_, ?_, nofun⟩
      · have hcount := honce hr rfl s
        simp only [WorkerPc.slots, WorkerPc.given, readySlots_some, List.count_cons,
          List.count_nil] at hcount ⊢
        omega
      · intro s hs
        apply hheld
        simp only [WorkerPc.slots, readySlots_some, List.mem_append, List.mem_cons,
          List.not_mem_nil] at hs ⊢
        tauto
  | leaves item hw hor =>
    refine ⟨nofun, nofun, fun s hs => ?_, fun hr _ => ?_⟩
    · simp only [WorkerPc.slots, List.append_nil] at hs
      exact h.heldMine (List.mem_append_left _ hs)
    · rcases hor with rfl | hs
      · rw [hlast hw] at hr
        cases hr
      · exact Or.inl hs
  | putFree slot hw =>
    rw [hw] at honce hheld
    refine ⟨nofun, fun hr _ s => ?_, fun s hs => ?_, nofun⟩
    · have hcount := honce hr rfl s
      simp only [WorkerPc.slots, WorkerPc.given, List.count_append, List.count_nil] at hcount ⊢
      omega
    · apply hheld
      simp only [WorkerPc.slots, List.append_nil] at hs
      exact List.mem_append_left _ hs
  | start hw _ => exact h.stays (by rw [hw]; rfl) (by rw [hw]; rfl) (by rw [hw]; rfl) rfl nofun
  | prepare hw =>
    refine h.stays (by rw [hw]; rfl) (by rw [hw]; rfl) (by rw [hw]; rfl) rfl fun i hi => ?_
    obtain rfl := WorkerPc.putSlots.inj hi
    exact Nat.zero_le _
  | enter hw _ => exact h.stays (by rw [hw]; rfl) (by rw [hw]; rfl) (by rw [hw]; rfl) rfl nofun
  | released hw _ => exact h.stays (by rw [hw]; rfl) (by rw [hw]; rfl) (by rw [hw]; rfl) rfl nofun
  | goes hw _ => exact h.stays (by rw [hw]; rfl) (by rw [hw]; rfl) (by rw [hw]; rfl) rfl nofun
  | goesOn slot u hw _ =>
    exact h.stays (by rw [hw]; rfl) (by rw [hw]; rfl) (by rw [hw]; rfl) rfl nofun
  | decode slot u j hw _ =>
    exact h.stays (by rw [hw]; rfl) (by rw [hw]; rfl) (by rw [hw]; rfl) rfl nofun
  | wrote slot u j hw =>
    exact h.stays (by rw [hw]; rfl) (by rw [hw]; rfl) (by rw [hw]; rfl) rfl nofun
  | decoded slot u j hw _ =>
    exact h.stays (by rw [hw]; rfl) (by rw [hw]; rfl) (by rw [hw]; rfl) rfl nofun
  | setStop hw => exact h.out l.free (fun _ => rfl) rfl rfl
  | abort hw => exact h.out l.free (fun _ => hstop hw) rfl rfl
  | wake i hw _ => exact h.out _ (hout (by rw [hw]; rfl) (by rw [hw]; nofun)) rfl rfl
  | woken i hw _ => exact h.out _ (hout (by rw [hw]; rfl) (by rw [hw]; nofun)) rfl rfl
  | sinkEnd hw => exact h.out _ (hout (by rw [hw]; rfl) (by rw [hw]; nofun)) rfl rfl
  | wakeFailed i hw _ => exact h.out _ (hout (by rw [hw]; rfl) (by rw [hw]; nofun)) rfl rfl
  | wokenFailed i hw _ => exact h.out _ (hout (by rw [hw]; rfl) (by rw [hw]; nofun)) rfl rfl
  | report error hw => exact h.out _ (hout (by rw [hw]; rfl) (by rw [hw]; nofun)) rfl rfl

/-- A failing thread keeps no slot. -/
theorem readerFault (h : SlotsInv E k sh.stop l) :
    SlotsInv E k sh.stop { l with reader := .setStop } := by
  refine ⟨h.given, nofun, fun slot hs => h.held slot ?_, nofun⟩
  simp only [ReaderPc.slots, List.nil_append, List.mem_append] at hs ⊢
  tauto

theorem workerFault (h : SlotsInv E k sh.stop l) (ht : l.worker.tries = true) :
    SlotsInv E k sh.stop { l with worker := .setStop } := by
  refine ⟨nofun, nofun, fun slot hs => ?_, fun hr _ => ?_⟩
  · simp only [WorkerPc.slots, List.append_nil] at hs
    exact h.heldMine (List.mem_append_left _ hs)
  · by_cases hw : l.worker.inLoop = true
    · exact Or.inr ⟨rfl, fun s hs => (h.mine hr hw s hs).mono h.given_le⟩
    · rcases h.spare hr (by simpa using hw) with hstop | ⟨hset, -⟩
      · exact Or.inl hstop
      · rw [hset] at ht
        cases ht

theorem mono {stop : Bool} (h : SlotsInv E k stop l) {stop' : Bool}
    (hstop : stop = true → stop' = true) : SlotsInv E k stop' l :=
  ⟨h.given, h.once, h.held, fun hr hw => (h.spare hr hw).imp_left hstop⟩

end SlotsInv

end

/-! ## The last item, and the slots that only wake the reader -/

/-- The worker left its loop without an exception. -/
def WorkerPc.leaves : WorkerPc → Bool
  | wake _ | sinkEnd | report false | done false => true
  | _ => false

/-- The worker has an exception and has set `stop`. -/
def WorkerPc.failing : WorkerPc → Bool
  | abort | wakeFailed _ | report true | done true => true
  | _ => false

/-- The reader has an exception and has set `stop`. -/
def ReaderPc.failing : ReaderPc → Bool
  | putDoneFailed | report true | done true => true
  | _ => false

/-- The worker has put a slot to wake the reader. -/
def WorkerPc.woke : WorkerPc → Bool
  | wake (_ + 1) | sinkEnd | wakeFailed (_ + 1) | report _ | done _ => true
  | _ => false

/-- What a worker and its reader know of one another. -/
structure FlowInv (stop : Bool) (l : Lane) : Prop where
  opened : l.reader.last = false → none ∉ l.ready ∧ l.worker ≠ .gotItem none
  closed : l.reader.last = true →
    (∃ items, none ∉ items ∧ l.ready = items ++ [none] ∧ l.worker ≠ .gotItem none) ∨
    l.ready = [] ∧ (l.worker = .gotItem none ∨ l.worker.inLoop = false)
  left : l.worker.leaves = true → stop = true ∨ l.reader.last = true ∧ l.ready = []
  failing : l.worker.failing = true → stop = true
  readerFailing : l.reader.failing = true → stop = true
  woken : l.worker.woke = true → l.reader.inLoop = true →
    stop = true ∧ (l.free ≠ [] ∨ l.reader.spare ≠ [])

section

variable {E : Engine} {k : Nat} {sh sh' : Shared} {l l' : Lane} {stop : Bool}

theorem ReaderPc.inLoop_spec {r : ReaderPc} (h : r.inLoop = true) :
    r.last = false ∧ r.failing = false := by
  cases r <;> first | exact ⟨rfl, rfl⟩ | cases h

theorem ReaderPc.last_of_inLoop {r : ReaderPc} (h : r.inLoop = true) : r.last = false :=
  (inLoop_spec h).1

theorem WorkerPc.inLoop_spec {w : WorkerPc} (h : w.inLoop = true) :
    w.leaves = false ∧ w.failing = false ∧ w.woke = false := by
  cases w <;> first | exact ⟨rfl, rfl, rfl⟩ | cases h

namespace FlowInv

/-- Only a reader that has put its last item is no longer waited for. -/
theorem last_of_gotNone (h : FlowInv stop l) (hw : l.worker = .gotItem none) :
    l.reader.last = true ∧ l.ready = [] := by
  by_cases hlast : l.reader.last = true
  · refine ⟨hlast, ?_⟩
    rcases h.closed hlast with ⟨_, -, -, hne⟩ | ⟨hready, -⟩
    · exact absurd hw hne
    · exact hready
  · exact absurd hw (h.opened (by simpa using hlast)).2

/-- A reader that stays in its loop; `hfree` is for one that takes a slot. -/
theorem readerStays {r : ReaderPc} {free : List Nat} (h : FlowInv stop l)
    (hr : l.reader.inLoop = true) (hr' : r.inLoop = true)
    (hfree : l.free ≠ [] ∨ l.reader.spare ≠ [] → stop = true → free ≠ [] ∨ r.spare ≠ []) :
    FlowInv stop { l with reader := r, free := free } := by
  have hlast := ReaderPc.last_of_inLoop hr
  obtain ⟨hlast', hfailing⟩ := ReaderPc.inLoop_spec hr'
  refine ⟨fun _ => h.opened hlast, fun hl => ?_, fun hw => ?_, h.failing, fun hf => ?_, fun hw _ => ?_⟩
  · rw [hlast'] at hl
    cases hl
  · rcases h.left hw with hs | ⟨hl, -⟩
    · exact Or.inl hs
    · rw [hlast] at hl
      cases hl
  · rw [hfailing] at hf
    cases hf
  · obtain ⟨hs, hwoken⟩ := h.woken hw hr
    exact ⟨hs, hfree hwoken hs⟩

/-- A reader that is out of its loop and has not put its last item yet. -/
theorem readerLeaves {r : ReaderPc} {stop' : Bool} (h : FlowInv stop l)
    (hstop : stop = true → stop' = true) (hlast : l.reader.last = false) (hout : r.inLoop = false)
    (hlast' : r.last = false) (hfail : r.failing = true → stop' = true) :
    FlowInv stop' { l with reader := r } := by
  refine ⟨fun _ => h.opened hlast, fun hl => ?_, fun hw => ?_, fun hw => hstop (h.failing hw), hfail,
    fun _ hr => ?_⟩
  · rw [hlast'] at hl
    cases hl
  · rcases h.left hw with hs | ⟨hl, -⟩
    · exact Or.inl (hstop hs)
    · rw [hlast] at hl
      cases hl
  · rw [hout] at hr
    cases hr

/-- A reader that puts its last item. -/
theorem readerCloses {error : Bool} (h : FlowInv stop l) (hlast : l.reader.last = false)
    (hfail : error = true → stop = true) :
    FlowInv stop { l with reader := .report error, ready := l.ready ++ [none] } := by
  obtain ⟨hready, hw⟩ := h.opened hlast
  refine ⟨nofun, fun _ => Or.inl ⟨l.ready, hready, rfl, hw⟩, fun hl => ?_, h.failing, fun hf => ?_,
    nofun⟩
  · rcases h.left hl with hs | ⟨hl, -⟩
    · exact Or.inl hs
    · rw [hlast] at hl
      cases hl
  · cases error with
    | true => exact hfail rfl
    | false => cases hf

theorem reader (h : FlowInv sh.stop l) (hstep : ReaderStep E k sh l sh' l') : FlowInv sh'.stop l' := by
  cases hstep with
  | start hr _ => exact h.readerStays (by rw [hr]; rfl) rfl (by rw [hr]; exact fun hf _ => hf)
  | goes hr _ => exact h.readerStays (by rw [hr]; rfl) rfl (by rw [hr]; exact fun hf _ => hf)
  | takeFree slot rest hr hf =>
    exact h.readerStays (by rw [hr]; rfl) rfl fun _ _ => Or.inr (List.cons_ne_nil _ _)
  | stopped slot hr _ => exact h.readerLeaves id (by rw [hr]; rfl) rfl rfl nofun
  | goesOn slot hr hs =>
    exact h.readerStays (by rw [hr]; rfl) rfl fun _ hs' => by rw [hs] at hs'; cases hs'
  | noMore slot rest hr _ => exact h.readerLeaves id (by rw [hr]; rfl) rfl rfl nofun
  | takeTodo slot u rest hr _ =>
    exact h.readerStays (by rw [hr]; rfl) rfl (by rw [hr]; exact fun hf _ => hf)
  | read slot u got r hr _ _ _ =>
    exact h.readerStays (by rw [hr]; rfl) rfl (by rw [hr]; exact fun hf _ => hf)
  | readAll slot u got hr _ =>
    exact h.readerStays (by rw [hr]; rfl) rfl (by rw [hr]; exact fun hf _ => hf)
  | putReady slot u hr =>
    have hloop : l.reader.inLoop = true := by rw [hr]; rfl
    obtain ⟨hready, hw⟩ := h.opened (ReaderPc.last_of_inLoop hloop)
    have hstays := @readerStays _ _ .takeFree l.free h hloop rfl (by
      rw [hr]
      exact fun hf _ => hf)
    refine ⟨fun _ => ⟨by simpa using hready, hw⟩, nofun, fun hl => ?_, h.failing, nofun, hstays.woken⟩
    rcases h.left hl with hs | ⟨hl, -⟩
    · exact Or.inl hs
    · rw [hr] at hl
      cases hl
  | putDone hr => exact h.readerCloses (by rw [hr]; rfl) nofun
  | setStop hr => exact h.readerLeaves (fun _ => rfl) (by rw [hr]; rfl) rfl rfl fun _ => rfl
  | putDoneFailed hr =>
    exact h.readerCloses (by rw [hr]; rfl) fun _ => h.readerFailing (by rw [hr]; rfl)
  | report error hr =>
    have hlast : l.reader.last = true := by rw [hr]; rfl
    have hfail := h.readerFailing
    rw [hr] at hfail
    refine ⟨nofun, fun _ => h.closed hlast, fun hl => ?_, h.failing, fun hf => ?_, nofun⟩
    · exact (h.left hl).imp_right fun hl => ⟨rfl, hl.2⟩
    · cases error with
      | true => exact hfail rfl
      | false => cases hf

/-- A worker that stays in its loop. -/
theorem workerStays {w : WorkerPc} (free : List Nat) (h : FlowInv stop l)
    (hw : l.worker.inLoop = true) (hne : l.worker ≠ .gotItem none) (hw' : w.inLoop = true)
    (hne' : w ≠ .gotItem none) : FlowInv stop { l with worker := w, free := free } := by
  obtain ⟨hleaves, hfailing, hwoke⟩ := WorkerPc.inLoop_spec hw'
  refine ⟨fun hl => ⟨(h.opened hl).1, hne'⟩, fun hl => ?_, fun hf => ?_, fun hf => ?_,
    h.readerFailing, fun hf => ?_⟩
  · rcases h.closed hl with ⟨items, hnone, hready, -⟩ | ⟨-, hgot | hout⟩
    · exact Or.inl ⟨items, hnone, hready, hne'⟩
    · exact absurd hgot hne
    · rw [hw] at hout
      cases hout
  · rw [hleaves] at hf
    cases hf
  · rw [hfailing] at hf
    cases hf
  · rw [hwoke] at hf
    cases hf

/-- A worker that is out of its loop, or goes out of it. -/
theorem workerOut {w : WorkerPc} {stop' : Bool} (free : List Nat) (h : FlowInv stop l)
    (hstop : stop = true → stop' = true) (hout : w.inLoop = false)
    (hleft : w.leaves = true → stop = true ∨ l.reader.last = true ∧ l.ready = [])
    (hfail : w.failing = true → stop' = true)
    (hwoken : w.woke = true → l.reader.inLoop = true → free ≠ [] ∨ l.reader.spare ≠ [])
    (hwoke : w.woke = true → w.leaves = true ∨ w.failing = true) :
    FlowInv stop' { l with worker := w, free := free } := by
  have hne : w ≠ .gotItem none := by
    rintro rfl
    cases hout
  refine ⟨fun hl => ⟨(h.opened hl).1, hne⟩, fun hl => ?_, fun hf => (hleft hf).imp_left hstop, hfail,
    fun hf => hstop (h.readerFailing hf), fun hf hr => ⟨?_, hwoken hf hr⟩⟩
  · rcases h.closed hl with ⟨items, hnone, hready, -⟩ | ⟨hready, -⟩
    · exact Or.inl ⟨items, hnone, hready, hne⟩
    · exact Or.inr ⟨hready, Or.inr hout⟩
  · rcases hwoke hf with hl | hl
    · rcases hleft hl with hs | ⟨hlast, -⟩
      · exact hstop hs
      · rw [ReaderPc.last_of_inLoop hr] at hlast
        cases hlast
    · exact hfail hl

theorem worker (h : FlowInv sh.stop l) (hstep : WorkerStep E k sh l sh' l') : FlowInv sh'.stop l' := by
  cases hstep with
  | start hw _ =>
    exact h.workerStays l.free (by rw [hw]; rfl) (by rw [hw]; nofun) rfl nofun
  | prepare hw => exact h.workerStays l.free (by rw [hw]; rfl) (by rw [hw]; nofun) rfl nofun
  | putSlot i hw _ => exact h.workerStays _ (by rw [hw]; rfl) (by rw [hw]; nofun) rfl nofun
  | slotsPut i hw _ => exact h.workerStays l.free (by rw [hw]; rfl) (by rw [hw]; nofun) rfl nofun
  | enter hw _ => exact h.workerStays l.free (by rw [hw]; rfl) (by rw [hw]; nofun) rfl nofun
  | broken hw _ => exact h.workerOut l.free id rfl nofun nofun nofun nofun
  | released hw _ => exact h.workerStays l.free (by rw [hw]; rfl) (by rw [hw]; nofun) rfl nofun
  | goes hw _ => exact h.workerStays l.free (by rw [hw]; rfl) (by rw [hw]; nofun) rfl nofun
  | takeReady item rest hw hready =>
    refine ⟨fun hl => ?_, fun hl => ?_, nofun, nofun, h.readerFailing, nofun⟩
    · obtain ⟨hnone, -⟩ := h.opened hl
      rw [hready, List.mem_cons, not_or] at hnone
      refine ⟨hnone.2, fun hgot => hnone.1 ?_⟩
      exact (WorkerPc.gotItem.inj hgot).symm
    · rcases h.closed hl with ⟨items, hnone, hitems, -⟩ | ⟨hnil, -⟩
      · rw [hready] at hitems
        cases items with
        | nil =>
          obtain ⟨rfl, rfl⟩ := List.cons.inj hitems
          exact Or.inr ⟨rfl, Or.inl rfl⟩
        | cons x items =>
          obtain ⟨rfl, rfl⟩ := List.cons.inj hitems
          rw [List.mem_cons, not_or] at hnone
          exact Or.inl ⟨items, hnone.2, rfl, fun hgot => hnone.1 (WorkerPc.gotItem.inj hgot).symm⟩
      · rw [hready] at hnil
        cases hnil
  | leaves item hw hor =>
    refine h.workerOut l.free id rfl (fun _ => ?_) nofun nofun nofun
    rcases hor with rfl | hs
    · exact Or.inr (h.last_of_gotNone hw)
    · exact Or.inl hs
  | goesOn slot u hw _ => exact h.workerStays l.free (by rw [hw]; rfl) (by rw [hw]; nofun) rfl nofun
  | decode slot u j hw _ =>
    exact h.workerStays l.free (by rw [hw]; rfl) (by rw [hw]; nofun) rfl nofun
  | wrote slot u j hw =>
    exact h.workerStays l.free (by rw [hw]; rfl) (by rw [hw]; nofun) rfl nofun
  | decoded slot u j hw _ =>
    exact h.workerStays l.free (by rw [hw]; rfl) (by rw [hw]; nofun) rfl nofun
  | putFree slot hw => exact h.workerStays _ (by rw [hw]; rfl) (by rw [hw]; nofun) rfl nofun
  | wake i hw _ =>
    exact h.workerOut _ id rfl (fun _ => h.left (by rw [hw]; rfl)) nofun
      (fun _ _ => Or.inl (by simp)) fun _ => Or.inl rfl
  | woken i hw hi =>
    refine h.workerOut _ id rfl (fun _ => h.left (by rw [hw]; rfl)) nofun (fun _ hr => ?_)
      fun _ => Or.inl rfl
    obtain ⟨i, rfl⟩ : ∃ j, i = j + 1 := ⟨i - 1, by omega⟩
    exact (h.woken (by rw [hw]; rfl) hr).2
  | sinkEnd hw =>
    exact h.workerOut _ id rfl (fun _ => h.left (by rw [hw]; rfl)) nofun
      (fun _ hr => (h.woken (by rw [hw]; rfl) hr).2) fun _ => Or.inl rfl
  | setStop hw => exact h.workerOut l.free (fun _ => rfl) rfl nofun (fun _ => rfl) nofun nofun
  | abort hw =>
    exact h.workerOut l.free id rfl nofun (fun _ => h.failing (by rw [hw]; rfl)) nofun nofun
  | wakeFailed i hw _ =>
    exact h.workerOut _ id rfl nofun (fun _ => h.failing (by rw [hw]; rfl))
      (fun _ _ => Or.inl (by simp)) fun _ => Or.inr rfl
  | wokenFailed i hw hi =>
    refine h.workerOut _ id rfl nofun (fun _ => h.failing (by rw [hw]; rfl)) (fun _ hr => ?_)
      fun _ => Or.inr rfl
    obtain ⟨i, rfl⟩ : ∃ j, i = j + 1 := ⟨i - 1, by omega⟩
    exact (h.woken (by rw [hw]; rfl) hr).2
  | report error hw =>
    have hleft := h.left
    have hfail := h.failing
    have hwoken := h.woken
    rw [hw] at hleft hfail hwoken
    cases error with
    | true =>
      exact h.workerOut _ id rfl nofun (fun _ => hfail rfl) (fun _ hr => (hwoken rfl hr).2)
        fun _ => Or.inr rfl
    | false =>
      exact h.workerOut _ id rfl (fun _ => hleft rfl) nofun (fun _ hr => (hwoken rfl hr).2)
        fun _ => Or.inl rfl

theorem readerFault (h : FlowInv stop l) (ht : l.reader.tries = true) :
    FlowInv stop { l with reader := .setStop } := by
  refine h.readerLeaves id ?_ rfl rfl nofun
  cases hr : l.reader with
  | report error => rw [hr] at ht; cases ht
  | done error => rw [hr] at ht; cases ht
  | _ => rfl

theorem workerFault (h : FlowInv stop l) : FlowInv stop { l with worker := .setStop } :=
  h.workerOut l.free id rfl nofun nofun nofun nofun

theorem mono (h : FlowInv stop l) {stop' : Bool} (hstop : stop = true → stop' = true) :
    FlowInv stop' l where
  opened := h.opened
  closed := h.closed
  left := fun hw => (h.left hw).imp_left hstop
  failing := fun hw => hstop (h.failing hw)
  readerFailing := fun hr => hstop (h.readerFailing hr)
  woken := fun hw hr => (h.woken hw hr).imp_left hstop

end FlowInv

end

end Bslz4ToSparse.Conveyor
