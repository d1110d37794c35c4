import Bslz4ToSparse.Conveyor.EngineEnds
import Bslz4ToSparse.Conveyor.Iterate
import Mathlib.Data.List.ReduceOption

/-!
# What a for loop gets

Where the batches are that were decoded, whatever the order of the steps; that a loop that comes to
its end has got all of them; and that no loop, stopped or not, waits for ever.
-/

namespace Bslz4ToSparse.Conveyor

open Foundation
open Lz4 (Byte)

def ConsumerPc.gotEnd : ConsumerPc → Bool
  | closing early | joining early | ended early => !early
  | _ => false

/-- The consumer still takes items. -/
def ConsumerPc.takes : ConsumerPc → Bool
  | asking | yielded => true
  | _ => false

/-- The event is set. -/
def ConsumerPc.closed : ConsumerPc → Bool
  | joining _ | ended _ => true
  | _ => false

theorem ConsumerPc.takes_of_closed {c : ConsumerPc} (h : c.closed = true) : c.takes = false := by
  cases c with
  | joining early | ended early => rfl
  | asking | yielded | closing early => cases h

/-- Every batch that was decoded was taken, is in the queue, is about to be put, or was dropped by a sink that gave
up; the end marker comes after all of them. -/
structure IterInv (E : Engine) (size : Nat) (buf : Nat → Byte) (x : IterState) : Prop where
  engine : Reachable E buf x.engine
  awake : Awake E x.engine
  offers : ∀ k d, x.offers k = some d → k < E.workers ∧ ∃ slot u j, (x.engine.lane k).worker = .writing slot u j
  room : 0 < size → x.queue.length ≤ size
  closed : x.closed = x.consumer.closed
  unbegun : x.ran = false → x.engine = Conveyor.initial buf ∧ ∀ k, x.offers k = none
  begun : (x.go = .checking → x.ran = false) ∧ (x.go = .running → x.ran = true)
  outcome : x.go.over = true →
    (x.failure = none → x.ran = true ∧ Succeeded x.engine.sh.main) ∧
      (x.failure ≠ none → x.ran = true → Failed x.engine.sh.main)
  ledger : ∃ dropped, (x.closed = false → dropped = []) ∧
    x.engine.sh.log.Perm
      (x.taken ++ (x.queue.reduceOption ++ (shares E.workers Option.toList x.offers ++ dropped)))
  unmarked : x.go ≠ .done → x.consumer.gotEnd = false ∧ ∃ ds : List Decoded, x.queue = ds.map some
  marked : x.go = .done → x.consumer.takes = true →
    ∃ (ds : List Decoded) (rest : List (Option Decoded)),
      x.queue = ds.map some ++ none :: rest ∧ (x.failure = none → rest = [])
  all : x.consumer.gotEnd = true → x.failure = none → x.taken.Perm x.engine.sh.log
  joined : ∀ early, x.consumer = .ended early → x.go = .done

section

variable {E : Engine} {size : Nat} {buf : Nat → Byte} {x x' : IterState} {s : State}

/-- A sink whose worker stays where it is keeps its item. -/
theorem IterState.offered_self {k : Nat} (h : (s.lane k).worker = (x.engine.lane k).worker) :
    x.offered E s k = x.offers k := by
  rw [offered, h, sinkCalls_self]
  exact Option.or_none

/-- The sink of a worker that goes on had no item, and has what it is called to write. -/
theorem IterState.offered_worker {k : Nat} {sh : Shared} {l : Lane}
    (hw : WorkerStep E k x.engine.sh (x.engine.lane k) sh l)
    (hheld : x.Holds ⟨sh, Function.update x.engine.lane k l⟩) :
    x.offers k = none ∧ x.offered E ⟨sh, Function.update x.engine.lane k l⟩ = Function.update x.offers k
      (written (sinkCalls E x.engine.sh.buf (x.engine.lane k).worker l.worker)).head? := by
  have hnone : x.offers k = none := by
    by_contra hsome
    have hpc := hheld k (Option.isSome_iff_ne_none.mpr hsome)
    dsimp only at hpc
    rw [Function.update_self] at hpc
    exact hw.worker_ne hpc
  refine ⟨hnone, funext fun j => ?_⟩
  by_cases hjk : j = k
  · subst hjk
    rw [Function.update_self, offered, hnone, Option.none_or]
    dsimp only
    rw [Function.update_self]
  · rw [Function.update_of_ne hjk]
    apply offered_self
    dsimp only
    rw [Function.update_of_ne hjk]

/-- What a step of the engine adds to the items of the sinks. -/
theorem IterState.offered_spec (h : Step E x.engine s) (hheld : x.Holds s) :
    ∃ ds, ds.length ≤ 1 ∧ s.sh.log = x.engine.sh.log ++ ds ∧
      (shares E.workers Option.toList (x.offered E s)).Perm (shares E.workers Option.toList x.offers ++ ds) ∧
      ∀ k d, x.offered E s k = some d → x.offers k = some d ∨
        k < E.workers ∧ ∃ slot u j, (s.lane k).worker = .writing slot u j := by
  rcases h.workers with ⟨k, sh, l, hk, hw, rfl⟩ | ⟨hlog, hworkers⟩
  · obtain ⟨hnone, hupdate⟩ := offered_worker hw hheld
    obtain ⟨rest, hbefore, hafter⟩ := shares_update Option.toList x.offers hk
      (written (sinkCalls E x.engine.sh.buf (x.engine.lane k).worker l.worker)).head?
    rw [hnone] at hbefore
    rw [hupdate]
    refine ⟨_, ?_, hw.writes, ?_, fun j d hj => ?_⟩
    · rcases hw.offers with h | ⟨_, _, _, d, -, h⟩ <;> rw [h] <;> simp
    · refine hafter.trans (List.Perm.trans ?_ (List.perm_append_comm.trans (hbefore.symm.append_right _)))
      rcases hw.offers with h | ⟨_, _, _, d, -, h⟩ <;> rw [h] <;> simp
    · by_cases hjk : j = k
      · subst hjk
        rw [Function.update_self] at hj
        rcases hw.offers with h | ⟨slot, u, i, d', hpc, h⟩
        · rw [h] at hj
          cases hj
        · refine Or.inr ⟨hk, slot, u, i, ?_⟩
          dsimp only
          rw [Function.update_self]
          exact hpc
      · rw [Function.update_of_ne hjk] at hj
        exact Or.inl hj
  · have hall : x.offered E s = x.offers := funext fun k => offered_self (hworkers k)
    refine ⟨[], Nat.zero_le _, by rw [hlog, List.append_nil], ?_, fun k d hk => ?_⟩
    · rw [hall, List.append_nil]
    · rw [hall] at hk
      exact Or.inl hk

theorem IterInv.initial (E : Engine) (size : Nat) (buf : Nat → Byte) :
    IterInv E size buf (IterState.initial buf) where
  engine := .refl
  awake := fun _ _ h => absurd rfl h
  offers := nofun
  room := fun _ => Nat.zero_le _
  closed := rfl
  unbegun := fun _ => ⟨rfl, fun _ => rfl⟩
  begun := ⟨fun _ => rfl, nofun⟩
  outcome := nofun
  ledger := by
    have hnone : shares E.workers Option.toList (IterState.initial buf).offers = [] := shares_nil fun _ _ => rfl
    refine ⟨[], fun _ => rfl, ?_⟩
    rw [hnone]
    exact List.Perm.refl _
  unmarked := fun _ => ⟨rfl, [], rfl⟩
  marked := nofun
  all := nofun
  joined := nofun

theorem IterInv.is_over (h : IterInv E size buf x) (hgo : x.go.over = true) (hran : x.ran = true) :
    x.engine.sh.main.isOver = true := by
  have hover := h.outcome hgo
  cases hf : x.failure with
  | none => exact (hover.1 hf).2.isOver
  | some error => exact (hover.2 (by rw [hf]; nofun) hran).isOver

/-- Once `run` has come back without an error, every worker has ended, and no sink has an item left. -/
theorem IterInv.settled (h : IterInv E size buf x) (hgo : x.go.over = true) (hf : x.failure = none) :
    (∀ k, k < E.workers → (x.engine.lane k).worker = .done false) ∧
      shares E.workers Option.toList x.offers = [] ∧ ∀ k, x.offers k = none := by
  obtain ⟨-, got, hm, hok⟩ := (h.outcome hgo).1 hf
  have hdone : ∀ k, k < E.workers → (x.engine.lane k).worker = .done false := fun k hk =>
    h.engine.inv.all_succeed hm hok hk .worker
  have hnone : ∀ k, x.offers k = none := by
    intro k
    cases ho : x.offers k with
    | none => rfl
    | some d =>
      obtain ⟨hk, slot, u, j, hpc⟩ := h.offers k d ho
      cases hpc.symm.trans (hdone k hk)
  refine ⟨hdone, shares_nil fun k _ => ?_, hnone⟩
  rw [hnone k]
  rfl

theorem IterInv.go_done (h : IterInv E size buf x) (hend : x.consumer.gotEnd = true) : x.go = .done := by
  by_contra hgo
  cases hend.symm.trans (h.unmarked hgo).1

theorem IterInv.engine_step (h : IterInv E size buf x) (hran : x.ran = true) (hs : Step E x.engine s) (hheld : x.Holds s) :
    IterInv E size buf { x with engine := s, offers := x.offered E s } where
  engine := h.engine.tail (Or.inl hs)
  awake := h.awake.step hs
  offers := fun k d hk => by
    obtain ⟨-, -, -, -, hoffers⟩ := IterState.offered_spec hs hheld
    rcases hoffers k d hk with hold | hnew
    · obtain ⟨hlt, slot, u, j, hpc⟩ := h.offers k d hold
      exact ⟨hlt, slot, u, j, (hheld k (by rw [hold]; rfl)).trans hpc⟩
    · exact hnew
  room := h.room
  closed := h.closed
  unbegun := fun hun => (nomatch hran.symm.trans hun)
  begun := h.begun
  outcome := fun hgo => by
    dsimp only
    rw [hs.main_of_isOver (h.is_over hgo hran)]
    exact h.outcome hgo
  ledger := by
    obtain ⟨dropped, hopen, hperm⟩ := h.ledger
    obtain ⟨ds, -, hlog, hoffers, -⟩ := IterState.offered_spec hs hheld
    refine ⟨dropped, hopen, ?_⟩
    dsimp only
    rw [hlog]
    refine List.perm_iff_count.mpr fun d => ?_
    have hp := hperm.count_eq d
    have ho := hoffers.count_eq d
    simp only [List.count_append] at hp ho ⊢
    omega
  unmarked := h.unmarked
  marked := h.marked
  all := fun hend hf => by
    have hsettled := h.settled (by rw [h.go_done hend]; rfl) hf
    dsimp only
    rw [hs.log_eq hsettled.1]
    exact h.all hend hf
  joined := h.joined

theorem IterInv.engine_fault (h : IterInv E size buf x) (hran : x.ran = true) (hf : Fault E x.engine s) (hheld : x.Holds s) :
    IterInv E size buf { x with engine := s } where
  engine := h.engine.tail (Or.inr hf)
  awake := h.awake.fault hf
  offers := fun k d hk => by
    obtain ⟨hlt, slot, u, j, hpc⟩ := h.offers k d hk
    exact ⟨hlt, slot, u, j, (hheld k (by rw [hk]; rfl)).trans hpc⟩
  room := h.room
  closed := h.closed
  unbegun := fun hun => (nomatch hran.symm.trans hun)
  begun := h.begun
  outcome := fun hgo => by
    dsimp only
    rw [hf.main_of_isOver (h.is_over hgo hran)]
    exact h.outcome hgo
  ledger := by
    dsimp only
    rw [hf.log_eq]
    exact h.ledger
  unmarked := h.unmarked
  marked := h.marked
  all := fun hend hfail => by
    dsimp only
    rw [hf.log_eq]
    exact h.all hend hfail
  joined := h.joined

/-- An item goes from its sink elsewhere. -/
theorem offers_update {offers : Nat → Option Decoded} {k : Nat} {d : Decoded} (hk : k < E.workers)
    (ho : offers k = some d) :
    (shares E.workers Option.toList offers).Perm
      (d :: shares E.workers Option.toList (Function.update offers k none)) := by
  obtain ⟨rest, hbefore, hafter⟩ := shares_update Option.toList offers hk none
  rw [ho] at hbefore
  exact hbefore.trans (hafter.symm.cons d)

theorem update_none {offers : Nat → Option Decoded} {k j : Nat} {d : Decoded}
    (h : Function.update offers k none j = some d) : j ≠ k ∧ offers j = some d := by
  by_cases hjk : j = k
  · subst hjk
    rw [Function.update_self] at h
    cases h
  · rw [Function.update_of_ne hjk] at h
    exact ⟨hjk, h⟩

theorem IterInv.put (h : IterInv E size buf x) {k : Nat} {d : Decoded} (hk : k < E.workers)
    (ho : x.offers k = some d) (hroom : x.Room size) :
    IterInv E size buf { x with offers := Function.update x.offers k none, queue := x.queue ++ [some d] } where
  engine := h.engine
  awake := h.awake
  offers := fun j d' hj => h.offers j d' (update_none hj).2
  room := fun hpos => by
    have hlt : x.queue.length < size := hroom.resolve_left (by omega)
    rw [List.length_append]
    exact hlt
  closed := h.closed
  unbegun := fun hun => (nomatch ho.symm.trans ((h.unbegun hun).2 k))
  begun := h.begun
  outcome := h.outcome
  ledger := by
    obtain ⟨dropped, hopen, hperm⟩ := h.ledger
    refine ⟨dropped, hopen, hperm.trans ?_⟩
    refine List.perm_iff_count.mpr fun d' => ?_
    have hm := (offers_update hk ho).count_eq d'
    have hone : [some d].reduceOption = [d] := rfl
    simp only [List.reduceOption_append, hone, List.count_append, List.count_cons, List.count_nil] at hm ⊢
    omega
  unmarked := fun hgo => by
    obtain ⟨hend, ds, hds⟩ := h.unmarked hgo
    refine ⟨hend, ds ++ [d], ?_⟩
    rw [hds, List.map_append]
    rfl
  marked := fun hgo ht => by
    obtain ⟨ds, rest, hqueue, hlast⟩ := h.marked hgo ht
    refine ⟨ds, rest ++ [some d], by rw [hqueue, List.append_assoc]; rfl, fun hf => ?_⟩
    have hnone := (h.settled (by rw [hgo]; rfl) hf).2.2 k
    cases ho.symm.trans hnone
  all := h.all
  joined := h.joined

theorem IterInv.give_up (h : IterInv E size buf x) {k : Nat} {d : Decoded} (hk : k < E.workers)
    (ho : x.offers k = some d) (hclosed : x.closed = true) (hf : Fault E x.engine (workerFails x.engine k)) :
    IterInv E size buf { x with
      engine := workerFails x.engine k
      offers := Function.update x.offers k none } where
  engine := h.engine.tail (Or.inr hf)
  awake := h.awake.fault hf
  offers := fun j d' hj => by
    obtain ⟨hjk, hj⟩ := update_none hj
    obtain ⟨hlt, slot, u, i, hpc⟩ := h.offers j d' hj
    refine ⟨hlt, slot, u, i, ?_⟩
    dsimp only [workerFails]
    rw [Function.update_of_ne hjk]
    exact hpc
  room := h.room
  closed := h.closed
  unbegun := fun hun => (nomatch ho.symm.trans ((h.unbegun hun).2 k))
  begun := h.begun
  outcome := h.outcome
  ledger := by
    obtain ⟨dropped, -, hperm⟩ := h.ledger
    refine ⟨d :: dropped, fun hopen => (nomatch hclosed.symm.trans hopen), hperm.trans ?_⟩
    refine List.perm_iff_count.mpr fun d' => ?_
    have hm := (offers_update hk ho).count_eq d'
    simp only [List.count_append, List.count_cons] at hm ⊢
    omega
  unmarked := h.unmarked
  marked := h.marked
  all := h.all
  joined := h.joined

/-- The consumer takes an item of the queue. -/
theorem IterInv.take (h : IterInv E size buf x) {d : Decoded} {rest : List (Option Decoded)}
    (hc : x.consumer = .asking) (hqueue : x.queue = some d :: rest) :
    IterInv E size buf { x with consumer := .yielded, queue := rest, taken := x.taken ++ [d] } where
  engine := h.engine
  awake := h.awake
  offers := h.offers
  room := fun hpos => by
    have hle := h.room hpos
    rw [hqueue] at hle
    exact (Nat.le_succ _).trans hle
  closed := h.closed.trans (by rw [hc]; rfl)
  unbegun := h.unbegun
  begun := h.begun
  outcome := h.outcome
  ledger := by
    obtain ⟨dropped, hopen, hperm⟩ := h.ledger
    rw [hqueue, List.reduceOption_cons_of_some] at hperm
    refine ⟨dropped, hopen, hperm.trans ?_⟩
    rw [List.append_assoc]
    exact List.Perm.refl _
  unmarked := fun hgo => by
    obtain ⟨-, ds, hds⟩ := h.unmarked hgo
    rw [hqueue] at hds
    cases ds with
    | nil => cases hds
    | cons d' ds => exact ⟨rfl, ds, (List.cons.inj hds).2⟩
  marked := fun hgo _ => by
    obtain ⟨ds, rest', hall, hlast⟩ := h.marked hgo (by rw [hc]; rfl)
    rw [hqueue] at hall
    cases ds with
    | nil => cases hall
    | cons d' ds => exact ⟨ds, rest', (List.cons.inj hall).2, hlast⟩
  all := nofun
  joined := nofun

/-- The consumer takes the end marker, and has got all. -/
theorem IterInv.take_end (h : IterInv E size buf x) {rest : List (Option Decoded)}
    (hc : x.consumer = .asking) (hqueue : x.queue = none :: rest) :
    IterInv E size buf { x with consumer := .closing false, queue := rest } where
  engine := h.engine
  awake := h.awake
  offers := h.offers
  room := fun hpos => by
    have hle := h.room hpos
    rw [hqueue] at hle
    exact (Nat.le_succ _).trans hle
  closed := h.closed.trans (by rw [hc]; rfl)
  unbegun := h.unbegun
  begun := h.begun
  outcome := h.outcome
  ledger := by
    obtain ⟨dropped, hopen, hperm⟩ := h.ledger
    rw [hqueue, List.reduceOption_cons_of_none] at hperm
    exact ⟨dropped, hopen, hperm⟩
  unmarked := fun hgo => by
    obtain ⟨-, ds, hds⟩ := h.unmarked hgo
    rw [hqueue] at hds
    cases ds <;> cases hds
  marked := nofun
  all := fun _ hf => by
    have hgo : x.go = .done := by
      by_contra hgo
      obtain ⟨-, ds, hds⟩ := h.unmarked hgo
      rw [hqueue] at hds
      cases ds <;> cases hds
    obtain ⟨ds, rest', hall, hlast⟩ := h.marked hgo (by rw [hc]; rfl)
    have hrest : rest = [] := by
      rw [hqueue] at hall
      cases ds with
      | nil => exact (List.cons.inj hall).2.trans (hlast hf)
      | cons d ds => cases hall
    obtain ⟨dropped, hopen, hperm⟩ := h.ledger
    have hnone := hopen (by rw [h.closed, hc]; rfl)
    have hoffers := (h.settled (by rw [hgo]; rfl) hf).2.1
    rw [hqueue, hrest, hoffers, hnone] at hperm
    dsimp only
    refine (hperm.trans ?_).symm
    exact List.Perm.of_eq (List.append_nil _)
  joined := nofun

/-- `run` starts its threads. -/
theorem IterInv.begin (h : IterInv E size buf x) (hgo : x.go = .checking) :
    IterInv E size buf { x with go := .running, ran := true } where
  engine := h.engine
  awake := h.awake
  offers := h.offers
  room := h.room
  closed := h.closed
  unbegun := nofun
  begun := ⟨nofun, fun _ => rfl⟩
  outcome := nofun
  ledger := h.ledger
  unmarked := fun _ => h.unmarked (by rw [hgo]; nofun)
  marked := nofun
  all := fun hend => by cases hgo.symm.trans (h.go_done hend)
  joined := fun early hc => (nomatch hgo.symm.trans (h.joined early hc))

/-- The thread `go` is at the end of `run`. -/
theorem IterInv.run_over (h : IterInv E size buf x) (hgo : x.go = .checking ∨ x.go = .running)
    {failure : Option String}
    (hover : (failure = none → x.ran = true ∧ Succeeded x.engine.sh.main) ∧
      (failure ≠ none → x.ran = true → Failed x.engine.sh.main)) :
    IterInv E size buf { x with go := .putEnd, failure } :=
  have hne : x.go ≠ .done := by rcases hgo with hgo | hgo <;> rw [hgo] <;> nofun
  { engine := h.engine
    awake := h.awake
    offers := h.offers
    room := h.room
    closed := h.closed
    unbegun := h.unbegun
    begun := ⟨nofun, nofun⟩
    outcome := fun _ => hover
    ledger := h.ledger
    unmarked := fun _ => h.unmarked hne
    marked := nofun
    all := fun hend => absurd (h.go_done hend) hne
    joined := fun early hc => absurd (h.joined early hc) hne }

theorem IterInv.put_end (h : IterInv E size buf x) (hgo : x.go = .putEnd) (hroom : x.Room size) :
    IterInv E size buf { x with go := .done, queue := x.queue ++ [none] } where
  engine := h.engine
  awake := h.awake
  offers := h.offers
  room := fun hpos => by
    have hlt : x.queue.length < size := hroom.resolve_left (by omega)
    rw [List.length_append]
    exact hlt
  closed := h.closed
  unbegun := h.unbegun
  begun := ⟨nofun, nofun⟩
  outcome := fun _ => h.outcome (by rw [hgo]; rfl)
  ledger := by
    obtain ⟨dropped, hopen, hperm⟩ := h.ledger
    refine ⟨dropped, hopen, ?_⟩
    dsimp only
    rw [List.reduceOption_append, show [(none : Option Decoded)].reduceOption = [] from rfl, List.append_nil]
    exact hperm
  unmarked := fun hne => absurd rfl hne
  marked := fun _ _ => by
    obtain ⟨-, ds, hds⟩ := h.unmarked (by rw [hgo]; nofun)
    exact ⟨ds, [], by rw [hds], fun _ => rfl⟩
  all := h.all
  joined := fun _ _ => rfl

/-- The thread `go` leaves without the marker, and nobody asks for it. -/
theorem IterInv.leave (h : IterInv E size buf x) (hgo : x.go = .putEnd) (hclosed : x.closed = true) :
    IterInv E size buf { x with go := .done } where
  engine := h.engine
  awake := h.awake
  offers := h.offers
  room := h.room
  closed := h.closed
  unbegun := h.unbegun
  begun := ⟨nofun, nofun⟩
  outcome := fun _ => h.outcome (by rw [hgo]; rfl)
  ledger := h.ledger
  unmarked := fun hne => absurd rfl hne
  marked := fun _ ht => by
    cases (ConsumerPc.takes_of_closed (h.closed.symm.trans hclosed)).symm.trans ht
  all := h.all
  joined := fun _ _ => rfl

/-- The consumer goes on, and asks for nothing more than before. -/
theorem IterInv.consumer (h : IterInv E size buf x) {c : ConsumerPc} {closed : Bool}
    (hclosed : closed = c.closed) (hkeeps : x.closed = true → closed = true)
    (hend : c.gotEnd = x.consumer.gotEnd) (htakes : c.takes = true → x.consumer.takes = true)
    (hjoined : ∀ early, c = .ended early → x.go = .done) :
    IterInv E size buf { x with consumer := c, closed } where
  engine := h.engine
  awake := h.awake
  offers := h.offers
  room := h.room
  closed := hclosed
  unbegun := h.unbegun
  begun := h.begun
  outcome := h.outcome
  ledger := by
    obtain ⟨dropped, hopen, hperm⟩ := h.ledger
    refine ⟨dropped, fun hc => hopen ?_, hperm⟩
    by_contra hx
    rw [Bool.not_eq_false] at hx
    cases hc.symm.trans (hkeeps hx)
  unmarked := fun hgo => by
    dsimp only
    rw [hend]
    exact h.unmarked hgo
  marked := fun hgo ht => h.marked hgo (htakes ht)
  all := fun he hf => h.all (hend ▸ he) hf
  joined := hjoined

theorem IterInv.move (h : IterInv E size buf x) (hmove : IterMove E size x x') : IterInv E size buf x' := by
  cases hmove with
  | begin hgo => exact h.begin hgo
  | engine s hran hs hheld => exact h.engine_step hran hs hheld
  | put k d hk ho hroom => exact h.put hk ho hroom
  | giveUp k d hk ho hclosed hf => exact h.give_up hk ho hclosed hf
  | succeeded hgo hok => exact h.run_over (Or.inr hgo) ⟨fun _ => ⟨h.begun.2 hgo, hok⟩, fun hne => absurd rfl hne⟩
  | failed error hgo hfailed => exact h.run_over (Or.inr hgo) ⟨nofun, fun _ _ => hfailed⟩
  | putEnd hgo hroom => exact h.put_end hgo hroom
  | leave hgo hclosed => exact h.leave hgo hclosed
  | take d rest hc hqueue => exact h.take hc hqueue
  | takeEnd rest hc hqueue => exact h.take_end hc hqueue
  | next hc =>
    exact h.consumer (h.closed.trans (by rw [hc]; rfl)) id (by rw [hc]; rfl) (fun _ => by rw [hc]; rfl) nofun
  | close early hc => exact h.consumer rfl (fun _ => rfl) (by rw [hc]; rfl) nofun nofun
  | join early hc hgo =>
    exact h.consumer (h.closed.trans (by rw [hc]; rfl)) id (by rw [hc]; rfl) nofun fun _ _ => hgo

theorem IterInv.step (h : IterInv E size buf x) (hstep : IterStep E size x x') : IterInv E size buf x' := by
  cases hstep with
  | move hmove => exact h.move hmove
  | fault s hran hf hheld => exact h.engine_fault hran hf hheld
  | refused error hgo =>
    exact h.run_over (Or.inl hgo) ⟨nofun, fun _ hran => (nomatch (h.begun.1 hgo).symm.trans hran)⟩
  | stop hc =>
    have hopen : x.closed = false := h.closed.trans (by rcases hc with hc | hc <;> rw [hc] <;> rfl)
    exact h.consumer hopen id (by rcases hc with hc | hc <;> rw [hc] <;> rfl) nofun nofun

theorem IterReachable.inv {depth : Nat} (h : IterReachable E depth buf x) :
    IterInv E (depth * E.workers) buf x := by
  induction h with
  | refl => exact IterInv.initial E _ buf
  | tail _ hstep ih => exact ih.step hstep

/-- As long as the generator has not ended, something goes on by itself: it takes an item, or a sink puts one or gives
up, or the engine runs on, or the thread `go` does. -/
theorem IterInv.canMove (h : IterInv E size buf x) (hun : ∀ early, x.consumer ≠ .ended early) :
    ∃ x', IterMove E size x x' := by
  -- with no item in a sink the engine goes on, or `run` comes back
  have hrunning : x.go = .running → (∀ k, x.offers k = none) → ∃ x', IterMove E size x x' := by
    intro hgo hnone
    by_cases hover : x.engine.sh.main.isOver = true
    · rcases isOver_cases hover with hok | hfailed
      · exact ⟨_, .succeeded hgo hok⟩
      · exact ⟨_, .failed "" hgo hfailed⟩
    · obtain ⟨s, hs⟩ := h.engine.inv.canStep
        (Or.inl ⟨fun hm => hover (by rw [hm]; rfl), fun got hm => hover (by rw [hm]; rfl)⟩)
      exact ⟨_, .engine s (h.begun.2 hgo) hs fun k hk => by rw [hnone k] at hk; cases hk⟩
  have hoffers : (∀ k, x.offers k = none) ∨ ∃ k d, x.offers k = some d := by
    by_cases hall : ∀ k, x.offers k = none
    · exact Or.inl hall
    · obtain ⟨k, hk⟩ := not_forall.mp hall
      exact Or.inr ⟨k, Option.ne_none_iff_exists'.mp hk⟩
  cases hc : x.consumer with
  | yielded => exact ⟨_, .next hc⟩
  | closing early => exact ⟨_, .close early hc⟩
  | ended early => exact absurd hc (hun early)
  | asking =>
    cases hqueue : x.queue with
    | cons item rest =>
      cases item with
      | none => exact ⟨_, .takeEnd rest hc hqueue⟩
      | some d => exact ⟨_, .take d rest hc hqueue⟩
    | nil =>
      have hroom : x.Room size := by
        rcases Nat.eq_zero_or_pos size with hz | hpos
        · exact Or.inl hz
        · exact Or.inr (by rw [hqueue]; exact hpos)
      rcases hoffers with hnone | ⟨k, d, ho⟩
      · cases hgo : x.go with
        | checking => exact ⟨_, .begin hgo⟩
        | running => exact hrunning hgo hnone
        | putEnd => exact ⟨_, .putEnd hgo hroom⟩
        | done =>
          obtain ⟨ds, rest, hall, -⟩ := h.marked hgo (by rw [hc]; rfl)
          rw [hqueue] at hall
          cases ds <;> cases hall
      · exact ⟨_, .put k d (h.offers k d ho).1 ho hroom⟩
  | joining early =>
    have hclosed : x.closed = true := h.closed.trans (by rw [hc]; rfl)
    rcases hoffers with hnone | ⟨k, d, ho⟩
    · cases hgo : x.go with
      | checking => exact ⟨_, .begin hgo⟩
      | running => exact hrunning hgo hnone
      | putEnd =>
        by_cases hroom : x.Room size
        · exact ⟨_, .putEnd hgo hroom⟩
        · exact ⟨_, .leave hgo hclosed⟩
      | done => exact ⟨_, .join early hc hgo⟩
    · obtain ⟨hk, slot, u, j, hpc⟩ := h.offers k d ho
      have hstarted := h.awake k hk (by rw [hpc]; nofun)
      exact ⟨_, .giveUp k d hk ho hclosed (.worker k hk hstarted (by rw [hpc]; rfl))⟩

def GoPc.cost : GoPc → Nat
  | checking => 6
  | running => 5
  | putEnd => 4
  | done => 0

def ConsumerPc.cost : ConsumerPc → Nat
  | asking => 3
  | yielded => 4
  | closing _ => 2
  | joining _ => 1
  | ended _ => 0

/-- The steps that `iterate` can still have: a decoded batch costs its put and its taking. -/
def IterState.cost (E : Engine) (x : IterState) : Nat :=
  6 * x.engine.cost E + 5 * (shares E.workers Option.toList x.offers).length + 3 * x.queue.length +
    x.go.cost + x.consumer.cost

theorem IterMove.cost_lt (h : IterMove E size x x') : x'.cost E < x.cost E := by
  unfold IterState.cost
  cases h with
  | begin hgo =>
    simp only [hgo, GoPc.cost]
    omega
  | engine s _ hs hheld =>
    have hlt := hs.cost_lt
    obtain ⟨ds, hlen, -, hoffers, -⟩ := IterState.offered_spec hs hheld
    have hall := hoffers.length_eq
    rw [List.length_append] at hall
    dsimp only
    omega
  | put k d hk ho hroom =>
    have hlen := (offers_update hk ho).length_eq
    simp only [List.length_cons, List.length_append, List.length_nil] at hlen ⊢
    omega
  | giveUp k d hk ho hclosed hf =>
    have hlt := hf.cost_lt
    have hlen := (offers_update hk ho).length_eq
    rw [List.length_cons] at hlen
    dsimp only
    omega
  | succeeded hgo _ | failed _ hgo _ | leave hgo _ =>
    simp only [hgo, GoPc.cost]
    omega
  | putEnd hgo _ =>
    simp only [hgo, GoPc.cost, List.length_append, List.length_cons, List.length_nil]
    omega
  | take d rest hc hqueue | takeEnd rest hc hqueue =>
    simp only [hc, hqueue, ConsumerPc.cost, List.length_cons]
    omega
  | next hc | close early hc | join early hc _ =>
    simp only [hc, ConsumerPc.cost]
    omega

theorem IterStep.cost_lt (h : IterStep E size x x') : x'.cost E < x.cost E := by
  cases h with
  | move hmove => exact hmove.cost_lt
  | fault s _ hf hheld =>
    have hlt := hf.cost_lt
    unfold IterState.cost
    dsimp only
    omega
  | refused error hgo =>
    unfold IterState.cost
    simp only [hgo, GoPc.cost]
    omega
  | stop hc =>
    unfold IterState.cost
    rcases hc with hc | hc <;> simp only [hc, ConsumerPc.cost] <;> omega

end

/-- Whatever the order of the steps, wherever a thread fails and wherever the consumer stops: the queue keeps its
bound, no batch reaches the consumer that was not decoded, or twice; a generator that comes to the end marker and
raises nothing has given every batch of every unit, with the bytes of the unit, or `run` has failed with a text that
has `_Closed`; when a generator has ended, the engine has, or was never begun; and until then something goes on by
itself, for a number of steps that is known. -/
theorem iterate_exact (E : Engine) (depth : Nat) (buf : Nat → Byte) {x : IterState}
    (h : IterReachable E depth buf x) :
    (0 < depth → x.queue.length ≤ depth * E.workers) ∧
    x.taken.Subperm x.engine.sh.log ∧
    (∀ early, x.consumer = .ended early →
      (¬ x.Raises → early = false →
        x.taken.Perm (decodesAll E) ∨ ∃ error, x.failure = some error ∧ saysClosed error) ∧
      (x.failure = none → Succeeded x.engine.sh.main) ∧
      (x.failure ≠ none → Failed x.engine.sh.main ∨ x.engine = Conveyor.initial buf)) ∧
    ((∀ early, x.consumer ≠ .ended early) → ∃ x', IterMove E (depth * E.workers) x x') ∧
    ∀ run : List IterState, (x :: run).IsChain (IterStep E (depth * E.workers)) → run.length ≤ x.cost E := by
  have hinv := h.inv
  refine ⟨fun hpos => hinv.room (Nat.mul_pos hpos E.workers_pos), ?_, fun early hc => ?_, hinv.canMove,
    fun run hrun => length_le_measure (m := IterState.cost E) (fun _ _ hstep => hstep.cost_lt) hrun⟩
  · obtain ⟨dropped, -, hperm⟩ := hinv.ledger
    exact (List.sublist_append_left _ _).subperm.trans hperm.symm.subperm
  · obtain ⟨hok, hfailed⟩ := hinv.outcome (by rw [hinv.joined early hc]; rfl)
    refine ⟨fun hquiet hend => ?_, fun hf => (hok hf).2, fun hf => ?_⟩
    · cases hf : x.failure with
      | none =>
        obtain ⟨-, got, hm, hall⟩ := hok hf
        refine Or.inl ((hinv.all ?_ hf).trans (hinv.engine.inv.decoded hm hall))
        rw [hc, hend]
        rfl
      | some error =>
        refine Or.inr ⟨error, rfl, ?_⟩
        by_contra hsays
        exact hquiet ⟨error, hf, hsays⟩
    · cases hran : x.ran with
      | true => exact Or.inl (hfailed hf hran)
      | false => exact Or.inr (hinv.unbegun hran).1

/-- A consumer that keeps up does not restrict the engine. -/
theorem Reachable.iterates {E : Engine} {buf : Nat → Byte} {s : State} (h : Reachable E buf s) (depth : Nat) :
    ∃ taken, IterReachable E depth buf ⟨s, fun _ => none, [], false, none, .running, true, .asking, taken⟩ := by
  induction h with
  | refl => exact ⟨[], .single (.move (.begin rfl))⟩
  | @tail s s' _ hstep ih =>
    obtain ⟨taken, hrun⟩ := ih
    rcases hstep with hs | hf
    · have hheld : ∀ x : IterState, x.offers = (fun _ => none) → x.Holds s' := by
        intro x hx k hk
        rw [hx] at hk
        cases hk
      have hengine := hrun.tail (.move (.engine s' rfl hs (hheld _ rfl)))
      dsimp only at hengine
      rcases hs.workers with ⟨k, sh, l, hk, hw, rfl⟩ | ⟨-, hworkers⟩
      · obtain ⟨-, hupdate⟩ := IterState.offered_worker
          (x := ⟨s, fun _ => none, [], false, none, .running, true, .asking, taken⟩) hw (hheld _ rfl)
        rw [hupdate] at hengine
        dsimp only at hengine
        rcases hw.offers with h | ⟨slot, u, j, d, -, h⟩
        · rw [h, List.head?_nil, Function.update_eq_self_iff.mpr rfl] at hengine
          exact ⟨taken, hengine⟩
        · -- the batch is put and taken
          rw [h, List.head?_cons] at hengine
          have hroom : IterState.Room (depth * E.workers) ⟨⟨sh, Function.update s.lane k l⟩,
              Function.update (fun _ => none) k (some d), [], false, none, .running, true, .asking, taken⟩ :=
            (Nat.eq_zero_or_pos _).imp_right id
          have hoffer : Function.update (fun _ => none) k (some d) k = some d := Function.update_self ..
          have hput := hengine.tail (.move (.put k d hk hoffer hroom))
          dsimp only at hput
          rw [Function.update_idem, Function.update_eq_self_iff.mpr rfl] at hput
          exact ⟨taken ++ [d], (hput.tail (.move (.take d [] rfl rfl))).tail (.move (.next rfl))⟩
      · have hall : IterState.offered E ⟨s, fun _ => none, [], false, none, .running, true, .asking, taken⟩ s' =
            fun _ => none := funext fun k => IterState.offered_self (hworkers k)
        rw [hall] at hengine
        exact ⟨taken, hengine⟩
    · exact ⟨taken, hrun.tail (.fault s' rfl hf fun k hk => by cases hk)⟩

/-- The unit of one frame reaches the consumer. -/
theorem iterate_exact_oneUnit : ∃ x, IterReachable oneUnit 1 (fun _ => 0#8) x ∧ x.consumer = .ended false ∧
    x.taken = [⟨0, 0, [7#8]⟩] := by
  have hends : ∃ sh l, OneRun recorder [] sh l
      [.begin, .beginUnit 0, .write (call oneUnit 0 0), .endUnit 0, .finish] ∧
        sh.main = .finished [⟨.reader, 0, false⟩, ⟨.worker, 0, false⟩] := OneRun.finishes rfl rfl rfl rfl rfl
  obtain ⟨sh, l, hrun, hm⟩ := hends
  obtain ⟨taken, hiter⟩ := (SinkReachable.reachable hrun).iterates 1
  have hok : Succeeded sh.main := ⟨_, hm, by decide⟩
  have hend := hiter.tail (.move (.succeeded rfl hok))
  have hend := hend.tail (.move (.putEnd rfl (Or.inr (show 0 < 1 * oneUnit.workers by decide))))
  have hend := hend.tail (.move (.takeEnd [] rfl rfl))
  have hend := hend.tail (.move (.close false rfl))
  have hend := hend.tail (.move (.join false rfl rfl))
  refine ⟨_, hend, rfl, ?_⟩
  have hall := ((iterate_exact oneUnit 1 _ hend).2.2.1 false rfl).1 (fun ⟨_, h, _⟩ => nomatch h) rfl
  rcases hall with hall | ⟨_, h, _⟩
  · exact List.perm_singleton.mp hall
  · cases h

end Bslz4ToSparse.Conveyor
