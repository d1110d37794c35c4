import Bslz4ToSparse.Conveyor.DiffMap
import Bslz4ToSparse.Foundation.Ends
import Bslz4ToSparse.Pipeline.Powder

/-!
# The pool of the map comes to its end

Whatever the chunks hold and whichever calls fail: no future is lost, and the main thread raises what a
decoder raised.
-/

namespace Bslz4ToSparse.Conveyor

open Foundation Matrix Dot Pipeline
open Lz4 (Byte)
open TopPixels (MultiError Selected)

variable {t : Dtype} {w : Nat} {fx : FixedPointMatrix ℚ w} {I : Type}

/-! ## What is on its way -/

namespace WorkerAt

def busy : WorkerAt t → Nat
  | .free => 0
  | _ => 1

/-- The frames of the thread's group. -/
def taken : WorkerAt t → Nat
  | .free => 0
  | .loop indices _ _ => indices.length
  | .decoded indices _ _ _ => indices.length
  | .summed indices _ _ _ => indices.length

end WorkerAt

namespace MapMain

def groups : MapMain → List (List Nat)
  | .submitting groups => groups
  | _ => []

def raised : MapMain → Option MultiError
  | .leaving error => error
  | .ended error => error
  | _ => none

/-- `outstanding` futures have been submitted and not been collected, of `n` in all. -/
def Awaits (n outstanding : Nat) : MapMain → Prop
  | .submitting groups => groups.length + outstanding = n
  | .collecting left => outstanding = left
  | .leaving error => error = none → outstanding = 0
  | .ended error => error = none → outstanding = 0

end MapMain

def futureCount : Except MultiError (Nat × List Clipped) → Nat
  | .ok r => r.1
  | .error _ => 0

def futureError : Except MultiError (Nat × List Clipped) → Option MultiError
  | .ok _ => none
  | .error error => some error

namespace MapState

/-- The frames that no thread has taken. -/
def waiting (x : MapState t I) : List Nat := (x.queue ++ x.main.groups).flatten

def outstanding (threads : Nat) (x : MapState t I) : Nat :=
  x.queue.length + ∑ k ∈ Finset.range threads, (x.worker k).busy + x.results.length

/-- The frames that are not counted. -/
def uncounted (threads : Nat) (x : MapState t I) : Nat :=
  (x.results.map futureCount).sum + x.waiting.length + ∑ k ∈ Finset.range threads, (x.worker k).taken

/-- What has been raised, or will be. -/
def errors (x : MapState t I) : List MultiError :=
  x.main.raised.toList ++ x.results.filterMap futureError

end MapState

theorem frameGroups_flatten {batch : Nat} (hbatch : 0 < batch) (nframes : Nat) :
    (frameGroups batch nframes).flatten = List.range nframes := by
  have hgroup : 0 < batch * max 1 (32 / batch) := Nat.mul_pos hbatch (by omega)
  have htiles := flatMap_tiles hgroup 0 nframes
  rw [Nat.sub_zero, ← List.range_eq_range'] at htiles
  rw [← htiles, frameGroups, List.flatMap_def]

section

variable {E : Platform} {c : MapContext t fx I} {threads nframes : Nat} {x x' : MapState t I}

theorem MapState.waiting_start (decoder : Nat → RunState t (BitVec 64)) (zero : I) :
    (MapState.start c nframes decoder zero).waiting = List.range nframes :=
  frameGroups_flatten c.batch_pos nframes

theorem MapState.drained (hout : x.outstanding threads = 0) :
    x.queue = [] ∧ x.results = [] ∧ ∀ k, k < threads → x.worker k = .free := by
  rw [MapState.outstanding, Nat.add_eq_zero_iff, Nat.add_eq_zero_iff] at hout
  obtain ⟨⟨hqueue, hworkers⟩, hresults⟩ := hout
  have hfree : ∀ k, k < threads → x.worker k = .free := by
    intro k hk
    have hbusy := Finset.sum_eq_zero_iff.mp hworkers k (Finset.mem_range.mpr hk)
    cases hat : x.worker k with
    | free => rfl
    | loop indices j0 clip =>
      rw [hat] at hbusy
      cases hbusy
    | decoded indices j0 selected clip =>
      rw [hat] at hbusy
      cases hbusy
    | summed indices j0 selected clip =>
      rw [hat] at hbusy
      cases hbusy
  exact ⟨List.eq_nil_of_length_eq_zero hqueue, List.eq_nil_of_length_eq_zero hresults, hfree⟩

/-- The main thread hands groups on, and takes none back. -/
theorem MapState.MainStep.waiting_eq (hstep : MapState.MainStep c threads nframes x x') :
    x'.waiting = x.waiting := by
  cases hstep with
  | submit g groups hmain =>
    rw [MapState.waiting, MapState.waiting, hmain]
    exact congrArg List.flatten (List.append_assoc _ _ _)
  | submitted hmain =>
    rw [MapState.waiting, MapState.waiting, hmain]
    rfl
  | collect left count clip before after hmain hresults =>
    rw [MapState.waiting, MapState.waiting, hmain]
    rfl
  | raise left error before after hmain hresults =>
    rw [MapState.waiting, MapState.waiting, hmain]
    rfl
  | collected hmain =>
    rw [MapState.waiting, MapState.waiting, hmain]
    rfl
  | shutdown error hmain hqueue hfree =>
    rw [MapState.waiting, MapState.waiting, hmain]
    rfl

/-- A thread that goes on is not free, or there is a group to take. -/
theorem MapState.WorkerStep.live {k : Nat} (hstep : MapState.WorkerStep E c k x x') :
    x.queue ≠ [] ∨ x.worker k ≠ .free := by
  cases hstep with
  | take g rest hfree hqueue => exact Or.inl (hqueue ▸ List.cons_ne_nil g rest)
  | decode indices j0 clip s selected hat hj hdecode => exact Or.inr (hat ▸ nofun)
  | fail indices j0 clip s error hat hj hdecode => exact Or.inr (hat ▸ nofun)
  | sum indices j0 selected clip hat => exact Or.inr (hat ▸ nofun)
  | intensity indices j0 selected clip hat => exact Or.inr (hat ▸ nofun)
  | done indices j0 clip hat hj => exact Or.inr (hat ▸ nofun)

theorem MapState.MainStep.worker_eq (hstep : MapState.MainStep c threads nframes x x') :
    x'.worker = x.worker := by
  cases hstep <;> rfl

/-- What is raised is taken from a future. -/
theorem MapState.MainStep.errors_perm (hstep : MapState.MainStep c threads nframes x x') :
    x'.errors.Perm x.errors := by
  cases hstep with
  | submit g groups hmain =>
    rw [MapState.errors, MapState.errors, hmain]
    exact List.Perm.refl _
  | submitted hmain =>
    rw [MapState.errors, MapState.errors, hmain]
    exact List.Perm.refl _
  | collect left count clip before after hmain hresults =>
    rw [MapState.errors, MapState.errors, hmain, hresults, List.filterMap_append, List.filterMap_append]
    exact List.Perm.refl _
  | raise left error before after hmain hresults =>
    rw [MapState.errors, MapState.errors, hmain, hresults, List.filterMap_append, List.filterMap_append]
    change (error :: (before.filterMap futureError ++ after.filterMap futureError)).Perm
      (before.filterMap futureError ++ error :: after.filterMap futureError)
    exact List.perm_middle.symm
  | collected hmain =>
    rw [MapState.errors, MapState.errors, hmain]
    exact List.Perm.refl _
  | shutdown error hmain hqueue hfree =>
    rw [MapState.errors, MapState.errors, hmain]
    exact List.Perm.refl _

/-! ## What holds of every state -/

/-- Futures and frames are kept count of. -/
structure PoolInv (c : MapContext t fx I) (threads nframes : Nat) (x : MapState t I) : Prop where
  futures : x.main.Awaits (frameGroups c.batch nframes).length (x.outstanding threads)
  stopped : ∀ error, x.main = .ended error → x.queue = [] ∧ ∀ k, k < threads → x.worker k = .free
  counts : x.errors = [] → x.count + x.uncounted threads = nframes

theorem PoolInv.initial (decoder : Nat → RunState t (BitVec 64)) (zero : I) :
    PoolInv c threads nframes (MapState.start c nframes decoder zero) := by
  have hbusy : ∑ k ∈ Finset.range threads, (WorkerAt.free (t := t)).busy = 0 :=
    Finset.sum_eq_zero fun _ _ => rfl
  have htaken : ∑ k ∈ Finset.range threads, (WorkerAt.free (t := t)).taken = 0 :=
    Finset.sum_eq_zero fun _ _ => rfl
  constructor
  · change (frameGroups c.batch nframes).length +
      (0 + ∑ k ∈ Finset.range threads, (WorkerAt.free (t := t)).busy + 0) = _
    rw [hbusy]
    omega
  · intro error hended
    cases hended
  · intro _
    rw [MapState.uncounted, MapState.waiting_start, List.length_range]
    change 0 + (0 + nframes + ∑ k ∈ Finset.range threads, (WorkerAt.free (t := t)).taken) = nframes
    rw [htaken]
    omega

/-- Thread `k` goes on to `b`, and hands in `more`. -/
theorem PoolInv.thread (h : PoolInv c threads nframes x) {k : Nat} (hk : k < threads) {b : WorkerAt t}
    {more : List (Except MultiError (Nat × List Clipped))}
    (hworker : x'.worker = Function.update x.worker k b) (hmain : x'.main = x.main)
    (hcount : x'.count = x.count) (hresults : x'.results = x.results ++ more)
    (hlive : x.queue ≠ [] ∨ x.worker k ≠ .free)
    (hfutures : x'.queue.length + b.busy + more.length = x.queue.length + (x.worker k).busy)
    (htaken : more.filterMap futureError = [] →
      (more.map futureCount).sum + x'.waiting.length + b.taken = x.waiting.length + (x.worker k).taken) :
    PoolInv c threads nframes x' := by
  have herrors : x'.errors = x.errors ++ more.filterMap futureError := by
    rw [MapState.errors, MapState.errors, hmain, hresults, List.filterMap_append, List.append_assoc]
  constructor
  · have hbusy := sum_update WorkerAt.busy x.worker hk b
    have hsame : x'.outstanding threads = x.outstanding threads := by
      rw [MapState.outstanding, MapState.outstanding, hworker, hresults, List.length_append]
      omega
    rw [hmain, hsame]
    exact h.futures
  · intro error hended
    obtain ⟨hqueue, hfree⟩ := h.stopped error (hmain ▸ hended)
    exact absurd hlive (not_or.mpr ⟨not_not.mpr hqueue, not_not.mpr (hfree k hk)⟩)
  · intro hnone
    rw [herrors, List.append_eq_nil_iff] at hnone
    have hcounts := h.counts hnone.1
    have hsum := sum_update WorkerAt.taken x.worker hk b
    have hmore := htaken hnone.2
    rw [MapState.uncounted] at hcounts ⊢
    rw [hworker, hresults, hcount, List.map_append, List.sum_append]
    omega

/-- Thread `k` goes on within its group. -/
theorem PoolInv.within (h : PoolInv c threads nframes x) {k : Nat} (hk : k < threads) {b : WorkerAt t}
    (hworker : x'.worker = Function.update x.worker k b) (hmain : x'.main = x.main)
    (hcount : x'.count = x.count) (hresults : x'.results = x.results) (hqueue : x'.queue = x.queue)
    (hlive : x.queue ≠ [] ∨ x.worker k ≠ .free) (hbusy : b.busy = (x.worker k).busy)
    (htaken : b.taken = (x.worker k).taken) : PoolInv c threads nframes x' := by
  have hwaiting : x'.waiting = x.waiting := by rw [MapState.waiting, MapState.waiting, hqueue, hmain]
  refine h.thread hk hworker hmain hcount (hresults.trans (List.append_nil _).symm) hlive ?_
    (fun _ => ?_)
  · rw [hqueue, hbusy]
    rfl
  · rw [hwaiting, htaken]
    exact congrArg (· + (x.worker k).taken) (Nat.zero_add _)

theorem PoolInv.worker (h : PoolInv c threads nframes x) {k : Nat} (hk : k < threads)
    (hstep : MapState.WorkerStep E c k x x') : PoolInv c threads nframes x' := by
  have hlive := hstep.live
  cases hstep with
  | take g rest hfree hqueue =>
    refine h.thread hk rfl rfl rfl (List.append_nil _).symm hlive ?_ (fun _ => ?_)
    · rw [hfree, hqueue]
      rfl
    · have hwaiting : x.waiting = g ++ (rest ++ x.main.groups).flatten := by
        rw [MapState.waiting, hqueue]
        rfl
      rw [hfree, hwaiting, List.length_append]
      change 0 + (rest ++ x.main.groups).flatten.length + g.length =
        g.length + (rest ++ x.main.groups).flatten.length + 0
      omega
  | decode indices j0 clip s selected hat hj hdecode =>
    exact h.within hk rfl rfl rfl rfl rfl hlive (hat ▸ rfl) (hat ▸ rfl)
  | fail indices j0 clip s error hat hj hdecode =>
    refine h.thread hk rfl rfl rfl rfl hlive ?_ nofun
    rw [hat]
    rfl
  | sum indices j0 selected clip hat =>
    exact h.within hk rfl rfl rfl rfl rfl hlive (hat ▸ rfl) (hat ▸ rfl)
  | intensity indices j0 selected clip hat =>
    exact h.within hk rfl rfl rfl rfl rfl hlive (hat ▸ rfl) (hat ▸ rfl)
  | done indices j0 clip hat hj =>
    refine h.thread hk rfl rfl rfl rfl hlive ?_ (fun _ => ?_)
    · rw [hat]
      rfl
    · rw [hat, List.map_singleton, List.sum_singleton]
      change indices.length + x.waiting.length + 0 = x.waiting.length + indices.length
      omega

theorem PoolInv.main (h : PoolInv c threads nframes x)
    (hstep : MapState.MainStep c threads nframes x x') : PoolInv c threads nframes x' := by
  have hwaiting := hstep.waiting_eq
  have hworker := hstep.worker_eq
  have herrors := hstep.errors_perm
  have hfutures := h.futures
  have hcounts : x'.errors = [] → x'.count + (x'.results.map futureCount).sum =
      x.count + (x.results.map futureCount).sum → x'.count + x'.uncounted threads = nframes := by
    intro hnone hsame
    have hold := h.counts (List.perm_nil.mp (hnone ▸ herrors.symm))
    rw [MapState.uncounted] at hold ⊢
    rw [hwaiting, hworker]
    omega
  cases hstep with
  | submit g groups hmain =>
    rw [hmain] at hfutures
    refine ⟨?_, nofun, fun hnone => hcounts hnone rfl⟩
    change (g :: groups).length + x.outstanding threads = _ at hfutures
    change groups.length + ((x.queue ++ [g]).length +
      ∑ k ∈ Finset.range threads, (x.worker k).busy + x.results.length) = _
    rw [List.length_cons, MapState.outstanding] at hfutures
    rw [List.length_append, List.length_singleton]
    omega
  | submitted hmain =>
    rw [hmain] at hfutures
    exact ⟨(Nat.zero_add _).symm.trans hfutures, nofun, fun hnone => hcounts hnone rfl⟩
  | collect left count clip before after hmain hresults =>
    rw [hmain] at hfutures
    refine ⟨?_, nofun, fun hnone => hcounts hnone ?_⟩
    · change x.outstanding threads = left + 1 at hfutures
      change x.queue.length + ∑ k ∈ Finset.range threads, (x.worker k).busy + (before ++ after).length = left
      rw [MapState.outstanding, hresults, List.length_append, List.length_cons] at hfutures
      rw [List.length_append]
      omega
    · rw [hresults]
      simp only [List.map_append, List.map_cons, List.sum_append, List.sum_cons, futureCount]
      omega
  | raise left error before after hmain hresults =>
    exact ⟨nofun, nofun, nofun⟩
  | collected hmain =>
    rw [hmain] at hfutures
    exact ⟨fun _ => hfutures, nofun, fun hnone => hcounts hnone rfl⟩
  | shutdown error hmain hqueue hfree =>
    rw [hmain] at hfutures
    exact ⟨hfutures, fun _ _ => ⟨hqueue, hfree⟩, fun hnone => hcounts hnone rfl⟩

/-- A call of a decoder that fails adds its error, and nothing else does. -/
theorem MapState.WorkerStep.errors_eq {k : Nat} (hstep : MapState.WorkerStep E c k x x') :
    x'.errors = x.errors ∨ ∃ indices j0 clip error, x.worker k = .loop indices j0 clip ∧
      c.decode E indices j0 (x.decoder k) = .error error ∧ x'.errors = x.errors ++ [error] := by
  cases hstep with
  | fail indices j0 clip s error hat hj hdecode =>
    refine Or.inr ⟨indices, j0, clip, error, hat, hdecode, ?_⟩
    rw [MapState.errors, MapState.errors, List.filterMap_append, List.append_assoc]
    rfl
  | done indices j0 clip hat hj =>
    rw [MapState.errors, MapState.errors, List.filterMap_append]
    exact Or.inl (congrArg _ (List.append_nil _))
  | take _ _ _ _ | decode _ _ _ _ _ _ _ _ | sum _ _ _ _ _ | intensity _ _ _ _ _ => exact Or.inl rfl

/-- An error is that of a call which a thread has made in the run. -/
theorem MapState.Reachable.raised {decoder : Nat → RunState t (BitVec 64)} {zero : I}
    (hx : MapState.Reachable E c threads nframes decoder zero x) : ∀ error ∈ x.errors,
      ∃ y k indices j0 clip, MapState.Reachable E c threads nframes decoder zero y ∧
        Relation.ReflTransGen (MapState.Step E c threads nframes) y x ∧ k < threads ∧
        y.worker k = .loop indices j0 clip ∧ c.decode E indices j0 (y.decoder k) = .error error := by
  induction hx with
  | refl =>
    intro error herror
    cases herror
  | @tail x x' hx hstep ih =>
    have hold : ∀ error ∈ x.errors, ∃ y k indices j0 clip,
        MapState.Reachable E c threads nframes decoder zero y ∧
        Relation.ReflTransGen (MapState.Step E c threads nframes) y x' ∧ k < threads ∧
        y.worker k = .loop indices j0 clip ∧ c.decode E indices j0 (y.decoder k) = .error error := by
      intro error herror
      obtain ⟨y, k, indices, j0, clip, hy, hrun, hcall⟩ := ih error herror
      exact ⟨y, k, indices, j0, clip, hy, hrun.tail hstep, hcall⟩
    intro error herror
    cases hstep with
    | main hmain => exact hold error (hmain.errors_perm.mem_iff.mp herror)
    | worker k hk hworker =>
      rcases hworker.errors_eq with hsame | ⟨indices, j0, clip, e, hat, hdecode, hmore⟩
      · exact hold error (hsame ▸ herror)
      · rw [hmore, List.mem_append, List.mem_singleton] at herror
        rcases herror with herror | rfl
        · exact hold error herror
        · exact ⟨x, k, indices, j0, clip, hx, .single (.worker k hk hworker), hk, hat, hdecode⟩

/-- Nothing goes on behind the end. -/
theorem PoolInv.not_step (h : PoolInv c threads nframes x) {error : Option MultiError}
    (hended : x.main = .ended error) (x' : MapState t I) : ¬MapState.Step E c threads nframes x x' := by
  obtain ⟨hqueue, hfree⟩ := h.stopped error hended
  intro hstep
  cases hstep with
  | worker k hk hworker =>
    rcases hworker.live with hwaits | hbusy
    · exact hwaits hqueue
    · exact hbusy (hfree k hk)
  | main hmain =>
    cases hmain with
    | submit g groups hmain => cases hmain.symm.trans hended
    | submitted hmain => cases hmain.symm.trans hended
    | collect left count clip before after hmain hresults => cases hmain.symm.trans hended
    | raise left error before after hmain hresults => cases hmain.symm.trans hended
    | collected hmain => cases hmain.symm.trans hended
    | shutdown error hmain hqueue hfree => cases hmain.symm.trans hended

theorem PoolInv.waiting_ended (h : PoolInv c threads nframes x) {error : Option MultiError}
    (hended : x.main = .ended error) : x.waiting = [] := by
  rw [MapState.waiting, (h.stopped error hended).1, hended]
  rfl

/-- Without an error all frames have been counted. -/
theorem PoolInv.counted (h : PoolInv c threads nframes x) (hended : x.main = .ended none) :
    x.results = [] ∧ x.count = nframes := by
  have hfutures := h.futures
  rw [hended] at hfutures
  obtain ⟨-, hresults, hfree⟩ := MapState.drained (hfutures rfl)
  have herrors : x.errors = [] := by
    rw [MapState.errors, hended, hresults]
    rfl
  have htaken : ∑ k ∈ Finset.range threads, (x.worker k).taken = 0 :=
    Finset.sum_eq_zero fun k hk => by rw [hfree k (Finset.mem_range.mp hk)]; rfl
  have hcounts := h.counts herrors
  rw [MapState.uncounted, h.waiting_ended hended, hresults, htaken] at hcounts
  exact ⟨hresults, hcounts⟩

theorem MapState.Reachable.pool {decoder : Nat → RunState t (BitVec 64)} {zero : I}
    (hx : MapState.Reachable E c threads nframes decoder zero x) : PoolInv c threads nframes x := by
  induction hx with
  | refl => exact PoolInv.initial decoder zero
  | tail _ hstep ih =>
    cases hstep with
    | worker k hk hworker => exact ih.worker hk hworker
    | main hmain => exact ih.main hmain

/-! ## The pool goes on -/

/-- Nothing holds up a thread that is not free. -/
theorem MapState.busy_step (E : Platform) (c : MapContext t fx I) {k : Nat} (hbusy : x.worker k ≠ .free) :
    ∃ x', MapState.WorkerStep E c k x x' := by
  cases hat : x.worker k with
  | free => exact absurd hat hbusy
  | loop indices j0 clip =>
    by_cases hj : j0 < indices.length
    · cases hdecode : c.decode E indices j0 (x.decoder k) with
      | ok r => exact ⟨_, .decode indices j0 clip r.1 r.2 hat hj hdecode⟩
      | error error => exact ⟨_, .fail indices j0 clip (x.decoder k) error hat hj hdecode⟩
    · exact ⟨_, .done indices j0 clip hat (not_lt.mp hj)⟩
  | decoded indices j0 selected clip => exact ⟨_, .sum indices j0 selected clip hat⟩
  | summed indices j0 selected clip => exact ⟨_, .intensity indices j0 selected clip hat⟩

/-- The threads go on while there is anything to do. -/
theorem MapState.threads_step (E : Platform) (c : MapContext t fx I) (nframes : Nat) (x : MapState t I)
    (hthreads : 0 < threads) :
    (x.queue = [] ∧ ∀ k, k < threads → x.worker k = .free) ∨
      ∃ x', MapState.Step E c threads nframes x x' := by
  by_cases hfree : ∀ k, k < threads → x.worker k = .free
  · cases hqueue : x.queue with
    | nil => exact Or.inl ⟨rfl, hfree⟩
    | cons g rest => exact Or.inr ⟨_, .worker 0 hthreads (.take g rest (hfree 0 hthreads) hqueue)⟩
  · obtain ⟨k, hk⟩ := not_forall.mp hfree
    obtain ⟨hk, hbusy⟩ := Classical.not_imp.mp hk
    obtain ⟨x', hstep⟩ := MapState.busy_step E c hbusy
    exact Or.inr ⟨x', .worker k hk hstep⟩

/-- The pool is stuck nowhere before the end. -/
theorem PoolInv.canStep (h : PoolInv c threads nframes x) (hthreads : 0 < threads)
    (hend : ∀ error, x.main ≠ .ended error) : ∃ x', MapState.Step E c threads nframes x x' := by
  have hfutures := h.futures
  cases hmain : x.main with
  | submitting groups =>
    cases groups with
    | nil => exact ⟨_, .main (.submitted hmain)⟩
    | cons g groups => exact ⟨_, .main (.submit g groups hmain)⟩
  | collecting left =>
    rw [hmain] at hfutures
    cases left with
    | zero => exact ⟨_, .main (.collected hmain)⟩
    | succ left =>
      cases hresults : x.results with
      | cons r results =>
        cases r with
        | ok r => exact ⟨_, .main (.collect left r.1 r.2 [] results hmain hresults)⟩
        | error error => exact ⟨_, .main (.raise left error [] results hmain hresults)⟩
      | nil =>
        rcases MapState.threads_step E c nframes x hthreads with ⟨hqueue, hfree⟩ | hstep
        · have hbusy : ∑ k ∈ Finset.range threads, (x.worker k).busy = 0 :=
            Finset.sum_eq_zero fun k hk => by rw [hfree k (Finset.mem_range.mp hk)]; rfl
          change x.outstanding threads = left + 1 at hfutures
          rw [MapState.outstanding, hresults, hqueue, hbusy] at hfutures
          cases hfutures
        · exact hstep
  | leaving error =>
    rcases MapState.threads_step E c nframes x hthreads with ⟨hqueue, hfree⟩ | hstep
    · exact ⟨_, .main (.shutdown error hmain hqueue hfree)⟩
    · exact hstep
  | ended error => exact absurd hmain (hend error)

end

/-! ## It comes to its end -/

/-- More than the steps that are left for a thread. -/
def WorkerAt.cost : WorkerAt t → Nat
  | .free => 0
  | .loop indices j0 _ => 3 * (indices.length - j0) + 2
  | .decoded indices j0 _ _ => 3 * (indices.length - j0 - 1) + 4
  | .summed indices j0 _ _ => 3 * (indices.length - j0 - 1) + 3

def MapMain.cost : MapMain → Nat
  | .submitting groups => 3 + (groups.map fun g => 3 * g.length + 4).sum
  | .collecting _ => 2
  | .leaving _ => 1
  | .ended _ => 0

def MapState.cost (threads : Nat) (x : MapState t I) : Nat :=
  x.main.cost + (x.queue.map fun g => 3 * g.length + 3).sum +
    ∑ k ∈ Finset.range threads, (x.worker k).cost + x.results.length

section

variable {E : Platform} {c : MapContext t fx I} {threads nframes : Nat} {x x' : MapState t I}

theorem MapState.cost_thread {k : Nat} (hk : k < threads) {b : WorkerAt t} (hmain : x'.main = x.main)
    (hworker : x'.worker = Function.update x.worker k b)
    (hlt : (x'.queue.map fun g => 3 * g.length + 3).sum + b.cost + x'.results.length <
      (x.queue.map fun g => 3 * g.length + 3).sum + (x.worker k).cost + x.results.length) :
    x'.cost threads < x.cost threads := by
  have hsum := sum_update WorkerAt.cost x.worker hk b
  rw [MapState.cost, MapState.cost, hmain, hworker]
  omega

theorem MapState.WorkerStep.cost_lt {k : Nat} (hk : k < threads) (hstep : MapState.WorkerStep E c k x x') :
    x'.cost threads < x.cost threads := by
  have hbatch := c.batch_pos
  cases hstep with
  | take g rest hfree hqueue =>
    refine MapState.cost_thread hk rfl rfl ?_
    rw [hfree, hqueue, List.map_cons, List.sum_cons]
    simp only [WorkerAt.cost]
    omega
  | decode indices j0 clip s selected hat hj hdecode =>
    refine MapState.cost_thread hk rfl rfl ?_
    rw [hat]
    simp only [WorkerAt.cost]
    omega
  | fail indices j0 clip s error hat hj hdecode =>
    refine MapState.cost_thread hk rfl rfl ?_
    rw [hat, List.length_append, List.length_singleton]
    simp only [WorkerAt.cost]
    omega
  | sum indices j0 selected clip hat =>
    refine MapState.cost_thread hk rfl rfl ?_
    rw [hat]
    simp only [WorkerAt.cost]
    omega
  | intensity indices j0 selected clip hat =>
    refine MapState.cost_thread hk rfl rfl ?_
    rw [hat]
    simp only [WorkerAt.cost]
    omega
  | done indices j0 clip hat hj =>
    refine MapState.cost_thread hk rfl rfl ?_
    rw [hat, List.length_append, List.length_singleton]
    simp only [WorkerAt.cost]
    omega

theorem MapState.MainStep.cost_lt (hstep : MapState.MainStep c threads nframes x x') :
    x'.cost threads < x.cost threads := by
  cases hstep with
  | submit g groups hmain =>
    rw [MapState.cost, MapState.cost, hmain]
    simp only [MapMain.cost, List.map_append, List.map_cons, List.map_nil, List.sum_append, List.sum_cons,
      List.sum_nil]
    omega
  | submitted hmain =>
    rw [MapState.cost, MapState.cost, hmain]
    simp only [MapMain.cost, List.map_nil, List.sum_nil]
    omega
  | collect left count clip before after hmain hresults =>
    rw [MapState.cost, MapState.cost, hmain, hresults]
    simp only [MapMain.cost, List.length_append, List.length_cons]
    omega
  | raise left error before after hmain hresults =>
    rw [MapState.cost, MapState.cost, hmain, hresults]
    simp only [MapMain.cost, List.length_append, List.length_cons]
    omega
  | collected hmain =>
    rw [MapState.cost, MapState.cost, hmain]
    simp only [MapMain.cost]
    omega
  | shutdown error hmain hqueue hfree =>
    rw [MapState.cost, MapState.cost, hmain]
    simp only [MapMain.cost]
    omega

theorem MapState.Step.cost_lt (hstep : MapState.Step E c threads nframes x x') :
    x'.cost threads < x.cost threads := by
  cases hstep with
  | worker k hk hworker => exact hworker.cost_lt hk
  | main hmain => exact hmain.cost_lt

theorem sum_groups (groups : List (List Nat)) :
    (groups.map fun g => 3 * g.length + 4).sum = 3 * groups.flatten.length + 4 * groups.length := by
  induction groups with
  | nil => rfl
  | cons g groups ih =>
    rw [List.map_cons, List.sum_cons, ih, List.flatten_cons, List.length_append, List.length_cons]
    omega

theorem MapState.cost_start (decoder : Nat → RunState t (BitVec 64)) (zero : I) :
    (MapState.start c nframes decoder zero).cost threads =
      3 * nframes + 4 * (frameGroups c.batch nframes).length + 3 := by
  have hworkers : ∑ k ∈ Finset.range threads, (WorkerAt.free (t := t)).cost = 0 :=
    Finset.sum_eq_zero fun _ _ => rfl
  change 3 + ((frameGroups c.batch nframes).map fun g => 3 * g.length + 4).sum + 0 +
    ∑ k ∈ Finset.range threads, (WorkerAt.free (t := t)).cost + 0 = _
  rw [hworkers, sum_groups, frameGroups_flatten c.batch_pos, List.length_range]
  omega

/-- From every state there is a run to the end. -/
theorem MapState.Reachable.exists_ended {decoder : Nat → RunState t (BitVec 64)} {zero : I}
    (hx : MapState.Reachable E c threads nframes decoder zero x) (hthreads : 0 < threads) :
    ∃ x' error, Relation.ReflTransGen (MapState.Step E c threads nframes) x x' ∧ x'.main = .ended error := by
  obtain ⟨x', hrun, hstuck⟩ := exists_stuck (fun _ _ hstep => MapState.Step.cost_lt hstep) x
  by_contra hnever
  obtain ⟨x'', hstep⟩ := (MapState.Reachable.pool (hx.trans hrun)).canStep hthreads
    fun error hmain => hnever ⟨x', error, hrun, hmain⟩
  exact hstuck x'' hstep

/-- No run is longer than its frames and groups ask for. -/
theorem MapState.length_run_le {decoder : Nat → RunState t (BitVec 64)} {zero : I} {run : List (MapState t I)}
    (hrun : (MapState.start c nframes decoder zero :: run).IsChain (MapState.Step E c threads nframes)) :
    run.length ≤ 3 * nframes + 4 * (frameGroups c.batch nframes).length + 3 := by
  have hsteps := length_le_measure (fun _ _ hstep => MapState.Step.cost_lt hstep) hrun
  rwa [MapState.cost_start decoder zero] at hsteps

end

/-- Whatever the chunks hold, the pool comes to its end, with no thread at work behind it; an error that it
raises is one that a decoder raised in a call of the run, and without one all frames have been counted. -/
theorem map_ends (E : Platform) (c : MapContext t fx I) {threads : Nat} (hthreads : 0 < threads)
    (nframes : Nat) (decoder : Nat → RunState t (BitVec 64)) (zero : I) :
    (∀ run : List (MapState t I), (MapState.start c nframes decoder zero :: run).IsChain
        (MapState.Step E c threads nframes) →
      run.length ≤ 3 * nframes + 4 * (frameGroups c.batch nframes).length + 3) ∧
    ∀ x, MapState.Reachable E c threads nframes decoder zero x →
      (∃ x' error, Relation.ReflTransGen (MapState.Step E c threads nframes) x x' ∧
        x'.main = .ended error) ∧
      ((∃ error, x.main = .ended error) ↔ ∀ x', ¬MapState.Step E c threads nframes x x') ∧
      ∀ error, x.main = .ended error →
        x.queue = [] ∧ (∀ k, k < threads → x.worker k = .free) ∧
        (∀ e, error = some e → ∃ y k indices j0 clip, MapState.Reachable E c threads nframes decoder zero y ∧
          Relation.ReflTransGen (MapState.Step E c threads nframes) y x ∧ k < threads ∧
          y.worker k = .loop indices j0 clip ∧ c.decode E indices j0 (y.decoder k) = .error e) ∧
        (error = none → x.results = [] ∧ x.count = nframes) := by
  refine ⟨fun run hrun => MapState.length_run_le hrun, fun x hx => ?_⟩
  have hpool := MapState.Reachable.pool hx
  refine ⟨hx.exists_ended hthreads, ⟨?_, ?_⟩, fun error hended => ?_⟩
  · rintro ⟨error, hended⟩
    exact hpool.not_step hended
  · intro hstuck
    by_contra hnever
    obtain ⟨x', hstep⟩ := hpool.canStep hthreads fun error hmain => hnever ⟨error, hmain⟩
    exact hstuck x' hstep
  · obtain ⟨hqueue, hfree⟩ := hpool.stopped error hended
    refine ⟨hqueue, hfree, fun e he => ?_, fun hnone => ?_⟩
    · subst he
      apply hx.raised
      rw [MapState.errors, hended]
      exact List.mem_cons_self
    · subst hnone
      exact hpool.counted hended

/-- The pixels 2 and 3 behind a header. -/
def twoThree : List Byte :=
  [0#8, 0#8, 0#8, 0#8, 0#8, 0#8, 0#8, 4#8, 0#8, 0#8, 0#8, 16#8, 2#8, 0#8, 3#8, 0#8]

def snakeTable : List (Option ChunkPlace) := List.replicate 4 (some ⟨0, 0, 16⟩)

theorem snakeTable_size : ∀ p ∈ snakeTable.reduceOption, p.size < 2 ^ 31 := by decide

theorem three_lt : 3 < 2 ^ 31 := by decide

/-- One chunk for all four frames, with its first pixel masked and the second one above `wtmax`. -/
def snakeContext : MapContext .i16 secondOnlyFixed ℤ where
  plan := minusOneTwoCall false .ratioRule (cscIntStep (cscLayout secondOnlyFixed.weights))
  maps := [twoThree]
  table := snakeTable
  row := snakeGeometry.row
  col := snakeGeometry.col
  wtmax := 1
  batch := 3
  intensity := fun powder => (powder 1).toInt
  size_lt := snakeTable_size
  batch_pos := Nat.succ_pos 2
  batch_lt := three_lt

theorem map_ends_snake :
    ∃ x error, MapState.Reachable .plain snakeContext 2 4 (fun _ => .filled 1#8 7#64) 0 x ∧
      x.main = .ended error ∧ x.queue = [] ∧ (error = none → x.count = 4) := by
  obtain ⟨-, hall⟩ := map_ends .plain snakeContext Nat.two_pos 4 (fun _ => .filled 1#8 7#64) 0
  obtain ⟨x, error, hrun, hended⟩ := (hall _ .refl).1
  obtain ⟨hqueue, -, -, hcount⟩ := (hall x hrun).2.2 error hended
  exact ⟨x, error, hrun, hended, hqueue, fun hnone => (hcount hnone).2⟩

end Bslz4ToSparse.Conveyor
