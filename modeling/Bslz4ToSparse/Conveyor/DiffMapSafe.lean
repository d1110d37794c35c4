import Bslz4ToSparse.Conveyor.DiffMapBatch
import Bslz4ToSparse.Conveyor.DiffMapPool
import Bslz4ToSparse.Foundation.Shares

/-!
# What the threads leave in the map

Whatever the order of the steps: which frames are still to be written, and where the lists of the others
are; and what is in the cubes and the file when the pool has come to its end.
-/

namespace Bslz4ToSparse.Conveyor

open Foundation Matrix Dot Pipeline
open Lz4 (Byte plainDecode)
open TopPixels (MultiError Selected)

variable {t : Dtype} {w : Nat} {fx : FixedPointMatrix ℚ w} {I : Type}

/-! ## What is still to be written -/

namespace WorkerAt

/-- The frames whose sums the thread has not written. -/
def unsummed (batch : Nat) : WorkerAt t → List Nat
  | .free => []
  | .loop indices j0 _ => indices.drop j0
  | .decoded indices j0 _ _ => indices.drop j0
  | .summed indices j0 _ _ => indices.drop (j0 + batch)

/-- The frames that the thread is not done with. -/
def rest : WorkerAt t → List Nat
  | .free => []
  | .loop indices j0 _ => indices.drop j0
  | .decoded indices j0 _ _ => indices.drop j0
  | .summed indices j0 _ _ => indices.drop j0

/-- What the thread has in `clip`. -/
def clip : WorkerAt t → List Clipped
  | .free => []
  | .loop _ _ clip => clip
  | .decoded _ _ _ clip => clip
  | .summed _ _ _ clip => clip

/-- The frames of a thread are frames of the map, and those it has decoded are right. -/
def Right (c : MapContext t fx I) (F : Nat → Nat → Pixel t) (nframes : Nat)
    (powder : Nat → Nat → BitVec 64) : WorkerAt t → Prop
  | .free => True
  | .loop indices _ _ => ∀ fi ∈ indices, fi < nframes
  | .decoded indices j0 selected _ | .summed indices j0 selected _ =>
      (∀ fi ∈ indices, fi < nframes) ∧ DecodedRight c F (c.batchAt indices j0) powder selected

/-- The entries that the thread is to hand in. -/
def owed (c : MapContext t fx I) (F : Nat → Nat → Pixel t) (s : WorkerAt t) : List Clipped :=
  s.clip ++ s.rest.filterMap (c.frameClipped F)

end WorkerAt

def futureClipped : Except MultiError (Nat × List Clipped) → List Clipped
  | .ok r => r.2
  | .error _ => []

namespace MapState

/-- Where the entries that are not collected are, or will come from. -/
def uncollected (c : MapContext t fx I) (F : Nat → Nat → Pixel t) (threads : Nat) (x : MapState t I) :
    List Clipped :=
  x.results.flatMap futureClipped ++ x.waiting.filterMap (c.frameClipped F) ++
    shares threads (WorkerAt.owed c F) x.worker

end MapState

/-- What holds of every state of a pool whose frames can be read. -/
structure MapInv (c : MapContext t fx I) (F : Nat → Nat → Pixel t) (threads nframes : Nat) (zero : I)
    (x : MapState t I) : Prop where
  waiting : ∀ fi ∈ x.waiting, fi < nframes
  worker : ∀ k, (x.worker k).Right c F nframes (x.decoder k).powder
  errors : x.errors = []
  sums : c.CubeWritten nframes (fun fi => c.clippedPowder (F fi)) (fun _ => 0) x.sum_cube
    (x.waiting ++ shares threads (WorkerAt.unsummed c.batch) x.worker)
  ints : c.CubeWritten nframes (fun fi => c.intensity (c.clippedPowder (F fi))) zero x.int_cube
    (x.waiting ++ shares threads WorkerAt.rest x.worker)
  clips : (x.clipped ++ x.uncollected c F threads).Perm ((List.range nframes).filterMap (c.frameClipped F))

section

variable {E : Platform} {c : MapContext t fx I} {F : Nat → Nat → Pixel t} {threads nframes : Nat} {zero : I}
  {x x' : MapState t I}

theorem MapInv.initial (decoder : Nat → RunState t (BitVec 64)) :
    MapInv c F threads nframes zero (MapState.start c nframes decoder zero) := by
  have hwaiting : (MapState.start c nframes decoder zero).waiting = List.range nframes :=
    MapState.waiting_start decoder zero
  have hall : ∀ fi, fi < nframes → ∀ more : List Nat, fi ∈
      (MapState.start c nframes decoder zero).waiting ++ more := fun fi hfi more =>
    List.mem_append_left more (hwaiting ▸ List.mem_range.mpr hfi)
  refine ⟨?_, fun k => trivial, rfl, ⟨?_, fun _ _ => rfl⟩, ⟨?_, fun _ _ => rfl⟩, ?_⟩
  · intro fi hfi
    exact List.mem_range.mp (hwaiting ▸ hfi)
  · exact fun fi hfi hmem => absurd (hall fi hfi _) hmem
  · exact fun fi hfi hmem => absurd (hall fi hfi _) hmem
  · rw [MapState.uncollected, hwaiting, shares_nil fun _ _ => rfl, List.append_nil]
    exact List.Perm.refl _

/-- Thread `k` goes on to `b`. -/
theorem MapInv.thread (h : MapInv c F threads nframes zero x) {k : Nat} (hk : k < threads) {b : WorkerAt t}
    (hworker : x'.worker = Function.update x.worker k b)
    (hdecoder : ∀ j, j ≠ k → x'.decoder j = x.decoder j)
    (hb : b.Right c F nframes (x'.decoder k).powder)
    (hmain : x'.main = x.main) (hclipped : x'.clipped = x.clipped)
    (hwaiting : ∀ fi ∈ x'.waiting, fi < nframes)
    (hresults : x'.results.filterMap futureError = x.results.filterMap futureError)
    (hsums : c.CubeWritten nframes (fun fi => c.clippedPowder (F fi)) (fun _ => 0) x'.sum_cube
      (x'.waiting ++ shares threads (WorkerAt.unsummed c.batch) x'.worker))
    (hints : c.CubeWritten nframes (fun fi => c.intensity (c.clippedPowder (F fi))) zero x'.int_cube
      (x'.waiting ++ shares threads WorkerAt.rest x'.worker))
    (howed : (x'.results.flatMap futureClipped ++ x'.waiting.filterMap (c.frameClipped F) ++
      b.owed c F).Perm (x.results.flatMap futureClipped ++ x.waiting.filterMap (c.frameClipped F) ++
        (x.worker k).owed c F)) : MapInv c F threads nframes zero x' := by
  refine ⟨hwaiting, fun j => ?_, ?_, hsums, hints, ?_⟩
  · rw [hworker]
    by_cases hj : j = k
    · rw [hj, Function.update_self]
      exact hb
    · rw [Function.update_of_ne hj, hdecoder j hj]
      exact h.worker j
  · have hsame : x'.errors = x.errors := by rw [MapState.errors, MapState.errors, hmain, hresults]
    exact hsame.trans h.errors
  · rw [hclipped]
    have hmove : (x'.uncollected c F threads).Perm (x.uncollected c F threads) := by
      rw [MapState.uncollected, MapState.uncollected, hworker]
      exact shares_move hk howed
    exact (hmove.append_left _).trans h.clips

/-- A free thread takes a group. -/
theorem MapInv.take (h : MapInv c F threads nframes zero x) {k : Nat} (hk : k < threads) {g : List Nat}
    {rest : List (List Nat)} (hfree : x.worker k = .free) (hqueue : x.queue = g :: rest) :
    MapInv c F threads nframes zero
      { x with queue := rest, worker := Function.update x.worker k (.loop g 0 []) } := by
  set x' : MapState t I := { x with queue := rest, worker := Function.update x.worker k (.loop g 0 []) }
  have hwaiting : x.waiting = g ++ x'.waiting := by
    rw [MapState.waiting, hqueue]
    rfl
  have hmove : (x'.waiting ++ g).Perm (x.waiting ++ []) := by
    rw [hwaiting, List.append_nil]
    exact List.perm_append_comm
  refine h.thread hk rfl (fun _ _ => rfl) ?_ rfl rfl ?_ rfl (h.sums.perm ?_) (h.ints.perm ?_) ?_
  · intro fi hfi
    exact h.waiting fi (hwaiting ▸ List.mem_append_left _ hfi)
  · intro fi hfi
    exact h.waiting fi (hwaiting ▸ List.mem_append_right _ hfi)
  · apply shares_move hk
    rw [hfree]
    exact hmove
  · apply shares_move hk
    rw [hfree]
    exact hmove
  · rw [hfree, hwaiting, List.filterMap_append, List.append_assoc, List.append_assoc]
    apply List.Perm.append_left
    exact List.perm_append_comm.trans (List.Perm.of_eq (List.append_nil _).symm)

/-- A batch has been decoded. -/
theorem MapInv.decoded (h : MapInv c F threads nframes zero x) {k : Nat} (hk : k < threads)
    {indices : List Nat} {j0 : Nat} {clip : List Clipped} (hat : x.worker k = .loop indices j0 clip)
    {s : RunState t (BitVec 64)} {selected : Nat → Selected t}
    (hs : DecodedRight c F (c.batchAt indices j0) s.powder selected) :
    MapInv c F threads nframes zero { x with
      decoder := Function.update x.decoder k s
      worker := Function.update x.worker k (.decoded indices j0 selected clip) } := by
  have hin := h.worker k
  rw [hat] at hin
  refine h.thread hk rfl (fun j hj => Function.update_of_ne hj _ _) ⟨hin, ?_⟩ rfl rfl h.waiting rfl
    (h.sums.perm (shares_move hk ?_)) (h.ints.perm (shares_move hk ?_)) ?_
  · dsimp only
    rw [Function.update_self]
    exact hs
  all_goals
    rw [hat]
    exact List.Perm.refl _

/-- The sums of a batch are written. -/
theorem MapInv.sum (h : MapInv c F threads nframes zero x) (hd : Distinct c.row c.col nframes) {k : Nat}
    (hk : k < threads) {indices : List Nat} {j0 : Nat} {selected : Nat → Selected t} {clip : List Clipped}
    (hat : x.worker k = .decoded indices j0 selected clip) :
    MapInv c F threads nframes zero { x with
      sum_cube := assignRows (c.cells (c.batchAt indices j0)) (x.decoder k).powder x.sum_cube
      worker := Function.update x.worker k (.summed indices j0 selected clip) } := by
  have hright := h.worker k
  rw [hat] at hright
  obtain ⟨hin, hdecoded⟩ := hright
  refine h.thread hk rfl (fun _ _ => rfl) ⟨hin, hdecoded⟩ rfl rfl h.waiting rfl
    (h.sums.assign hd (fun fi hfi => hin fi (c.mem_batchAt hfi)) hdecoded.powder ?_)
    (h.ints.perm (shares_move hk ?_)) ?_
  · rw [← List.append_assoc]
    apply shares_move hk
    rw [hat]
    exact c.batch_move indices j0 x.waiting
  · rw [hat]
    exact List.Perm.refl _
  · rw [hat]
    exact List.Perm.refl _

/-- The intensities of a batch are written, and its entries made. -/
theorem MapInv.intensity (h : MapInv c F threads nframes zero x) (hd : Distinct c.row c.col nframes)
    {k : Nat} (hk : k < threads) {indices : List Nat} {j0 : Nat} {selected : Nat → Selected t}
    {clip : List Clipped} (hat : x.worker k = .summed indices j0 selected clip) :
    MapInv c F threads nframes zero { x with
      int_cube := assignRows (c.cells (c.batchAt indices j0))
        (fun i => c.intensity ((x.decoder k).powder i)) x.int_cube
      worker := Function.update x.worker k
        (.loop indices (j0 + c.batch) (clip ++ batchClipped (c.batchAt indices j0) selected)) } := by
  have hright := h.worker k
  rw [hat] at hright
  obtain ⟨hin, hdecoded⟩ := hright
  have hrows : ∀ i fi, (c.batchAt indices j0)[i]? = some fi →
      (fun i => c.intensity ((x.decoder k).powder i)) i = c.intensity (c.clippedPowder (F fi)) :=
    fun i fi hi => congrArg c.intensity (hdecoded.powder i fi hi)
  refine h.thread hk rfl (fun _ _ => rfl) hin rfl rfl h.waiting rfl
    (h.sums.perm (shares_move hk ?_))
    (h.ints.assign hd (fun fi hfi => hin fi (c.mem_batchAt hfi)) hrows ?_) ?_
  · rw [hat]
    exact List.Perm.refl _
  · rw [← List.append_assoc]
    apply shares_move hk
    rw [hat]
    exact c.batch_move indices j0 x.waiting
  · rw [hat]
    apply List.Perm.append_left
    apply List.Perm.of_eq
    change clip ++ batchClipped (c.batchAt indices j0) selected ++
      (indices.drop (j0 + c.batch)).filterMap (c.frameClipped F) =
        clip ++ (indices.drop j0).filterMap (c.frameClipped F)
    rw [batchClipped_eq hdecoded, ← c.batchAt_append indices j0, List.filterMap_append, List.append_assoc]

/-- A group is done. -/
theorem MapInv.done (h : MapInv c F threads nframes zero x) {k : Nat} (hk : k < threads)
    {indices : List Nat} {j0 : Nat} {clip : List Clipped} (hat : x.worker k = .loop indices j0 clip)
    (hj : indices.length ≤ j0) :
    MapInv c F threads nframes zero { x with
      worker := Function.update x.worker k .free
      results := x.results ++ [.ok (indices.length, clip)] } := by
  have hover : indices.drop j0 = [] := List.drop_eq_nil_of_le hj
  have hmove : (x.waiting ++ ([] : List Nat)).Perm (x.waiting ++ indices.drop j0) := by rw [hover]
  refine h.thread hk rfl (fun _ _ => rfl) trivial rfl rfl h.waiting ?_
    (h.sums.perm (shares_move hk ?_)) (h.ints.perm (shares_move hk ?_)) ?_
  · exact List.filterMap_append.trans (List.append_nil _)
  · rw [hat]
    exact hmove
  · rw [hat]
    exact hmove
  · rw [hat]
    change ((x.results ++ [Except.ok (indices.length, clip)]).flatMap futureClipped ++
      x.waiting.filterMap (c.frameClipped F) ++ []).Perm (x.results.flatMap futureClipped ++
        x.waiting.filterMap (c.frameClipped F) ++ (clip ++ (indices.drop j0).filterMap (c.frameClipped F)))
    rw [hover, List.filterMap_nil, List.append_nil, List.append_nil, List.flatMap_append,
      List.flatMap_singleton, List.append_assoc, List.append_assoc]
    exact List.Perm.append_left _ List.perm_append_comm

/-- The main thread writes nothing into the cubes, and takes over what the futures bring. -/
theorem MapState.MainStep.clips_perm (hstep : MapState.MainStep c threads nframes x x') (hx : x.errors = []) :
    (x'.clipped ++ x'.results.flatMap futureClipped).Perm (x.clipped ++ x.results.flatMap futureClipped) := by
  cases hstep with
  | collect left count clip before after hmain hresults =>
    rw [hresults, List.flatMap_append, List.flatMap_append, List.flatMap_cons, List.append_assoc]
    apply List.Perm.append_left
    rw [← List.append_assoc, ← List.append_assoc]
    exact List.perm_append_comm.append_right _
  | raise left error before after hmain hresults =>
    have hmem : error ∈ x.errors := by
      rw [MapState.errors, hresults, List.filterMap_append]
      exact List.mem_append_right _ (List.mem_append_right _ List.mem_cons_self)
    rw [hx] at hmem
    cases hmem
  | submit g groups hmain => exact List.Perm.refl _
  | submitted hmain => exact List.Perm.refl _
  | collected hmain => exact List.Perm.refl _
  | shutdown error hmain hqueue hfree => exact List.Perm.refl _

theorem MapState.MainStep.cubes_eq (hstep : MapState.MainStep c threads nframes x x') :
    x'.decoder = x.decoder ∧ x'.sum_cube = x.sum_cube ∧ x'.int_cube = x.int_cube := by
  cases hstep <;> exact ⟨rfl, rfl, rfl⟩

/-- The main thread goes on. -/
theorem MapInv.main (h : MapInv c F threads nframes zero x)
    (hstep : MapState.MainStep c threads nframes x x') : MapInv c F threads nframes zero x' := by
  have hwaiting := hstep.waiting_eq
  have hworker := hstep.worker_eq
  have hclips := hstep.clips_perm h.errors
  have herrors := hstep.errors_perm
  obtain ⟨hdecoder, hsum, hint⟩ := hstep.cubes_eq
  constructor
  · rw [hwaiting]
    exact h.waiting
  · rw [hworker, hdecoder]
    exact h.worker
  · rw [h.errors] at herrors
    exact List.perm_nil.mp herrors
  · rw [hwaiting, hworker, hsum]
    exact h.sums
  · rw [hwaiting, hworker, hint]
    exact h.ints
  · apply List.Perm.trans ?_ h.clips
    rw [MapState.uncollected, MapState.uncollected, hwaiting, hworker, List.append_assoc, List.append_assoc,
      ← List.append_assoc, ← List.append_assoc x.clipped]
    exact hclips.append_right _

/-- All frames are in the cubes and the lists. -/
structure MapDone (c : MapContext t fx I) (F : Nat → Nat → Pixel t) (nframes : Nat) (zero : I)
    (x : MapState t I) : Prop where
  sums : c.CubeWritten nframes (fun fi => c.clippedPowder (F fi)) (fun _ => 0) x.sum_cube []
  ints : c.CubeWritten nframes (fun fi => c.intensity (c.clippedPowder (F fi))) zero x.int_cube []
  clips : x.clipped.Perm ((List.range nframes).filterMap (c.frameClipped F))

/-- At the end nothing is on its way. -/
theorem MapInv.settled (h : MapInv c F threads nframes zero x) (hpool : PoolInv c threads nframes x)
    {error : Option MultiError} (hended : x.main = .ended error) :
    error = none ∧ MapDone c F nframes zero x := by
  have herror : error = none := by
    have herrors := h.errors
    rw [MapState.errors, hended, List.append_eq_nil_iff] at herrors
    exact Option.toList_eq_nil_iff.mp herrors.1
  subst herror
  obtain ⟨-, hfree⟩ := hpool.stopped none hended
  have hwaiting := hpool.waiting_ended hended
  have hresults := (hpool.counted hended).1
  have hnone : ∀ {α : Type} (f : WorkerAt t → List α), f .free = [] → shares threads f x.worker = [] :=
    fun f hf => shares_nil fun k hk => by rw [hfree k hk, hf]
  have hsums := h.sums
  have hints := h.ints
  have hclips := h.clips
  rw [hwaiting, hnone _ rfl] at hsums hints
  rw [MapState.uncollected, hwaiting, hresults, hnone _ rfl, List.flatMap_nil, List.filterMap_nil,
    List.append_nil, List.append_nil, List.append_nil] at hclips
  exact ⟨rfl, hsums, hints, hclips⟩

end

/-! ## Every state -/

section

variable {E : Platform} {c : MapContext t fx I} {blocksize threads nframes : Nat} {F : Nat → Nat → Pixel t}
  {zero : I} {x x' : MapState t I}
  (hK : E.kernels.Inverse)
  (hlz4 : ∀ src planes, plainDecode planes.length src = some planes →
    E.codecs.lz4DecompressSafe src planes.length = some planes)
  (ht : t.isFloat = false) (hu : t ≠ .u64)
  (h : c.Readable E blocksize nframes F)

include hK hlz4 ht hu h

theorem MapInv.step (hinv : MapInv c F threads nframes zero x) (hd : Distinct c.row c.col nframes)
    (hstep : MapState.Step E c threads nframes x x') : MapInv c F threads nframes zero x' := by
  cases hstep with
  | main hmain => exact hinv.main hmain
  | worker k hk hworker =>
    cases hworker with
    | take g rest hfree hqueue => exact hinv.take hk hfree hqueue
    | decode indices j0 clip s selected hat hj hdecode =>
      have hin := hinv.worker k
      rw [hat] at hin
      obtain ⟨s', selected', hok, hright⟩ := decode_ok hK hlz4 ht hu h hin hj (x.decoder k)
      obtain ⟨rfl, rfl⟩ := Prod.mk.inj (Except.ok.inj (hdecode.symm.trans hok))
      exact hinv.decoded hk hat hright
    | fail indices j0 clip s error hat hj hdecode =>
      have hin := hinv.worker k
      rw [hat] at hin
      obtain ⟨s', selected', hok, -⟩ := decode_ok hK hlz4 ht hu h hin hj (x.decoder k)
      cases hdecode.symm.trans hok
    | sum indices j0 selected clip hat => exact hinv.sum hd hk hat
    | intensity indices j0 selected clip hat => exact hinv.intensity hd hk hat
    | done indices j0 clip hat hj => exact hinv.done hk hat hj

theorem MapState.Reachable.inv (hd : Distinct c.row c.col nframes) {decoder : Nat → RunState t (BitVec 64)}
    (hx : MapState.Reachable E c threads nframes decoder zero x) : MapInv c F threads nframes zero x := by
  induction hx with
  | refl => exact MapInv.initial decoder
  | tail _ hstep ih => exact ih.step hK hlz4 ht hu h hd hstep

end

/-! ## The file -/

theorem frameClipped_frame {c : MapContext t fx I} {F : Nat → Nat → Pixel t} {fi : Nat} {e : Clipped}
    (he : c.frameClipped F fi = some e) : e.frame = fi := by
  unfold MapContext.frameClipped at he
  split at he
  · cases he
  · exact (congrArg Clipped.frame (Option.some.inj he)).symm

/-- Sorting leaves no trace of the order in which the groups were done. -/
theorem sortClipped_eq {c : MapContext t fx I} {F : Nat → Nat → Pixel t} {nframes : Nat}
    {clipped : List Clipped} (h : clipped.Perm ((List.range nframes).filterMap (c.frameClipped F))) :
    sortClipped clipped = (List.range nframes).filterMap (c.frameClipped F) := by
  have hlt : ((List.range nframes).filterMap (c.frameClipped F)).Pairwise fun a b => a.frame < b.frame := by
    apply List.Pairwise.filterMap _ ?_ List.pairwise_lt_range
    intro fi fj hij a ha b hb
    rw [frameClipped_frame ha, frameClipped_frame hb]
    exact hij
  have hsorted : (sortClipped clipped).Pairwise fun a b => a.frame ≤ b.frame := by
    have hmerge : (sortClipped clipped).Pairwise fun a b => decide (a.frame ≤ b.frame) = true :=
      List.pairwise_mergeSort (fun a b c hab hbc  =>
          decide_eq_true ((of_decide_eq_true hab).trans (of_decide_eq_true hbc)))
        (fun a b => by rw [Bool.or_eq_true, decide_eq_true_iff, decide_eq_true_iff]; exact Nat.le_total _ _)
        clipped
    exact hmerge.imp of_decide_eq_true
  have hperm : (sortClipped clipped).Perm ((List.range nframes).filterMap (c.frameClipped F)) :=
    (List.mergeSort_perm _ _).trans h
  apply List.Perm.eq_of_pairwise ?_ hsorted (hlt.imp Nat.le_of_lt) hperm
  intro a b ha hb hab hba
  obtain ⟨fi, -, hfi⟩ := List.mem_filterMap.mp (hperm.mem_iff.mp ha)
  obtain ⟨fj, -, hfj⟩ := List.mem_filterMap.mp hb
  have hframe := Nat.le_antisymm hab hba
  rw [frameClipped_frame hfi, frameClipped_frame hfj] at hframe
  subst hframe
  exact Option.some.inj (hfi.symm.trans hfj)

/-- The pixels above `wtmax` of all frames, in the order of the frames. -/
def MapContext.hotEntries (c : MapContext t fx I) (F : Nat → Nat → Pixel t) (fis : List Nat) :
    List (Nat × Nat × BitVec 64) :=
  fis.flatMap fun fi => (c.hotPixels (F fi)).map fun e => (fi, e.2, astypeInt64 e.1)

/-- The three arrays are parallel, with an entry for each of these pixels. -/
theorem clippedArrays_frames (c : MapContext t fx I) (F : Nat → Nat → Pixel t) (fis : List Nat) :
    clippedArrays (fis.filterMap (c.frameClipped F)) = ((c.hotEntries F fis).map Prod.fst,
      (c.hotEntries F fis).map fun x => x.2.1, (c.hotEntries F fis).map fun x => x.2.2) := by
  induction fis with
  | nil => rfl
  | cons fi fis ih =>
    have hcons : c.hotEntries F (fi :: fis) =
        ((c.hotPixels (F fi)).map fun e => (fi, e.2, astypeInt64 e.1)) ++ c.hotEntries F fis := rfl
    obtain ⟨hframe, hrest⟩ := Prod.mk.inj ih
    obtain ⟨hindex, hvalue⟩ := Prod.mk.inj hrest
    by_cases hnone : (c.hotPixels (F fi)).isEmpty = true
    · rw [List.filterMap_cons, MapContext.frameClipped, if_pos hnone, ih, hcons, List.isEmpty_iff.mp hnone]
      rfl
    · have hsome : c.frameClipped F fi = some ⟨fi, (c.hotPixels (F fi)).map Prod.snd,
          (c.hotPixels (F fi)).map fun e => astypeInt64 e.1⟩ := by
        rw [MapContext.frameClipped, if_neg hnone]
      rw [List.filterMap_cons_some hsome, hcons, clippedArrays, List.flatMap_cons, List.flatMap_cons,
        List.flatMap_cons, hframe, hindex, hvalue, List.map_append, List.map_append, List.map_append,
        List.map_map, List.map_map, List.map_map, List.length_map, ← List.map_const']
      rfl

/-- A frame of the virtual dataset is the row of its cell. -/
theorem readFrame_placed {β : Type} {ms : List FrameMapping} {row col : List Nat} {n : Nat}
    (hms : ms.flatMap FrameMapping.pairs = placed row col 0 n) (cube : Nat × Nat → β) (fill : β) {fi : Nat}
    (hfi : fi < n) : readFrame ms cube fill fi = cube (row.getD fi 0, col.getD fi 0) := by
  have hfind : (List.range' 0 n).find? (fun k => k == fi) = some fi := by
    have hbefore : ∀ j, 0 ≤ j → j < fi → (!(j == fi)) = true := by
      intro j _ hj
      rw [beq_eq_false_iff_ne.mpr hj.ne]
      rfl
    have hmem : fi ∈ List.range' 0 n := List.mem_range'_1.mpr ⟨Nat.zero_le fi, by omega⟩
    exact List.find?_range'_eq_some.mpr ⟨beq_self_eq_true fi, hmem, hbefore⟩
  have hpair : (placed row col 0 n).find? (fun x => x.1 == fi) =
      some (fi, row.getD fi 0, col.getD fi 0) := by
    rw [placed, List.find?_map]
    change ((List.range' 0 n).find? fun k => k == fi).map _ = _
    rw [hfind]
    rfl
  rw [readFrame, hms, hpair]

/-- The chunk of a frame lies where its source keeps it. -/
theorem MapContext.chunk_eq {c : MapContext t fx I} {locate : Locate} {sources : List ChunkSource}
    {nframes : Nat} {files : List String} (hopen : openFrames locate sources nframes = .ok (files, c.table))
    {content : String → List Byte} (hmaps : c.maps = files.map content) {fi : Nat} (hfi : fi < nframes) :
    ∃ s o size, lastSource sources fi = some s ∧ s.place locate fi = some (o, size) ∧
      c.chunk fi = slice (content s.fname) o size := by
  obtain ⟨s, hs, m, o, size, hrow, hplace, hmap⟩ := openFrames_tabled hopen hfi
  have hbytes : (files.map content).getD m [] = content s.fname := by
    rw [List.getD_eq_getElem?_getD, List.getElem?_map, hmap]
    rfl
  have hchunk : c.chunk fi = slice (content s.fname) o size := by
    rw [MapContext.chunk, hrow, hmaps]
    exact congrArg (slice · o size) hbytes
  exact ⟨s, o, size, hs, hplace, hchunk⟩

/-! ## The map -/

section

variable {E : Platform} {c : MapContext t fx I} {blocksize threads : Nat} {F : Nat → Nat → Pixel t}
  {e : ScanEntry} {fast slow : Option String} {mapShape : Option (ℤ × ℤ)} {g : MapGeometry}
  {locate : Locate} {sources : List ChunkSource} {files : List String} {content : String → List Byte}

/-- Where the scan is accepted and its frames can be read, the pool comes to its end without an error,
whatever the order in which the threads go on; and the file then has of every frame the powder and the
intensity of its pixels clipped to `wtmax`, and the list of those above. Cells without a frame are zero. -/
theorem map_exact (hgeometry : blissGeometry e fast slow mapShape = .ok g) (hrow : c.row = g.row)
    (hcol : c.col = g.col) (hopen : openFrames locate sources g.n_points = .ok (files, c.table))
    (hmaps : c.maps = files.map content)
    (hchunks : ∀ fi, fi < g.n_points → ∀ s o size, lastSource sources fi = some s →
      s.place locate fi = some (o, size) →
        Encodes E.codecs c.plan.pipe.decode fx.nm.npix blocksize (F fi) (slice (content s.fname) o size))
    (hplanned : c.Planned blocksize g.n_points F) (hK : E.kernels.Inverse)
    (hlz4 : ∀ src planes, plainDecode planes.length src = some planes →
      E.codecs.lz4DecompressSafe src planes.length = some planes)
    (ht : t.isFloat = false) (hu : t ≠ .u64) (hthreads : 0 < threads)
    (decoder : Nat → RunState t (BitVec 64)) (zero : I) {x : MapState t I}
    (hx : MapState.Reachable E c threads g.n_points decoder zero x) :
    (∃ x', Relation.ReflTransGen (MapState.Step E c threads g.n_points) x x' ∧ x'.main = .ended none) ∧
      ∀ error, x.main = .ended error → error = none ∧
        (∃ ms, cubeFrameVds g.row g.col (g.row.length + 1) = some ms ∧ ∀ fi, fi < g.n_points →
          readFrame ms x.sum_cube (fun _ => 0) fi = c.clippedPowder (F fi) ∧
            readFrame ms x.int_cube zero fi = c.intensity (c.clippedPowder (F fi))) ∧
        (∀ r cc, g.frameAt r cc = -1 → x.sum_cube (r, cc) = (fun _ => 0) ∧ x.int_cube (r, cc) = zero) ∧
        clippedArrays (sortClipped x.clipped) =
          let hot := c.hotEntries F (List.range g.n_points)
          (hot.map Prod.fst, hot.map fun x => x.2.1, hot.map fun x => x.2.2) := by
  have hplaced := MapGeometry.placed_of_ok hgeometry
  have hd : Distinct c.row c.col g.n_points := by
    rw [hrow, hcol]
    exact hplaced.distinct
  have hencoded : ∀ fi, fi < g.n_points →
      Encodes E.codecs c.plan.pipe.decode fx.nm.npix blocksize (F fi) (c.chunk fi) := by
    intro fi hfi
    obtain ⟨s, o, size, hs, hplace, hchunk⟩ := MapContext.chunk_eq hopen hmaps hfi
    rw [hchunk]
    exact hchunks fi hfi s o size hs hplace
  have hreadable : c.Readable E blocksize g.n_points F := ⟨hplanned, hencoded⟩
  have hsettled : ∀ x error, MapState.Reachable E c threads g.n_points decoder zero x →
      x.main = .ended error → error = none ∧ MapDone c F g.n_points zero x := by
    intro x error hx hended
    have hinv := MapState.Reachable.inv hK hlz4 ht hu hreadable hd hx
    exact hinv.settled (MapState.Reachable.pool hx) hended
  refine ⟨?_, fun error hended => ?_⟩
  · obtain ⟨x', error, hrun, hended⟩ := hx.exists_ended hthreads
    obtain ⟨rfl, -⟩ := hsettled x' error (hx.trans hrun) hended
    exact ⟨x', hrun, hended⟩
  obtain ⟨rfl, hsums, hints, hclips⟩ := hsettled x error hx hended
  have hcell : ∀ fi, c.cell fi = (g.row.getD fi 0, g.col.getD fi 0) := by
    intro fi
    rw [MapContext.cell, hrow, hcol]
  have hlen : g.row.length = g.col.length := hplaced.length_row.trans hplaced.length_col.symm
  obtain ⟨ms, hms, -, hpairs⟩ := frameMappings_placed hlen (g.row.length + 1) 0 (by omega) (Nat.zero_le _)
  rw [Nat.sub_zero, hplaced.length_row] at hpairs
  refine ⟨rfl, ⟨ms, hms, fun fi hfi => ⟨?_, ?_⟩⟩, fun r cc hempty => ?_, ?_⟩
  · rw [readFrame_placed hpairs _ _ hfi, ← hcell]
    exact hsums.frame fi hfi List.not_mem_nil
  · rw [readFrame_placed hpairs _ _ hfi, ← hcell]
    exact hints.frame fi hfi List.not_mem_nil
  · have hno : ∀ fi, fi < g.n_points → c.cell fi ≠ (r, cc) := by
      intro fi hfi heq
      rw [hcell] at heq
      obtain ⟨rfl, rfl⟩ := Prod.mk.inj heq
      have hback := hplaced.frameAt fi hfi
      omega
    exact ⟨hsums.other _ hno, hints.other _ hno⟩
  · rw [sortClipped_eq hclips]
    exact clippedArrays_frames c F _

end

def rising : Nat → Pixel .i16 := fun p => BitVec.ofNat 16 (p + 2)

theorem twoThree_encodes (C : Steps.Codecs) : Encodes C .lz4Stock 2 16 rising twoThree := by
  have hsplit : twoThree = twoThree.take 12 ++ ([] : List (List Byte)).flatMap sized ++
      pixelBytes rising (2 - rawElems .i16 2 16) (rawElems .i16 2 16) := by decide +kernel
  rw [hsplit]
  exact .chunk _ [] rfl (by decide) (by decide) (by decide) fun b src hsrc => by cases hsrc

/-- One file, with one chunk that is read for all four frames. -/
def snakeSource : ChunkSource := ⟨"scan.h5", "data", 0, 0, 4⟩

def snakeLocate : Locate := fun _ _ => .ok fun _ => some (0, 16)

theorem snake_open : openFrames snakeLocate [snakeSource] 4 = .ok (["scan.h5"], snakeTable) := by
  decide +kernel

theorem snakeContext_planned : snakeContext.Planned 16 4 fun _ => rising where
  whole := by decide
  compressed := rfl
  prepared := by
    have hadmissible : Admissible snakeContext.plan 16 := minusOneTwo_admissible false _ fun _ => rfl
    exact ⟨hadmissible.small, hadmissible.layout, hadmissible.workspace⟩
  dot := ⟨_, _, rfl, .csc⟩
  masked := secondOnlyFixed_masked
  maskFits := fun h => by cases h
  wtmax := by decide
  guarded := fun cut hragged => by cases hragged.value

theorem map_exact_snake :
    ∃ x : MapState .i16 ℤ, MapState.Reachable .plain snakeContext 2 4 (fun _ => .filled 1#8 7#64) 0 x ∧
      x.main = .ended none ∧
      clippedArrays (sortClipped x.clipped) = ([0, 1, 2, 3], [1, 1, 1, 1], [3, 3, 3, 3]) ∧
      ∃ ms, cubeFrameVds [0, 0, 1, 1] [0, 1, 1, 0] 5 = some ms ∧
        ∀ fi, fi < 4 → readFrame ms x.int_cube 0 fi = 4 := by
  have hexact := fun x (hx : MapState.Reachable .plain snakeContext 2 4 (fun _ => .filled 1#8 7#64) 0 x) =>
    map_exact snakeScan_geometry rfl rfl snake_open
      (show snakeContext.maps = ["scan.h5"].map fun _ => twoThree from rfl)
      (fun fi hfi s o size _ hplace => by cases hplace; exact twoThree_encodes _) snakeContext_planned
      Steps.Kernels.scalarOnly_inverse (fun _ _ h => h) rfl (by decide) Nat.two_pos _ 0 hx
  obtain ⟨x, hrun, hended⟩ := (hexact _ .refl).1
  obtain ⟨-, ⟨ms, hms, hread⟩, -, hsorted⟩ := (hexact x hrun).2 none hended
  refine ⟨x, hrun, hended, hsorted.trans (by decide +kernel), ms, hms, fun fi hfi => ?_⟩
  rw [(hread fi hfi).2]
  decide +kernel

end Bslz4ToSparse.Conveyor
