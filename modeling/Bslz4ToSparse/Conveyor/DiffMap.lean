import Bslz4ToSparse.Conveyor.Clip
import Bslz4ToSparse.Conveyor.FrameRuns
import Bslz4ToSparse.Conveyor.Geometry
import Bslz4ToSparse.Conveyor.OpenFrames
import Bslz4ToSparse.Foundation.Tiles
import Bslz4ToSparse.TopPixels.Multi
import Mathlib.Data.List.ReduceOption

/-!
# The diffraction map (src/conveyor/diffmap_integrate.py)

Groups of frames go to a pool of threads; each thread decodes with its own decoder, clips the exact powder
and writes the cells of its frames into the cubes. The main thread collects the lists of clipped pixels as
the groups are done.
-/

namespace Bslz4ToSparse.Conveyor

open Foundation Matrix Dot Pipeline
open Lz4 (Byte)
open TopPixels (multi MultiError Selected)

/-! ## The workers -/

/-- The pixels of a frame above `wtmax`. -/
structure Clipped where
  frame : Nat
  index : List Nat
  value : List (BitVec 64)
  deriving DecidableEq, Repr

/-- `map[o:o + s]`. -/
def slice (bytes : List Byte) (o s : Nat) : List Byte := (bytes.drop o).take s

/-- `_CTX`. A thread's decoder is the call of its plan but for the chunks and the cut; `intensity` is that of
the integrator, for a row. -/
structure MapContext (t : Dtype) {w : Nat} (fx : FixedPointMatrix ℚ w) (I : Type) where
  plan : Call t fx.nm.npix (BitVec 64)
  maps : List (List Byte)
  table : List (Option ChunkPlace)
  row : List Nat
  col : List Nat
  wtmax : ℤ
  batch : Nat
  intensity : (Nat → BitVec 64) → I
  size_lt : ∀ p ∈ table.reduceOption, p.size < 2 ^ 31
  batch_pos : 0 < batch
  batch_lt : batch < 2 ^ 31

variable {t : Dtype} {w : Nat} {fx : FixedPointMatrix ℚ w} {I : Type}

namespace MapContext

variable (c : MapContext t fx I)

/-- `maps[table[fi, 0]][table[fi, 1]:table[fi, 1] + table[fi, 2]]`. -/
def chunk (fi : Nat) : List Byte :=
  match c.table.getD fi none with
  | some p => slice (c.maps.getD p.map []) p.offset p.size
  | none => []

theorem length_chunk_lt (fi : Nat) : (c.chunk fi).length < 2 ^ 31 := by
  unfold chunk
  split
  · next p hp =>
    have hmem : p ∈ c.table.reduceOption := by
      rw [List.reduceOption_mem_iff, ← hp]
      by_cases hfi : fi < c.table.length
      · rw [List.getD_eq_getElem _ _ hfi]
        exact List.getElem_mem hfi
      · rw [List.getD_eq_default _ _ (not_lt.mp hfi)] at hp
        cases hp
    have hsize := c.size_lt p hmem
    rw [slice, List.length_take]
    omega
  · decide

/-- `indices[j0:j0 + batch]`. -/
def batchAt (indices : List Nat) (j0 : Nat) : List Nat := (indices.drop j0).take c.batch

theorem length_batchAt_lt (indices : List Nat) (j0 : Nat) : (c.batchAt indices j0).length < 2 ^ 31 := by
  have h := c.batch_lt
  rw [batchAt, List.length_take]
  omega

def call (indices : List Nat) (j0 : Nat) : Call t fx.nm.npix (BitVec 64) :=
  { c.plan with
    chunks := ⟨(c.batchAt indices j0).length, fun k => c.chunk ((c.batchAt indices j0).getD k 0),
      c.length_batchAt_lt indices j0, fun _ => c.length_chunk_lt _⟩ }

/-- `clip_exact_powder` in place, on the powder of a decoder. -/
def clipBatch (n : Nat) (r : RunState t (BitVec 64)) (selected : Nat → Selected t) :
    RunState t (BitVec 64) :=
  let lists := (List.range n).map fun i => (selected i).kept.map Prod.swap
  { r with powder := clipExactPowder r.powder lists c.wtmax fx.toScipy }

/-- `d.multi(chunks, wtmax)`, clipped: what is then in the thread's decoder, and the pixels of the frames. -/
def decode (E : Platform) (indices : List Nat) (j0 : Nat) (s : RunState t (BitVec 64)) :
    Except MultiError (RunState t (BitVec 64) × (Nat → Selected t)) := do
  let (r, selected) ← multi E (c.call indices j0) none none [.int c.wtmax] s
  return (c.clipBatch (c.batchAt indices j0).length r selected, selected)

/-- `ctx["row"][idxs], ctx["col"][idxs]`. -/
def cells (idxs : List Nat) : List (Nat × Nat) := idxs.map fun fi => (c.row.getD fi 0, c.col.getD fi 0)

end MapContext

/-- `cube[r, c] = rows`. -/
def assignRows {β : Type} (cells : List (Nat × Nat)) (rows : Nat → β) (cube : Nat × Nat → β) :
    Nat × Nat → β :=
  cells.zipIdx.foldl (fun cube x => Function.update cube x.1 (rows x.2)) cube

/-- What a batch adds to `clip`. -/
def batchClipped (idxs : List Nat) (selected : Nat → Selected t) : List Clipped :=
  idxs.zipIdx.filterMap fun x =>
    if (selected x.2).kept.isEmpty then none
    else some ⟨x.1, (selected x.2).kept.map Prod.snd, (selected x.2).kept.map fun e => astypeInt64 e.1⟩

/-- Where a thread is in `_integrate_indices`. -/
inductive WorkerAt (t : Dtype) where
  | free
  | loop (indices : List Nat) (j0 : Nat) (clip : List Clipped)
  | decoded (indices : List Nat) (j0 : Nat) (selected : Nat → Selected t) (clip : List Clipped)
  | summed (indices : List Nat) (j0 : Nat) (selected : Nat → Selected t) (clip : List Clipped)

/-- Where the main thread is: `left` futures are still to come, then it waits for the threads. -/
inductive MapMain where
  | submitting (groups : List (List Nat))
  | collecting (left : Nat)
  | leaving (error : Option MultiError)
  | ended (error : Option MultiError)

structure MapState (t : Dtype) (I : Type) where
  main : MapMain
  queue : List (List Nat)
  decoder : Nat → RunState t (BitVec 64)
  worker : Nat → WorkerAt t
  sum_cube : Nat × Nat → Nat → BitVec 64
  int_cube : Nat × Nat → I
  results : List (Except MultiError (Nat × List Clipped))     -- of the futures that are done
  clipped : List Clipped
  count : Nat

/-- The groups that are submitted. -/
def frameGroups (batch nframes : Nat) : List (List Nat) :=
  let group := batch * max 1 (32 / batch)
  (strided 0 nframes group).map fun i => List.range' i (min (i + group) nframes - i)

namespace MapState

variable (E : Platform) (c : MapContext t fx I)

/-- Thread `k` goes on. A decoder whose call fails is left in any state. -/
inductive WorkerStep (k : Nat) (x : MapState t I) : MapState t I → Prop
  | take (g : List Nat) (rest : List (List Nat)) : x.worker k = .free → x.queue = g :: rest →
      WorkerStep k x { x with queue := rest, worker := Function.update x.worker k (.loop g 0 []) }
  | decode (indices : List Nat) (j0 : Nat) (clip : List Clipped) (s : RunState t (BitVec 64))
      (selected : Nat → Selected t) : x.worker k = .loop indices j0 clip → j0 < indices.length →
      c.decode E indices j0 (x.decoder k) = .ok (s, selected) →
      WorkerStep k x { x with
        decoder := Function.update x.decoder k s
        worker := Function.update x.worker k (.decoded indices j0 selected clip) }
  | fail (indices : List Nat) (j0 : Nat) (clip : List Clipped) (s : RunState t (BitVec 64))
      (error : MultiError) : x.worker k = .loop indices j0 clip → j0 < indices.length →
      c.decode E indices j0 (x.decoder k) = .error error →
      WorkerStep k x { x with
        decoder := Function.update x.decoder k s
        worker := Function.update x.worker k .free
        results := x.results ++ [.error error] }
  | sum (indices : List Nat) (j0 : Nat) (selected : Nat → Selected t) (clip : List Clipped) :
      x.worker k = .decoded indices j0 selected clip →
      WorkerStep k x { x with
        sum_cube := assignRows (c.cells (c.batchAt indices j0)) (x.decoder k).powder x.sum_cube
        worker := Function.update x.worker k (.summed indices j0 selected clip) }
  | intensity (indices : List Nat) (j0 : Nat) (selected : Nat → Selected t) (clip : List Clipped) :
      x.worker k = .summed indices j0 selected clip →
      WorkerStep k x { x with
        int_cube := assignRows (c.cells (c.batchAt indices j0))
          (fun i => c.intensity ((x.decoder k).powder i)) x.int_cube
        worker := Function.update x.worker k
          (.loop indices (j0 + c.batch) (clip ++ batchClipped (c.batchAt indices j0) selected)) }
  | done (indices : List Nat) (j0 : Nat) (clip : List Clipped) : x.worker k = .loop indices j0 clip →
      indices.length ≤ j0 →
      WorkerStep k x { x with
        worker := Function.update x.worker k .free
        results := x.results ++ [.ok (indices.length, clip)] }

/-- The main thread goes on. -/
inductive MainStep (threads nframes : Nat) (x : MapState t I) : MapState t I → Prop
  | submit (g : List Nat) (groups : List (List Nat)) : x.main = .submitting (g :: groups) →
      MainStep threads nframes x { x with main := .submitting groups, queue := x.queue ++ [g] }
  | submitted : x.main = .submitting [] →
      MainStep threads nframes x { x with main := .collecting (frameGroups c.batch nframes).length }
  | collect (left count : Nat) (clip : List Clipped)
      (before after : List (Except MultiError (Nat × List Clipped))) : x.main = .collecting (left + 1) →
      x.results = before ++ .ok (count, clip) :: after →
      MainStep threads nframes x { x with
        main := .collecting left
        results := before ++ after
        clipped := x.clipped ++ clip
        count := x.count + count }
  | raise (left : Nat) (error : MultiError) (before after : List (Except MultiError (Nat × List Clipped))) :
      x.main = .collecting (left + 1) → x.results = before ++ .error error :: after →
      MainStep threads nframes x { x with main := .leaving (some error), results := before ++ after }
  | collected : x.main = .collecting 0 → MainStep threads nframes x { x with main := .leaving none }
  | shutdown (error : Option MultiError) : x.main = .leaving error → x.queue = [] →
      (∀ k, k < threads → x.worker k = .free) →
      MainStep threads nframes x { x with main := .ended error }

/-- One step of the pool of `threads` threads. -/
inductive Step (threads nframes : Nat) (x x' : MapState t I) : Prop
  | worker (k : Nat) : k < threads → WorkerStep E c k x x' → Step threads nframes x x'
  | main : MainStep c threads nframes x x' → Step threads nframes x x'

/-- The cubes are zero, the buffers of the decoders as they happen to be. -/
def start (nframes : Nat) (decoder : Nat → RunState t (BitVec 64)) (zero : I) : MapState t I where
  main := .submitting (frameGroups c.batch nframes)
  queue := []
  decoder := decoder
  worker := fun _ => .free
  sum_cube := fun _ _ => 0
  int_cube := fun _ => zero
  results := []
  clipped := []
  count := 0

def Reachable (threads nframes : Nat) (decoder : Nat → RunState t (BitVec 64)) (zero : I)
    (x : MapState t I) : Prop :=
  Relation.ReflTransGen (Step E c threads nframes) (start c nframes decoder zero) x

end MapState

/-! ## The file -/

/-- `clipped.sort(key=lambda c: c["frame"])`. -/
def sortClipped (clipped : List Clipped) : List Clipped :=
  clipped.mergeSort fun a b => decide (a.frame ≤ b.frame)

/-- The three arrays of `clipped_pixels/all`. -/
def clippedArrays (clipped : List Clipped) : List Nat × List Nat × List (BitVec 64) :=
  (clipped.flatMap fun e => List.replicate e.index.length e.frame, clipped.flatMap Clipped.index,
    clipped.flatMap Clipped.value)

/-- Frame `fi` of the virtual dataset over a cube; frames that no mapping has are `fill`. -/
def readFrame {β : Type} (ms : List FrameMapping) (cube : Nat × Nat → β) (fill : β) (fi : Nat) : β :=
  match (ms.flatMap FrameMapping.pairs).find? fun x => x.1 == fi with
  | some (_, cell) => cube cell
  | none => fill

end Bslz4ToSparse.Conveyor
