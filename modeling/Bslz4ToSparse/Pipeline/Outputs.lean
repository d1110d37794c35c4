import Bslz4ToSparse.Pipeline.Driver
import Bslz4ToSparse.Steps.CollectSpec

/-!
# The lists of the frames

Every frame has its window of the output arrays. What is done to the list of one frame, by a
collect, by the copy of a compacted list or by raising the level, is said in terms of its
entries, and stays inside its window.
-/

namespace Bslz4ToSparse.Pipeline

open Dot Foundation Steps

variable {t : Dtype} {nij : Nat} {D : Type}

/-! ## Raising a level -/

/-- The entries above a threshold. -/
def keepAbove (cut : Option (Pixel t)) (l : List (Nat × Pixel t)) : List (Nat × Pixel t) :=
  l.filter fun e => above cut e.2

theorem length_keepAbove_le (cut : Option (Pixel t)) (l : List (Nat × Pixel t)) :
    (keepAbove cut l).length ≤ l.length := List.length_filter_le _ l

theorem filterGt_spec (cut : Option (Pixel t)) (o : Sink (Pixel t)) :
    (filterGt cut o).entries = keepAbove cut o.entries ∧ SameFrom o.npx o (filterGt cut o) :=
  retain_spec (above cut) o o.npx le_rfl

/-- `top_raise` on the entries of a list. -/
def Top.raiseListFrom (top : Top) : Nat → Nat → List (Nat × Pixel t) → Nat × List (Nat × Pixel t)
  | 0, level, l => (level, l)
  | left + 1, level, l =>
      if top.over level l.length then
        raiseListFrom top left (level + 1) (keepAbove (top.filterCut t level) l)
      else (level, l)

def Top.raiseList (top : Top) (level : Nat) (l : List (Nat × Pixel t)) :
    Nat × List (Nat × Pixel t) :=
  top.raiseListFrom (top.nthr.toNat - level) level l

theorem Top.length_raiseListFrom_le (top : Top) (left level : Nat) (l : List (Nat × Pixel t)) :
    (top.raiseListFrom left level l).2.length ≤ l.length := by
  induction left generalizing level l with
  | zero => exact le_rfl
  | succ left ih =>
    unfold raiseListFrom
    split
    · exact (ih _ _).trans (length_keepAbove_le _ l)
    · exact le_rfl

theorem Top.raiseFrom_spec (top : Top) (left level : Nat) (o : Sink (Pixel t)) :
    (top.raiseFrom left level o).1 = (top.raiseListFrom left level o.entries).1 ∧
      (top.raiseFrom left level o).2.entries = (top.raiseListFrom left level o.entries).2 ∧
      SameFrom o.npx o (top.raiseFrom left level o).2 := by
  induction left generalizing level o with
  | zero => exact ⟨rfl, rfl, SameFrom.refl _ o⟩
  | succ left ih =>
    unfold raiseFrom raiseListFrom
    rw [o.length_entries]
    split
    · obtain ⟨hentries, hsame⟩ := filterGt_spec (top.filterCut t level) o
      obtain ⟨hlevel, hlist, hrest⟩ := ih (level + 1) (filterGt (top.filterCut t level) o)
      have hle : (filterGt (top.filterCut t level) o).npx ≤ o.npx := by
        rw [← Sink.length_entries, hentries, ← o.length_entries]
        exact length_keepAbove_le _ _
      rw [hentries] at hlevel hlist
      exact ⟨hlevel, hlist, hsame.trans (hrest.mono hle)⟩
    · exact ⟨rfl, rfl, SameFrom.refl _ o⟩

/-! ## The copy of a compacted list -/

/-- The entries of a compacted list. -/
def listEntries (l : PixelList (Pixel t)) : List (Nat × Pixel t) :=
  (List.range l.nz).map fun kk => (l.tidx kk, l.tval kk)

theorem copyAbove_emits (cut : Option (Pixel t)) (l : PixelList (Pixel t)) (o : Sink (Pixel t)) :
    Emits o (copyAbove cut l o) (keepAbove cut (listEntries l)) l.nz := by
  have hfold := emits_foldl id
    (fun (o : Sink (Pixel t)) kk => o.putIf (above cut (l.tval kk)) (l.tval kk) (l.tidx kk))
    (fun kk => if above cut (l.tval kk) then [(l.tidx kk, l.tval kk)] else []) (fun _ => 1)
    (List.range l.nz) (fun kk _ o => emits_putIf _ o _ _) o
  have hes : (List.range l.nz).flatMap
      (fun kk => if above cut (l.tval kk) then [(l.tidx kk, l.tval kk)] else []) =
      keepAbove cut (listEntries l) := by
    unfold keepAbove listEntries
    induction List.range l.nz with
    | nil => rfl
    | cons kk ks ih =>
      by_cases h : above cut (l.tval kk) = true
      · simp [h, ih]
      · simp [h, ih]
  rw [hes] at hfold
  exact hfold.mono (by simp)

/-! ## The windows -/

section

variable {s : RunState t D} {f f' : Nat} {o : Sink (Pixel t)}

@[simp] theorem out_setOut : (s.setOut nij f o).out nij f = o := by
  unfold RunState.setOut RunState.out
  simp

/-- The list of another frame is left alone. -/
theorem out_setOut_of_ne (hf : f' ≠ f) (hsame : SameFrom nij (s.out nij f) o)
    (hle : s.npx f' ≤ nij) :
    ((s.setOut nij f o).out nij f').entries = (s.out nij f').entries := by
  have hnpx : (s.setOut nij f o).npx f' = s.npx f' := Function.update_of_ne hf _ _
  unfold Sink.entries
  simp only [RunState.out, hnpx]
  refine List.map_congr_left fun i hi => ?_
  have hlt := List.mem_range.mp hi
  unfold RunState.setOut
  dsimp only
  split
  · next hge =>
    have hwindow : nij ≤ f' * nij + i - f * nij := by
      have hlater : f < f' := by
        by_contra hnot
        have hmul := Nat.mul_le_mul_right nij (show f' + 1 ≤ f by omega)
        rw [Nat.succ_mul] at hmul
        omega
      have hmul := Nat.mul_le_mul_right nij hlater
      rw [Nat.succ_mul] at hmul
      omega
    obtain ⟨hval, hadr⟩ := hsame _ hwindow
    have hback : f * nij + (f' * nij + i - f * nij) = f' * nij + i := by omega
    rw [hval, hadr]
    simp only [RunState.out, hback]
  · rfl

end

end Bslz4ToSparse.Pipeline
