import Bslz4ToSparse.Foundation.Ragged
import Mathlib.Data.List.Nodup
import Mathlib.Data.List.Perm.Basic

/-!
# Sorted arrays

The first position of a value in a sorted array, and the cut of an array into its runs of
equal keys. In a sorted array the runs have different keys.
-/

namespace Bslz4ToSparse.Foundation

/-- The number of elements of a sorted list below `v` (`np.searchsorted`). -/
def searchSorted (xs : List Nat) (v : Nat) : Nat := xs.countP (· < v)

theorem searchSorted_le (xs : List Nat) (v : Nat) : searchSorted xs v ≤ xs.length :=
  List.countP_le_length

/-- The elements of a sorted list below `v` come first. -/
theorem lt_searchSorted {xs : List Nat} (h : xs.Pairwise (· ≤ ·)) (v : Nat) {g : Nat}
    (hg : g < xs.length) : g < searchSorted xs v ↔ xs.getD g 0 < v := by
  induction xs generalizing g with
  | nil => exact absurd hg (Nat.not_lt_zero g)
  | cons x xs ih =>
    obtain ⟨hx, hxs⟩ := List.pairwise_cons.mp h
    have hcount : searchSorted (x :: xs) v = searchSorted xs v + if x < v then 1 else 0 := by
      simp [searchSorted, List.countP_cons]
    rw [hcount]
    by_cases hlt : x < v
    · rw [if_pos hlt]
      cases g with
      | zero => simp [hlt]
      | succ g =>
        rw [Nat.add_lt_add_iff_right, ih hxs (Nat.lt_of_succ_lt_succ hg)]
        rfl
    · have hnone : searchSorted xs v = 0 := by
        refine List.countP_eq_zero.mpr fun y hy => ?_
        have hle := hx y hy
        simp only [decide_eq_true_eq]
        omega
      have hge : v ≤ (x :: xs).getD g 0 := by
        rw [List.getD_eq_getElem _ _ hg]
        obtain heq | hmem := List.mem_cons.mp (List.getElem_mem hg)
        · omega
        · have hle := hx _ hmem
          omega
      rw [if_neg hlt, hnone]
      omega

/-- The positions between two searches are those of the values in between. -/
theorem range'_searchSorted {xs : List Nat} (h : xs.Pairwise (· ≤ ·)) (v w : Nat) :
    (List.range' (searchSorted xs v) (searchSorted xs w - searchSorted xs v)).Perm
      ((List.range xs.length).filter fun g => v ≤ xs.getD g 0 && decide (xs.getD g 0 < w)) := by
  refine (List.perm_ext_iff_of_nodup List.nodup_range' (List.nodup_range.filter _)).mpr fun g => ?_
  have hend := searchSorted_le xs w
  rw [List.mem_range'_1, List.mem_filter, List.mem_range, Bool.and_eq_true, decide_eq_true_eq,
    decide_eq_true_eq]
  constructor
  · intro hg
    have hlt : g < xs.length := by omega
    have hv := lt_searchSorted h v hlt
    have hw := lt_searchSorted h w hlt
    omega
  · rintro ⟨hlt, hge, hless⟩
    have hv := lt_searchSorted h v hlt
    have hw := lt_searchSorted h w hlt
    omega

/-! ## Runs of equal keys -/

/-- Where a new key begins. -/
def groupStarts (ks : List Nat) : List Nat :=
  0 :: ((List.range (ks.length - 1)).filter fun k => ks.getD (k + 1) 0 != ks.getD k 0).map (· + 1)

/-- The starts of the groups, and the end of the last one. -/
def groupPtr (ks : List Nat) (g : Nat) : Nat := (groupStarts ks ++ [ks.length]).getD g 0

variable {ks : List Nat}

theorem mem_groupStarts (s : Nat) : s ∈ groupStarts ks ↔
    s = 0 ∨ 0 < s ∧ s < ks.length ∧ ks.getD s 0 ≠ ks.getD (s - 1) 0 := by
  rw [groupStarts, List.mem_cons, List.mem_map]
  refine or_congr Iff.rfl ⟨?_, ?_⟩
  · rintro ⟨k, hk, rfl⟩
    obtain ⟨hlt, hne⟩ := List.mem_filter.mp hk
    have hlt' := List.mem_range.mp hlt
    exact ⟨Nat.succ_pos k, by omega, by simpa using hne⟩
  · rintro ⟨hpos, hlt, hne⟩
    refine ⟨s - 1, List.mem_filter.mpr ⟨List.mem_range.mpr (by omega), ?_⟩, by omega⟩
    rw [Nat.sub_add_cancel hpos]
    simpa using hne

theorem groupStarts_sorted : (groupStarts ks).Pairwise (· < ·) := by
  refine List.pairwise_cons.mpr ⟨fun s hs => ?_, ?_⟩
  · obtain ⟨k, -, rfl⟩ := List.mem_map.mp hs
    exact Nat.succ_pos k
  · refine List.pairwise_map.mpr ((List.pairwise_lt_range.filter _).imp fun h => ?_)
    omega

theorem groupStarts_lt (h : ks ≠ []) {s : Nat} (hs : s ∈ groupStarts ks) : s < ks.length := by
  have hpos := List.length_pos_iff.mpr h
  obtain h0 | ⟨-, hlt, -⟩ := (mem_groupStarts s).mp hs
  · omega
  · exact hlt

theorem groupPtr_eq {g : Nat} (hg : g < (groupStarts ks).length) :
    groupPtr ks g = (groupStarts ks)[g] := by
  rw [groupPtr, List.getD_append _ _ _ _ hg, List.getD_eq_getElem _ _ hg]

theorem groupPtr_mem {g : Nat} (hg : g < (groupStarts ks).length) :
    groupPtr ks g ∈ groupStarts ks := by
  rw [groupPtr_eq hg]
  exact List.getElem_mem hg

theorem groupPtr_length : groupPtr ks (groupStarts ks).length = ks.length := by
  rw [groupPtr, List.getD_append_right _ _ _ _ le_rfl, Nat.sub_self]
  rfl

theorem groupPtr_lt_succ (h : ks ≠ []) {g : Nat} (hg : g < (groupStarts ks).length) :
    groupPtr ks g < groupPtr ks (g + 1) := by
  by_cases hlast : g + 1 < (groupStarts ks).length
  · rw [groupPtr_eq hg, groupPtr_eq hlast]
    exact List.pairwise_iff_getElem.mp groupStarts_sorted g (g + 1) hg hlast (Nat.lt_succ_self g)
  · have hend : g + 1 = (groupStarts ks).length := by omega
    rw [hend, groupPtr_length]
    exact groupStarts_lt h (groupPtr_mem hg)

/-- The groups cover the array. -/
theorem flatMap_groups (h : ks ≠ []) :
    (List.range (groupStarts ks).length).flatMap (fun g =>
      List.range' (groupPtr ks g) (groupPtr ks (g + 1) - groupPtr ks g)) = List.range ks.length := by
  have hseg := flatMap_segment (groupPtr ks) (List.range ks.length) (groupStarts ks).length rfl
    fun g hg => (groupPtr_lt_succ h hg).le
  rw [groupPtr_length, List.take_of_length_le (by simp)] at hseg
  rw [← hseg]
  refine List.flatMap_congr fun g hg => ?_
  have hmono : ∀ d, g + 1 + d ≤ (groupStarts ks).length → groupPtr ks (g + 1) ≤ groupPtr ks (g + 1 + d) := by
    intro d
    induction d with
    | zero => exact fun _ => le_rfl
    | succ d ih =>
      intro hd
      exact (ih (by omega)).trans (groupPtr_lt_succ h (by omega)).le
  have hlt := List.mem_range.mp hg
  have hend := hmono ((groupStarts ks).length - (g + 1)) (by omega)
  rw [Nat.add_sub_cancel' (by omega), groupPtr_length] at hend
  have hle := (groupPtr_lt_succ h hlt).le
  rw [segment, ← map_range'_getD _ 0 (by rw [List.length_range]; omega)]
  refine ((List.map_congr_left fun k hk => ?_).trans (List.map_id _)).symm
  have hin := List.mem_range'_1.mp hk
  rw [List.getD_eq_getElem _ _ (by rw [List.length_range]; omega), List.getElem_range]
  rfl

/-- A group has one key. -/
theorem group_key (h : ks ≠ []) {g k : Nat} (hg : g < (groupStarts ks).length)
    (hk : groupPtr ks g ≤ k) (hk' : k < groupPtr ks (g + 1)) :
    ks.getD k 0 = ks.getD (groupPtr ks g) 0 := by
  induction k with
  | zero => rw [Nat.le_zero.mp hk]
  | succ k ih =>
    by_cases hstart : groupPtr ks g = k + 1
    · rw [hstart]
    · rw [← ih (by omega) (by omega)]
      by_contra hne
      -- a start between two successive ones
      have hlt : k + 1 < ks.length := by
        by_cases hlast : g + 1 < (groupStarts ks).length
        · exact hk'.trans (groupStarts_lt h (groupPtr_mem hlast))
        · rwa [show g + 1 = (groupStarts ks).length by omega, groupPtr_length] at hk'
      have hmem : k + 1 ∈ groupStarts ks :=
        (mem_groupStarts _).mpr (Or.inr ⟨Nat.succ_pos k, hlt, by simpa using hne⟩)
      obtain ⟨j, hj, hjk⟩ := List.getElem_of_mem hmem
      have hsorted := List.pairwise_iff_getElem.mp (@groupStarts_sorted ks)
      rw [groupPtr_eq hg] at hk hstart
      by_cases hjg : j ≤ g
      · by_cases heq : j = g
        · subst heq
          exact hstart hjk
        · have hless := hsorted j g hj hg (by omega)
          omega
      · by_cases hlast : g + 1 < (groupStarts ks).length
        · rw [groupPtr_eq hlast] at hk'
          by_cases heq : j = g + 1
          · subst heq
            omega
          · have hless := hsorted (g + 1) j hlast hj (by omega)
            omega
        · omega

/-- In a sorted array the keys of the groups ascend. -/
theorem groupKeys_sorted (hs : ks.Pairwise (· ≤ ·)) :
    ((groupStarts ks).map fun s => ks.getD s 0).Pairwise (· < ·) := by
  refine List.pairwise_map.mpr ((@groupStarts_sorted ks).imp_of_mem fun {a b} ha hb hlt => ?_)
  have hmono : ∀ i j, i ≤ j → j < ks.length → ks.getD i 0 ≤ ks.getD j 0 := by
    intro i j hij hj
    rw [List.getD_eq_getElem _ _ (hij.trans_lt hj), List.getD_eq_getElem _ _ hj]
    by_cases heq : i = j
    · subst heq
      exact le_rfl
    · exact List.pairwise_iff_getElem.mp hs i j _ hj (by omega)
  obtain h0 | ⟨hpos, hlen, hne⟩ := (mem_groupStarts b).mp hb
  · omega
  · have hprev := hmono a (b - 1) (by omega) (by omega)
    have hstep := hmono (b - 1) b (by omega) hlen
    omega

end Bslz4ToSparse.Foundation
