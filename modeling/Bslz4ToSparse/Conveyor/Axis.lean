import Bslz4ToSparse.Foundation.Accumulate
import Bslz4ToSparse.Foundation.Argsort
import Bslz4ToSparse.Foundation.Reduce
import Mathlib.Algebra.Order.Field.Rat
import Mathlib.Data.Rat.Defs
import Mathlib.Tactic.Linarith

/-!
# The grid of a map (`_axis`, src/conveyor/_diffmapio.py)

The motor values of the frames are sorted and split at their largest gaps; every part is
a line of the grid. The values are exact.
-/

namespace Bslz4ToSparse.Conveyor

open Foundation

/-- Why `_axis` refuses the values, with the numbers of the message. -/
inductive AxisError where
  | positions (npos : ℤ) (values : Nat)               -- more or fewer lines than values can make
  | notGrid (lines : Nat) (between within : ℚ)        -- a gap inside a line is as large as one between
  | noValues                                          -- one group and no weight for it
  deriving DecidableEq, Repr

/-- `np.diff`. -/
def diff (s : List ℚ) : List ℚ := List.zipWith (fun b a => b - a) s.tail s

/-- The gaps to split at. -/
def axisSplit (gaps : List ℚ) : Option ℤ → List Bool
  | none =>
      if gaps.length ≠ 0 ∧ 0 < reduce max 0 gaps then
        gaps.map fun g => decide (1 / 2 * reduce max 0 gaps < g)
      else List.replicate gaps.length false
  | some npos =>
      let largest := (argsort 0 gaps).drop (gaps.length - (npos - 1).toNat)
      scatter (List.replicate gaps.length false) largest (largest.map fun _ => true)

/-- `np.bincount(group, weights=w)`, without weights the counts. -/
def bincount (group : List Nat) (w : List ℚ) : List ℚ :=
  (List.range (reduce max 0 group + 1)).map fun g => (((group.zip w).filter (·.1 == g)).map Prod.snd).sum

/-- `_axis`: the centres of the lines, and the line of each value. -/
def axis (vals : List ℚ) (npos : Option ℤ) : Except AxisError (List ℚ × List Nat) :=
  let order := argsort 0 vals
  let s := order.map fun k => vals.getD k 0
  let gaps := diff s
  if npos.any fun (n : ℤ) => decide (n < 1 ∨ vals.length < n) then .error (.positions (npos.getD 0) vals.length)
  else
    let split := axisSplit gaps npos
    let between := select split gaps
    let within := select (split.map not) gaps
    if split.any id ∧ (split.map not).any id ∧ reduce min 0 between ≤ 2 * reduce max 0 within then
      .error (.notGrid (split.count true + 1) (reduce min 0 between) (reduce max 0 within))
    else
      let group := offsets (split.map Bool.toNat)
      if group.length ≠ s.length then .error .noValues
      else .ok (
        List.zipWith (· / ·) (bincount group s) (bincount group (s.map fun _ => 1)),
        scatter (List.replicate vals.length 0) order group)

/-! ## Values on a grid -/

/-- Value `k` is within `d` of the grid line `line k`; the `m` lines at `pos` are more than `6 d`
apart and each of them is hit. -/
structure OnGrid (vals : List ℚ) (m : Nat) (pos : Nat → ℚ) (d : ℚ) (line : Nat → Nat) : Prop where
  jitter_nonneg : 0 ≤ d
  spacing : ∀ i, i + 1 < m → 6 * d < pos (i + 1) - pos i
  line_lt : ∀ k, k < vals.length → line k < m
  near : ∀ k, k < vals.length → |vals.getD k 0 - pos (line k)| ≤ d
  hit : ∀ i, i < m → ∃ k, k < vals.length ∧ line k = i

/-- The mean of the values of a line. -/
def lineMean (vals : List ℚ) (line : Nat → Nat) (i : Nat) : ℚ :=
  let own := (List.range vals.length).filter fun k => line k == i
  (own.map fun k => vals.getD k 0).sum / own.length

namespace OnGrid

variable {vals : List ℚ} {m : Nat} {pos : Nat → ℚ} {d : ℚ} {line : Nat → Nat}
  (h : OnGrid vals m pos d line)

include h

theorem apart {i j : Nat} (hij : i < j) (hj : j < m) : 6 * d < pos j - pos i := by
  have hd := h.jitter_nonneg
  induction j, hij using Nat.le_induction with
  | base => exact h.spacing i hj
  | succ j _ ih =>
    have hprev := ih (by omega)
    have hstep := h.spacing j hj
    linarith

/-- Values of different lines are more than `4 d` apart. -/
theorem between {k l : Nat} (hk : k < vals.length) (hl : l < vals.length) (hlt : line k < line l) :
    4 * d < vals.getD l 0 - vals.getD k 0 := by
  have hpos := h.apart hlt (h.line_lt l hl)
  have hnear := abs_le.mp (h.near k hk)
  have hnear' := abs_le.mp (h.near l hl)
  linarith

/-- Values of one line are at most `2 d` apart. -/
theorem within {k l : Nat} (hk : k < vals.length) (hl : l < vals.length) (heq : line k = line l) :
    vals.getD l 0 - vals.getD k 0 ≤ 2 * d := by
  have hnear := abs_le.mp (h.near k hk)
  have hnear' := abs_le.mp (h.near l hl)
  rw [heq] at hnear
  linarith

theorem line_mono {k l : Nat} (hk : k < vals.length) (hl : l < vals.length)
    (hle : vals.getD k 0 ≤ vals.getD l 0) : line k ≤ line l := by
  by_contra hlt
  have hd := h.jitter_nonneg
  have hgap := h.between hl hk (not_le.mp hlt)
  linarith

end OnGrid

/-! ## The sorted values -/

/-- The line of the value at place `i` of the sorted values. -/
def sortedLine (vals : List ℚ) (line : Nat → Nat) (i : Nat) : Nat := line ((argsort 0 vals).getD i 0)

/-- Whether a new line begins after place `i`. -/
def newLine (vals : List ℚ) (line : Nat → Nat) (i : Nat) : Bool :=
  decide (sortedLine vals line i < sortedLine vals line (i + 1))

namespace OnGrid

variable {vals : List ℚ} {m : Nat} {pos : Nat → ℚ} {d : ℚ} {line : Nat → Nat}
  (h : OnGrid vals m pos d line)

theorem place_lt {i : Nat} (hi : i < vals.length) : (argsort 0 vals).getD i 0 < vals.length := by
  have hlen : i < (argsort 0 vals).length := by rwa [length_argsort]
  rw [List.getD_eq_getElem _ _ hlen]
  exact mem_argsort.mp (List.getElem_mem hlen)

include h

theorem sortedLine_lt {i : Nat} (hi : i < vals.length) : sortedLine vals line i < m :=
  h.line_lt _ (place_lt hi)

theorem sortedLine_mono {i j : Nat} (hij : i < j) (hj : j < vals.length) :
    sortedLine vals line i ≤ sortedLine vals line j := by
  have hi : i < (argsort 0 vals).length := by rw [length_argsort]; omega
  have hj' : j < (argsort 0 vals).length := by rwa [length_argsort]
  have hpairwise : (argsort 0 vals).Pairwise fun i j => vals.getD i 0 ≤ vals.getD j 0 := argsort_sorted
  have hsorted := List.pairwise_iff_getElem.mp hpairwise i j hi hj' hij
  rw [← List.getD_eq_getElem _ 0 hi, ← List.getD_eq_getElem _ 0 hj'] at hsorted
  exact h.line_mono (place_lt (by omega)) (place_lt hj) hsorted

/-- Every line has a place. -/
theorem exists_place {l : Nat} (hl : l < m) : ∃ i, i < vals.length ∧ sortedLine vals line i = l := by
  obtain ⟨k, hk, rfl⟩ := h.hit l hl
  obtain ⟨i, hi, hki⟩ := List.getElem_of_mem (mem_argsort (d := (0 : ℚ)).mpr hk)
  refine ⟨i, by rwa [length_argsort] at hi, ?_⟩
  rw [sortedLine, List.getD_eq_getElem _ _ hi, hki]

theorem sortedLine_zero (hm : 0 < m) : sortedLine vals line 0 = 0 := by
  obtain ⟨i, hi, hline⟩ := h.exists_place hm
  rcases Nat.eq_zero_or_pos i with rfl | hpos
  · exact hline
  · have hle := h.sortedLine_mono hpos hi
    omega

/-- No line is skipped. -/
theorem sortedLine_succ {i : Nat} (hi : i + 1 < vals.length) :
    sortedLine vals line (i + 1) ≤ sortedLine vals line i + 1 := by
  by_contra hskip
  have hlt := h.sortedLine_lt hi
  obtain ⟨j, hj, hline⟩ := h.exists_place (show sortedLine vals line i + 1 < m by omega)
  rcases Nat.lt_or_ge j (i + 1) with hji | hji
  · rcases Nat.eq_or_lt_of_le (Nat.le_of_lt_succ hji) with rfl | hlt'
    · omega
    · have hle := h.sortedLine_mono hlt' (by omega)
      omega
  · rcases Nat.eq_or_lt_of_le hji with rfl | hlt'
    · omega
    · have hle := h.sortedLine_mono hlt' hj
      omega

/-- The new lines before a place, counted. -/
theorem count_newLine (hm : 0 < m) {k : Nat} (hk : k < vals.length) :
    ((List.range k).filter (newLine vals line)).length = sortedLine vals line k := by
  induction k with
  | zero => exact (h.sortedLine_zero hm).symm
  | succ k ih =>
    have hprev := ih (by omega)
    have hmono := h.sortedLine_mono (show k < k + 1 by omega) hk
    have hstep := h.sortedLine_succ hk
    rw [List.range_succ, List.filter_append, List.length_append, hprev]
    by_cases hnew : sortedLine vals line k < sortedLine vals line (k + 1)
    · rw [List.filter_cons_of_pos (by simpa [newLine] using hnew)]
      simp only [List.filter_nil, List.length_singleton]
      omega
    · rw [List.filter_cons_of_neg (by simpa [newLine] using hnew)]
      simp only [List.filter_nil, List.length_nil]
      omega

theorem sortedLine_last (hm : 0 < m) (hn : 0 < vals.length) :
    sortedLine vals line (vals.length - 1) = m - 1 := by
  have hlt := h.sortedLine_lt (show vals.length - 1 < vals.length by omega)
  obtain ⟨i, hi, hline⟩ := h.exists_place (show m - 1 < m by omega)
  rcases Nat.eq_or_lt_of_le (Nat.le_sub_one_of_lt hi) with heq | hlt'
  · rw [← heq, hline]
  · have hle := h.sortedLine_mono hlt' (by omega)
    omega

end OnGrid

/-! ## The split -/

/-- The values in order. -/
def sortedValues (vals : List ℚ) : List ℚ := (argsort 0 vals).map fun k => vals.getD k 0

@[simp] theorem length_sortedValues (vals : List ℚ) : (sortedValues vals).length = vals.length := by
  rw [sortedValues, List.length_map, length_argsort]

@[simp] theorem length_diff (s : List ℚ) : (diff s).length = s.length - 1 := by
  simp [diff]

theorem getD_diff {s : List ℚ} {i : Nat} (hi : i + 1 < s.length) :
    (diff s).getD i 0 = s.getD (i + 1) 0 - s.getD i 0 := by
  have htail : i < s.tail.length := by rw [List.length_tail]; omega
  rw [diff, List.getD_eq_getElem _ _ (by rw [List.length_zipWith]; omega), List.getElem_zipWith,
    List.getElem_tail, List.getD_eq_getElem _ _ hi, List.getD_eq_getElem _ _ (by omega)]

theorem getD_sortedValues {vals : List ℚ} {i : Nat} (hi : i < vals.length) :
    (sortedValues vals).getD i 0 = vals.getD ((argsort 0 vals).getD i 0) 0 := by
  have hlen : i < (argsort 0 vals).length := by rwa [length_argsort]
  rw [sortedValues, List.getD_eq_getElem _ _ (by rwa [List.length_map]), List.getElem_map,
    List.getD_eq_getElem (argsort 0 vals) _ hlen]

namespace OnGrid

variable {vals : List ℚ} {m : Nat} {pos : Nat → ℚ} {d : ℚ} {line : Nat → Nat}
  (h : OnGrid vals m pos d line)

include h

/-- A gap between lines is more than `4 d`, a gap inside a line at most `2 d`. -/
theorem gap {i : Nat} (hi : i + 1 < vals.length) :
    (newLine vals line i = true → 4 * d < (diff (sortedValues vals)).getD i 0) ∧
      (newLine vals line i = false → (diff (sortedValues vals)).getD i 0 ≤ 2 * d) := by
  have hplace := place_lt (show i < vals.length by omega)
  have hplace' := place_lt hi
  rw [getD_diff (by rwa [length_sortedValues]), getD_sortedValues hi, getD_sortedValues (by omega),
    newLine, decide_eq_true_eq, decide_eq_false_iff_not]
  constructor
  · exact h.between hplace hplace'
  · intro hnot
    have hmono := h.sortedLine_mono (show i < i + 1 by omega) hi
    exact h.within hplace hplace' (le_antisymm hmono (not_lt.mp hnot))

/-- The largest gaps are those between lines. -/
theorem axisSplit_eq (hm : 0 < m) (hn : 0 < vals.length) :
    axisSplit (diff (sortedValues vals)) (some m) =
      (List.range (vals.length - 1)).map (newLine vals line) := by
  set gaps := diff (sortedValues vals) with hgaps
  have hlen : gaps.length = vals.length - 1 := by rw [hgaps, length_diff, length_sortedValues]
  have hd := h.jitter_nonneg
  have hcount : ((List.range gaps.length).filter (newLine vals line)).length = m - 1 := by
    rw [hlen, h.count_newLine hm (by omega), h.sortedLine_last hm hn]
  have hlargest : (argsort 0 gaps).drop
      (gaps.length - ((List.range gaps.length).filter (newLine vals line)).length) =
        (argsort 0 gaps).filter (newLine vals line) := by
    apply drop_argsort
    intro i j hi hj hBi hBj
    have hbetween := (h.gap (show i + 1 < vals.length by omega)).1 hBi
    have hwithin := (h.gap (show j + 1 < vals.length by omega)).2 hBj
    rw [← hgaps] at hbetween hwithin
    linarith
  have hm1 : ((m : ℤ) - 1).toNat = m - 1 := by omega
  simp only [axisSplit]
  rw [hcount] at hlargest
  rw [hm1, hlargest]
  refine List.ext_getElem (by simp [hlen]) fun i h₁ h₂ => ?_
  have hi : i < gaps.length := by simpa using h₁
  rw [← List.getD_eq_getElem _ false h₁, List.getElem_map, List.getElem_range]
  cases hB : newLine vals line i with
  | true =>
    have hmem : i ∈ (argsort 0 gaps).filter (newLine vals line) :=
      List.mem_filter.mpr ⟨mem_argsort.mpr hi, hB⟩
    have hset := scatter_map (List.replicate gaps.length false) (k := fun i => i) (fun _ => true) false
      (by rw [List.map_id']; exact nodup_argsort.filter _) hmem (by rwa [List.length_replicate])
    rwa [List.map_id'] at hset
  | false =>
    rw [scatter_of_notMem]
    · simp [List.getD_eq_getElem?_getD, hi]
    · intro hmem
      rw [(List.mem_filter.mp hmem).2] at hB
      exact Bool.noConfusion hB

/-- The running count of the new lines gives each place its line. -/
theorem group_eq (hm : 0 < m) (hn : 0 < vals.length) :
    offsets (((List.range (vals.length - 1)).map (newLine vals line)).map Bool.toNat) =
      (argsort 0 vals).map line := by
  have hlen : (offsets (((List.range (vals.length - 1)).map (newLine vals line)).map
      Bool.toNat)).length = vals.length := by
    rw [length_offsets, List.length_map, List.length_map, List.length_range]
    omega
  have hline : ∀ i, i < vals.length →
      (offsets (((List.range (vals.length - 1)).map (newLine vals line)).map Bool.toNat)).getD i 0 =
        sortedLine vals line i := by
    intro i
    induction i with
    | zero =>
      intro _
      rw [getD_offsets _ (Nat.zero_le _), h.sortedLine_zero hm]
      rfl
    | succ i ih =>
      intro hi
      have hmono := h.sortedLine_mono (show i < i + 1 by omega) hi
      have hstep := h.sortedLine_succ hi
      have hsplit : (((List.range (vals.length - 1)).map (newLine vals line)).map Bool.toNat).getD i 0 =
          (newLine vals line i).toNat := by
        simp [List.getD_eq_getElem?_getD, show i < vals.length - 1 by omega]
      rw [getD_offsets_succ _ (by simp; omega), ih (by omega), hsplit]
      by_cases hnew : sortedLine vals line i < sortedLine vals line (i + 1)
      · rw [newLine, decide_eq_true hnew, Bool.toNat_true]
        omega
      · rw [newLine, decide_eq_false hnew, Bool.toNat_false]
        omega
  refine List.ext_getElem (by rw [hlen, List.length_map, length_argsort]) fun i h₁ h₂ => ?_
  have hi : i < vals.length := by rwa [hlen] at h₁
  rw [← List.getD_eq_getElem _ 0 h₁, hline i hi, List.getElem_map, sortedLine,
    List.getD_eq_getElem _ _ (by rwa [length_argsort])]

/-- The gaps between lines are more than twice those inside. -/
theorem gaps_apart {x y : ℚ}
    (hx : x ∈ select ((List.range (vals.length - 1)).map (newLine vals line)) (diff (sortedValues vals)))
    (hy : y ∈ select (((List.range (vals.length - 1)).map (newLine vals line)).map not)
      (diff (sortedValues vals))) : 2 * y < x := by
  obtain ⟨i, hi, -, hnew, rfl⟩ := exists_of_mem_select 0 hx
  obtain ⟨j, hj, -, hold, rfl⟩ := exists_of_mem_select 0 hy
  have hi' : i < vals.length - 1 := by simpa using hi
  have hj' : j < vals.length - 1 := by simpa using hj
  have hB : newLine vals line i = true := by
    simpa [List.getD_eq_getElem?_getD, hi'] using hnew
  have hB' : newLine vals line j = false := by
    simpa [List.getD_eq_getElem?_getD, hj'] using hold
  have hbetween := (h.gap (show i + 1 < vals.length by omega)).1 hB
  have hwithin := (h.gap (show j + 1 < vals.length by omega)).2 hB'
  linarith

/-- The counts and sums of the lines. -/
theorem bincount_eq (hm : 0 < m) (hn : 0 < vals.length) (w : Nat → ℚ) :
    bincount ((argsort 0 vals).map line) ((argsort 0 vals).map w) =
      (List.range m).map fun i => (((List.range vals.length).filter fun k => line k == i).map w).sum := by
  have hlargest : reduce max 0 ((argsort 0 vals).map line) + 1 = m := by
    have hne : (argsort 0 vals).map line ≠ [] := by
      intro hnil
      have hlen := congrArg List.length hnil
      rw [List.length_map, length_argsort, List.length_nil] at hlen
      omega
    obtain ⟨k, hk, hmax⟩ := List.mem_map.mp (reduce_max_mem 0 hne)
    have hlt := h.line_lt k (mem_argsort.mp hk)
    obtain ⟨l, hl, hlast⟩ := h.hit (m - 1) (by omega)
    have hle := le_reduce_max 0 (List.mem_map_of_mem (f := line) (mem_argsort (d := (0 : ℚ)).mpr hl))
    omega
  rw [bincount, hlargest]
  refine List.map_congr_left fun i _ => ?_
  rw [List.zip_map', List.filter_map, List.map_map]
  exact sum_map_perm (argsort_perm.filter _) _

/-- There is a value for each line. -/
theorem lines_le (hm : 0 < m) (hn : 0 < vals.length) :
    m ≤ vals.length := by
  have hlast := h.sortedLine_last hm hn
  have hcount := h.count_newLine hm (show vals.length - 1 < vals.length by omega)
  have hle := List.length_filter_le (newLine vals line) (List.range (vals.length - 1))
  rw [List.length_range] at hle
  omega

end OnGrid

/-- `_axis` recovers the grid: it finds the line of every value, and the mean of every line. -/
theorem axis_recovers {vals : List ℚ} {m : Nat} (hm : 1 ≤ m) {pos : Nat → ℚ} {d : ℚ}
    {line : Nat → Nat} (h : OnGrid vals m pos d line) :
    axis vals (some m) =
      .ok ((List.range m).map (lineMean vals line), (List.range vals.length).map line) := by
  obtain ⟨k, hk, -⟩ := h.hit 0 hm
  have hn : 0 < vals.length := by omega
  have hmn := h.lines_le hm hn
  have hpositions : (some (m : ℤ)).any (fun n : ℤ => decide (n < 1 ∨ vals.length < n)) = false := by
    simp only [Option.any_some, decide_eq_false_iff_not]
    omega
  have hsorted : (argsort 0 vals).map (fun k => vals.getD k 0) = sortedValues vals := rfl
  unfold axis
  simp only [hpositions, Bool.false_eq_true, if_false, hsorted, h.axisSplit_eq hm hn, h.group_eq hm hn]
  rw [if_neg, if_neg]
  · -- every place of the sorted values sends its line back to its value
    have hidx : scatter (List.replicate vals.length 0) (argsort 0 vals) ((argsort 0 vals).map line) =
        (List.range vals.length).map line := by
      refine List.ext_getElem (by simp) fun i h₁ h₂ => ?_
      have hi : i < vals.length := by simpa using h₁
      have hnodup : (argsort 0 vals).Nodup := nodup_argsort
      have hset := scatter_map (List.replicate vals.length 0) (k := fun i => i) line 0
        (by rwa [List.map_id']) (mem_argsort.mpr hi)
        (by rwa [List.length_replicate])
      rw [List.map_id'] at hset
      rw [← List.getD_eq_getElem _ 0 h₁, hset, List.getElem_map, List.getElem_range]
    have hones : (sortedValues vals).map (fun _ => (1 : ℚ)) = (argsort 0 vals).map fun _ => 1 := by
      rw [sortedValues, List.map_map]
      rfl
    rw [hidx, hones, sortedValues, h.bincount_eq hm hn, h.bincount_eq hm hn, List.zipWith_map,
      List.zipWith_self]
    simp [lineMean]
  · rw [not_not, List.length_map, length_argsort, length_sortedValues]
  · rintro ⟨hbetween, hwithin, hle⟩
    have hlen : ((List.range (vals.length - 1)).map (newLine vals line)).length =
        (diff (sortedValues vals)).length := by simp
    have hx := h.gaps_apart (reduce_min_mem 0 (select_ne_nil hlen (by simpa using hbetween)))
      (reduce_max_mem 0 (select_ne_nil (by rwa [List.length_map]) (by simpa using hwithin)))
    linarith

/-- Two lines at 0 and 10, two values each. -/
theorem jittered_onGrid :
    OnGrid [10, 1 / 10, 0, 99 / 10] 2 (fun i => 10 * i) (1 / 10) fun k => [1, 0, 0, 1].getD k 0 where
  jitter_nonneg := by norm_num
  spacing := fun i hi => by
    obtain rfl : i = 0 := by omega
    norm_num
  line_lt := by decide +kernel
  near := by decide +kernel
  hit := by decide +kernel

theorem axis_recovers_jittered :
    axis [10, 1 / 10, 0, 99 / 10] (some (2 : Nat)) = .ok ([1 / 20, 199 / 20], [1, 0, 0, 1]) :=
  (axis_recovers (m := 2) (by decide) jittered_onGrid).trans (by decide +kernel)

end Bslz4ToSparse.Conveyor
