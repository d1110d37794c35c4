import Bslz4ToSparse.Foundation.Sorted
import Bslz4ToSparse.Matrix.Runs

/-!
# The padded layout (src/_matrix.py)

One row per pixel, or one per pixel that has entries: a first bin and `width` weights for
the bins from it on. A row near the last bins starts further left, with zeros before its
weights.
-/

namespace Bslz4ToSparse.Matrix

open Foundation

variable {F : Type}

/-- `_PaddedLayout`, with the weights row after row. -/
structure PaddedLayout (F : Type) where
  base : List Nat
  weights : List F
  pixels : List Nat
  rowmap : List Int
  rowPtr : List Nat
  width : Nat
  listed : Bool
  blockElems : Nat
  nbins : Nat
  npix : Nat
  deriving DecidableEq

/-- `_PADDED_MAX_WIDTH`. -/
def paddedMaxWidth : Nat := 64

namespace NormalMatrix

variable (m : NormalMatrix F)

/-- The most bins that a pixel reaches. -/
def used : Nat := m.counts.foldr max 0

def paddedWidth : Nat := max m.used 1

/-- The first bin of a pixel, before the move to the left. -/
def paddedFirst (p : Nat) : Nat :=
  if 0 < m.count p then m.indices.getD (min (m.ptr p) (m.indices.length - 1)) 0 else 0

/-- The first bin of a pixel's row: the row ends inside of the bins. -/
def newBase (p : Nat) : Nat := min (m.paddedFirst p) (m.nbins - m.paddedWidth)

def shift (p : Nat) : Nat := m.paddedFirst p - m.newBase p

/-- The weights of the rows of all pixels: `w[sel, shift[sel] + k] = data[first[sel] + k]` for
each `k` below `used`. -/
def rowWeights [Zero F] [Inhabited F] : Nat → Nat → F :=
  (List.range m.used).foldl (fun w k => fun p c =>
    if k < m.count p ∧ c = m.shift p + k then m.data.getD (m.ptr p + k) default else w p c)
    fun _ _ => 0

/-- The pixels with entries. -/
def occupied : List Nat := (List.range m.npix).filter fun p => decide (0 < m.count p)

/-- The first pixel of each decode block, and the end. -/
def blockBounds (blockElems : Nat) : List Nat :=
  (List.range ((m.npix + blockElems - 1) / blockElems + 1)).map fun k => min (k * blockElems) m.npix

/-- The rows `ps` of the layout. -/
def paddedRows [Zero F] [Inhabited F] (ps : List Nat) : List F :=
  ps.flatMap fun p => (List.range m.paddedWidth).map (m.rowWeights p)

/-- `_padded_from_csc`. -/
def padded [Zero F] [Inhabited F] (blockElems : Nat) : Except LayoutError (PaddedLayout F) :=
  if paddedMaxWidth < m.paddedWidth then .error (.tooWide m.paddedWidth paddedMaxWidth)
  else if m.brokenPixels ≠ [] then .error (.notRuns m.brokenPixels.length m.severalBins)
  else
    let cb := m.blockBounds blockElems
    let rows := m.occupied
    if 2 * rows.length < m.npix then
      .ok { base := rows.map m.newBase
            weights := m.paddedRows rows
            pixels := rows
            rowmap := (List.range m.npix).map fun p => if p ∈ rows then (rows.idxOf p : Int) else -1
            rowPtr := cb.map (searchSorted rows)
            width := m.paddedWidth
            listed := true
            blockElems
            nbins := m.nbins
            npix := m.npix }
    else
      .ok { base := (List.range m.npix).map m.newBase
            weights := m.paddedRows (List.range m.npix)
            pixels := []
            rowmap := []
            rowPtr := cb
            width := m.paddedWidth
            listed := false
            blockElems
            nbins := m.nbins
            npix := m.npix }

/-! ## The rows -/

theorem count_le_used {p : Nat} (hp : p < m.npix) : m.count p ≤ m.used := by
  have hmem : m.count p ∈ m.counts := List.mem_map.mpr ⟨p, List.mem_range.mpr hp, rfl⟩
  have hmax : ∀ (ns : List Nat) (n : Nat), n ∈ ns → n ≤ ns.foldr max 0 := by
    intro ns
    induction ns with
    | nil => intro n hn; exact absurd hn List.not_mem_nil
    | cons a ns ih =>
      intro n hn
      rw [List.foldr_cons]
      cases hn with
      | head => exact Nat.le_max_left _ _
      | tail _ hn => exact (ih n hn).trans (Nat.le_max_right _ _)
  exact hmax _ _ hmem

theorem paddedFirst_eq {p : Nat} (hp : p < m.npix) : m.paddedFirst p = m.firstBin p := by
  unfold paddedFirst firstBin
  by_cases h : 0 < m.count p
  · have hle := m.ptr_le (show p + 1 ≤ m.npix from hp)
    rw [if_pos h, if_pos h, Nat.min_eq_left]
    rw [count] at h
    omega
  · rw [if_neg h, if_neg h]

/-- The weights of a row: the entries behind the shift, and zeros. -/
theorem rowWeights_eq [Zero F] [Inhabited F] {p : Nat} (hp : p < m.npix) (c : Nat) :
    m.rowWeights p c = if m.shift p ≤ c ∧ c < m.shift p + m.count p then
      m.data.getD (m.ptr p + (c - m.shift p)) default else 0 := by
  have hloop : ∀ n, ((List.range n).foldl (fun w k => fun p c =>
      if k < m.count p ∧ c = m.shift p + k then m.data.getD (m.ptr p + k) default else w p c)
      (fun _ _ => (0 : F))) p c =
      if m.shift p ≤ c ∧ c < m.shift p + min n (m.count p) then
        m.data.getD (m.ptr p + (c - m.shift p)) default else 0 := by
    intro n
    induction n with
    | zero => simp
    | succ n ih =>
      rw [List.range_succ, List.foldl_append, List.foldl_cons, List.foldl_nil]
      by_cases h : n < m.count p ∧ c = m.shift p + n
      · obtain ⟨hn, rfl⟩ := h
        rw [if_pos ⟨hn, rfl⟩, if_pos (by omega), Nat.add_sub_cancel_left]
      · rw [if_neg h, ih]
        congr 1
        simp only [eq_iff_iff]
        omega
  rw [rowWeights, hloop, Nat.min_eq_right (m.count_le_used hp)]

/-- A run ends inside of the bins. -/
theorem firstBin_add_count_le (hb : m.brokenPixels = []) {p : Nat} (hp : p < m.npix) :
    m.firstBin p + m.count p ≤ m.nbins := by
  unfold firstBin
  by_cases h : 0 < m.count p
  · have hle := m.ptr_le (show p + 1 ≤ m.npix from hp)
    have hcount : m.count p = m.ptr (p + 1) - m.ptr p := rfl
    have hk : m.ptr p + (m.count p - 1) < m.indices.length := by omega
    have hlast := m.isRun_of_unbroken hb hp (m.count p - 1) (by omega)
    rw [List.getD_eq_getElem _ _ hk] at hlast
    have hlt := m.indices_lt _ (List.getElem_mem hk)
    rw [if_pos h]
    omega
  · rw [if_neg h]
    omega

theorem paddedWidth_le_nbins (h1 : 1 ≤ m.nbins) (hb : m.brokenPixels = []) :
    m.paddedWidth ≤ m.nbins := by
  have hmax : ∀ ns : List Nat, (∀ n ∈ ns, n ≤ m.nbins) → ns.foldr max 0 ≤ m.nbins := by
    intro ns
    induction ns with
    | nil => intro _; exact Nat.zero_le _
    | cons n ns ih =>
      intro h
      exact Nat.max_le.mpr ⟨h n List.mem_cons_self, ih fun x hx => h x (List.mem_cons_of_mem n hx)⟩
  refine Nat.max_le.mpr ⟨hmax _ fun n hn => ?_, h1⟩
  obtain ⟨p, hp, rfl⟩ := List.mem_map.mp hn
  have hle := m.firstBin_add_count_le hb (List.mem_range.mp hp)
  omega

/-- A row lies inside of the bins. -/
theorem newBase_add_width_le (h1 : 1 ≤ m.nbins) (hb : m.brokenPixels = []) (p : Nat) :
    m.newBase p + m.paddedWidth ≤ m.nbins := by
  have hw := m.paddedWidth_le_nbins h1 hb
  have hmin := Nat.min_le_right (m.paddedFirst p) (m.nbins - m.paddedWidth)
  rw [newBase]
  omega

/-- The shifted entries fit the row. -/
theorem shift_add_count_le (h1 : 1 ≤ m.nbins) (hb : m.brokenPixels = []) {p : Nat}
    (hp : p < m.npix) : m.shift p + m.count p ≤ m.paddedWidth := by
  have hw := m.paddedWidth_le_nbins h1 hb
  have hrun := m.firstBin_add_count_le hb hp
  have hused : m.count p ≤ m.paddedWidth := (m.count_le_used hp).trans (Nat.le_max_left _ _)
  rw [shift, newBase, m.paddedFirst_eq hp]
  omega

/-- The `j`-th entry of a pixel lies in its row, behind the shift. -/
theorem entry_eq (hb : m.brokenPixels = []) {p j : Nat} (hp : p < m.npix) (hj : j < m.count p) :
    m.indices.getD (m.ptr p + j) 0 = m.newBase p + (m.shift p + j) := by
  have hle := Nat.min_le_left (m.paddedFirst p) (m.nbins - m.paddedWidth)
  have hrun := m.isRun_of_unbroken hb hp j hj
  have hfirst := m.paddedFirst_eq hp
  rw [firstBin, if_pos (by omega)] at hfirst
  rw [hrun, ← hfirst, shift, newBase]
  omega

/-- Bin `b` is in the row of pixel `p`. -/
def Reaches (p b : Nat) : Prop := m.newBase p ≤ b ∧ b < m.newBase p + m.paddedWidth

instance (p b : Nat) : Decidable (m.Reaches p b) :=
  inferInstanceAs (Decidable (m.newBase p ≤ b ∧ b < m.newBase p + m.paddedWidth))

/-- The weights of a row that are not zero are those of the entries. -/
theorem mem_column_iff [Zero F] [Inhabited F] (h1 : 1 ≤ m.nbins) (hb : m.brokenPixels = [])
    {p b : Nat} (hp : p < m.npix) {w : F} (hw : w ≠ 0) :
    (b, w) ∈ m.column p ↔ m.Reaches p b ∧ m.rowWeights p (b - m.newBase p) = w := by
  rw [m.column_eq_map hp, m.rowWeights_eq hp, List.mem_map]
  constructor
  · intro h
    obtain ⟨k, hk, heq⟩ := h
    obtain ⟨hbin, hweight⟩ := Prod.mk.inj heq
    have hin := List.mem_range'_1.mp hk
    obtain ⟨j, rfl⟩ := Nat.exists_eq_add_of_le hin.1
    rw [m.entry_eq hb hp (by omega)] at hbin
    have hfits := m.shift_add_count_le h1 hb hp
    refine ⟨⟨by omega, by omega⟩, ?_⟩
    rw [if_pos (by omega), ← hweight]
    congr 1
    omega
  · intro h
    obtain ⟨⟨hlow, -⟩, hweight⟩ := h
    split at hweight
    · next hc =>
      obtain ⟨j, hj⟩ := Nat.exists_eq_add_of_le hc.1
      refine ⟨m.ptr p + j, List.mem_range'_1.mpr (by omega), Prod.ext ?_ ?_⟩
      · change m.indices.getD (m.ptr p + j) 0 = b
        rw [m.entry_eq hb hp (by omega)]
        omega
      · change m.data.getD (m.ptr p + j) default = w
        rw [← hweight]
        congr 1
        omega
    · exact absurd hweight.symm hw

/-- A row adds what its column adds. -/
theorem rowSum {D : Type} [NonUnitalNonAssocSemiring D] [Zero F] [Inhabited F] {weight : F → D}
    (h0 : weight 0 = 0) (h1 : 1 ≤ m.nbins) (hb : m.brokenPixels = []) {p : Nat} (hp : p < m.npix)
    (v : D) (b : Nat) :
    ((List.range m.paddedWidth).map fun k =>
      single (m.newBase p + k) (weight (m.rowWeights p k) * v) b).sum =
      columnSum weight (m.column p) v b := by
  obtain ⟨rest, hrest⟩ := Nat.exists_eq_add_of_le (m.shift_add_count_le h1 hb hp)
  have hzero : ∀ k, ¬ (m.shift p ≤ k ∧ k < m.shift p + m.count p) →
      single (m.newBase p + k) (weight (m.rowWeights p k) * v) b = 0 := by
    intro k hk
    rw [m.rowWeights_eq hp, if_neg hk, h0, zero_mul]
    simp [single]
  -- zeros before the entries, the entries, zeros behind them
  rw [hrest, List.range_add, List.range_add, List.map_append, List.map_append, List.sum_append,
    List.sum_append]
  have hleft : ((List.range (m.shift p)).map fun k =>
      single (m.newBase p + k) (weight (m.rowWeights p k) * v) b).sum = 0 := by
    refine List.sum_eq_zero fun x hx => ?_
    obtain ⟨k, hk, rfl⟩ := List.mem_map.mp hx
    have hlt := List.mem_range.mp hk
    exact hzero k (by omega)
  have hright : (((List.range rest).map (m.shift p + m.count p + ·)).map fun k =>
      single (m.newBase p + k) (weight (m.rowWeights p k) * v) b).sum = 0 := by
    refine List.sum_eq_zero fun x hx => ?_
    obtain ⟨k, hk, rfl⟩ := List.mem_map.mp hx
    obtain ⟨j, -, rfl⟩ := List.mem_map.mp hk
    exact hzero _ (by omega)
  rw [hleft, hright, zero_add, add_zero, columnSum, m.column_eq_map hp, List.range'_eq_map_range,
    List.map_map, List.map_map, List.map_map]
  refine congrArg List.sum (List.map_congr_left fun j hj => ?_)
  have hlt := List.mem_range.mp hj
  simp only [Function.comp_apply]
  rw [← m.entry_eq hb hp hlt, m.rowWeights_eq hp, if_pos (by omega), Nat.add_sub_cancel_left]

/-! ## What the layout holds -/

/-- The layout has a row for each of the pixels `(range npix).filter keep`. -/
structure HasRows [Zero F] [Inhabited F] (blockElems : Nat) (l : PaddedLayout F)
    (keep : Nat → Bool) : Prop where
  width : l.width = m.paddedWidth
  blockElems_eq : l.blockElems = blockElems
  kept : ∀ p, p < m.npix → keep p = false → m.count p = 0
  base : l.base = ((List.range m.npix).filter keep).map m.newBase
  weights : l.weights = m.paddedRows ((List.range m.npix).filter keep)
  pixel : ∀ r, r < ((List.range m.npix).filter keep).length →
    (if l.listed then l.pixels.getD r 0 else r) = ((List.range m.npix).filter keep).getD r 0
  row : ∀ p, p < m.npix →
    (if l.listed then l.rowmap.getD p 0 else (p : Int)) =
      if keep p then (((List.range m.npix).filter keep).idxOf p : Int) else -1
  rowPtr : ∀ k, k ≤ (m.npix + blockElems - 1) / blockElems →
    l.rowPtr.getD k 0 = searchSorted ((List.range m.npix).filter keep) (min (k * blockElems) m.npix)

theorem searchSorted_filter_range (keep : Nat → Bool) {n v : Nat} (h : v ≤ n) :
    searchSorted ((List.range n).filter keep) v = ((List.range v).filter keep).length := by
  obtain ⟨d, rfl⟩ := Nat.exists_eq_add_of_le h
  rw [searchSorted, List.countP_filter, List.range_add, List.countP_append]
  have hbelow : (List.range v).countP (fun p => decide (p < v) && keep p) =
      ((List.range v).filter keep).length := by
    rw [← List.countP_eq_length_filter]
    refine List.countP_congr fun p hp => ?_
    simp [List.mem_range.mp hp]
  have habove : ((List.range d).map (v + ·)).countP (fun p => decide (p < v) && keep p) = 0 := by
    refine List.countP_eq_zero.mpr fun p hp => ?_
    obtain ⟨j, -, rfl⟩ := List.mem_map.mp hp
    simp
  rw [hbelow, habove, Nat.add_zero]

theorem getD_blockBounds {blockElems k : Nat} (hk : k ≤ (m.npix + blockElems - 1) / blockElems) :
    (m.blockBounds blockElems).getD k 0 = min (k * blockElems) m.npix := by
  have hlt : k < (m.npix + blockElems - 1) / blockElems + 1 := Nat.lt_succ_of_le hk
  simp [blockBounds, List.getD_eq_getElem?_getD, hlt]

/-- A listed layout has the rows of the pixels with entries, any other one those of all pixels. -/
theorem padded_hasRows [Zero F] [Inhabited F] {blockElems : Nat} {l : PaddedLayout F}
    (h : m.padded blockElems = .ok l) :
    m.brokenPixels = [] ∧ l.listed = decide (2 * m.occupied.length < m.npix) ∧
      m.HasRows blockElems l fun p => !l.listed || decide (0 < m.count p) := by
  unfold padded at h
  split at h
  · exact absurd h (by simp)
  split at h
  · exact absurd h (by simp)
  next hrun =>
  refine ⟨by simpa using hrun, ?_⟩
  simp only at h
  split at h
  · next hfew =>
    obtain rfl := Except.ok.inj h
    simp only [Bool.not_true, Bool.false_or]
    refine ⟨(decide_eq_true hfew).symm, rfl, rfl, ?_, rfl, rfl, fun r _ => rfl, ?_, ?_⟩
    · intro p _ hp
      simpa using hp
    · intro p hp
      have hmem : p ∈ m.occupied ↔ 0 < m.count p := by simp [occupied, hp]
      simp only [if_true, List.getD_eq_getElem?_getD, List.getElem?_map, List.getElem?_range hp,
        Option.map_some, Option.getD_some, hmem, decide_eq_true_eq]
      rfl
    · intro k hk
      have hget := m.getD_blockBounds hk
      have hlt : k < (m.blockBounds blockElems).length := by
        rw [blockBounds, List.length_map, List.length_range]
        omega
      rw [List.getD_eq_getElem _ _ hlt] at hget
      simp only [List.getD_eq_getElem?_getD, List.getElem?_map, List.getElem?_eq_getElem hlt,
        Option.map_some, Option.getD_some, hget]
      rfl
  · next hmany =>
    obtain rfl := Except.ok.inj h
    simp only [Bool.not_false, Bool.true_or]
    refine ⟨(decide_eq_false hmany).symm, rfl, rfl, fun p _ hp => absurd hp (by simp), by simp,
      by simp, ?_, ?_, ?_⟩
    · intro r hr
      have hlt : r < m.npix := by simpa using hr
      simp [List.getD_eq_getElem?_getD, hlt]
    · intro p hp
      have hidx : (List.range m.npix).idxOf p = p := by
        have h := List.nodup_range.idxOf_getElem p (by rw [List.length_range]; exact hp)
        rwa [List.getElem_range] at h
      simp [hidx]
    · intro k hk
      rw [searchSorted_filter_range _ (Nat.min_le_right _ _)]
      simpa using m.getD_blockBounds hk

theorem padded_spec [Zero F] [Inhabited F] {blockElems : Nat} {l : PaddedLayout F}
    (h : m.padded blockElems = .ok l) :
    m.brokenPixels = [] ∧ ∃ keep, m.HasRows blockElems l keep :=
  ⟨(m.padded_hasRows h).1, _, (m.padded_hasRows h).2.2⟩

end NormalMatrix

end Bslz4ToSparse.Matrix
