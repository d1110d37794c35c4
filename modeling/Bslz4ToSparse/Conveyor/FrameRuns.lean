import Bslz4ToSparse.Foundation.Loops

/-!
# The per-frame view of the diffraction map (src/conveyor/_diffmapio.py)

`_cube_frame_vds` lays the rows of a (slow, fast, radial) cube out in frame order: one
mapping of the virtual dataset for each run of frames that goes on along a row of the
cube.
-/

namespace Bslz4ToSparse.Conveyor

/-- `layout[i:j, :] = src[row, col:stop, :]`. -/
structure FrameMapping where
  i : Nat
  j : Nat
  row : Nat
  col : Nat
  stop : Nat
  deriving DecidableEq, Repr

namespace FrameMapping

/-- The frames of `layout[i:j, :]`. -/
def frames (m : FrameMapping) : List Nat := List.range' m.i (m.j - m.i)

/-- The cells of `src[row, col:stop, :]`. -/
def cells (m : FrameMapping) : List (Nat × Nat) :=
  (List.range' m.col (m.stop - m.col)).map fun c => (m.row, c)

/-- HDF5 pairs the two selections in order. -/
def pairs (m : FrameMapping) : List (Nat × Nat × Nat) := m.frames.zip m.cells

end FrameMapping

section Loop

variable (row col : List Nat)

/-- The inner loop: `j` passes the frames that go on along the row of frame `i`. `none` is
an index past an array, or no fuel. -/
def runStop (i : Nat) : Nat → Nat → Option Nat
  | 0, _ => none
  | fuel + 1, j =>
    if j < row.length then do
      let rj ← row[j]?
      let ri ← row[i]?
      if rj = ri then do
        let c ← col[j]?
        let before ← col[j - 1]?
        if c = before + 1 then runStop i fuel (j + 1) else some j
      else some j
    else some j

/-- The outer loop of `_cube_frame_vds` from frame `i` on. -/
def frameMappings : Nat → Nat → Option (List FrameMapping)
  | 0, _ => none
  | fuel + 1, i =>
    if i < row.length then do
      let j ← runStop row col i (row.length + 1) (i + 1)
      let r ← row[i]?
      let c ← col[i]?
      let rest ← frameMappings fuel j
      return ⟨i, j, r, c, c + (j - i)⟩ :: rest
    else some []

/-- The mappings of `_cube_frame_vds`. -/
def cubeFrameVds (fuel : Nat) : Option (List FrameMapping) := frameMappings row col fuel 0

/-- The frames `i` to `j` go along one row of the cube. -/
def Along (i j : Nat) : Prop :=
  ∀ k, i ≤ k → k < j → row[k]? = row[i]? ∧ col[k]? = (col[i]?).map (· + (k - i))

variable {row col}

theorem along_one (i : Nat) : Along row col i (i + 1) := by
  intro k hik hk
  obtain rfl : k = i := by omega
  simp

theorem Along.succ {i j : Nat} (h : Along row col i j) (hij : i < j) (hrow : row[j]? = row[i]?)
    {c : Nat} (hprev : col[j - 1]? = some c) (hcol : col[j]? = some (c + 1)) :
    Along row col i (j + 1) := by
  intro k hik hk
  by_cases hkj : k < j
  · exact h k hik hkj
  · obtain rfl : k = j := by omega
    refine ⟨hrow, ?_⟩
    have hlast := (h (k - 1) (by omega) (by omega)).2
    rw [hprev] at hlast
    obtain ⟨first, hfirst, hc⟩ := Option.map_eq_some_iff.mp hlast.symm
    rw [hcol, hfirst, Option.map_some, ← hc]
    congr 1
    omega

/-- The inner loop ends, past frame `i`, and its frames go along one row. -/
theorem runStop_along (hlen : row.length = col.length) {i : Nat} (hi : i < row.length) :
    ∀ fuel j, row.length < j + fuel → i < j → j ≤ row.length → Along row col i j →
      ∃ stop, runStop row col i fuel j = some stop ∧ i < stop ∧ stop ≤ row.length ∧
        Along row col i stop := by
  intro fuel
  induction fuel with
  | zero =>
    intro j hfuel _ hj _
    omega
  | succ fuel ih =>
    intro j hfuel hij hj halong
    by_cases hlt : j < row.length
    · obtain ⟨rj, hrj⟩ : ∃ r, row[j]? = some r := ⟨_, List.getElem?_eq_getElem hlt⟩
      obtain ⟨ri, hri⟩ : ∃ r, row[i]? = some r := ⟨_, List.getElem?_eq_getElem hi⟩
      obtain ⟨c, hc⟩ : ∃ c, col[j]? = some c := ⟨_, List.getElem?_eq_getElem (by omega)⟩
      obtain ⟨before, hbefore⟩ : ∃ c, col[j - 1]? = some c :=
        ⟨_, List.getElem?_eq_getElem (by omega)⟩
      have hturn : runStop row col i (fuel + 1) j =
          if rj = ri ∧ c = before + 1 then runStop row col i fuel (j + 1) else some j := by
        rw [runStop, if_pos hlt, hrj, hri, hc, hbefore]
        by_cases hrow : rj = ri <;> simp [hrow]
      rw [hturn]
      by_cases hgo : rj = ri ∧ c = before + 1
      · rw [if_pos hgo]
        refine ih (j + 1) (by omega) (by omega) hlt (halong.succ hij ?_ hbefore ?_)
        · rw [hrj, hri, hgo.1]
        · rw [hc, hgo.2]
      · rw [if_neg hgo]
        exact ⟨j, rfl, hij, hj, halong⟩
    · exact ⟨j, by rw [runStop, if_neg hlt], hij, hj, halong⟩

/-- Frame `i` and its cell, for each frame in `[i, i + n)`. -/
def placed (row col : List Nat) (i n : Nat) : List (Nat × Nat × Nat) :=
  (List.range' i n).map fun k => (k, row.getD k 0, col.getD k 0)

/-- What one mapping is to do: its selections have the same length, in the row of a cube that
holds its frames, and pair each frame with its cell. -/
structure Maps (row col : List Nat) (m : FrameMapping) : Prop where
  run : m.i < m.j
  stop : m.stop = m.col + (m.j - m.i)
  pairs : m.pairs = placed row col m.i (m.j - m.i)
  last : col[m.j - 1]? = some (m.stop - 1)

theorem Along.maps {i j : Nat} (h : Along row col i j) (hij : i < j) {r c : Nat}
    (hr : row[i]? = some r) (hc : col[i]? = some c) : Maps row col ⟨i, j, r, c, c + (j - i)⟩ where
  run := hij
  stop := rfl
  pairs := by
    apply List.ext_getElem?
    intro k
    rw [FrameMapping.pairs, FrameMapping.frames, FrameMapping.cells, placed, Nat.add_sub_cancel_left]
    by_cases hk : k < j - i
    · obtain ⟨hrow, hcol⟩ := h (i + k) (by omega) (by omega)
      rw [hr] at hrow
      rw [hc, Option.map_some, Nat.add_sub_cancel_left] at hcol
      simp [hk, hrow, hcol, List.getD_eq_getElem?_getD]
    · rw [List.getElem?_eq_none (by simp; omega), List.getElem?_eq_none (by simp; omega)]
  last := by
    obtain ⟨-, hcol⟩ := h (j - 1) (by omega) (by omega)
    rw [hcol, hc, Option.map_some]
    congr 1
    simp only
    omega

theorem placed_append (row col : List Nat) (i n k : Nat) :
    placed row col i n ++ placed row col (i + n) k = placed row col i (n + k) := by
  rw [placed, placed, placed, ← List.map_append, List.range'_append_1]

/-- The outer loop ends, and its mappings place the frames from `i` on. -/
theorem frameMappings_placed (hlen : row.length = col.length) :
    ∀ fuel i, row.length < i + fuel → i ≤ row.length →
      ∃ ms, frameMappings row col fuel i = some ms ∧ (∀ m ∈ ms, Maps row col m) ∧
        ms.flatMap FrameMapping.pairs = placed row col i (row.length - i) := by
  intro fuel
  induction fuel with
  | zero =>
    intro i hfuel hi
    omega
  | succ fuel ih =>
    intro i hfuel hi
    by_cases hlt : i < row.length
    · obtain ⟨j, hj, hij, hjn, halong⟩ :=
        runStop_along hlen hlt (row.length + 1) (i + 1) (by omega) (by omega) hlt (along_one i)
      obtain ⟨r, hr⟩ : ∃ r, row[i]? = some r := ⟨_, List.getElem?_eq_getElem hlt⟩
      obtain ⟨c, hc⟩ : ∃ c, col[i]? = some c := ⟨_, List.getElem?_eq_getElem (by omega)⟩
      obtain ⟨ms, hms, hmaps, hplaced⟩ := ih j (by omega) hjn
      have hm := halong.maps hij hr hc
      refine ⟨⟨i, j, r, c, c + (j - i)⟩ :: ms, ?_, ?_, ?_⟩
      · rw [frameMappings, if_pos hlt, hj, hr, hc]
        simp [hms]
      · intro m hmem
        rcases List.mem_cons.mp hmem with rfl | hrest
        · exact hm
        · exact hmaps m hrest
      · rw [List.flatMap_cons, hplaced, hm.pairs]
        have happend := placed_append row col i (j - i) (row.length - j)
        rw [Nat.add_sub_cancel' hij.le] at happend
        rw [happend]
        congr 1
        omega
    · refine ⟨[], by rw [frameMappings, if_neg hlt], fun m hm => absurd hm List.not_mem_nil, ?_⟩
      rw [Nat.sub_eq_zero_of_le (by omega)]
      rfl

/-- More fuel changes nothing. -/
theorem frameMappings_mono {fuel more i : Nat} (hmore : fuel ≤ more) {ms : List FrameMapping}
    (h : frameMappings row col fuel i = some ms) : frameMappings row col more i = some ms := by
  induction fuel generalizing more i ms with
  | zero => simp [frameMappings] at h
  | succ fuel ih =>
    obtain ⟨more, rfl⟩ : ∃ k, more = k + 1 := ⟨more - 1, by omega⟩
    rw [frameMappings] at h ⊢
    by_cases hlt : i < row.length
    · rw [if_pos hlt] at h ⊢
      obtain ⟨j, hj, h⟩ := Option.bind_eq_some_iff.mp h
      obtain ⟨r, hr, h⟩ := Option.bind_eq_some_iff.mp h
      obtain ⟨c, hc, h⟩ := Option.bind_eq_some_iff.mp h
      obtain ⟨rest, hrest, h⟩ := Option.bind_eq_some_iff.mp h
      rw [hj, hr, hc]
      simp only [Option.bind_eq_bind, Option.bind_some, ih (Nat.le_of_succ_le_succ hmore) hrest]
      exact h
    · rw [if_neg hlt] at h ⊢
      exact h

theorem placed_all (hlen : row.length = col.length) :
    placed row col 0 row.length = (List.range row.length).zip (row.zip col) := by
  apply List.ext_getElem?
  intro k
  rw [placed, ← List.range_eq_range']
  by_cases hk : k < row.length
  · have hk' : k < col.length := hlen ▸ hk
    simp [hk, hk']
  · rw [List.getElem?_eq_none (by simp; omega), List.getElem?_eq_none (by simp; omega)]

theorem Maps.lengths {m : FrameMapping} (h : Maps row col m) :
    m.frames.length = m.cells.length := by
  rw [FrameMapping.frames, FrameMapping.cells, List.length_map, List.length_range',
    List.length_range', h.stop, Nat.add_sub_cancel_left]

theorem Maps.frames {m : FrameMapping} (h : Maps row col m) : m.frames = m.pairs.map Prod.fst := by
  rw [FrameMapping.pairs, List.map_fst_zip h.lengths.le]

theorem Maps.stop_le {m : FrameMapping} (h : Maps row col m) {cols : Nat}
    (hcols : ∀ c ∈ col, c < cols) : m.stop ≤ cols := by
  have hlast := hcols _ (List.mem_of_getElem? h.last)
  omega

/-- The loop of `_cube_frame_vds` ends. Its mappings cover every frame once, in order, and pair
frame `i` with the cell `(row[i], col[i])`: both selections of a mapping have the same length, and
the one in the cube ends within the cube when the positions do. -/
theorem cubeFrameVds_exact (row col : List Nat) (hlen : row.length = col.length) :
    ∃ ms, (∀ fuel, row.length < fuel → cubeFrameVds row col fuel = some ms) ∧
      ms.flatMap FrameMapping.frames = List.range row.length ∧
      ms.flatMap FrameMapping.pairs = (List.range row.length).zip (row.zip col) ∧
      ∀ m ∈ ms, m.frames.length = m.cells.length ∧
        ∀ cols, (∀ c ∈ col, c < cols) → m.stop ≤ cols := by
  obtain ⟨ms, hms, hmaps, hplaced⟩ :=
    frameMappings_placed hlen (row.length + 1) 0 (by omega) (Nat.zero_le _)
  rw [Nat.sub_zero, placed_all hlen] at hplaced
  refine ⟨ms, fun fuel hfuel => frameMappings_mono hfuel hms, ?_, hplaced, fun m hm =>
    ⟨(hmaps m hm).lengths, fun cols hcols => (hmaps m hm).stop_le hcols⟩⟩
  calc ms.flatMap FrameMapping.frames = ms.flatMap fun m => m.pairs.map Prod.fst :=
        List.flatMap_congr fun m hm => (hmaps m hm).frames
    _ = (ms.flatMap FrameMapping.pairs).map Prod.fst := List.map_flatMap.symm
    _ = List.range row.length := by
        rw [hplaced, List.map_fst_zip]
        simp [hlen]

/-- A snake over two rows, back along the second: each of its frames is a mapping of its own. -/
theorem cubeFrameVds_exact_snake :
    ∃ ms, (∀ fuel, 4 < fuel → cubeFrameVds [0, 0, 1, 1] [0, 1, 1, 0] fuel = some ms) ∧
      ms.flatMap FrameMapping.frames = [0, 1, 2, 3] ∧
      ms.flatMap FrameMapping.pairs = [(0, 0, 0), (1, 0, 1), (2, 1, 1), (3, 1, 0)] ∧
      ∀ m ∈ ms, m.frames.length = m.cells.length ∧
        ∀ cols, (∀ c ∈ [0, 1, 1, 0], c < cols) → m.stop ≤ cols :=
  cubeFrameVds_exact [0, 0, 1, 1] [0, 1, 1, 0] rfl

end Loop

end Bslz4ToSparse.Conveyor
