import Bslz4ToSparse.Conveyor.Axis
import Bslz4ToSparse.Foundation.Rounds
import Bslz4ToSparse.Matrix.Layout
import Mathlib.Data.List.Dedup
import Mathlib.Data.List.ProdSigma

/-!
# The cells of the frames (`bliss_geometry`, src/conveyor/_diffmapio.py)

What a scan says about its motors and the measured positions give every frame its cell in the map.
Positions are exact.
-/

namespace Bslz4ToSparse.Conveyor

open Foundation

/-! ## What is read of the scan -/

/-- What `_MESH_TITLE` finds. -/
structure MeshTitle where
  fast : String
  fast_intervals : Nat
  slow : String
  slow_intervals : Nat
  deriving DecidableEq, Repr

/-- `instrument/fscan_parameters`, as far as they are there. -/
structure FscanParameters where
  fast_motor : Option String
  slow_motor : Option String
  slow_npoints : Option ℤ
  fast_npoints : Option ℤ
  fast_motor_mode : Option String
  deriving DecidableEq, Repr

inductive ScanTitle where
  | mesh (m : MeshTitle)
  | fscan (par : FscanParameters)
  | other
  deriving DecidableEq, Repr

/-- The entry of the scan in the master file. -/
structure ScanEntry where
  title : ScanTitle
  motorValues : String → Option (List ℚ)      -- `_motor_values`
  images : Nat                                -- `imgs.shape[0]`

/-- Why `bliss_geometry` refuses a scan. -/
inductive GeometryError where
  | motors                                    -- names no mesh motors
  | mapShape (given scan : ℤ × ℤ)
  | noPositions (motor : String)
  | positions (fast slow : Nat)
  | frames (n : Nat) (rows cols : ℤ)
  | negative (rows cols : ℤ)                  -- numpy: negative dimensions are not allowed
  | order                                     -- do not follow a zigzag frame order
  | axis (e : AxisError)
  | guessed (n rows cols : Nat)
  | notOneToOne (n rows cols : Nat)
  | images (n frames : Nat)
  deriving DecidableEq, Repr

/-- `a or b` of strings that may be None. -/
def orElse : Option String → Option String → Option String
  | some s, b => if s = "" then b else some s
  | none, b => b

/-- The motors, the numbers of slow and fast positions and the mode of the fast motor, from the title. -/
def scanMotors (title : ScanTitle) (fast slow : Option String) :
    Option String × Option String × (Option ℤ × Option ℤ) × Option String :=
  match title with
  | .mesh m =>
      let fast := orElse fast (some m.fast)
      let slow := orElse slow (some m.slow)
      (fast, slow, if fast = some m.fast ∧ slow = some m.slow
        then (some (m.slow_intervals + 1), some (m.fast_intervals + 1)) else (none, none), none)
  | .fscan par =>
      (orElse fast par.fast_motor, orElse slow par.slow_motor, (par.slow_npoints, par.fast_npoints),
        par.fast_motor_mode)
  | .other => (fast, slow, (none, none), none)

/-- `map_shape` as the numbers of positions, where it is given. -/
def mapPositions (npos : Option ℤ × Option ℤ) : Option (ℤ × ℤ) → Except GeometryError (Option ℤ × Option ℤ)
  | none => .ok npos
  | some shape =>
      match npos with
      | (some rows, some cols) =>
          if shape ≠ (rows, cols) then .error (.mapShape shape (rows, cols))
          else .ok (some shape.1, some shape.2)
      | _ => .ok (some shape.1, some shape.2)

/-! ## The placement -/

/-- The cells of an array with `cols` columns, row after row. -/
def flatCells (row col : List Nat) (cols : Nat) : List Nat := List.zipWith (fun r c => r * cols + c) row col

/-- The column of frame `k`: the odd lines are taken backwards. -/
def zigzagCol (cols k : Nat) : Nat := if k / cols % 2 = 1 then cols - 1 - k % cols else k % cols

/-- `_zigzag`. -/
def zigzag (vals : List ℚ) (rows cols : Nat) : Except GeometryError (List Nat × List Nat) :=
  let i := List.range (rows * cols)
  let row := i.map (· / cols)
  let col := i.map (zigzagCol cols)
  let grid := scatter (List.replicate (rows * cols) 0) (flatCells row col cols) vals
  let d := (List.range rows).flatMap fun r => diff ((grid.drop (r * cols)).take cols)
  if d.all (fun g => decide (0 < g)) || d.all (fun g => decide (g < 0)) then .ok (row, col)
  else .error .order

/-- `np.bincount(line, weights=vals) / count`. -/
def lineMeans (line : List Nat) (vals : List ℚ) (count : Nat) : List ℚ :=
  if line.isEmpty then [] else (bincount line vals).map (· / count)

/-- The positions of the grid lines and the line of each frame: slow and fast. -/
structure Placement where
  rows : Nat
  cols : Nat
  row : List Nat
  col : List Nat
  slow_values : List ℚ
  fast_values : List ℚ
  deriving DecidableEq, Repr

/-- The frames are placed by their order in a ZIGZAG scan, else by their positions `py` (fast) and `pz`. -/
def placement (mode : Option String) (npos : Option ℤ × Option ℤ) (py pz : List ℚ) :
    Except GeometryError Placement :=
  match mode, npos with
  | some "ZIGZAG", (some rows, some cols) =>
      if (py.length : ℤ) ≠ rows * cols then .error (.frames py.length rows cols)
      else if rows < 0 ∨ cols < 0 then .error (.negative rows cols)
      else do
        let (row, col) ← zigzag py rows.toNat cols.toNat
        .ok ⟨rows.toNat, cols.toNat, row, col, lineMeans row pz cols.toNat, lineMeans col py rows.toNat⟩
  | _, (nslow, nfast) => do
      let (fast_u, col) ← (axis py nfast).mapError GeometryError.axis
      let (slow_u, row) ← (axis pz nslow).mapError GeometryError.axis
      .ok ⟨slow_u.length, fast_u.length, row, col, slow_u, fast_u⟩

/-- What of the geometry the integration and the file use. -/
structure MapGeometry where
  rows : Nat
  cols : Nat
  row : List Nat
  col : List Nat
  frame_index : List ℤ            -- (rows, cols), row after row
  n_points : Nat
  slow_values : List ℚ
  fast_values : List ℚ
  deriving DecidableEq, Repr

/-- `frame_index[r, c]`. -/
def MapGeometry.frameAt (g : MapGeometry) (r c : Nat) : ℤ := g.frame_index.getD (r * g.cols + c) (-1)

/-- `frame_index[row, col] = np.arange(n)`. -/
def frameIndex (p : Placement) (n : Nat) : List ℤ :=
  scatter (List.replicate (p.rows * p.cols) (-1)) (flatCells p.row p.col p.cols)
    ((List.range n).map fun k : Nat => (k : ℤ))

/-- The mode, the numbers of positions, and the positions of the fast and the slow motor. -/
def measured (e : ScanEntry) (fast slow : Option String) (mapShape : Option (ℤ × ℤ)) :
    Except GeometryError (Option String × (Option ℤ × Option ℤ) × List ℚ × List ℚ) := do
  let (fast, slow, npos, mode) := scanMotors e.title fast slow
  let some fast := orElse fast none | .error .motors
  let some slow := orElse slow none | .error .motors
  let npos ← mapPositions npos mapShape
  let some py := e.motorValues fast | .error (.noPositions fast)
  let some pz := e.motorValues slow | .error (.noPositions slow)
  if pz.length ≠ py.length then .error (.positions py.length pz.length) else
  .ok (mode, npos, py, pz)

/-- `bliss_geometry`. -/
def blissGeometry (e : ScanEntry) (fast slow : Option String) (mapShape : Option (ℤ × ℤ)) :
    Except GeometryError MapGeometry := do
  let (mode, npos, py, pz) ← measured e fast slow mapShape
  let n := py.length
  let p ← placement mode npos py pz
  if (npos.1 = none ∨ npos.2 = none) ∧ p.rows * p.cols ≠ n then .error (.guessed n p.rows p.cols) else
  if (p.row.zip p.col).dedup.length ≠ n then .error (.notOneToOne n p.rows p.cols) else
  if e.images < n then .error (.images n e.images) else
  .ok ⟨p.rows, p.cols, p.row, p.col, frameIndex p n, n, p.slow_values, p.fast_values⟩

/-! ## The lines of one motor -/

theorem count_scatter_true {r : List Bool} {ks : List Nat} (hnd : ks.Nodup) (hlt : ∀ k ∈ ks, k < r.length)
    (hfalse : ∀ k ∈ ks, r.getD k false = false) :
    (scatter r ks (ks.map fun _ => true)).count true = r.count true + ks.length := by
  induction ks generalizing r with
  | nil => rfl
  | cons k ks ih =>
    obtain ⟨hk, hks⟩ := List.nodup_cons.mp hnd
    have hcons : scatter r (k :: ks) ((k :: ks).map fun _ => true) =
        scatter (r.set k true) ks (ks.map fun _ => true) := rfl
    have hklt := hlt k List.mem_cons_self
    have hold : r.get ⟨k, hklt⟩ = false := by
      have h := hfalse k List.mem_cons_self
      rwa [List.getD_eq_getElem _ _ hklt] at h
    have hset : (r.set k true).count true = r.count true + 1 := by
      rw [List.count_set hklt]
      simp only [List.get_eq_getElem] at hold
      simp [hold]
    rw [hcons, ih hks, hset, List.length_cons]
    · omega
    · intro j hj
      rw [List.length_set]
      exact hlt j (List.mem_cons_of_mem k hj)
    · intro j hj
      have hne : k ≠ j := fun h => hk (h ▸ hj)
      have h := hfalse j (List.mem_cons_of_mem k hj)
      rw [List.getD_eq_getElem?_getD] at h ⊢
      rwa [List.getElem?_set_ne hne]

theorem length_axisSplit (gaps : List ℚ) (npos : Option ℤ) : (axisSplit gaps npos).length = gaps.length := by
  cases npos with
  | none =>
    simp only [axisSplit]
    split <;> simp
  | some m => simp [axisSplit]

/-- As many lines as are asked for. -/
theorem count_axisSplit {gaps : List ℚ} {m : ℤ} (hm : 1 ≤ m) (hle : m ≤ gaps.length + 1) :
    ((axisSplit gaps (some m)).count true : ℤ) + 1 = m := by
  have hnd : (argsort 0 gaps).Nodup := nodup_argsort
  have hlen : (argsort 0 gaps).length = gaps.length := length_argsort
  have hmem : ∀ k ∈ (argsort 0 gaps).drop (gaps.length - (m - 1).toNat), k < gaps.length :=
    fun k hk => mem_argsort.mp (List.mem_of_mem_drop hk)
  simp only [axisSplit]
  rw [count_scatter_true (hnd.sublist (List.drop_sublist _ _)), List.length_drop, hlen]
  · have hzero : (List.replicate gaps.length false).count true = 0 := by
      rw [List.count_eq_zero]
      simp
    omega
  · intro k hk
    rw [List.length_replicate]
    exact hmem k hk
  · intro k hk
    simp [List.getD_eq_getElem?_getD, hmem k hk]

theorem sum_toNat (split : List Bool) : (split.map Bool.toNat).sum = split.count true := by
  induction split with
  | nil => rfl
  | cons b split ih => cases b <;> simp [ih]; omega

/-- Counting up by one at most misses no number. -/
theorem exists_getD_offsets (split : List Bool) {p : Nat} (hp : p ≤ split.length) {v : Nat}
    (hv : v ≤ (offsets (split.map Bool.toNat)).getD p 0) :
    ∃ i, i ≤ p ∧ (offsets (split.map Bool.toNat)).getD i 0 = v := by
  induction p with
  | zero =>
    have hzero : (offsets (split.map Bool.toNat)).getD 0 0 = 0 := by
      rw [getD_offsets _ (Nat.zero_le _), List.take_zero, List.sum_nil]
    exact ⟨0, le_rfl, by omega⟩
  | succ p ih =>
    have hstep := getD_offsets_succ (split.map Bool.toNat) (p := p) (by rw [List.length_map]; omega)
    have hone : (split.map Bool.toNat).getD p 0 ≤ 1 := by
      rw [show (0 : Nat) = Bool.toNat false from rfl, List.getD_map]
      exact Bool.toNat_le _
    by_cases hlast : v = (offsets (split.map Bool.toNat)).getD (p + 1) 0
    · exact ⟨p + 1, le_rfl, hlast.symm⟩
    · obtain ⟨i, hi, h⟩ := ih (by omega) (by omega)
      exact ⟨i, by omega, h⟩

theorem getD_offsets_mono (ns : List Nat) {i j : Nat} (hij : i ≤ j) (hj : j ≤ ns.length) :
    (offsets ns).getD i 0 ≤ (offsets ns).getD j 0 := by
  induction j, hij using Nat.le_induction with
  | base => exact le_rfl
  | succ j hij ih =>
    rw [getD_offsets_succ ns (by omega)]
    exact (ih (by omega)).trans (Nat.le_add_right _ _)

theorem map_getD_range (l : List Nat) : (List.range l.length).map (fun i => l.getD i 0) = l := by
  rw [List.range_eq_range', map_range'_getD l 0 (by omega), List.drop_zero, List.take_length]

/-- Every value has a line and every line a value; the lines are in the order of the values. -/
structure Lines (vals : List ℚ) (m : Nat) (line : List Nat) : Prop where
  length : line.length = vals.length
  lt : ∀ l ∈ line, l < m
  hit : ∀ l, l < m → l ∈ line
  order : ∀ i j, i < vals.length → j < vals.length → line.getD i 0 < line.getD j 0 →
    vals.getD i 0 ≤ vals.getD j 0

theorem axis_lines {vals : List ℚ} {npos : Option ℤ} {centres : List ℚ} {idx : List Nat}
    (h : axis vals npos = .ok (centres, idx)) :
    Lines vals centres.length idx ∧ ∀ m, npos = some m → (centres.length : ℤ) = m := by
  unfold axis at h
  set order := argsort 0 vals with horder
  set s := order.map fun k => vals.getD k 0 with hs
  simp only [] at h
  split_ifs at h with hpositions hgrid hvalues
  set split := axisSplit (diff s) npos with hsplit
  set group := offsets (split.map Bool.toNat) with hgroup
  obtain ⟨hcentres, hidx⟩ := Prod.mk.inj (Except.ok.inj h)
  have hlenorder : order.length = vals.length := length_argsort
  have hlens : s.length = vals.length := by rw [hs, List.length_map, hlenorder]
  have hlensplit : split.length = vals.length - 1 := by
    rw [hsplit, length_axisSplit, length_diff, hlens]
  have hlengroup : group.length = vals.length := by rw [not_not.mp hvalues, hlens]
  have hpos : 0 < vals.length := by
    rw [← hlengroup, hgroup, length_offsets]
    omega
  have hlast : group.getD split.length 0 = split.count true := by
    have hsum := getD_offsets_length (split.map Bool.toNat)
    rwa [List.length_map, sum_toNat] at hsum
  have hle : ∀ i, i < vals.length → group.getD i 0 ≤ split.count true := by
    intro i hi
    rw [← sum_toNat]
    exact offsets_le _ (by rw [List.length_map]; omega)
  have hmax : reduce max 0 group = split.count true := by
    have hne : group ≠ [] := List.ne_nil_of_length_pos (by omega)
    obtain ⟨i, hi, hlargest⟩ := List.getElem_of_mem (reduce_max_mem 0 hne)
    have hat := hle i (by omega)
    rw [List.getD_eq_getElem _ _ hi, hlargest] at hat
    have hmem : group.getD split.length 0 ∈ group := by
      rw [List.getD_eq_getElem _ _ (by omega)]
      exact List.getElem_mem _
    have hbelow := le_reduce_max 0 hmem
    omega
  have hlen : centres.length = split.count true + 1 := by
    rw [← hcentres, List.length_zipWith, bincount, bincount, List.length_map, List.length_map,
      List.length_range, hmax, Nat.min_self]
  have hplace : ∀ i, i < vals.length → order.getD i 0 < vals.length := fun i hi => OnGrid.place_lt hi
  have hline : ∀ i, i < vals.length → idx.getD (order.getD i 0) 0 = group.getD i 0 := by
    intro i hi
    have hleft := map_getD_range order
    have hright := map_getD_range group
    rw [hlenorder] at hleft
    rw [hlengroup] at hright
    have hnd : (List.map (fun i => order.getD i 0) (List.range vals.length)).Nodup := by
      rw [hleft]
      exact nodup_argsort
    have hset := scatter_map (List.replicate vals.length 0) (fun i => group.getD i 0) 0 hnd
      (List.mem_range.mpr hi) (by rw [List.length_replicate]; exact hplace i hi)
    rwa [hleft, hright, hidx] at hset
  have hfind : ∀ k, k < vals.length → ∃ i, i < vals.length ∧ order.getD i 0 = k := by
    intro k hk
    obtain ⟨i, hi, hki⟩ := List.getElem_of_mem (mem_argsort (d := (0 : ℚ)).mpr hk)
    exact ⟨i, by rwa [length_argsort] at hi, (List.getD_eq_getElem _ _ hi).trans hki⟩
  have hlenidx : idx.length = vals.length := by
    rw [← hidx, length_scatter, List.length_replicate]
  refine ⟨⟨hlenidx, ?_, ?_, ?_⟩, ?_⟩
  · intro l hl
    obtain ⟨k, hk, rfl⟩ := List.getElem_of_mem hl
    obtain ⟨i, hi, hik⟩ := hfind k (by omega)
    have hat := hline i hi
    rw [hik, List.getD_eq_getElem _ _ hk] at hat
    have hbound := hle i hi
    omega
  · intro l hl
    obtain ⟨i, hi, rfl⟩ := exists_getD_offsets split le_rfl (show l ≤ _ by rw [← hgroup, hlast]; omega)
    rw [← hgroup, ← hline i (by omega), List.getD_eq_getElem _ _ (by rw [hlenidx]; exact hplace i (by omega))]
    exact List.getElem_mem _
  · intro k l hk hl hlt
    obtain ⟨i, hi, rfl⟩ := hfind k hk
    obtain ⟨j, hj, rfl⟩ := hfind l hl
    rw [hline i hi, hline j hj] at hlt
    -- the groups go up along the sorted values
    have hij : i < j := by
      by_contra hge
      have hmono := getD_offsets_mono (split.map Bool.toNat) (not_lt.mp hge)
        (by rw [List.length_map]; omega)
      rw [← hgroup] at hmono
      omega
    have hpairwise : order.Pairwise fun i j => vals.getD i 0 ≤ vals.getD j 0 := argsort_sorted
    have hsorted := List.pairwise_iff_getElem.mp hpairwise i j (by omega) (by omega) hij
    rwa [← List.getD_eq_getElem _ 0, ← List.getD_eq_getElem _ 0] at hsorted
  · intro m hm
    subst hm
    rw [Option.any_some, decide_eq_true_iff, not_or] at hpositions
    have hcount := @count_axisSplit (diff s) m (by omega) (by
      rw [length_diff, hlens]
      omega)
    rw [hlen]
    push_cast
    exact hcount

/-! ## Cells -/

/-- Rows of `cols` cells, one after another. -/
theorem cell_inj {cols r r' c c' : Nat} (hc : c < cols) (hc' : c' < cols)
    (h : r * cols + c = r' * cols + c') : r = r' ∧ c = c' := by
  have hdiv : ∀ {r c}, c < cols → (r * cols + c) / cols = r := by
    intro r c hc
    rw [Nat.mul_comm, Nat.mul_add_div (by omega), Nat.div_eq_of_lt hc, Nat.add_zero]
  have hr : r = r' := by rw [← hdiv (r := r) hc, h, hdiv hc']
  subst hr
  exact ⟨rfl, by omega⟩

theorem flatCells_eq {row col : List Nat} {n : Nat} (hrow : row.length = n) (hcol : col.length = n)
    (cols : Nat) : flatCells row col cols =
      (List.range n).map fun k => row.getD k 0 * cols + col.getD k 0 := by
  refine List.ext_getElem (by simp [flatCells, hrow, hcol]) fun i h₁ h₂ => ?_
  have hi : i < n := by simpa using h₂
  rw [List.getElem_map, List.getElem_range, List.getD_eq_getElem _ _ (by omega),
    List.getD_eq_getElem _ _ (by omega)]
  simp [flatCells]

/-- Frame `k` and frame `l` do not share a cell. -/
def Distinct (row col : List Nat) (n : Nat) : Prop :=
  ∀ k l, k < n → l < n → row.getD k 0 = row.getD l 0 → col.getD k 0 = col.getD l 0 → k = l

theorem nodup_flatCells {row col : List Nat} {n cols : Nat} (hd : Distinct row col n)
    (hcols : ∀ k, k < n → col.getD k 0 < cols) :
    ((List.range n).map fun k => row.getD k 0 * cols + col.getD k 0).Nodup := by
  refine List.Nodup.map_on (fun k hk l hl heq => ?_) List.nodup_range
  rw [List.mem_range] at hk hl
  obtain ⟨hr, hc⟩ := cell_inj (hcols k hk) (hcols l hl) heq
  exact hd k l hk hl hr hc

/-! ## The zigzag -/

/-- The frames of a line go one way along the fast positions, on every line the same. -/
def Steady (py : List ℚ) (row col : List Nat) : Prop :=
  ∃ up : Bool, ∀ k l, k < py.length → l < py.length → row.getD k 0 = row.getD l 0 →
    col.getD k 0 < col.getD l 0 → if up then py.getD k 0 < py.getD l 0 else py.getD l 0 < py.getD k 0

theorem zigzagCol_lt {cols : Nat} (h : 0 < cols) (k : Nat) : zigzagCol cols k < cols := by
  have hmod := Nat.mod_lt k h
  unfold zigzagCol
  split <;> omega

theorem zigzagCol_inj {cols k l : Nat} (h : 0 < cols) (hrow : k / cols = l / cols)
    (hcol : zigzagCol cols k = zigzagCol cols l) : k = l := by
  have hk := Nat.mod_lt k h
  have hl := Nat.mod_lt l h
  have hmod : k % cols = l % cols := by
    unfold zigzagCol at hcol
    rw [hrow] at hcol
    split at hcol <;> omega
  rw [← Nat.div_add_mod k cols, ← Nat.div_add_mod l cols, hrow, hmod]

/-- A relation between neighbours, as far as it goes. -/
theorem rel_of_neighbours {R : ℚ → ℚ → Prop} (htrans : ∀ a b c, R a b → R b c → R a c) {s : Nat → ℚ}
    {n : Nat} (h : ∀ i, i + 1 < n → R (s i) (s (i + 1))) {i j : Nat} (hij : i < j) (hj : j < n) :
    R (s i) (s j) := by
  induction j, hij using Nat.le_induction with
  | base => exact h i hj
  | succ j hij ih => exact htrans _ _ _ (ih (by omega)) (h j hj)

/-- `np.diff(grid, axis=1)` has the gap between each cell and the next one of its row. -/
theorem gap_mem {grid : List ℚ} {rows cols r c : Nat} (hgrid : grid.length = rows * cols) (hr : r < rows)
    (hc : c + 1 < cols) : grid.getD (r * cols + (c + 1)) 0 - grid.getD (r * cols + c) 0 ∈
      (List.range rows).flatMap fun r => diff ((grid.drop (r * cols)).take cols) := by
  have hmul := Nat.mul_le_mul_right cols (Nat.succ_le_of_lt hr)
  rw [Nat.succ_mul] at hmul
  have hlen : ((grid.drop (r * cols)).take cols).length = cols := by
    rw [List.length_take, List.length_drop]
    omega
  have hget : ∀ i, i < cols → ((grid.drop (r * cols)).take cols).getD i 0 = grid.getD (r * cols + i) 0 := by
    intro i hi
    rw [List.getD_eq_getElem _ _ (by omega), List.getElem_take, List.getElem_drop,
      List.getD_eq_getElem _ _ (by omega)]
  refine List.mem_flatMap.mpr ⟨r, List.mem_range.mpr hr, ?_⟩
  have hdiff := getD_diff (s := (grid.drop (r * cols)).take cols) (i := c) (by omega)
  rw [hget _ hc, hget _ (by omega)] at hdiff
  rw [← hdiff, List.getD_eq_getElem _ _ (by rw [length_diff]; omega)]
  exact List.getElem_mem _

section

variable {vals : List ℚ} {rows cols : Nat} (hn : vals.length = rows * cols)

include hn

/-- Frame `k` stands in its cell of the grid. -/
theorem zigzag_grid {k : Nat} (hk : k < vals.length) :
    (scatter (List.replicate (rows * cols) 0)
      (flatCells ((List.range (rows * cols)).map (· / cols)) ((List.range (rows * cols)).map (zigzagCol cols))
        cols) vals).getD (k / cols * cols + zigzagCol cols k) 0 = vals.getD k 0 := by
  have hcols : 0 < cols := by
    rcases Nat.eq_zero_or_pos cols with rfl | h
    · omega
    · exact h
  have hcells : flatCells ((List.range (rows * cols)).map (· / cols))
      ((List.range (rows * cols)).map (zigzagCol cols)) cols =
        (List.range (rows * cols)).map fun k => k / cols * cols + zigzagCol cols k := by
    rw [flatCells, List.zipWith_map, List.zipWith_self]
  have hvals : (List.range (rows * cols)).map (fun k => vals.getD k 0) = vals := by
    rw [← hn, List.range_eq_range', map_range'_getD vals 0 (by omega), List.drop_zero, List.take_length]
  have hnd : ((List.range (rows * cols)).map fun k => k / cols * cols + zigzagCol cols k).Nodup := by
    refine List.Nodup.map_on (fun k _ l _ heq => ?_) List.nodup_range
    obtain ⟨hr, hc⟩ := cell_inj (zigzagCol_lt hcols k) (zigzagCol_lt hcols l) heq
    exact zigzagCol_inj hcols hr hc
  have hset := scatter_map (List.replicate (rows * cols) 0) (fun k => vals.getD k 0) 0 hnd
    (List.mem_range.mpr (hn ▸ hk)) (by
      rw [List.length_replicate]
      have hrow : k / cols < rows := Nat.div_lt_of_lt_mul (by rw [Nat.mul_comm, ← hn]; exact hk)
      have hcol := zigzagCol_lt hcols k
      have hmul := Nat.mul_le_mul_right cols (Nat.succ_le_of_lt hrow)
      rw [Nat.succ_mul] at hmul
      omega)
  rwa [hvals, ← hcells] at hset

theorem zigzag_ok {row col : List Nat} (h : zigzag vals rows cols = .ok (row, col)) :
    row = (List.range vals.length).map (· / cols) ∧ col = (List.range vals.length).map (zigzagCol cols) ∧
      Steady vals row col := by
  unfold zigzag at h
  simp only [] at h
  split at h
  · next hall =>
    obtain ⟨rfl, rfl⟩ := Prod.mk.inj (Except.ok.inj h)
    rw [hn]
    refine ⟨rfl, rfl, ?_⟩
    set grid := scatter (List.replicate (rows * cols) 0)
      (flatCells ((List.range (rows * cols)).map (· / cols)) ((List.range (rows * cols)).map (zigzagCol cols))
        cols) vals with hgrid
    have hlen : grid.length = rows * cols := by rw [hgrid, length_scatter, List.length_replicate]
    have hline : ∀ R : ℚ → ℚ → Prop, (∀ a b c, R a b → R b c → R a c) →
        (∀ r c, r < rows → c + 1 < cols → R (grid.getD (r * cols + c) 0) (grid.getD (r * cols + (c + 1)) 0)) →
        ∀ k l, k < vals.length → l < vals.length → k / cols = l / cols → zigzagCol cols k < zigzagCol cols l →
          R (vals.getD k 0) (vals.getD l 0) := by
      intro R htrans hnext k l hk hl hrow hcol
      have hcols : 0 < cols := by
        rcases Nat.eq_zero_or_pos cols with rfl | h
        · omega
        · exact h
      have hr : k / cols < rows := Nat.div_lt_of_lt_mul (by rw [Nat.mul_comm, ← hn]; exact hk)
      rw [← zigzag_grid hn hk, ← zigzag_grid hn hl, ← hrow]
      exact rel_of_neighbours htrans (s := fun c => grid.getD (k / cols * cols + c) 0)
        (fun c hc => hnext _ c hr hc) hcol (zigzagCol_lt hcols l)
    have hplaces : ∀ k, k < vals.length →
        ((List.range (rows * cols)).map (· / cols)).getD k 0 = k / cols ∧
          ((List.range (rows * cols)).map (zigzagCol cols)).getD k 0 = zigzagCol cols k := by
      intro k hk
      have hk' : k < rows * cols := hn ▸ hk
      constructor <;> simp [List.getD_eq_getElem?_getD, hk']
    rw [Bool.or_eq_true, List.all_eq_true, List.all_eq_true] at hall
    rcases hall with hup | hdown
    · refine ⟨true, fun k l hk hl hrow hcol => ?_⟩
      rw [(hplaces k hk).1, (hplaces l hl).1] at hrow
      rw [(hplaces k hk).2, (hplaces l hl).2] at hcol
      refine hline (· < ·) (fun _ _ _ => lt_trans) (fun r c hr hc => ?_) k l hk hl hrow hcol
      have hgap := of_decide_eq_true (hup _ (gap_mem hlen hr hc))
      linarith
    · refine ⟨false, fun k l hk hl hrow hcol => ?_⟩
      rw [(hplaces k hk).1, (hplaces l hl).1] at hrow
      rw [(hplaces k hk).2, (hplaces l hl).2] at hcol
      refine hline (· > ·) (fun _ _ _ => gt_trans) (fun r c hr hc => ?_) k l hk hl hrow hcol
      have hgap := of_decide_eq_true (hdown _ (gap_mem hlen hr hc))
      linarith
  · cases h

end

/-! ## What is accepted -/

/-- The lines of the grid, and the line of every frame, as the positions and their numbers have them. -/
structure Follows (mode : Option String) (npos : Option ℤ × Option ℤ) (py pz : List ℚ) (rows cols : Nat)
    (row col : List Nat) : Prop where
  slow : ∀ m, npos.1 = some m → (rows : ℤ) = m
  fast : ∀ m, npos.2 = some m → (cols : ℤ) = m
  order : Lines py cols col ∧ Lines pz rows row ∨ mode = some "ZIGZAG" ∧ Steady py row col

theorem placement_ok {mode : Option String} {npos : Option ℤ × Option ℤ} {py pz : List ℚ} {p : Placement}
    (hlen : pz.length = py.length) (h : placement mode npos py pz = .ok p) :
    p.row.length = py.length ∧ p.col.length = py.length ∧ (∀ r ∈ p.row, r < p.rows) ∧
      (∀ c ∈ p.col, c < p.cols) ∧ Follows mode npos py pz p.rows p.cols p.row p.col := by
  unfold placement at h
  split at h
  · next rows cols =>
    split_ifs at h with hframes hneg
    rw [not_or, not_lt, not_lt] at hneg
    rw [not_not] at hframes
    obtain ⟨hrows, hcols⟩ := hneg
    obtain ⟨⟨row, col⟩, hzigzag, h⟩ := bind_eq_ok.mp h
    obtain rfl := Except.ok.inj h
    have hn : py.length = rows.toNat * cols.toNat := by
      rw [← Int.toNat_mul hrows hcols, ← hframes, Int.toNat_natCast]
    obtain ⟨rfl, rfl, hsteady⟩ := zigzag_ok hn hzigzag
    refine ⟨by simp, by simp, ?_, ?_, ⟨?_, ?_, Or.inr ⟨rfl, hsteady⟩⟩⟩
    · intro r hr
      obtain ⟨k, hk, rfl⟩ := List.mem_map.mp hr
      rw [List.mem_range, hn, Nat.mul_comm] at hk
      exact Nat.div_lt_of_lt_mul hk
    · intro c hc
      obtain ⟨k, hk, rfl⟩ := List.mem_map.mp hc
      rw [List.mem_range, hn] at hk
      refine zigzagCol_lt ?_ k
      rcases Nat.eq_zero_or_pos cols.toNat with hzero | hpos
      · rw [hzero, Nat.mul_zero] at hk
        exact absurd hk (Nat.not_lt_zero k)
      · exact hpos
    · intro m hm
      obtain rfl := Option.some.inj hm
      exact Int.toNat_of_nonneg hrows
    · intro m hm
      obtain rfl := Option.some.inj hm
      exact Int.toNat_of_nonneg hcols
  · next nslow nfast _ =>
    obtain ⟨⟨fast_u, col⟩, hfast, h⟩ := bind_eq_ok.mp h
    obtain ⟨⟨slow_u, row⟩, hslow, h⟩ := bind_eq_ok.mp h
    obtain rfl := Except.ok.inj h
    obtain ⟨hcol, hcols⟩ := axis_lines (Matrix.mapError_ok hfast)
    obtain ⟨hrow, hrows⟩ := axis_lines (Matrix.mapError_ok hslow)
    exact ⟨hrow.length.trans hlen, hcol.length, hrow.lt, hcol.lt, hrows, hcols, Or.inl ⟨hcol, hrow⟩⟩

/-- Every frame has a cell of its own in the map, and `frame_index` is the way back. -/
structure MapGeometry.Placed (g : MapGeometry) : Prop where
  length_row : g.row.length = g.n_points
  length_col : g.col.length = g.n_points
  inside : ∀ k, k < g.n_points → g.row.getD k 0 < g.rows ∧ g.col.getD k 0 < g.cols
  distinct : Distinct g.row g.col g.n_points
  frameAt : ∀ k, k < g.n_points → g.frameAt (g.row.getD k 0) (g.col.getD k 0) = k
  empty : ∀ r c, c < g.cols → (∀ k, k < g.n_points → ¬(g.row.getD k 0 = r ∧ g.col.getD k 0 = c)) →
    g.frameAt r c = -1

theorem distinct_of_dedup {row col : List Nat} {n : Nat} (hrow : row.length = n) (hcol : col.length = n)
    (h : (row.zip col).dedup.length = n) : Distinct row col n := by
  have hlen : (row.zip col).length = n := by rw [List.length_zip, hrow, hcol, Nat.min_self]
  have hnd : (row.zip col).Nodup := by
    rw [← List.dedup_eq_self]
    exact (List.dedup_sublist _).eq_of_length (h.trans hlen.symm)
  intro k l hk hl hr hc
  rw [List.getD_eq_getElem _ _ (by omega), List.getD_eq_getElem _ _ (by omega)] at hr hc
  refine (@List.Nodup.getElem_inj_iff _ _ hnd k (by omega) l (by omega)).mp ?_
  rw [List.getElem_zip, List.getElem_zip, hr, hc]

/-- As many frames as cells fill the map. -/
theorem Distinct.full {row col : List Nat} {n rows cols : Nat} (hd : Distinct row col n)
    (hin : ∀ k, k < n → row.getD k 0 < rows ∧ col.getD k 0 < cols) (hn : rows * cols = n) {r c : Nat}
    (hr : r < rows) (hc : c < cols) : ∃ k, k < n ∧ row.getD k 0 = r ∧ col.getD k 0 = c := by
  have hflat : ∀ {r c}, r < rows → c < cols → r * cols + c < n := by
    intro r c hr hc
    have hmul := Nat.mul_le_mul_right cols (Nat.succ_le_of_lt hr)
    rw [Nat.succ_mul] at hmul
    omega
  have hnd := nodup_flatCells hd fun k hk => (hin k hk).2
  have hsubset : ((List.range n).map fun k => row.getD k 0 * cols + col.getD k 0) ⊆ List.range n := by
    intro x hx
    obtain ⟨k, hk, rfl⟩ := List.mem_map.mp hx
    obtain ⟨hkr, hkc⟩ := hin k (List.mem_range.mp hk)
    exact List.mem_range.mpr (hflat hkr hkc)
  have hperm := (List.subperm_of_subset hnd hsubset).perm_of_length_le (by simp)
  obtain ⟨k, hk, hcell⟩ := List.mem_map.mp (hperm.symm.subset (List.mem_range.mpr (hflat hr hc)))
  have hk' := List.mem_range.mp hk
  obtain ⟨h₁, h₂⟩ := cell_inj (hin k hk').2 hc hcell
  exact ⟨k, hk', h₁, h₂⟩

theorem frameIndex_at {p : Placement} {n : Nat} (hrow : p.row.length = n) (hcol : p.col.length = n)
    (hd : Distinct p.row p.col n) (hin : ∀ k, k < n → p.row.getD k 0 < p.rows ∧ p.col.getD k 0 < p.cols)
    {k : Nat} (hk : k < n) :
    (frameIndex p n).getD (p.row.getD k 0 * p.cols + p.col.getD k 0) (-1) = k := by
  unfold frameIndex
  rw [flatCells_eq hrow hcol]
  refine scatter_map (List.replicate (p.rows * p.cols) (-1)) (fun k : Nat => (k : ℤ)) (-1)
    (nodup_flatCells hd fun k hk => (hin k hk).2) (List.mem_range.mpr hk) ?_
  obtain ⟨hr, hc⟩ := hin k hk
  have hmul := Nat.mul_le_mul_right p.cols (Nat.succ_le_of_lt hr)
  rw [Nat.succ_mul] at hmul
  rw [List.length_replicate]
  omega

theorem frameIndex_empty {p : Placement} {n : Nat} (hrow : p.row.length = n) (hcol : p.col.length = n)
    (hin : ∀ k, k < n → p.row.getD k 0 < p.rows ∧ p.col.getD k 0 < p.cols) {r c : Nat} (hc : c < p.cols)
    (hnone : ∀ k, k < n → ¬(p.row.getD k 0 = r ∧ p.col.getD k 0 = c)) :
    (frameIndex p n).getD (r * p.cols + c) (-1) = -1 := by
  unfold frameIndex
  rw [flatCells_eq hrow hcol, scatter_of_notMem]
  · rw [List.getD_eq_getElem?_getD, List.getElem?_replicate]
    split <;> rfl
  · intro hmem
    obtain ⟨k, hk, hcell⟩ := List.mem_map.mp hmem
    have hk' := List.mem_range.mp hk
    exact hnone k hk' (cell_inj (hin k hk').2 hc hcell)

theorem measured_ok {e : ScanEntry} {fast slow : Option String} {mapShape : Option (ℤ × ℤ)}
    {mode : Option String} {npos : Option ℤ × Option ℤ} {py pz : List ℚ}
    (h : measured e fast slow mapShape = .ok (mode, npos, py, pz)) : pz.length = py.length := by
  unfold measured at h
  simp only [] at h
  split at h
  · split at h
    · obtain ⟨npos', -, h⟩ := bind_eq_ok.mp h
      split at h
      · split at h
        · split_ifs at h with hlen
          cases h
          exact not_not.mp hlen
        · cases h
      · cases h
    · cases h
  · cases h

section

variable {e : ScanEntry} {fast slow : Option String} {mapShape : Option (ℤ × ℤ)} {g : MapGeometry}

/-- What has been checked of a scan that is accepted. -/
theorem blissGeometry_ok (h : blissGeometry e fast slow mapShape = .ok g) :
    ∃ mode npos py pz p, measured e fast slow mapShape = .ok (mode, npos, py, pz) ∧
      placement mode npos py pz = .ok p ∧
      g = ⟨p.rows, p.cols, p.row, p.col, frameIndex p py.length, py.length, p.slow_values, p.fast_values⟩ ∧
      ((npos.1 = none ∨ npos.2 = none) → p.rows * p.cols = py.length) ∧
      (p.row.zip p.col).dedup.length = py.length ∧ py.length ≤ e.images := by
  obtain ⟨⟨mode, npos, py, pz⟩, hmeasured, h⟩ := bind_eq_ok.mp h
  obtain ⟨p, hplacement, h⟩ := bind_eq_ok.mp h
  split_ifs at h with hguess hdistinct himages
  refine ⟨mode, npos, py, pz, p, hmeasured, hplacement, (Except.ok.inj h).symm, fun hnone => ?_,
    not_not.mp hdistinct, not_lt.mp himages⟩
  by_contra hne
  exact hguess ⟨hnone, hne⟩

theorem MapGeometry.placed_of_ok (h : blissGeometry e fast slow mapShape = .ok g) : g.Placed := by
  obtain ⟨mode, npos, py, pz, p, hmeasured, hplacement, rfl, -, hdistinct, -⟩ := blissGeometry_ok h
  obtain ⟨hrow, hcol, hrows, hcols, -⟩ := placement_ok (measured_ok hmeasured) hplacement
  have hd := distinct_of_dedup hrow hcol hdistinct
  have hin : ∀ k, k < py.length → p.row.getD k 0 < p.rows ∧ p.col.getD k 0 < p.cols := by
    intro k hk
    rw [List.getD_eq_getElem _ _ (by omega), List.getD_eq_getElem _ _ (by omega)]
    exact ⟨hrows _ (List.getElem_mem _), hcols _ (List.getElem_mem _)⟩
  exact ⟨hrow, hcol, hin, hd, fun k hk => frameIndex_at hrow hcol hd hin hk,
    fun r c hc hnone => frameIndex_empty hrow hcol hin hc hnone⟩

/-- A scan that is accepted has every frame in a cell of its own inside the map, with `frame_index` the way
back and -1 in the other cells; the map has the numbers of lines that were given, or no empty cell where one
was guessed; and its lines are in the order of the positions, or each goes along them one way. -/
theorem blissGeometry_placed (h : blissGeometry e fast slow mapShape = .ok g) :
    ∃ mode npos py pz, measured e fast slow mapShape = .ok (mode, npos, py, pz) ∧
      g.n_points = py.length ∧ g.n_points ≤ e.images ∧ g.Placed ∧
      Follows mode npos py pz g.rows g.cols g.row g.col ∧
      ((npos.1 = none ∨ npos.2 = none) → ∀ r c, r < g.rows → c < g.cols →
        ∃ k, k < g.n_points ∧ g.row.getD k 0 = r ∧ g.col.getD k 0 = c) := by
  have hplaced := MapGeometry.placed_of_ok h
  obtain ⟨mode, npos, py, pz, p, hmeasured, hplacement, rfl, hguess, -, himages⟩ := blissGeometry_ok h
  obtain ⟨-, -, -, -, hfollows⟩ := placement_ok (measured_ok hmeasured) hplacement
  exact ⟨mode, npos, py, pz, hmeasured, rfl, himages, hplaced, hfollows, fun hnone r c hr hc =>
    hplaced.distinct.full hplaced.inside (hguess hnone) hr hc⟩

end

/-- Two lines of two points, the second one backwards, that lag by half a step. -/
def snakeScan : ScanEntry where
  title := .fscan ⟨some "py", some "pz", some 2, some 2, some "ZIGZAG"⟩
  motorValues := fun motor =>
    if motor = "py" then some [5, 15, 5, -5] else if motor = "pz" then some [0, 0, 1, 1] else none
  images := 4

def snakeGeometry : MapGeometry where
  rows := 2
  cols := 2
  row := [0, 0, 1, 1]
  col := [0, 1, 1, 0]
  frame_index := [0, 1, 3, 2]
  n_points := 4
  slow_values := [0, 1]
  fast_values := [0, 10]

theorem snakeScan_geometry : blissGeometry snakeScan none none none = .ok snakeGeometry := by decide +kernel

/-- Three lines of two points, out of order and with jitter, where no number of lines is given. -/
def gridFast : List ℚ := [10, 0, 1 / 8, 10, 0, 10]

def gridSlow : List ℚ := [2, 2, 0, 0, 1, 1]

def gridScan : ScanEntry where
  title := .fscan ⟨some "py", some "pz", none, none, none⟩
  motorValues := fun motor => if motor = "py" then some gridFast else if motor = "pz" then some gridSlow else none
  images := 6

def gridGeometry : MapGeometry where
  rows := 3
  cols := 2
  row := [2, 2, 0, 0, 1, 1]
  col := [1, 0, 0, 1, 0, 1]
  frame_index := [2, 3, 4, 5, 1, 0]
  n_points := 6
  slow_values := [0, 1, 2]
  fast_values := [1 / 24, 10]

theorem gridFast_axis : axis gridFast none = .ok ([1 / 24, 10], [1, 0, 0, 1, 0, 1]) := by
  have horder : argsort 0 gridFast = [1, 4, 2, 0, 3, 5] := by
    simp [argsort, gridFast, List.range, List.range.loop, List.mergeSort, List.merge]
    norm_num
  simp only [axis, horder]
  decide +kernel

theorem gridSlow_axis : axis gridSlow none = .ok ([0, 1, 2], [2, 2, 0, 0, 1, 1]) := by
  have horder : argsort 0 gridSlow = [2, 3, 4, 5, 0, 1] := by
    simp [argsort, gridSlow, List.range, List.range.loop, List.mergeSort, List.merge]
  simp only [axis, horder]
  decide +kernel

theorem gridScan_geometry : blissGeometry gridScan none none none = .ok gridGeometry := by
  have hmeasured : measured gridScan none none none = .ok (none, (none, none), gridFast, gridSlow) := by
    decide +kernel
  have hplacement : placement none (none, none) gridFast gridSlow =
      .ok ⟨3, 2, [2, 2, 0, 0, 1, 1], [1, 0, 0, 1, 0, 1], [0, 1, 2], [1 / 24, 10]⟩ := by
    simp only [placement, gridFast_axis, gridSlow_axis]
    rfl
  rw [blissGeometry, hmeasured]
  change (placement none (none, none) gridFast gridSlow >>= _) = _
  rw [hplacement]
  decide +kernel

/-- What is said of a scan and its geometry. -/
def IsPlaced (e : ScanEntry) (g : MapGeometry) : Prop :=
  ∃ mode npos py pz, measured e none none none = .ok (mode, npos, py, pz) ∧
    g.n_points = py.length ∧ g.n_points ≤ e.images ∧ g.Placed ∧ Follows mode npos py pz g.rows g.cols g.row g.col ∧
    ((npos.1 = none ∨ npos.2 = none) → ∀ r c, r < g.rows → c < g.cols →
      ∃ k, k < g.n_points ∧ g.row.getD k 0 = r ∧ g.col.getD k 0 = c)

theorem blissGeometry_placed_both : IsPlaced snakeScan snakeGeometry ∧ IsPlaced gridScan gridGeometry :=
  ⟨blissGeometry_placed snakeScan_geometry, blissGeometry_placed gridScan_geometry⟩

end Bslz4ToSparse.Conveyor
