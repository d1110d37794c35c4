import Bslz4ToSparse.Cuda.TopPixels

/-!
# Counts and offsets of the blocks

The count of a block at a level is the number of its selected pixels, and the offset of a
block is the number of those before it in the frame: its rank.
-/

namespace Bslz4ToSparse.Cuda

open Foundation TopPixels

variable {t : Dtype}

namespace Batch

variable (g : Batch t)

/-! ## The selected pixels -/

/-- Pixel `p` of frame `im`. -/
def frame (im p : Nat) : Pixel t := g.dense (im * g.strideEl + p)

/-- What a pixel of level `k` is above, besides the cut. -/
def levelCut (k : Nat) : ℤ := if k = 0 then g.cut else g.thr.getD (k - 1) 0

/-- The pixels of level `k`. -/
def sel (im k p : Nat) : Bool :=
  above (g.frame im p) g.cut && above (g.frame im p) (g.levelCut k) && decide (g.mask p ≠ 0#8)

theorem pixel_eq (im blockid p : Nat) : g.pixel im blockid p = g.frame im (blockid * g.be + p) := by
  rw [pixel, frame, Nat.add_assoc]

theorem thr_mono {i j : Nat} (hij : i ≤ j) (hj : j < g.thr.length) : g.thr.getD i 0 ≤ g.thr.getD j 0 := by
  rw [List.getD_eq_getElem _ 0 (by omega), List.getD_eq_getElem _ 0 hj]
  rcases hij.lt_or_eq with hlt | rfl
  · exact List.pairwise_iff_getElem.mp g.thr_sorted i j (by omega) hj hlt
  · exact le_rfl

/-- Sorted thresholds: a pixel passes all of them up to the one it passes. -/
theorem sel_succ (im p : Nat) {k : Nat} (hk : k < g.thr.length) :
    (g.sel im k p && above (g.frame im p) (g.thr.getD k 0)) = g.sel im (k + 1) p := by
  have hnext : g.levelCut (k + 1) = g.thr.getD k 0 := by rw [levelCut, if_neg (by omega), Nat.add_sub_cancel]
  rw [sel, sel, hnext]
  cases hcut : above (g.frame im p) g.cut with
  | false => rfl
  | true =>
    cases hthr : above (g.frame im p) (g.thr.getD k 0) with
    | false => simp
    | true =>
      have hbelow : above (g.frame im p) (g.levelCut k) = true := by
        rw [levelCut]
        split
        · exact hcut
        · have hmono := g.thr_mono (Nat.sub_le k 1) hk
          have hlt := of_decide_eq_true hthr
          exact decide_eq_true (by omega)
      rw [hbelow]
      simp

/-! ## The count of a block -/

/-- The selected pixels of a block, as its warp goes through them. -/
def blockSel (im k blockid p : Nat) : Bool :=
  decide (p < g.nel blockid) && g.sel im k (blockid * g.be + p)

theorem blockSel_zero (im blockid p : Nat) :
    (decide (p < g.nel blockid) && above (g.pixel im blockid p) g.cut &&
      decide (g.mask (blockid * g.be + p) ≠ 0#8)) = g.blockSel im 0 blockid p := by
  have hzero : g.levelCut 0 = g.cut := if_pos rfl
  rw [blockSel, sel, hzero, pixel_eq, Bool.and_self, Bool.and_assoc]

/-- A row adds its selected pixels to every level. -/
theorem countRow_eq (im blockid : Nat) (cnt : Nat → Nat) (row : Nat) {k : Nat} (hk : k ≤ g.thr.length) :
    g.countRow im blockid cnt row k =
      cnt k + rank (fun lane => g.blockSel im k blockid (row * 32 + lane)) 32 := by
  -- before threshold `k`, the lanes are those of level `k`, and the levels up to it are counted
  have hrun := foldl_range_induct (f := g.countLevel im blockid row) (n := g.thr.length)
    (s := (Function.update cnt 0 (cnt 0 + popcount (gather 32 fun lane =>
      decide (row * 32 + lane < g.nel blockid) && above (g.pixel im blockid (row * 32 + lane)) g.cut &&
        decide (g.mask (blockid * g.be + (row * 32 + lane)) ≠ 0#8))), fun lane =>
      decide (row * 32 + lane < g.nel blockid) && above (g.pixel im blockid (row * 32 + lane)) g.cut &&
        decide (g.mask (blockid * g.be + (row * 32 + lane)) ≠ 0#8)))
    (I := fun k s => (∀ lane, lane < 32 → s.2 lane = g.blockSel im k blockid (row * 32 + lane)) ∧
      ∀ j, j ≤ g.thr.length → s.1 j = cnt j +
        if j ≤ k then rank (fun lane => g.blockSel im j blockid (row * 32 + lane)) 32 else 0) ?_ ?_
  · have hlevel := hrun.2 k hk
    rw [if_pos hk] at hlevel
    exact hlevel
  · constructor
    · intro lane _
      exact g.blockSel_zero im blockid (row * 32 + lane)
    · intro j _
      simp only [blockSel_zero, popcount_gather_rank]
      rcases Nat.eq_zero_or_pos j with rfl | hpos
      · simp
      · rw [Function.update_of_ne (by omega), if_neg (by omega), Nat.add_zero]
  · rintro k hk ⟨cnt', f⟩ ⟨hf, hcnt⟩
    dsimp only at hf hcnt
    have hnext : ∀ lane, lane < 32 →
        (f lane && above (g.pixel im blockid (row * 32 + lane)) (g.thr.getD k 0)) =
          g.blockSel im (k + 1) blockid (row * 32 + lane) := by
      intro lane hlane
      rw [hf lane hlane, blockSel, pixel_eq, Bool.and_assoc, g.sel_succ im _ hk, ← blockSel]
    rw [countLevel]
    dsimp only
    split
    · next hnone =>
      -- nobody passes, so nobody passes the next threshold either
      have hfalse : ∀ lane, lane < 32 → g.blockSel im (k + 1) blockid (row * 32 + lane) = false := by
        intro lane hlane
        have hbit : (gather 32 f).getLsbD lane = false := by rw [hnone, BitVec.getLsbD_zero]
        rw [getLsbD_gather, decide_eq_true hlane, Bool.true_and] at hbit
        rw [← hnext lane hlane, hbit, Bool.false_and]
      constructor
      · intro lane hlane
        have hbelow := hnext lane hlane
        rw [hfalse lane hlane] at hbelow ⊢
        have hbit : (gather 32 f).getLsbD lane = false := by rw [hnone, BitVec.getLsbD_zero]
        rwa [getLsbD_gather, decide_eq_true hlane, Bool.true_and] at hbit
      · intro j hj
        dsimp only
        rw [hcnt j hj]
        rcases Nat.lt_trichotomy j (k + 1) with hlt | rfl | hgt
        · rw [if_pos (by omega), if_pos (by omega)]
        · rw [if_neg (by omega), if_pos le_rfl, rank_eq_zero.mpr hfalse]
        · rw [if_neg (by omega), if_neg (by omega)]
    · constructor
      · exact hnext
      · intro j hj
        dsimp only
        rw [popcount_gather_rank, rank_congr hnext]
        rcases Nat.lt_trichotomy j (k + 1) with hlt | rfl | hgt
        · rw [Function.update_of_ne (by omega), hcnt j hj, if_pos (by omega), if_pos (by omega)]
        · rw [Function.update_self, hcnt _ hj, if_neg (by omega), if_pos le_rfl, Nat.add_zero]
        · rw [Function.update_of_ne (by omega), hcnt j hj, if_neg (by omega), if_neg (by omega)]

theorem rank_blockSel_rows (im k blockid : Nat) :
    rank (g.blockSel im k blockid) ((g.nel blockid + 31) / 32 * 32) =
      rank (fun p => g.sel im k (blockid * g.be + p)) (g.nel blockid) := by
  have hstop := rank_of_le (f := g.blockSel im k blockid) (m := g.nel blockid)
    (n := (g.nel blockid + 31) / 32 * 32)
    (fun p hp => by rw [blockSel, decide_eq_false (by omega), Bool.false_and]) (by omega)
  rw [hstop]
  apply rank_congr
  intro p hp
  rw [blockSel, decide_eq_true hp, Bool.true_and]

theorem countBlock_eq {im : Nat} (herr : g.err im = 0) (blockid : Nat) {k : Nat} (hk : k ≤ g.thr.length) :
    g.countBlock im blockid k = rank (fun p => g.sel im k (blockid * g.be + p)) (g.nel blockid) := by
  have hrun := foldl_range_induct (f := g.countRow im blockid) (s := fun _ => 0)
    (n := (g.nel blockid + 31) / 32)
    (I := fun row cnt => ∀ k, k ≤ g.thr.length → cnt k = rank (g.blockSel im k blockid) (row * 32))
    (fun k _ => by simp) ?_
  · rw [countBlock, if_pos herr, hrun k hk, rank_blockSel_rows]
  · intro row _ cnt hcnt k hk
    rw [g.countRow_eq im blockid cnt row hk, hcnt k hk, Nat.succ_mul, rank_add]

theorem countBlock_err {im : Nat} (herr : g.err im ≠ 0) (blockid k : Nat) :
    g.countBlock im blockid k = 0 := by
  rw [countBlock, if_neg herr]

/-! ## Blocks and cells -/

theorem be_eq : g.be * t.size = 8192 ∧ 0 < g.be := by
  have hsmall := g.small
  rcases t.size_cases with h | h | h | h <;> rw [be, h] at * <;> omega

/-- The blocks that begin inside the frame. -/
theorem block_lt {blockid : Nat} : blockid < g.ntot ↔ blockid * g.be < g.npix := by
  have hsmall := g.small
  rw [ntot, be]
  rcases t.size_cases with h | h | h | h <;> rw [h] at hsmall ⊢
  · split <;> omega
  · split <;> omega
  · split <;> omega
  · omega

/-- The pixels up to the end of a block. -/
theorem min_succ (blockid : Nat) :
    min ((blockid + 1) * g.be) g.npix = min (blockid * g.be) g.npix + g.nel blockid := by
  rw [Nat.succ_mul, nel]
  omega

theorem cell_div {k im blockid : Nat} (hb : blockid < g.ntot) :
    g.cell k im blockid / g.ntot = k * g.n + im ∧ g.cell k im blockid % g.ntot = blockid := by
  rw [cell, Nat.mul_comm, Nat.mul_add_div (by omega), Nat.div_eq_of_lt hb, Nat.add_zero, Nat.mul_add_mod,
    Nat.mod_eq_of_lt hb]
  exact ⟨rfl, rfl⟩

theorem row_div {k im : Nat} (him : im < g.n) : (k * g.n + im) / g.n = k ∧ (k * g.n + im) % g.n = im := by
  rw [Nat.mul_comm, Nat.mul_add_div (by omega), Nat.div_eq_of_lt him, Nat.add_zero, Nat.mul_add_mod,
    Nat.mod_eq_of_lt him]
  exact ⟨rfl, rfl⟩

theorem row_inj {k k' im im' : Nat} (him : im < g.n) (him' : im' < g.n)
    (h : k * g.n + im = k' * g.n + im') : k = k' ∧ im = im' := by
  obtain ⟨hdiv, hmod⟩ := g.row_div (k := k) him
  rw [h, (g.row_div him').1] at hdiv
  rw [h, (g.row_div him').2] at hmod
  exact ⟨hdiv.symm, hmod.symm⟩

theorem row_lt {k im : Nat} (hk : k ≤ g.thr.length) (him : im < g.n) :
    k * g.n + im < (g.thr.length + 1) * g.n := by
  have hle : k * g.n ≤ g.thr.length * g.n := Nat.mul_le_mul_right g.n hk
  rw [Nat.succ_mul]
  omega

/-- The threads of a launch over the blocks. -/
theorem mem_warps {α : Type} {warp : Nat → Nat → List α} {thread : List α} (h : thread ∈ g.warps warp)
    {s : α} (hs : s ∈ thread) : ∃ im, im < g.n ∧ ∃ blockid, blockid < g.ntot ∧ s ∈ warp im blockid := by
  simp only [warps, List.mem_flatMap, List.mem_map, List.mem_range] at h
  obtain ⟨im, him, y, -, w, -, rfl⟩ := h
  split at hs
  · exact absurd hs List.not_mem_nil
  · next hb => exact ⟨im, him, y * 2 + w, by omega, hs⟩

theorem warp_mem {α : Type} (warp : Nat → Nat → List α) {im blockid : Nat} (him : im < g.n)
    (hb : blockid < g.ntot) : warp im blockid ∈ g.warps warp := by
  simp only [warps, List.mem_flatMap, List.mem_map, List.mem_range]
  refine ⟨im, him, blockid / 2, by omega, blockid % 2, Nat.mod_lt _ (by decide), ?_⟩
  rw [if_neg (by omega)]
  congr 1
  omega

end Batch

variable {g : Batch t}

theorem Lists.counts_eq (l : Lists g) {k im blockid : Nat} (hk : k ≤ g.thr.length) (him : im < g.n)
    (hb : blockid < g.ntot) : l.counts (g.cell k im blockid) = g.countBlock im blockid k := by
  obtain ⟨counts₀, hrun⟩ := l.count_above
  apply hrun.of_eq
  · intro thread hthread s hs heq
    obtain ⟨im', him', b', hb', hmem⟩ := g.mem_warps hthread hs
    simp only [Batch.countAboveStores, List.mem_map, List.mem_range] at hmem
    obtain ⟨k', -, rfl⟩ := hmem
    dsimp only at heq ⊢
    rw [Nat.div_one] at heq
    have hdiv : g.cell k' im' b' / g.ntot = k' * g.n + im' ∧ g.cell k' im' b' % g.ntot = b' :=
      g.cell_div hb'
    rw [heq, (g.cell_div hb).1, (g.cell_div hb).2] at hdiv
    obtain ⟨hrow, rfl⟩ := hdiv
    obtain ⟨rfl, rfl⟩ := g.row_inj him him' hrow
    rfl
  · refine ⟨_, g.warp_mem g.countAboveStores him hb, (g.cell k im blockid, fun _ => g.countBlock im blockid k),
      ?_, (Nat.div_one _).symm⟩
    exact List.mem_map_of_mem (List.mem_range.mpr (Nat.lt_succ_of_le hk))

/-! ## The scan of a row -/

/-- The sum of the counts before `m`. -/
def sumBelow (c : Nat → Nat) (m : Nat) : Nat := ((List.range m).map c).sum

theorem sumBelow_succ (c : Nat → Nat) (m : Nat) : sumBelow c (m + 1) = sumBelow c m + c m := by
  rw [sumBelow, List.range_succ, List.map_append, List.sum_append]
  simp [sumBelow]

theorem sumBelow_mono (c : Nat → Nat) {m n : Nat} (h : m ≤ n) : sumBelow c m ≤ sumBelow c n := by
  induction n, h using Nat.le_induction with
  | base => exact le_rfl
  | succ n _ ih =>
    rw [sumBelow_succ]
    omega

theorem sumBelow_congr {c d : Nat → Nat} {m : Nat} (h : ∀ k, k < m → c k = d k) :
    sumBelow c m = sumBelow d m := by
  rw [sumBelow, sumBelow, List.map_congr_left fun k hk => h k (List.mem_range.mp hk)]

/-- The end of the counts of the threads before `x`. -/
def scanEnd (nb x : Nat) : Nat := min nb (scanFrom nb x)

theorem scanTo_eq (nb x : Nat) : scanTo nb x = scanEnd nb (x + 1) := rfl

theorem scanEnd_mono (nb : Nat) {x y : Nat} (h : x ≤ y) : scanEnd nb x ≤ scanEnd nb y := by
  have hle : scanFrom nb x ≤ scanFrom nb y := Nat.mul_le_mul_right _ h
  rw [scanEnd, scanEnd]
  omega

theorem scanEnd_last (nb : Nat) : scanEnd nb 256 = nb := by
  rw [scanEnd, scanFrom]
  omega

/-- A thread scans from the end of the thread before it. -/
theorem scanRange_eq (nb x : Nat) :
    scanRange nb x = List.range' (scanEnd nb x) (scanEnd nb (x + 1) - scanEnd nb x) := by
  have hmono := scanEnd_mono nb (Nat.le_succ x)
  by_cases hle : scanFrom nb x ≤ nb
  · have hend : scanEnd nb x = scanFrom nb x := min_eq_right hle
    rw [scanRange, scanTo_eq, hend]
  · have hx : scanEnd nb x = nb := min_eq_left (by omega)
    have hle' : scanEnd nb (x + 1) ≤ nb := min_le_left _ _
    rw [scanRange, scanTo_eq, show scanEnd nb (x + 1) - scanFrom nb x = 0 by omega,
      show scanEnd nb (x + 1) - scanEnd nb x = 0 by omega]
    rfl

/-- A loop that adds the counts of a range. -/
theorem foldl_add_range' (c : Nat → Nat) (a len s : Nat) :
    (List.range' a len).foldl (fun s k => s + c k) s + sumBelow c a = s + sumBelow c (a + len) := by
  induction len with
  | zero => rfl
  | succ len ih =>
    rw [List.range'_concat, List.foldl_append, List.foldl_cons, List.foldl_nil, Nat.one_mul,
      show a + (len + 1) = a + len + 1 by omega, sumBelow_succ]
    omega

theorem scanPart_eq (c : Nat → Nat) (nb x : Nat) :
    scanPart c nb x + sumBelow c (scanEnd nb x) = sumBelow c (scanEnd nb (x + 1)) := by
  have hmono := scanEnd_mono nb (Nat.le_succ x)
  rw [scanPart, scanRange_eq, foldl_add_range', Nat.zero_add, Nat.add_sub_cancel' hmono]

/-- Thread 0 leaves to every thread the sum before it, and the total. -/
theorem scanParts_eq (c : Nat → Nat) (nb : Nat) :
    scanTotal c nb = sumBelow c nb ∧
      ∀ x, x < 256 → (scanParts c nb).2 x = sumBelow c (scanEnd nb x) := by
  have hrun := foldl_range_induct (n := 256) (s := (0, scanPart c nb))
    (f := fun (s : Nat × (Nat → Nat)) i => (s.1 + s.2 i, Function.update s.2 i s.1))
    (I := fun i s => s.1 = sumBelow c (scanEnd nb i) ∧ ∀ x, s.2 x =
      if x < i then sumBelow c (scanEnd nb x) else scanPart c nb x) ?_ ?_
  · constructor
    · have htotal : scanTotal c nb = sumBelow c (scanEnd nb 256) := hrun.1
      rw [htotal, scanEnd_last]
    · intro x hx
      have hpart := hrun.2 x
      rw [if_pos hx] at hpart
      exact hpart
  · constructor
    · rw [scanEnd, scanFrom, Nat.zero_mul, Nat.min_zero]
      rfl
    · intro x
      rw [if_neg (Nat.not_lt_zero x)]
  · rintro i - ⟨r, part⟩ ⟨hr, hpart⟩
    dsimp only at hr hpart ⊢
    constructor
    · rw [hr, hpart i, if_neg (lt_irrefl i), Nat.add_comm, scanPart_eq]
    · intro x
      rcases Nat.lt_trichotomy x i with hlt | rfl | hgt
      · rw [Function.update_of_ne hlt.ne, hpart x, if_pos hlt, if_pos (by omega)]
      · rw [Function.update_self, hr, if_pos (Nat.lt_succ_self x)]
      · rw [Function.update_of_ne hgt.ne', hpart x, if_neg (by omega), if_neg (by omega)]

/-- A thread stores the sums before its counts. -/
theorem scanThread_eq (c : Nat → Nat) (nb : Nat) {x : Nat} (hx : x < 256) :
    (scanThread c nb x).2 = (scanRange nb x).map fun k => (k, sumBelow c k) := by
  have hrun : ∀ len, (List.range' (scanEnd nb x) len).foldl
      (fun (s : Nat × List (Nat × Nat)) k => (s.1 + c k, s.2 ++ [(k, s.1)]))
      (sumBelow c (scanEnd nb x), []) =
        (sumBelow c (scanEnd nb x + len),
          (List.range' (scanEnd nb x) len).map fun k => (k, sumBelow c k)) := by
    intro len
    induction len with
    | zero => rfl
    | succ len ih =>
      rw [List.range'_concat, List.foldl_append, ih, List.foldl_cons, List.foldl_nil, Nat.one_mul,
        List.map_append, List.map_singleton, ← sumBelow_succ]
      rfl
  rw [scanThread, (scanParts_eq c nb).2 x hx, scanRange_eq, hrun]

/-- Every count is one thread's. -/
theorem exists_scanRange {nb k : Nat} (hk : k < nb) : ∃ x, x < 256 ∧ k ∈ scanRange nb x := by
  -- the first thread that ends behind it
  have hlast : k < scanEnd nb 256 := by rwa [scanEnd_last]
  have hfirst : ¬ k < scanEnd nb 0 := by
    rw [scanEnd, scanFrom, Nat.zero_mul, Nat.min_zero]
    exact Nat.not_lt_zero k
  have hstep : ∀ m, k < scanEnd nb m → ∃ x, x < m ∧ ¬ k < scanEnd nb x ∧ k < scanEnd nb (x + 1) := by
    intro m
    induction m with
    | zero => exact fun h => absurd h hfirst
    | succ m ih =>
      intro h
      by_cases hm : k < scanEnd nb m
      · obtain ⟨x, hx, hrange⟩ := ih hm
        exact ⟨x, by omega, hrange⟩
      · exact ⟨m, Nat.lt_succ_self m, hm, h⟩
  obtain ⟨x, hx, hge, hlt⟩ := hstep 256 hlast
  refine ⟨x, hx, ?_⟩
  rw [scanRange_eq, List.mem_range'_1]
  omega

theorem scanRange_lt {nb x k : Nat} (h : k ∈ scanRange nb x) : k < nb := by
  rw [scanRange, List.mem_range'_1] at h
  have hle : scanTo nb x ≤ nb := min_le_left _ _
  omega

/-! ## The offsets -/

theorem Lists.offs_eq (l : Lists g) {k im blockid : Nat} (hk : k ≤ g.thr.length) (him : im < g.n)
    (hb : blockid < g.ntot) :
    l.offs (g.cell k im blockid) = sumBelow (fun b => l.counts (g.cell k im b)) blockid := by
  obtain ⟨offs₀, hrun⟩ := l.scan_counts
  apply hrun.of_eq
  · intro thread hthread s hs heq
    simp only [Batch.scanStores, List.mem_flatMap, List.mem_map, List.mem_range] at hthread
    obtain ⟨row, -, x, hx, rfl⟩ := hthread
    rw [scanThread_eq _ _ hx] at hs
    simp only [List.map_map, List.mem_map, Function.comp] at hs
    obtain ⟨b, hmem, rfl⟩ := hs
    have hb' := scanRange_lt hmem
    dsimp only at heq ⊢
    rw [Nat.div_one, Batch.cell] at heq
    have hrow : (row * g.ntot + b) / g.ntot = row ∧ (row * g.ntot + b) % g.ntot = b := by
      rw [Nat.mul_comm, Nat.mul_add_div (by omega), Nat.div_eq_of_lt hb', Nat.add_zero, Nat.mul_add_mod,
        Nat.mod_eq_of_lt hb']
      exact ⟨rfl, rfl⟩
    have hcell : g.cell k im blockid / g.ntot = k * g.n + im ∧ g.cell k im blockid % g.ntot = blockid :=
      g.cell_div hb
    rw [Batch.cell, ← heq, hrow.1, hrow.2] at hcell
    obtain ⟨rfl, rfl⟩ := hcell
    rfl
  · obtain ⟨x, hx, hmem⟩ := exists_scanRange hb
    have hthread : ((scanThread (fun j => l.counts ((k * g.n + im) * g.ntot + j)) g.ntot x).2.map
        fun s => ((k * g.n + im) * g.ntot + s.1, fun _ : Nat => s.2)) ∈ g.scanStores l.counts := by
      simp only [Batch.scanStores, List.mem_flatMap, List.mem_map, List.mem_range]
      exact ⟨k * g.n + im, g.row_lt hk him, x, hx, rfl⟩
    refine ⟨_, hthread, (g.cell k im blockid, fun _ =>
      sumBelow (fun b => l.counts (g.cell k im b)) blockid), ?_, (Nat.div_one _).symm⟩
    rw [scanThread_eq _ _ hx]
    simp only [List.map_map, List.mem_map, Function.comp]
    exact ⟨blockid, hmem, rfl⟩

/-- The counts before a block add up to its rank. -/
theorem Lists.sumBelow_counts (l : Lists g) {k im : Nat} (herr : g.err im = 0) (hk : k ≤ g.thr.length)
    (him : im < g.n) {m : Nat} (hm : m ≤ g.ntot) :
    sumBelow (fun b => l.counts (g.cell k im b)) m = rank (g.sel im k) (min (m * g.be) g.npix) := by
  induction m with
  | zero => rw [Nat.zero_mul, Nat.zero_min, rank_zero]; rfl
  | succ m ih =>
    have hb : m < g.ntot := by omega
    have hstart := g.block_lt.mp hb
    rw [sumBelow_succ, ih (by omega), l.counts_eq hk him hb, g.countBlock_eq herr m hk, g.min_succ,
      min_eq_left hstart.le, rank_add]

theorem ntot_covers (g : Batch t) : g.npix ≤ g.ntot * g.be := by
  by_contra hlt
  exact absurd (g.block_lt.mpr (by omega)) (lt_irrefl g.ntot)

theorem Lists.offs_rank (l : Lists g) {k im blockid : Nat} (herr : g.err im = 0) (hk : k ≤ g.thr.length)
    (him : im < g.n) (hb : blockid < g.ntot) :
    l.offs (g.cell k im blockid) = rank (g.sel im k) (blockid * g.be) := by
  have hstart := g.block_lt.mp hb
  rw [l.offs_eq hk him hb, l.sumBelow_counts herr hk him hb.le, min_eq_left hstart.le]

/-- The total of a level is the number of its pixels. -/
theorem Lists.npxl_rank (l : Lists g) {k im : Nat} (herr : g.err im = 0) (hk : k ≤ g.thr.length)
    (him : im < g.n) : l.npxl (k * g.n + im) = rank (g.sel im k) g.npix := by
  rw [l.scan_total _ (g.row_lt hk him), (scanParts_eq _ _).1]
  change sumBelow (fun b => l.counts (g.cell k im b)) g.ntot = _
  rw [l.sumBelow_counts herr hk him le_rfl, min_eq_right (ntot_covers g)]

/-- A bad frame has none. -/
theorem Lists.npxl_err (l : Lists g) {k im : Nat} (herr : g.err im ≠ 0) (hk : k ≤ g.thr.length)
    (him : im < g.n) : l.npxl (k * g.n + im) = 0 := by
  rw [l.scan_total _ (g.row_lt hk him), (scanParts_eq _ _).1]
  change sumBelow (fun b => l.counts (g.cell k im b)) g.ntot = _
  have hzero : ∀ m, m ≤ g.ntot → sumBelow (fun b => l.counts (g.cell k im b)) m = 0 := by
    intro m hm
    induction m with
    | zero => rfl
    | succ m ih =>
      rw [sumBelow_succ, ih (by omega), l.counts_eq hk him hm, g.countBlock_err herr]
  exact hzero g.ntot le_rfl

end Bslz4ToSparse.Cuda
