import Bslz4ToSparse.Cuda.Counts
import Mathlib.Data.List.Find

/-!
# The kernels refine `top_pixels`

The level a frame gets is the threshold that `top_pixels` applies, and its list is what is
left of the frame, at the place where the lists before it end.
-/

namespace Bslz4ToSparse.Cuda

open Foundation TopPixels

variable {t : Dtype}

namespace Batch

variable (g : Batch t)

/-- The pixels of frame `im` at level `k`, in order. -/
def pixels (im k : Nat) : List (Pixel t × Nat) :=
  ((List.range g.npix).filter (g.sel im k)).map fun p => (g.frame im p, p)

/-- The unmasked pixels of frame `im` above the cut. -/
def framePixels (im : Nat) : List (Pixel t × Nat) := g.pixels im 0

/-- `thresholds`. -/
def thresholds : List Threshold := g.thr.map .int

/-- What `top_pixels` makes of frame `im`. -/
def selected (im : Nat) : Selected t := topPixels (g.framePixels im) g.howmany g.thresholds

/-- The frame is left to the host. -/
def onHost (im : Nat) : Prop := g.fallback = true ∧ g.howmany < (g.framePixels im).length

instance (im : Nat) : Decidable (g.onHost im) := inferInstanceAs (Decidable (_ ∧ _))

@[simp] theorem length_pixels (im k : Nat) : (g.pixels im k).length = rank (g.sel im k) g.npix := by
  rw [pixels, List.length_map, length_filter_range]

/-- The pixel of a rank. -/
theorem getElem?_pixels {im k p : Nat} (hp : p < g.npix) (hsel : g.sel im k p = true) :
    (g.pixels im k)[rank (g.sel im k) p]? = some (g.frame im p, p) := by
  rw [pixels, List.getElem?_map, getElem?_filter_range hp hsel]
  rfl

/-! ## The comparison of the oracle -/

include g in
/-- Pixels of at most 32 bits are compared in `float64` as they are. -/
theorem above_int (v : Pixel t) (c : ℤ) : (Threshold.int c).above v.value = above v c := by
  have hlt := natAbs_lt_of_small g.small v
  exact above_int_of_small (by omega)

theorem filter_framePixels (im k : Nat) :
    ((g.framePixels im).filter fun p => (Threshold.int (g.thr.getD k 0)).above p.1.value) =
      g.pixels im (k + 1) := by
  rw [framePixels, pixels, List.filter_map, List.filter_filter, pixels]
  congr 1
  apply List.filter_congr
  intro p _
  have hzero : g.sel im 0 p = (above (g.frame im p) g.cut && decide (g.mask p ≠ 0#8)) := by
    rw [sel, levelCut, if_pos rfl, Bool.and_self]
  have hnext : g.levelCut (k + 1) = g.thr.getD k 0 := by
    rw [levelCut, if_neg (by omega), Nat.add_sub_cancel]
  rw [Function.comp, g.above_int, hzero, sel, hnext]
  cases above (g.frame im p) (g.thr.getD k 0) <;> simp

/-! ## The level -/

theorem thresholds_eq :
    g.thresholds = (List.range' 1 g.thr.length).map fun k => .int (g.thr.getD (k - 1) 0) := by
  refine List.ext_getElem (by simp [thresholds]) fun i h₁ h₂ => ?_
  have hi : i < g.thr.length := by simpa [thresholds] using h₁
  rw [List.getElem_map, List.getElem_range', Nat.one_mul, Nat.add_sub_cancel_left,
    List.getD_eq_getElem _ 0 hi]
  simp only [thresholds, List.getElem_map]

/-- The first level below the limit is the threshold that is applied. -/
theorem applied_eq {npxl : Nat → Nat} {im : Nat} (hthr : 0 < g.thr.length)
    (hnpxl : ∀ k, k ≤ g.thr.length → npxl (k * g.n + im) = rank (g.sel im k) g.npix) :
    applied (g.framePixels im) g.howmany g.thresholds =
        some (.int (g.thr.getD (g.firstBelow npxl im - 1) 0)) ∧
      1 ≤ g.firstBelow npxl im ∧ g.firstBelow npxl im ≤ g.thr.length := by
  have hcount : ∀ k ∈ List.range' 1 g.thr.length,
      decide (countAbove (g.framePixels im) (.int (g.thr.getD (k - 1) 0)) < g.howmany) =
        decide (npxl (k * g.n + im) < g.howmany) := by
    intro k hk
    rw [List.mem_range'_1] at hk
    rw [countAbove_eq, g.filter_framePixels im (k - 1), length_pixels, hnpxl k (by omega),
      Nat.sub_add_cancel hk.1]
  have hlast : g.thresholds.getLast? = some (.int (g.thr.getD (g.thr.length - 1) 0)) := by
    rw [List.getLast?_eq_getElem?, thresholds, List.length_map, List.getElem?_map,
      List.getElem?_eq_getElem (by omega), List.getD_eq_getElem _ 0 (by omega)]
    rfl
  rw [applied, hlast, firstBelow]
  have hfind : (g.thresholds.find? fun x => decide (countAbove (g.framePixels im) x < g.howmany)) =
      ((List.range' 1 g.thr.length).find? fun k => decide (npxl (k * g.n + im) < g.howmany)).map
        fun k => .int (g.thr.getD (k - 1) 0) := by
    rw [thresholds_eq, List.find?_map]
    congr 1
    exact List.find?_congr hcount
  rw [hfind]
  cases hk : (List.range' 1 g.thr.length).find? fun k => decide (npxl (k * g.n + im) < g.howmany) with
  | none => exact ⟨rfl, hthr, le_rfl⟩
  | some k =>
    have hmem := List.mem_range'_1.mp (List.mem_of_find?_eq_some hk)
    refine ⟨rfl, ?_, ?_⟩
    · simpa using hmem.1
    · rw [Option.getD_some]
      omega

/-- What `top_pixels` applied, from the level. -/
def levelThreshold (level : ℤ) : Option Threshold :=
  if level = 0 then none else some (.int (g.thr.getD (level.toNat - 1) 0))

/-- The length of the list of frame `im`. -/
def listLength (im : Nat) : Nat :=
  if g.err im ≠ 0 ∨ g.onHost im then 0
  else (g.selected im).kept.length

end Batch

variable {g : Batch t}

/-- The level of a good frame that is not left to the host, and its list in terms of the level. -/
theorem Lists.level_eq (l : Lists g) {im : Nat} (him : im < g.n) (herr : g.err im = 0)
    (hhost : ¬ g.onHost im) : ∃ L : Nat, l.level im = L ∧ L ≤ g.thr.length ∧
      l.npx im = min (rank (g.sel im L) g.npix) g.howmany ∧
      g.selected im = ⟨(g.pixels im L).take g.howmany, g.levelThreshold L, rank (g.sel im L) g.npix⟩ := by
  have hnpxl : ∀ k, k ≤ g.thr.length → l.npxl (k * g.n + im) = rank (g.sel im k) g.npix := fun k hk =>
    l.npxl_rank herr hk him
  have hzero : l.npxl im = (g.framePixels im).length := by
    have h0 := hnpxl 0 (Nat.zero_le _)
    rwa [Nat.zero_mul, Nat.zero_add, ← g.length_pixels] at h0
  have hchoose := l.choose_level im him
  rw [Batch.chooseLevel, if_neg (by rw [hzero]; exact hhost)] at hchoose
  obtain ⟨hlevel, hnpx⟩ := Prod.mk.inj hchoose
  by_cases hmore : g.howmany < (g.framePixels im).length
  · rcases Nat.eq_zero_or_pos g.thr.length with hthr | hthr
    · -- no thresholds at all
      have hnil : g.thr = [] := List.length_eq_zero_iff.mp hthr
      rw [if_neg (by omega)] at hlevel hnpx
      refine ⟨0, hlevel, Nat.zero_le _, ?_, ?_⟩
      · rw [hnpx, hnpxl 0 (Nat.zero_le _)]
      · rw [Batch.selected, Batch.thresholds, hnil, List.map_nil, topPixels_none hmore, Batch.framePixels,
          g.length_pixels, Batch.levelThreshold, if_pos (by rfl)]
    · obtain ⟨happlied, hpos, hle⟩ := g.applied_eq hthr hnpxl
      rw [if_pos ⟨by omega, hthr⟩] at hlevel hnpx
      refine ⟨g.firstBelow l.npxl im, hlevel, hle, ?_, ?_⟩
      · rw [hnpx, hnpxl _ hle]
      · have hfilter := g.filter_framePixels im (g.firstBelow l.npxl im - 1)
        rw [Nat.sub_add_cancel hpos] at hfilter
        rw [Batch.selected, topPixels_applied hmore happlied, hfilter, g.length_pixels,
          Batch.levelThreshold, if_neg (by omega), Int.toNat_natCast]
  · rw [if_neg (by omega)] at hlevel hnpx
    refine ⟨0, hlevel, Nat.zero_le _, ?_, ?_⟩
    · rw [hnpx, hnpxl 0 (Nat.zero_le _)]
    · rw [Batch.selected, topPixels_all (not_lt.mp hmore), Batch.framePixels, g.length_pixels,
        Batch.levelThreshold, if_pos (by rfl), List.take_of_length_le]
      rw [Batch.framePixels] at hmore
      exact not_lt.mp hmore

/-- A frame is left to the host exactly when it has too many pixels for the device. -/
theorem Lists.level_host (l : Lists g) {im : Nat} (him : im < g.n) :
    (l.level im = -1 ↔ g.err im = 0 ∧ g.onHost im) ∧ (g.onHost im → g.err im = 0 → l.npx im = 0) := by
  have hchoose := l.choose_level im him
  rw [Batch.chooseLevel] at hchoose
  by_cases herr : g.err im = 0
  · have hzero : l.npxl im = (g.framePixels im).length := by
      have h0 := l.npxl_rank herr (Nat.zero_le _) him
      rwa [Nat.zero_mul, Nat.zero_add, ← g.length_pixels] at h0
    by_cases hhost : g.onHost im
    · rw [if_pos (by rw [hzero]; exact hhost)] at hchoose
      obtain ⟨hlevel, hnpx⟩ := Prod.mk.inj hchoose
      exact ⟨⟨fun _ => ⟨herr, hhost⟩, fun _ => hlevel⟩, fun _ _ => hnpx⟩
    · obtain ⟨L, hlevel, -⟩ := l.level_eq him herr hhost
      refine ⟨⟨fun h => ?_, fun h => absurd h.2 hhost⟩, fun h => absurd h hhost⟩
      rw [hlevel] at h
      omega
  · have hzero : l.npxl im = 0 := by
      have h0 := l.npxl_err herr (Nat.zero_le _) him
      rwa [Nat.zero_mul, Nat.zero_add] at h0
    rw [if_neg (by rw [hzero]; omega)] at hchoose
    obtain ⟨hlevel, -⟩ := Prod.mk.inj hchoose
    refine ⟨⟨fun h => ?_, fun h => absurd h.1 herr⟩, fun _ h => absurd h herr⟩
    rw [hlevel] at h
    omega

/-- The length of the list. -/
theorem Lists.npx_eq (l : Lists g) {im : Nat} (him : im < g.n) : l.npx im = g.listLength im := by
  rw [Batch.listLength]
  by_cases herr : g.err im = 0
  · by_cases hhost : g.onHost im
    · rw [if_pos (Or.inr hhost), (l.level_host him).2 hhost herr]
    · obtain ⟨L, -, -, hnpx, hselected⟩ := l.level_eq him herr hhost
      rw [if_neg (by rintro (h | h); exacts [h herr, hhost h]), hselected, hnpx, List.length_take,
        g.length_pixels, Nat.min_comm]
  · have hzero : l.npxl im = 0 := by
      have h0 := l.npxl_err herr (Nat.zero_le _) him
      rwa [Nat.zero_mul, Nat.zero_add] at h0
    have hchoose := l.choose_level im him
    rw [Batch.chooseLevel, if_neg (by rw [hzero]; omega), if_neg (by rw [hzero]; omega)] at hchoose
    dsimp only at hchoose
    rw [Nat.zero_mul, Nat.zero_add, hzero, Nat.zero_min] at hchoose
    rw [if_pos (Or.inl herr)]
    exact (Prod.mk.inj hchoose).2

/-! ## The stores of a warp -/

namespace Batch

variable (g : Batch t)

/-- The store of pixel `p` of frame `im` at level `L`. -/
def pixelStore (im L base p : Nat) : Nat × (Nat → Pixel t × Nat) :=
  (base + rank (g.sel im L) p, fun _ => (g.frame im p, p))

theorem writeSel_eq (im blockid L p : Nat) :
    (decide (p < g.nel blockid) && above (g.pixel im blockid p) g.cut &&
      above (g.pixel im blockid p) (if L = 0 then g.cut else g.thr.getD (L - 1) 0) &&
      decide (g.mask (blockid * g.be + p) ≠ 0#8)) = g.blockSel im L blockid p := by
  rw [blockSel, sel, pixel_eq, levelCut, Bool.and_assoc, Bool.and_assoc, Bool.and_assoc]

theorem blockSel_true {im k blockid p : Nat} : g.blockSel im k blockid p = true ↔
    p < g.nel blockid ∧ g.sel im k (blockid * g.be + p) = true := by
  rw [blockSel, Bool.and_eq_true, decide_eq_true_iff]

/-- The rank in the frame from the rank in the block. -/
theorem blockRank (im k : Nat) {blockid p : Nat} (hp : p ≤ g.nel blockid) :
    rank (g.sel im k) (blockid * g.be) + rank (g.blockSel im k blockid) p =
      rank (g.sel im k) (blockid * g.be + p) := by
  rw [rank_add]
  congr 1
  apply rank_congr
  intro q hq
  rw [blockSel, decide_eq_true (by omega), Bool.true_and]

/-- A row while the limit is not reached. -/
theorem mem_writeRow (im blockid L base : Nat) {row cnt : Nat}
    (out : List (Nat × (Nat → Pixel t × Nat))) (hlt : cnt < g.howmany)
    (hcnt : cnt = rank (g.sel im L) (blockid * g.be) + rank (g.blockSel im L blockid) (row * 32)) :
    (g.writeRow im blockid L base (cnt, out) row).1 =
        rank (g.sel im L) (blockid * g.be) + rank (g.blockSel im L blockid) ((row + 1) * 32) ∧
      ∀ s, s ∈ (g.writeRow im blockid L base (cnt, out) row).2 ↔ s ∈ out ∨
        ∃ lane, lane < 32 ∧ g.blockSel im L blockid (row * 32 + lane) = true ∧
          rank (g.sel im L) (blockid * g.be) + rank (g.blockSel im L blockid) (row * 32 + lane) < g.howmany ∧
          s = g.pixelStore im L base (blockid * g.be + (row * 32 + lane)) := by
  rw [writeRow, if_pos hlt]
  simp only [writeSel_eq]
  constructor
  · rw [popcount_gather_rank, hcnt, Nat.succ_mul, rank_add, Nat.add_assoc]
  · intro s
    have hrank : ∀ lane, lane < 32 →
        cnt + popcount (gather 32 (fun lane => g.blockSel im L blockid (row * 32 + lane)) &&&
          ((1#32 <<< lane) - 1#32)) =
        rank (g.sel im L) (blockid * g.be) + rank (g.blockSel im L blockid) (row * 32 + lane) := by
      intro lane hlane
      rw [popcount_lanesBelow _ hlane, hcnt, rank_add, Nat.add_assoc]
    simp only [List.mem_append, List.mem_map, List.mem_filter, List.mem_range, Bool.and_eq_true,
      decide_eq_true_eq]
    apply or_congr_right
    constructor
    · rintro ⟨lane, ⟨hlane, hsel, hroom⟩, rfl⟩
      rw [hrank lane hlane] at hroom ⊢
      have hp := (g.blockSel_true.mp hsel).1
      refine ⟨lane, hlane, hsel, hroom, ?_⟩
      rw [pixelStore, g.blockRank im L hp.le, pixel_eq]
    · rintro ⟨lane, hlane, hsel, hroom, rfl⟩
      have hp := (g.blockSel_true.mp hsel).1
      refine ⟨lane, ⟨hlane, hsel, ?_⟩, ?_⟩
      · rwa [hrank lane hlane]
      · rw [hrank lane hlane, pixelStore, g.blockRank im L hp.le, pixel_eq]

/-- The warp of a block stores its pixels whose rank is below the limit. -/
theorem mem_writeRows (im blockid L base : Nat) {s : Nat × (Nat → Pixel t × Nat)} :
    s ∈ ((List.range ((g.nel blockid + 31) / 32)).foldl (g.writeRow im blockid L base)
        (rank (g.sel im L) (blockid * g.be), [])).2 ↔
      ∃ p, p < g.nel blockid ∧ g.sel im L (blockid * g.be + p) = true ∧
        rank (g.sel im L) (blockid * g.be + p) < g.howmany ∧
        s = g.pixelStore im L base (blockid * g.be + p) := by
  -- the count is the rank of the row, until it reaches the limit
  have hrun := foldl_range_induct (f := g.writeRow im blockid L base)
    (s := (rank (g.sel im L) (blockid * g.be), [])) (n := (g.nel blockid + 31) / 32)
    (I := fun row st =>
      (st.1 = rank (g.sel im L) (blockid * g.be) + rank (g.blockSel im L blockid) (row * 32) ∨
        g.howmany ≤ st.1 ∧
          g.howmany ≤ rank (g.sel im L) (blockid * g.be) + rank (g.blockSel im L blockid) (row * 32)) ∧
      ∀ s, s ∈ st.2 ↔ ∃ p, p < row * 32 ∧ g.blockSel im L blockid p = true ∧
        rank (g.sel im L) (blockid * g.be) + rank (g.blockSel im L blockid) p < g.howmany ∧
        s = g.pixelStore im L base (blockid * g.be + p)) ?_ ?_
  · rw [hrun.2 s]
    constructor
    · rintro ⟨p, -, hsel, hroom, rfl⟩
      obtain ⟨hp, hsel'⟩ := g.blockSel_true.mp hsel
      rw [g.blockRank im L hp.le] at hroom
      exact ⟨p, hp, hsel', hroom, rfl⟩
    · rintro ⟨p, hp, hsel, hroom, rfl⟩
      rw [← g.blockRank im L hp.le] at hroom
      exact ⟨p, by omega, g.blockSel_true.mpr ⟨hp, hsel⟩, hroom, rfl⟩
  · constructor
    · left
      rw [Nat.zero_mul, rank_zero, Nat.add_zero]
    · intro s
      simp
  · rintro row hrow ⟨cnt, out⟩ ⟨hcnt, hout⟩
    dsimp only at hcnt hout
    by_cases hlt : cnt < g.howmany
    · have hrank := hcnt.resolve_right fun h => by omega
      obtain ⟨hnext, hmem⟩ := g.mem_writeRow im blockid L base out hlt hrank
      refine ⟨Or.inl hnext, ?_⟩
      intro s
      rw [hmem, hout]
      constructor
      · rintro (⟨p, hp, hrest⟩ | ⟨lane, hlane, hrest⟩)
        · exact ⟨p, by omega, hrest⟩
        · exact ⟨row * 32 + lane, by omega, hrest⟩
      · rintro ⟨p, hp, hrest⟩
        by_cases hbefore : p < row * 32
        · exact Or.inl ⟨p, hbefore, hrest⟩
        · refine Or.inr ⟨p - row * 32, by omega, ?_⟩
          rwa [show row * 32 + (p - row * 32) = p by omega]
    · -- the limit is reached: no pixel from here on has room
      have hfull : g.howmany ≤
          rank (g.sel im L) (blockid * g.be) + rank (g.blockSel im L blockid) (row * 32) := by
        rcases hcnt with rfl | ⟨-, h⟩
        · omega
        · exact h
      have hmono := rank_mono (g.blockSel im L blockid) (show row * 32 ≤ (row + 1) * 32 by omega)
      rw [writeRow, if_neg hlt]
      refine ⟨Or.inr ⟨by omega, by omega⟩, ?_⟩
      intro s
      rw [hout]
      constructor
      · rintro ⟨p, hp, hrest⟩
        exact ⟨p, by omega, hrest⟩
      · rintro ⟨p, hp, hsel, hroom, rfl⟩
        refine ⟨p, ?_, hsel, hroom, rfl⟩
        by_contra hge
        have hle := rank_mono (g.blockSel im L blockid) (not_lt.mp hge)
        omega

end Batch

/-! ## The lists -/

theorem Lists.imgoff_eq (l : Lists g) {im : Nat} (him : im < g.n) :
    l.imgoff im = sumBelow l.npx im % 2 ^ 32 := by
  have hrun := foldl_range_induct (n := g.n) (s := (0, fun _ => 0))
    (f := fun (s : Nat × (Nat → Nat)) i => ((s.1 + l.npx i) % 2 ^ 32, Function.update s.2 i s.1))
    (I := fun i s => s.1 = sumBelow l.npx i % 2 ^ 32 ∧ ∀ j, j < i → s.2 j = sumBelow l.npx j % 2 ^ 32)
    ⟨rfl, fun j hj => absurd hj (Nat.not_lt_zero j)⟩ ?_
  · rw [l.scan_images im him]
    exact hrun.2 im him
  · rintro i - ⟨r, off⟩ ⟨hr, hoff⟩
    dsimp only at hr hoff ⊢
    constructor
    · rw [hr, sumBelow_succ, Nat.mod_add_mod]
    · intro j hj
      rcases Nat.lt_succ_iff_lt_or_eq.mp hj with hlt | rfl
      · rw [Function.update_of_ne hlt.ne, hoff j hlt]
      · rw [Function.update_self, hr]

/-- The stores of a block of a frame with a list. -/
theorem Lists.mem_writeBlock (l : Lists g) {im blockid L : Nat} (him : im < g.n)
    (hb : blockid < g.ntot) (herr : g.err im = 0) (hlevel : l.level im = L) (hL : L ≤ g.thr.length)
    {s : Nat × (Nat → Pixel t × Nat)} :
    s ∈ g.writeBlock l.counts l.offs l.level l.imgoff im blockid ↔
      ∃ p, p < g.nel blockid ∧ g.sel im L (blockid * g.be + p) = true ∧
        rank (g.sel im L) (blockid * g.be + p) < g.howmany ∧
        s = g.pixelStore im L (l.imgoff im) (blockid * g.be + p) := by
  have hcount := l.counts_eq hL him hb
  rw [g.countBlock_eq herr blockid hL] at hcount
  have hoffs := l.offs_rank herr hL him hb
  rw [Batch.writeBlock, if_neg (by omega), hlevel, Int.toNat_natCast]
  dsimp only
  rw [hcount, hoffs]
  split
  · next hskip =>
    -- nothing selected in the block, or the limit reached before it
    constructor
    · intro h
      exact absurd h List.not_mem_nil
    · rintro ⟨p, hp, hsel, hroom, rfl⟩
      rcases hskip with hnone | hfull
      · rw [rank_eq_zero.mp hnone p hp] at hsel
        cases hsel
      · have hmono := rank_mono (g.sel im L) (Nat.le_add_right (blockid * g.be) p)
        omega
  · exact g.mem_writeRows im blockid L (l.imgoff im)

/-- Only frames with a list are written. -/
theorem Lists.mem_writeBlock_good (l : Lists g) {im blockid : Nat} (him : im < g.n)
    {s : Nat × (Nat → Pixel t × Nat)}
    (hs : s ∈ g.writeBlock l.counts l.offs l.level l.imgoff im blockid) :
    g.err im = 0 ∧ ¬ g.onHost im := by
  rw [Batch.writeBlock] at hs
  split at hs
  · exact absurd hs List.not_mem_nil
  · next hgood =>
    have herr : g.err im = 0 := by
      by_contra h
      exact hgood (Or.inl h)
    refine ⟨herr, fun hhost => hgood (Or.inr ?_)⟩
    rw [(l.level_host him).1.mpr ⟨herr, hhost⟩]
    decide

/-- Lists that lie back to back do not overlap. -/
theorem eq_of_sumBelow {c : Nat → Nat} {i j a b : Nat} (ha : a < c i) (hb : b < c j)
    (h : sumBelow c i + a = sumBelow c j + b) : i = j := by
  rcases Nat.lt_trichotomy i j with hlt | heq | hgt
  · have hmono := sumBelow_mono c (show i + 1 ≤ j from hlt)
    rw [sumBelow_succ] at hmono
    omega
  · exact heq
  · have hmono := sumBelow_mono c (show j + 1 ≤ i from hgt)
    rw [sumBelow_succ] at hmono
    omega

/-- The lists are written when their offsets are not cut off. -/
theorem Lists.out_eq (l : Lists g) (hoff : ∀ im, im < g.n → l.imgoff im = sumBelow l.npx im) {im : Nat}
    (him : im < g.n) (herr : g.err im = 0) (hhost : ¬ g.onHost im) {r : Nat} (hr : r < l.npx im) :
    (g.selected im).kept[r]? = some (l.out (sumBelow l.npx im + r)) := by
  obtain ⟨L, hlevel, hL, hnpx, hselected⟩ := l.level_eq him herr hhost
  obtain ⟨p, hp, hsel, hrank⟩ := exists_rank (f := g.sel im L) (n := g.npix) (r := r) (by omega)
  have hbe := g.be_eq.2
  have hdiv := Nat.div_add_mod' p g.be
  have hmod := Nat.mod_lt p hbe
  have hb : p / g.be < g.ntot := g.block_lt.mpr (by omega)
  have hout : l.out (sumBelow l.npx im + r) = (g.frame im p, p) := by
    obtain ⟨out₀, hrun⟩ := l.collect_write
    apply hrun.of_eq
    · intro thread hthread s hs heq
      obtain ⟨im', him', b', hb', hmem⟩ := g.mem_warps hthread hs
      obtain ⟨herr', hhost'⟩ := l.mem_writeBlock_good him' hmem
      obtain ⟨L', hlevel', hL', hnpx', -⟩ := l.level_eq him' herr' hhost'
      obtain ⟨p', hp', hsel', hroom', rfl⟩ := (l.mem_writeBlock him' hb' herr' hlevel' hL').mp hmem
      have hin : b' * g.be + p' < g.npix := by
        have hstart := g.block_lt.mp hb'
        rw [Batch.nel] at hp'
        omega
      have hrank' := rank_lt hsel' hin
      rw [Batch.pixelStore] at heq ⊢
      dsimp only at heq ⊢
      rw [Nat.div_one, hoff im' him'] at heq
      have hsame := eq_of_sumBelow (c := l.npx) (by omega) hr heq
      subst hsame
      rw [hlevel] at hlevel'
      have hLL : L = L' := by omega
      subst hLL
      rw [rank_inj hsel' hsel (by omega)]
    · refine ⟨_, g.warp_mem _ him hb, g.pixelStore im L (l.imgoff im) p, ?_, ?_⟩
      · rw [l.mem_writeBlock him hb herr hlevel hL]
        refine ⟨p % g.be, ?_, ?_, ?_, ?_⟩
        · rw [Batch.nel]
          omega
        · rwa [hdiv]
        · rw [hdiv]
          omega
        · rw [hdiv]
      · rw [Nat.div_one, Batch.pixelStore, hoff im him, hrank]
  rw [hout, hselected]
  dsimp only
  rw [List.getElem?_take, if_pos (by omega), ← hrank]
  exact g.getElem?_pixels hp hsel

/-! ## The batch -/

/-- What the lists should be: a frame with too many pixels for the device is left to the host, every
other good frame gets what `top_pixels` makes of it, and the lists lie back to back in the room for
`n * howmany` pixels. -/
structure Lists.Correct (l : Lists g) : Prop where
  host : ∀ im, im < g.n → (l.level im = -1 ↔ g.err im = 0 ∧ g.onHost im)
  length : ∀ im, im < g.n → g.err im = 0 → l.level im ≠ -1 →
    int32 (l.npx im) = (g.selected im).kept.length
  count : ∀ im, im < g.n → g.err im = 0 → l.level im ≠ -1 →
    int32 (l.npxl ((l.level im).toNat * g.n + im)) = (g.selected im).nabove
  threshold : ∀ im, im < g.n → g.err im = 0 → l.level im ≠ -1 →
    (g.selected im).cut = g.levelThreshold (l.level im)
  list : ∀ im, im < g.n → g.err im = 0 → l.level im ≠ -1 → ∀ r, r < l.npx im →
    (g.selected im).kept[r]? = some (l.out (sumBelow l.npx im + r))
  back_to_back : ∀ im, im < g.n → l.imgoff im = sumBelow l.npx im
  room : sumBelow l.npx g.n ≤ g.n * g.howmany

theorem listLength_le (im : Nat) : g.listLength im ≤ g.howmany := by
  rw [Batch.listLength]
  split
  · exact Nat.zero_le _
  · exact topPixels_length_le _ _ _

theorem Lists.room (l : Lists g) : sumBelow l.npx g.n ≤ g.n * g.howmany := by
  have hle : ∀ m, m ≤ g.n → sumBelow l.npx m ≤ m * g.howmany := by
    intro m hm
    induction m with
    | zero => exact Nat.zero_le _
    | succ m ih =>
      have hrest := ih (by omega)
      have hlast : l.npx m ≤ g.howmany := by
        rw [l.npx_eq hm]
        exact listLength_le m
      rw [sumBelow_succ, Nat.succ_mul]
      omega
  exact hle g.n le_rfl

theorem Lists.sumBelow_npx (l : Lists g) {im : Nat} (him : im ≤ g.n) :
    sumBelow l.npx im = sumBelow g.listLength im :=
  sumBelow_congr fun k hk => l.npx_eq (by omega)

/-- Offsets that are not cut off are below `2 ^ 32`. -/
theorem Lists.Correct.fits {l : Lists g} (h : l.Correct) {im : Nat} (him : im < g.n) :
    sumBelow g.listLength im < 2 ^ 32 := by
  rw [← l.sumBelow_npx him.le, ← h.back_to_back im him, l.imgoff_eq him]
  exact Nat.mod_lt _ (by decide)

theorem int32_eq {x : Nat} (h : x < 2 ^ 31) : int32 x = x := by
  have hint : (x : ℤ) < 2 ^ 31 := by exact_mod_cast h
  exact Int.bmod_eq_of_le (by omega) (by omega)

/-- A frame that a launch takes has fewer than `2 ^ 31` pixels. -/
theorem npix_lt (hlaunch : g.Launches) : g.npix < 2 ^ 31 := by
  have hsize := t.size_pos
  have hle : g.npix ≤ g.npix * t.size := Nat.le_mul_of_pos_right _ hsize
  rw [Batch.Launches, Batch.ntot] at hlaunch
  split at hlaunch <;> omega

/-- A frame with a list has the list of `top_pixels`. -/
theorem Lists.length_eq (l : Lists g) {im : Nat} (him : im < g.n) (herr : g.err im = 0)
    (hhost : ¬ g.onHost im) : l.npx im = (g.selected im).kept.length := by
  obtain ⟨L, -, -, hnpx, hselected⟩ := l.level_eq him herr hhost
  rw [hnpx, hselected, List.length_take, g.length_pixels, Nat.min_comm]

/-- Its count at its level is the one of `top_pixels`. -/
theorem Lists.count_eq (l : Lists g) {im : Nat} (him : im < g.n) (herr : g.err im = 0)
    (hhost : ¬ g.onHost im) :
    l.npxl ((l.level im).toNat * g.n + im) = (g.selected im).nabove ∧ (g.selected im).nabove ≤ g.npix := by
  obtain ⟨L, hL, hle, -, hselected⟩ := l.level_eq him herr hhost
  rw [hselected, hL, Int.toNat_natCast]
  exact ⟨l.npxl_rank herr hle him, rank_le _ _⟩

/-- Offsets below `2 ^ 32` are not cut off. -/
theorem Lists.imgoff_of_fits (l : Lists g) {im : Nat} (him : im < g.n)
    (hfits : sumBelow g.listLength im < 2 ^ 32) : l.imgoff im = sumBelow l.npx im := by
  rw [l.imgoff_eq him, Nat.mod_eq_of_lt]
  rwa [l.sumBelow_npx him.le]

theorem Lists.not_onHost (l : Lists g) {im : Nat} (him : im < g.n) (herr : g.err im = 0)
    (hlevel : l.level im ≠ -1) : ¬ g.onHost im := fun hhost =>
  hlevel ((l.level_host him).1.mpr ⟨herr, hhost⟩)

/-- On frames that a launch takes, the kernels give the lists of `top_pixels` exactly when every list
begins below `2 ^ 32`. -/
theorem lists_correct_iff (hlaunch : g.Launches) (l : Lists g) :
    l.Correct ↔ ∀ im, im < g.n → sumBelow g.listLength im < 2 ^ 32 := by
  have hnpix := npix_lt hlaunch
  constructor
  · intro h im him
    exact h.fits him
  · intro hfits
    have hoff : ∀ im, im < g.n → l.imgoff im = sumBelow l.npx im := fun im him =>
      l.imgoff_of_fits him (hfits im him)
    constructor
    · intro im him
      exact (l.level_host him).1
    · intro im him herr hlevel
      have hlength := l.length_eq him herr (l.not_onHost him herr hlevel)
      obtain ⟨L, -, -, hnpx, -⟩ := l.level_eq him herr (l.not_onHost him herr hlevel)
      have hle := rank_le (g.sel im L) g.npix
      rw [int32_eq (by omega), hlength]
    · intro im him herr hlevel
      obtain ⟨hcount, hle⟩ := l.count_eq him herr (l.not_onHost him herr hlevel)
      rw [int32_eq (by omega), hcount]
    · intro im him herr hlevel
      obtain ⟨L, hL, -, -, hselected⟩ := l.level_eq him herr (l.not_onHost him herr hlevel)
      rw [hselected, hL]
    · intro im him herr hlevel r hr
      exact l.out_eq hoff him herr (l.not_onHost him herr hlevel) hr
    · exact hoff
    · exact l.room

/-- Two frames of four pixels of two bytes and no more than two of each. -/
def twoFrames : Batch .u16 where
  dense := fun k => BitVec.ofNat 16 (k % 5)
  strideEl := 4
  npix := 4
  n := 2
  err := fun _ => 0
  mask := fun _ => 1#8
  cut := 0
  thr := [1, 2]
  howmany := 2
  fallback := false
  integer := rfl
  small := by decide
  bytes_lt := by decide
  thr_sorted := by decide
  thr_length := by decide

theorem lists_correct_iff_twoFrames : ∃ l : Lists twoFrames, l.Correct := by
  obtain ⟨l⟩ := Lists.exists twoFrames
  refine ⟨l, (lists_correct_iff (by decide) l).mpr fun im him => ?_⟩
  have hfirst : twoFrames.listLength 0 ≤ 2 := listLength_le 0
  have hcases : im = 0 ∨ im = 1 := by
    have hn : im < 2 := him
    omega
  rcases hcases with rfl | rfl
  · decide
  · rw [sumBelow_succ]
    have hzero : sumBelow twoFrames.listLength 0 = 0 := rfl
    omega

/-- 22 frames with as many one-byte pixels as a launch takes, all of them 1, and the largest limit
whose lists take no more than the bytes of the frames. -/
def hugeBatch : Batch .u8 where
  dense := fun _ => 1#8
  strideEl := 1073725440
  npix := 1073725440
  n := 22
  err := fun _ => 0
  mask := fun _ => 1#8
  cut := 0
  thr := []
  howmany := 214745088
  fallback := false
  integer := rfl
  small := by decide
  bytes_lt := by decide
  thr_sorted := List.Pairwise.nil
  thr_length := by decide

theorem length_hugeBatch (im : Nat) : (hugeBatch.framePixels im).length = hugeBatch.npix := by
  have hsel : ∀ k, k < hugeBatch.npix → hugeBatch.sel im 0 k = true := fun k _ => rfl
  rw [Batch.framePixels, Batch.length_pixels, rank_eq_self hsel]

theorem listLength_hugeBatch (im : Nat) : hugeBatch.listLength im = hugeBatch.howmany := by
  have hmore : hugeBatch.howmany < (hugeBatch.framePixels im).length := by
    rw [length_hugeBatch]
    decide
  have hkeep : ¬ (hugeBatch.err im ≠ 0 ∨ hugeBatch.onHost im) := by
    rintro (h | ⟨h, -⟩)
    · exact h rfl
    · cases h
  have hthr : hugeBatch.thresholds = [] := rfl
  rw [Batch.listLength, if_neg hkeep, Batch.selected, hthr, topPixels_none hmore]
  dsimp only
  rw [List.length_take_of_le hmore.le]

/-- The last list would begin behind `2 ^ 32` entries. -/
theorem hugeBatch_incorrect : hugeBatch.Launches ∧ ∃ l : Lists hugeBatch, ¬ l.Correct := by
  obtain ⟨l⟩ := Lists.exists hugeBatch
  refine ⟨by decide, l, fun hcorrect => ?_⟩
  have hfits := hcorrect.fits (show 21 < hugeBatch.n by decide)
  rw [sumBelow_congr fun k _ => listLength_hugeBatch k] at hfits
  exact absurd hfits (by decide)

end Bslz4ToSparse.Cuda
