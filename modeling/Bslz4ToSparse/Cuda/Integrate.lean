import Bslz4ToSparse.Cuda.Run
import Bslz4ToSparse.Dot.FixedExact
import Bslz4ToSparse.Foundation.Turns

/-!
# Frames and powder that stay on the GPU (src/cuda/_gpu.py)

`decompress` and `integrate` take the frames of a call in groups, and look for bad chunks at the
end of each group. Frames whose bytes are whole units of 16 are decoded in place, others through the
padded frames of a batch.
-/

namespace Bslz4ToSparse.Cuda

open Foundation Steps Pipeline Dot Matrix
open Lz4 (Byte)

variable {t : Dtype}

/-- `FRAMES_PER_READ`. -/
def framesPerRead : Nat := 2

/-- The frames that a thread block of `_dot` takes. -/
def dotFrames (n : Nat) : Nat := if framesPerRead ≤ n then framesPerRead else 1

/-- What a launch takes of a batch of `n` frames: the grid of `_dot` is `(nbins, (n + F - 1) / F)`. -/
def ProductFits (n : Nat) : Prop := (n + dotFrames n - 1) / dotFrames n ≤ 65535

instance (n : Nat) : Decidable (ProductFits n) :=
  inferInstanceAs (Decidable ((n + dotFrames n - 1) / dotFrames n ≤ 65535))

/-- The matrix of `chunk2sparseCSC` on the device, and the threads of a bin. -/
structure Product {w : Nat} (fx : FixedPointMatrix ℚ w) where
  csr : Csr (BitVec 32)
  threads : Nat
  shfl : Bool
  rows : IsTocsr fx csr
  threads_mem : threads ∈ [32, 64, 128, 256]
  entries_lt : fx.nm.indices.length + threads ≤ 2 ^ 31       -- `int k` comes no further

theorem Product.threads_spec {w : Nat} {fx : FixedPointMatrix ℚ w} (m : Product fx) :
    m.threads % 32 = 0 ∧ 0 < m.threads ∧ m.threads ≤ 1024 := by
  have hmem := m.threads_mem
  simp only [List.mem_cons, List.not_mem_nil, or_false] at hmem
  omega

/-- A launch leaves the powder of its frames. -/
theorem Product.csr1d_fixed {w : Nat} {fx : FixedPointMatrix ℚ w} (m : Product fx) (dense : Nat → Pixel t)
    {stride n F : Nat} (hF : 1 ≤ F) {blocks : List (Nat × Nat)} (hblocks : blocks.Perm (grid fx.nm.nbins n F))
    {f b : Nat} (hf : f < n) (hb : b < fx.nm.nbins) (out : Nat → BitVec 64) :
    csr1d m.shfl (modular t (BitVec.setWidth 64)) m.csr dense stride n fx.nm.nbins F m.threads blocks out
      (f * fx.nm.nbins + b) = fixedPowder fx (fun p => dense (f * stride + p)) b := by
  obtain ⟨hwg, hpos, hmax⟩ := m.threads_spec
  rw [← csr_row_sum m.rows (fun p => dense (f * stride + p)) hb]
  exact csr1d_exact m.shfl m.csr dense hF hwg hpos hmax hblocks hf hb out

namespace Settings

variable (s : Settings t) (chunk : Nat → List Byte)

/-- The loop over the groups, with `_bad_chunks` at the end of each. -/
inductive GroupsRun {σ : Type} (body : Nat × Nat → σ → σ → Prop) : List (Nat × Nat) → σ → Except String σ → Prop
  | nil (x : σ) : GroupsRun body [] x (.ok x)
  | bad {g : Nat × Nat} {rest : List (Nat × Nat)} (x : σ)
      (hbad : ∃ j, j < g.2 ∧ (s.unblocked chunk (g.1 + j)).1 ≠ 0) :
      GroupsRun body (g :: rest) x
        (.error (badChunks (fun j => (s.unblocked chunk (g.1 + j)).1) g.1 g.2))
  | cons {g : Nat × Nat} {rest : List (Nat × Nat)} {x x' : σ} {result : Except String σ}
      (hgood : ∀ j, j < g.2 → (s.unblocked chunk (g.1 + j)).1 = 0) (hbody : body g x x')
      (hrest : GroupsRun body rest x' result) : GroupsRun body (g :: rest) x result

/-- `copy_rows` of the `n` frames from `f0` on. -/
def copyRows (out : Memory) (f0 : Nat) (dense : Memory) (n : Nat) : Memory := fun i =>
  if f0 * s.nbytes ≤ i ∧ i < (f0 + n) * s.nbytes then
    dense ((i / s.nbytes - f0) * s.stride + i % s.nbytes)
  else out i

/-- A batch of `_decompress_from` through the padded frames: the dense frames and the array that is returned. -/
def PaddedTurn (part : Part) (x y : Memory × Memory) : Prop :=
  ∃ order, (s.warpGrid part.n).Perm order ∧ s.DenseRun chunk s.stride part.f0 order x.1 y.1 ∧
    y.2 = s.copyRows x.2 part.f0 y.1 part.n

/-- A group of `_decompress_from`. -/
def DecompressGroup (batch : Nat) (g : Nat × Nat) (x y : Memory × Memory) : Prop :=
  if s.nbytes % 16 = 0 then
    ∃ order out, (s.warpGrid g.2).Perm order ∧
      s.DenseRun chunk s.nbytes g.1 order (offset x.2 (g.1 * s.nbytes)) out ∧
      y = (x.1, fun i => if i < g.1 * s.nbytes then x.2 i else out (i - g.1 * s.nbytes))
  else Turns (s.PaddedTurn chunk) (groupParts batch g) x y

variable {w : Nat} {fx : FixedPointMatrix ℚ w} (m : Product fx)

/-- `_dot` of the `n` frames from `f0` on, its thread blocks in the order `blocks`. -/
def dot (f0 n : Nat) (dense : Memory) (blocks : List (Nat × Nat)) (powder : Nat → BitVec 64) : Nat → BitVec 64 :=
  fun i => if i < f0 * fx.nm.nbins then powder i
    else csr1d m.shfl (modular t (BitVec.setWidth 64)) m.csr (pixelAt t dense) s.strideEl n fx.nm.nbins (dotFrames n)
      m.threads blocks (fun i => powder (f0 * fx.nm.nbins + i)) (i - f0 * fx.nm.nbins)

/-- A batch of `_integrate_from`: the dense frames and the powder that is returned. -/
def IntegrateTurn (part : Part) (x y : Memory × (Nat → BitVec 64)) : Prop :=
  ∃ order blocks, (s.warpGrid part.n).Perm order ∧ s.DenseRun chunk s.stride part.f0 order x.1 y.1 ∧
    blocks.Perm (grid fx.nm.nbins part.n (dotFrames part.n)) ∧ y.2 = s.dot m part.f0 part.n y.1 blocks x.2

/-- A group of `_integrate_from`. -/
def IntegrateGroup (batch : Nat) (g : Nat × Nat) (x y : Memory × (Nat → BitVec 64)) : Prop :=
  Turns (s.IntegrateTurn chunk m) (groupParts batch g) x y

/-! ## The loop over the groups -/

section

variable {s : Settings t} {chunk : Nat → List Byte} {σ : Type} {body : Nat × Nat → σ → σ → Prop}
  {gs : List (Nat × Nat)} {x y : σ}

theorem GroupsRun.ok (hrun : s.GroupsRun chunk body gs x (.ok y)) :
    (∀ g ∈ gs, ∀ j, j < g.2 → (s.unblocked chunk (g.1 + j)).1 = 0) ∧ Turns body gs x y := by
  generalize hr : Except.ok y = result at hrun
  induction hrun with
  | nil x =>
    obtain rfl := Except.ok.inj hr
    exact ⟨fun g hg => absurd hg List.not_mem_nil, .nil y⟩
  | bad x hbad => cases hr
  | cons hgood hbody _ ih =>
    obtain ⟨hrest, hturns⟩ := ih hr
    refine ⟨fun g hg => ?_, .cons hbody hturns⟩
    rcases List.mem_cons.mp hg with rfl | hg
    · exact hgood
    · exact hrest g hg

/-- The message names the bad chunks of the first group that has one. -/
theorem GroupsRun.error {e : String} (hrun : s.GroupsRun chunk body gs x (.error e)) :
    ∃ before g after, gs = before ++ g :: after ∧
      (∀ f ∈ before.flatMap groupRange, (s.unblocked chunk f).1 = 0) ∧
      (∃ j, j < g.2 ∧ (s.unblocked chunk (g.1 + j)).1 ≠ 0) ∧
      e = badChunks (fun j => (s.unblocked chunk (g.1 + j)).1) g.1 g.2 := by
  generalize hr : Except.error e = result at hrun
  induction hrun with
  | nil x => cases hr
  | @bad g rest x hbad =>
    exact ⟨[], g, rest, rfl, fun f hf => absurd hf List.not_mem_nil, hbad, Except.error.inj hr⟩
  | @cons g rest x x' result hgood _ _ ih =>
    obtain ⟨before, g', after, rfl, hbefore, hbad, he⟩ := ih hr
    refine ⟨g :: before, g', after, rfl, fun f hf => ?_, hbad, he⟩
    rcases List.mem_append.mp hf with hf | hf
    · obtain ⟨hle, hlt⟩ := List.mem_range'_1.mp hf
      have hzero := hgood (f - g.1) (by omega)
      rwa [show g.1 + (f - g.1) = f by omega] at hzero
    · exact hbefore f hf

theorem GroupsRun.exists (h : ∀ g ∈ gs, (∀ j, j < g.2 → (s.unblocked chunk (g.1 + j)).1 = 0) → ∀ x, ∃ y, body g x y)
    (x : σ) : ∃ result, s.GroupsRun chunk body gs x result := by
  induction gs generalizing x with
  | nil => exact ⟨_, .nil x⟩
  | cons g rest ih =>
    by_cases hbad : ∃ j, j < g.2 ∧ (s.unblocked chunk (g.1 + j)).1 ≠ 0
    · exact ⟨_, .bad x hbad⟩
    · have hgood : ∀ j, j < g.2 → (s.unblocked chunk (g.1 + j)).1 = 0 := by
        intro j hj
        by_contra hne
        exact hbad ⟨j, hj, hne⟩
      obtain ⟨y, hy⟩ := h g List.mem_cons_self hgood x
      obtain ⟨result, hrest⟩ := ih (fun g' hg' => h g' (List.mem_cons_of_mem _ hg')) y
      exact ⟨result, .cons hgood hy hrest⟩

end

/-! ## The frames in the array that is returned -/

section

variable {s : Settings t} {chunk : Nat → List Byte} {px : Nat → Nat → Pixel t}

/-- Frame `f` is there. -/
def FrameAt (s : Settings t) (px : Nat → Nat → Pixel t) (f : Nat) (out : Memory) : Prop :=
  ∀ p, p < s.npix → densePixel t s.nbytes out f p = px f p

/-- The place of a byte of frame `f`. -/
theorem place_lt {p k : Nat} (hp : p < s.npix) (hk : k < t.size) (f : Nat) :
    p * t.size + k < s.nbytes ∧ f * s.nbytes + (p * t.size + k) < (f + 1) * s.nbytes := by
  have hle := Nat.mul_le_mul_right t.size (show p + 1 ≤ s.npix from hp)
  rw [Nat.add_mul, Nat.one_mul] at hle
  have hbytes : s.npix * t.size = s.nbytes := rfl
  rw [Nat.add_mul, Nat.one_mul]
  omega

/-- A turn that leaves the bytes of frame `f`. -/
theorem FrameAt.congr {f : Nat} {out out' : Memory} (h : FrameAt s px f out)
    (hsame : ∀ i, f * s.nbytes ≤ i → i < (f + 1) * s.nbytes → out' i = out i) : FrameAt s px f out' := by
  intro p hp
  rw [← h p hp]
  refine pixelAt_congr fun k hk => ?_
  obtain ⟨-, hlt⟩ := place_lt hp hk f
  exact hsame _ (Nat.le_add_right _ _) hlt

theorem rows_lt {f g n : Nat} (h : f < g) : (f + 1) * n ≤ g * n := Nat.mul_le_mul_right n h

/-- A group that is decoded in place. -/
theorem straight_frames (hc : ∀ f, (chunk f).length < 2 ^ 31) {g : Nat × Nat}
    (hframe : ∀ j, j < g.2 → FrameBlocks (gpuGeometry t s.npix) (chunk (g.1 + j)) s.npix (px (g.1 + j)))
    (hgood : ∀ j, j < g.2 → (s.unblocked chunk (g.1 + j)).1 = 0) {order : List (Nat × Nat)}
    (horder : (s.warpGrid g.2).Perm order) {x out : Memory}
    (hdense : s.DenseRun chunk s.nbytes g.1 order (offset x (g.1 * s.nbytes)) out) (f : Nat) :
    let y : Memory := fun i => if i < g.1 * s.nbytes then x i else out (i - g.1 * s.nbytes)
    (f ∈ groupRange g → FrameAt s px f y) ∧ (f ∉ groupRange g → FrameAt s px f x → FrameAt s px f y) := by
  intro y
  have hbehind : ∀ p, g.1 ≤ f → densePixel t s.nbytes y f p = densePixel t s.nbytes out (f - g.1) p := by
    intro p hle
    refine pixelAt_congr fun k _ => ?_
    have hmul : f * s.nbytes = g.1 * s.nbytes + (f - g.1) * s.nbytes := by rw [← Nat.add_mul]; congr 1; omega
    unfold offset
    rw [hmul]
    dsimp only [y]
    rw [if_neg (by omega)]
    congr 1
    omega
  refine ⟨fun hmem p hp => ?_, fun hmem hx => ?_⟩
  · obtain ⟨hle, hlt⟩ := List.mem_range'_1.mp hmem
    have hj : f - g.1 < g.2 := by omega
    have hat : g.1 + (f - g.1) = f := by omega
    have hpix := denseGrid_pixels (Nat.le_refl _) hc horder hdense hj (hframe _ hj) (hgood _ hj) hp
    rw [hat] at hpix
    rw [hbehind p hle, hpix]
  · by_cases hle : g.1 ≤ f
    · intro p hp
      have hothers : ∀ warp ∈ order, f - g.1 ≠ warp.1 := by
        intro warp hw heq
        have hlt := List.mem_range.mp (List.mem_product.mp (horder.mem_iff.mpr hw)).1
        exact hmem (List.mem_range'_1.mpr (by omega))
      rw [hbehind p hle, denseRun_others (Nat.le_refl _) hdense hothers hp, ← hx p hp]
      refine pixelAt_congr fun k _ => ?_
      unfold offset
      congr 1
      rw [← Nat.add_assoc, ← Nat.add_mul]
      congr 2
      omega
    · refine hx.congr fun i _ hlt => if_pos ?_
      exact Nat.lt_of_lt_of_le hlt (rows_lt (by omega))

/-- A batch that is copied from the padded frames. -/
theorem padded_frames (hc : ∀ f, (chunk f).length < 2 ^ 31) {part : Part}
    (hframe : ∀ j, j < part.n → FrameBlocks (gpuGeometry t s.npix) (chunk (part.f0 + j)) s.npix (px (part.f0 + j)))
    (hgood : ∀ j, j < part.n → (s.unblocked chunk (part.f0 + j)).1 = 0) {x y : Memory × Memory}
    (h : s.PaddedTurn chunk part x y) (f : Nat) :
    (f ∈ part.frames → FrameAt s px f y.2) ∧ (f ∉ part.frames → FrameAt s px f x.2 → FrameAt s px f y.2) := by
  obtain ⟨order, horder, hdense, hy⟩ := h
  refine ⟨fun hmem p hp => ?_, fun hmem hx => ?_⟩
  · obtain ⟨hle, hlt⟩ := List.mem_range'_1.mp hmem
    have hj : f - part.f0 < part.n := by omega
    have hat : part.f0 + (f - part.f0) = f := by omega
    have hpix := denseGrid_pixels s.nbytes_le_stride hc horder hdense hj (hframe _ hj) (hgood _ hj) hp
    rw [hat] at hpix
    rw [← hpix, hy]
    refine pixelAt_congr fun k hk => ?_
    obtain ⟨hplace, hend⟩ := place_lt hp hk f
    have hbegin := Nat.mul_le_mul_right s.nbytes hle
    have hlast : (f + 1) * s.nbytes ≤ (part.f0 + part.n) * s.nbytes := rows_lt hlt
    have hdiv : (f * s.nbytes + (p * t.size + k)) / s.nbytes = f := by
      rw [Nat.add_comm, Nat.add_mul_div_right _ _ (by omega), Nat.div_eq_of_lt hplace, Nat.zero_add]
    have hmod : (f * s.nbytes + (p * t.size + k)) % s.nbytes = p * t.size + k := by
      rw [Nat.add_comm, Nat.add_mul_mod_self_right, Nat.mod_eq_of_lt hplace]
    unfold offset copyRows
    rw [if_pos ⟨by omega, by omega⟩, hdiv, hmod]
  · refine hx.congr fun i hge hlt => ?_
    rw [hy, copyRows, if_neg]
    rintro ⟨hbegin, hend⟩
    refine hmem (List.mem_range'_1.mpr ⟨?_, ?_⟩)
    · by_contra hbelow
      have hle := @rows_lt f part.f0 s.nbytes (by omega)
      omega
    · by_contra habove
      have hle := Nat.mul_le_mul_right s.nbytes (show part.f0 + part.n ≤ f by omega)
      omega

/-- The frames of a batch are those of its group. -/
theorem part_inside {batch : Nat} (hbatch : 0 < batch) {g : Nat × Nat} {part : Part} (hpart : part ∈ groupParts batch g)
    {j : Nat} (hj : j < part.n) : ∃ i, i < g.2 ∧ part.f0 + j = g.1 + i := by
  have hmem : part.f0 + j ∈ groupRange g := by
    rw [← groupParts_frames hbatch g]
    exact List.mem_flatMap.mpr ⟨part, hpart, List.mem_range'_1.mpr ⟨by omega, by omega⟩⟩
  obtain ⟨hle, hlt⟩ := List.mem_range'_1.mp hmem
  exact ⟨part.f0 + j - g.1, by omega, by omega⟩

/-- A loop over the batches of a group: every batch has its frames, and leaves those of the others. -/
theorem group_frames {σ : Type} {turn : Part → σ → σ → Prop} {P : Nat → σ → Prop} {batch : Nat} (hbatch : 0 < batch)
    {g : Nat × Nat} (hturn : ∀ part ∈ groupParts batch g, ∀ x y, turn part x y → ∀ f,
      (f ∈ part.frames → P f y) ∧ (f ∉ part.frames → P f x → P f y)) {x y : σ}
    (h : Turns turn (groupParts batch g) x y) (f : Nat) :
    (f ∈ groupRange g → P f y) ∧ (f ∉ groupRange g → P f x → P f y) := by
  rw [← groupParts_frames hbatch g]
  refine ⟨fun hmem => ?_, fun hmem hx => ?_⟩
  · exact h.sets (fun part hpart x y hxy i => (hturn part hpart x y hxy i).1)
      (fun part hpart x y hxy i => (hturn part hpart x y hxy i).2) f hmem
  · refine h.keeps (fun part hpart x y hxy => (hturn part hpart x y hxy f).2 fun hin => hmem ?_) hx
    exact List.mem_flatMap.mpr ⟨part, hpart, hin⟩

theorem decompressGroup_frames (hc : ∀ f, (chunk f).length < 2 ^ 31) {batch : Nat} (hbatch : 0 < batch) {g : Nat × Nat}
    (hframe : ∀ j, j < g.2 → FrameBlocks (gpuGeometry t s.npix) (chunk (g.1 + j)) s.npix (px (g.1 + j)))
    (hgood : ∀ j, j < g.2 → (s.unblocked chunk (g.1 + j)).1 = 0) {x y : Memory × Memory}
    (h : s.DecompressGroup chunk batch g x y) (f : Nat) :
    (f ∈ groupRange g → FrameAt s px f y.2) ∧ (f ∉ groupRange g → FrameAt s px f x.2 → FrameAt s px f y.2) := by
  unfold DecompressGroup at h
  split at h
  · obtain ⟨order, out, horder, hdense, rfl⟩ := h
    exact straight_frames hc hframe hgood horder hdense f
  · refine @group_frames _ (s.PaddedTurn chunk) (fun f y => FrameAt s px f y.2) batch hbatch g
      (fun part hpart x y hxy f => ?_) x y h f
    refine padded_frames hc (fun j hj => ?_) (fun j hj => ?_) hxy f
    · obtain ⟨i, hi, hat⟩ := part_inside hbatch hpart hj
      rw [hat]
      exact hframe i hi
    · obtain ⟨i, hi, hat⟩ := part_inside hbatch hpart hj
      rw [hat]
      exact hgood i hi

theorem exists_grid (hc : ∀ f, (chunk f).length < 2 ^ 31) {stride f0 n : Nat}
    (hframe : ∀ j, j < n → FrameBlocks (gpuGeometry t s.npix) (chunk (f0 + j)) s.npix (px (f0 + j)))
    (hgood : ∀ j, j < n → (s.unblocked chunk (f0 + j)).1 = 0) (dense : Memory) :
    ∃ dense', s.DenseRun chunk stride f0 (s.warpGrid n) dense dense' := by
  have him : ∀ warp ∈ s.warpGrid n, warp.1 < n := fun warp h => List.mem_range.mp (List.mem_product.mp h).1
  exact exists_denseRun hc (fun warp h => hgood _ (him warp h)) (fun warp h => hframe _ (him warp h)) dense

theorem exists_decompressGroup (hc : ∀ f, (chunk f).length < 2 ^ 31) {batch : Nat} (hbatch : 0 < batch) {g : Nat × Nat}
    (hframe : ∀ j, j < g.2 → FrameBlocks (gpuGeometry t s.npix) (chunk (g.1 + j)) s.npix (px (g.1 + j)))
    (hgood : ∀ j, j < g.2 → (s.unblocked chunk (g.1 + j)).1 = 0) (x : Memory × Memory) :
    ∃ y, s.DecompressGroup chunk batch g x y := by
  unfold DecompressGroup
  split
  · obtain ⟨out, hdense⟩ := exists_grid hc hframe hgood (offset x.2 (g.1 * s.nbytes))
    exact ⟨_, _, out, List.Perm.refl _, hdense, rfl⟩
  · refine Turns.exists (fun part hpart x => ?_) x
    have hinside := fun j hj => part_inside hbatch hpart (j := j) hj
    obtain ⟨dense', hdense⟩ := @exists_grid _ s chunk px hc s.stride part.f0 part.n
      (fun j hj => by obtain ⟨i, hi, hat⟩ := hinside j hj; rw [hat]; exact hframe i hi)
      (fun j hj => by obtain ⟨i, hi, hat⟩ := hinside j hj; rw [hat]; exact hgood i hi) x.1
    exact ⟨(dense', s.copyRows x.2 part.f0 dense' part.n), _, List.Perm.refl _, hdense, rfl⟩

end

/-! ## The powder -/

section

variable {s : Settings t} {chunk : Nat → List Byte} {px : Nat → Nat → Pixel t} {w : Nat} {fx : FixedPointMatrix ℚ w}

/-- The powder of frame `f` is there. -/
def PowderAt (fx : FixedPointMatrix ℚ w) (px : Nat → Nat → Pixel t) (f : Nat) (powder : Nat → BitVec 64) : Prop :=
  ∀ b, b < fx.nm.nbins → powder (f * fx.nm.nbins + b) = fixedPowder fx (px f) b

/-- The powder of a frame is made of its pixels. -/
theorem fixedPowder_congr {frame frame' : Nat → Pixel t} (h : ∀ p, p < fx.nm.npix → frame p = frame' p) (b : Nat) :
    fixedPowder fx frame b = fixedPowder fx frame' b := by
  rw [fixedPowder_eq, fixedPowder_eq]
  unfold NormalMatrix.product
  refine congrArg List.sum (List.map_congr_left fun p hp => ?_)
  dsimp only
  rw [h p (List.mem_range.mp hp)]

/-- A launch leaves the cells behind its frames. -/
theorem csr1d_behind {P W D : Type} (shfl : Bool) (A : Arith P W D) (m : Csr W) (dense : Nat → P)
    {stride nframes nbins F threads : Nat} {order : List (Nat × Nat)} (horder : order.Perm (grid nbins nframes F))
    {f b : Nat} (hf : nframes ≤ f) (hb : b < nbins) (out : Nat → D) :
    csr1d shfl A m dense stride nframes nbins F threads order out (f * nbins + b) = out (f * nbins + b) := by
  refine foldl_keeps (fun blk hblk out => foldl_keeps (fun f' _ out => ?_) out) out
  obtain ⟨bin, hbin, hy⟩ := List.mem_flatMap.mp (horder.mem_iff.mp hblk)
  obtain ⟨y, -, rfl⟩ := List.mem_map.mp hy
  dsimp only
  split
  · refine modifyAt_ne _ fun heq => ?_
    obtain ⟨hsame, -⟩ := cell_inj (List.mem_range.mp hbin) hb heq
    omega
  · rfl

/-- A batch, and its rows of the powder. -/
theorem integrate_powder (hc : ∀ f, (chunk f).length < 2 ^ 31) (hnpix : fx.nm.npix = s.npix) (m : Product fx) {part : Part}
    (hframe : ∀ j, j < part.n → FrameBlocks (gpuGeometry t s.npix) (chunk (part.f0 + j)) s.npix (px (part.f0 + j)))
    (hgood : ∀ j, j < part.n → (s.unblocked chunk (part.f0 + j)).1 = 0) {x y : Memory × (Nat → BitVec 64)}
    (h : s.IntegrateTurn chunk m part x y) (f : Nat) :
    (f ∈ part.frames → PowderAt fx px f y.2) ∧ (f ∉ part.frames → PowderAt fx px f x.2 → PowderAt fx px f y.2) := by
  obtain ⟨order, blocks, horder, hdense, hblocks, hy⟩ := h
  have hF : 1 ≤ dotFrames part.n := by
    unfold dotFrames
    split
    · decide
    · exact Nat.le_refl 1
  have hbehind : ∀ b, part.f0 ≤ f → f * fx.nm.nbins + b - part.f0 * fx.nm.nbins = (f - part.f0) * fx.nm.nbins + b := by
    intro b hle
    have hmul : f * fx.nm.nbins = part.f0 * fx.nm.nbins + (f - part.f0) * fx.nm.nbins := by
      rw [← Nat.add_mul]
      congr 1
      omega
    omega
  refine ⟨fun hmem b hb => ?_, fun hmem hx b hb => ?_⟩
  · obtain ⟨hle, hlt⟩ := List.mem_range'_1.mp hmem
    have hj : f - part.f0 < part.n := by omega
    have hat : part.f0 + (f - part.f0) = f := by omega
    have hmul := Nat.mul_le_mul_right fx.nm.nbins hle
    rw [hy, dot, if_neg (by omega), hbehind b hle]
    rw [m.csr1d_fixed _ hF hblocks hj hb]
    refine fixedPowder_congr (fun p hp => ?_) b
    have hpix := denseGrid_pixels s.nbytes_le_stride hc horder hdense hj (hframe _ hj) (hgood _ hj) (hnpix ▸ hp)
    rw [hat] at hpix
    rw [← hpix, densePixel_strideEl]
  · rw [hy, dot]
    by_cases hle : part.f0 ≤ f
    · have hmul := Nat.mul_le_mul_right fx.nm.nbins hle
      have hbelow : part.n ≤ f - part.f0 := by
        by_contra hin
        exact hmem (List.mem_range'_1.mpr ⟨hle, by omega⟩)
      have hback : part.f0 * fx.nm.nbins + ((f - part.f0) * fx.nm.nbins + b) = f * fx.nm.nbins + b := by
        rw [← hbehind b hle]
        omega
      rw [if_neg (by omega), hbehind b hle, csr1d_behind _ _ _ _ hblocks hbelow hb, hback]
      exact hx b hb
    · have hlt := @rows_lt f part.f0 fx.nm.nbins (by omega)
      rw [Nat.add_mul, Nat.one_mul] at hlt
      rw [if_pos (by omega)]
      exact hx b hb

theorem integrateGroup_powder (hc : ∀ f, (chunk f).length < 2 ^ 31) {batch : Nat} (hbatch : 0 < batch)
    (hnpix : fx.nm.npix = s.npix) (m : Product fx) {g : Nat × Nat}
    (hframe : ∀ j, j < g.2 → FrameBlocks (gpuGeometry t s.npix) (chunk (g.1 + j)) s.npix (px (g.1 + j)))
    (hgood : ∀ j, j < g.2 → (s.unblocked chunk (g.1 + j)).1 = 0) {x y : Memory × (Nat → BitVec 64)}
    (h : s.IntegrateGroup chunk m batch g x y) (f : Nat) :
    (f ∈ groupRange g → PowderAt fx px f y.2) ∧ (f ∉ groupRange g → PowderAt fx px f x.2 → PowderAt fx px f y.2) := by
  refine @group_frames _ (s.IntegrateTurn chunk m) (fun f y => PowderAt fx px f y.2) batch hbatch g
    (fun part hpart x y hxy f => ?_) x y h f
  have hinside := fun j hj => part_inside hbatch hpart (j := j) hj
  exact integrate_powder hc hnpix m
    (fun j hj => by obtain ⟨i, hi, hat⟩ := hinside j hj; rw [hat]; exact hframe i hi)
    (fun j hj => by obtain ⟨i, hi, hat⟩ := hinside j hj; rw [hat]; exact hgood i hi) hxy f

theorem exists_integrateGroup (hc : ∀ f, (chunk f).length < 2 ^ 31) {batch : Nat} (hbatch : 0 < batch) {g : Nat × Nat}
    (m : Product fx) (hframe : ∀ j, j < g.2 → FrameBlocks (gpuGeometry t s.npix) (chunk (g.1 + j)) s.npix (px (g.1 + j)))
    (hgood : ∀ j, j < g.2 → (s.unblocked chunk (g.1 + j)).1 = 0) (x : Memory × (Nat → BitVec 64)) :
    ∃ y, s.IntegrateGroup chunk m batch g x y := by
  refine Turns.exists (fun part hpart x => ?_) x
  have hinside := fun j hj => part_inside hbatch hpart (j := j) hj
  obtain ⟨dense', hdense⟩ := @exists_grid _ s chunk px hc s.stride part.f0 part.n
    (fun j hj => by obtain ⟨i, hi, hat⟩ := hinside j hj; rw [hat]; exact hframe i hi)
    (fun j hj => by obtain ⟨i, hi, hat⟩ := hinside j hj; rw [hat]; exact hgood i hi) x.1
  exact ⟨(dense', s.dot m part.f0 part.n dense' _ x.2), _, _, List.Perm.refl _, hdense, List.Perm.refl _, rfl⟩

end

/-! ## A call -/

section

variable {s : Settings t} {chunk : Nat → List Byte} {σ : Type} {body : Nat × Nat → σ → σ → Prop}
  {P : Nat → σ → Prop} {nf group : Nat}

/-- The frames of a group are those of the call. -/
theorem group_inside (hgroup : 0 < group) {g : Nat × Nat} (hg : g ∈ groups nf group) {j : Nat} (hj : j < g.2) :
    g.1 + j < nf := by
  have hmem : g.1 + j ∈ (groups nf group).flatMap groupRange :=
    List.mem_flatMap.mpr ⟨g, hg, List.mem_range'_1.mpr ⟨by omega, by omega⟩⟩
  rw [groups_frames hgroup nf] at hmem
  exact List.mem_range.mp hmem

/-- A call whose good groups come to their end with their frames right and those of the others left. -/
theorem groups_exact (hgroup : 0 < group)
    (hbody : ∀ g ∈ groups nf group, (∀ j, j < g.2 → (s.unblocked chunk (g.1 + j)).1 = 0) →
      (∀ x, ∃ y, body g x y) ∧
        ∀ x y, body g x y → ∀ f, (f ∈ groupRange g → P f y) ∧ (f ∉ groupRange g → P f x → P f y)) (x : σ) :
    (∃ result, s.GroupsRun chunk body (groups nf group) x result) ∧
      ∀ result, s.GroupsRun chunk body (groups nf group) x result →
        (∀ y, result = .ok y → ∀ f, f < nf → (s.unblocked chunk f).1 = 0 ∧ P f y) ∧
        ∀ e, result = .error e → ∃ before g after, groups nf group = before ++ g :: after ∧
          (∀ f ∈ before.flatMap groupRange, (s.unblocked chunk f).1 = 0) ∧
          (∃ j, j < g.2 ∧ (s.unblocked chunk (g.1 + j)).1 ≠ 0) ∧
          e = badChunks (fun j => (s.unblocked chunk (g.1 + j)).1) g.1 g.2 := by
  refine ⟨GroupsRun.exists (fun g hg hgood => (hbody g hg hgood).1) x, fun result hrun => ⟨?_, ?_⟩⟩
  · rintro y rfl f hf
    obtain ⟨hgood, hturns⟩ := hrun.ok
    have hmem : f ∈ (groups nf group).flatMap groupRange := by
      rw [groups_frames hgroup nf]
      exact List.mem_range.mpr hf
    have hP := hturns.sets (fun g hg x y hxy i => ((hbody g hg (hgood g hg)).2 x y hxy i).1)
      (fun g hg x y hxy i => ((hbody g hg (hgood g hg)).2 x y hxy i).2) f hmem
    obtain ⟨g, hg, hin⟩ := List.mem_flatMap.mp hmem
    obtain ⟨hle, hlt⟩ := List.mem_range'_1.mp hin
    have hzero := hgood g hg (f - g.1) (by omega)
    rw [show g.1 + (f - g.1) = f by omega] at hzero
    exact ⟨hzero, hP⟩
  · rintro e rfl
    exact hrun.error

end

end Settings

section

variable {E : Platform} (hK : E.kernels.Inverse) (hC : SharedCodec E.codecs) {u : Unpack} {st st' : UnpackState}
  (helem : u.elemSize = t.size) (hdecode : u.decode = .lz4Stock) (hunshuffle : u.unshuffle = true)
  (hcpu : decompress E u st = .ok st') (s : Settings t)
  (hzero : ∀ f, f < u.chunks.nframes → NoZeroOffsets (u.chunks.bytes f) (hostNstored s.nbytes t.size))
  (hgrid : s.GridFits) {batch : Nat} {group : Option Nat} (hbatch : 0 < batch) (hgroup : ∀ n ∈ group, 0 < n)
  (pending : Bool)

include hK hC helem hdecode hunshuffle hcpu hzero hgrid hbatch hgroup

end

theorem no_group : ∀ n ∈ (none : Option Nat), 0 < n := nofun

section

variable {E : Platform} (hK : E.kernels.Inverse) (hC : SharedCodec E.codecs) {u : Unpack} {st st' : UnpackState}
  (helem : u.elemSize = t.size) (hdecode : u.decode = .lz4Stock) (hunshuffle : u.unshuffle = true)
  (hcpu : decompress E u st = .ok st') (s : Settings t)
  (hzero : ∀ f, f < u.chunks.nframes → NoZeroOffsets (u.chunks.bytes f) (hostNstored s.nbytes t.size))
  (hgrid : s.GridFits) {batch : Nat} {group : Option Nat} (hbatch : 0 < batch) (hgroup : ∀ n ∈ group, 0 < n)
  (pending : Bool)

include hK hC helem hdecode hunshuffle hcpu hzero hgrid hbatch hgroup

end

theorem eightEntries_mono : ∀ p, p < 8 →
    [0, 1, 2, 3, 4, 5, 6, 7, 8].getD p 0 ≤ [0, 1, 2, 3, 4, 5, 6, 7, 8].getD (p + 1) 0 := by decide

theorem oneBin_lt : ∀ b ∈ [0, 0, 0, 0, 0, 0, 0, 0], b < 1 := by decide

theorem oneBin_bins : 1 < 2 ^ 31 := by decide

theorem eightEntries_lt : [0, 0, 0, 0, 0, 0, 0, 0].length + 4 < 2 ^ 32 := by decide

theorem sixteen_bits : 16 = 16 ∨ 16 = 32 := Or.inl rfl

theorem warp_mem : 32 ∈ [32, 64, 128, 256] := List.mem_cons_self

/-- Eight pixels in one bin, with weight 3. -/
def oneBin : FixedPointMatrix ℚ 16 where
  nm := {
    data := [1, 1, 1, 1, 1, 1, 1, 1]
    indices := [0, 0, 0, 0, 0, 0, 0, 0]
    indptr := [0, 1, 2, 3, 4, 5, 6, 7, 8]
    nbins := 1
    npix := 8
    length_data := rfl
    length_indptr := rfl
    indptr_zero := rfl
    indptr_mono := eightEntries_mono
    indptr_last := rfl
    indices_lt := oneBin_lt
    nbins_lt := oneBin_bins
    entries_lt := eightEntries_lt }
  data := [3#16, 3#16, 3#16, 3#16, 3#16, 3#16, 3#16, 3#16]
  length_data := rfl
  wbits := sixteen_bits

/-- Its row. -/
def oneBinCsr : Csr (BitVec 32) where
  coef := fun _ => 3#32
  idx := fun k => k
  indptr := fun b => [0, 8].getD b 0

theorem oneBinCsr_rows : IsTocsr oneBin oneBinCsr where
  rows := by decide +kernel

theorem oneBin_entries : oneBin.nm.indices.length + 32 ≤ 2 ^ 31 := by decide

def oneBinProduct : Product oneBin where
  csr := oneBinCsr
  threads := 32
  shfl := true
  rows := oneBinCsr_rows
  threads_mem := warp_mem
  entries_lt := oneBin_entries

theorem one_product : ProductFits (min 1 2) := by decide

end Bslz4ToSparse.Cuda
