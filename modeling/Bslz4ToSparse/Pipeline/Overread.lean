import Bslz4ToSparse.Pipeline.Simulation
import Bslz4ToSparse.Pipeline.Streaming

/-!
# Blocks that are read beyond their planes

The vsx collect takes the planes 64 pixels at a time, and the driver hands it blocks of any multiple of 8
pixels. Where the last group goes over the end of a block, the bytes behind the planes are taken for
pixels.
-/

namespace Bslz4ToSparse.Pipeline

open Dot Foundation Steps
open Lz4 (Byte)

variable {t : Dtype} {nij : Nat} {D : Type}

/-- Some block of the chunk `c` makes the vsx collect look at bytes behind a plane. -/
def Overreads (E : Platform) (q : Call t nij D) (g : Geometry) (c : List Byte) : Prop :=
  ∃ powder a, frameRun E q g c powder = .ok a ∧ a.overread = true

/-- No block of an accepted batch does. -/
def NoOverread (E : Platform) (q : Call t nij D) : Prop :=
  ∀ g, accept q = .ok g → ∀ f, f < q.chunks.nframes → ¬Overreads E q g (q.chunks.bytes f)

section

variable {E : Platform} {q : Call t nij D} {g : Geometry} {c : List Byte}

/-- A block of `ne` pixels whose last group of 64 goes over its end, listed at a cut below 255. -/
structure Ragged (q : Call t nij D) (ne cut : Nat) : Prop where
  value : q.pipe.untranspose = .lowplanesVsx
  whole : ¬64 ∣ ne
  small : ne / 8 ≤ zeroPlaneBytes
  cut : cut < 255

/-- Such a block over-reads where all its pixels are below 256. -/
theorem overreads_ragged {ne cut : Nat} {sparse : Bool} {px : Nat → Pixel t}
    (h : q.overreads ne cut (q.fuses ne sparse px) = true) :
    Ragged q ne cut ∧ sparse = true ∧ ∀ e, e < ne → (px e).toNat < 256 := by
  unfold Call.overreads at h
  simp only [Bool.and_eq_true, beq_iff_eq, bne_iff_ne, decide_eq_true_eq] at h
  obtain ⟨⟨⟨hfuses, hvalue⟩, hmod⟩, hcut⟩ := h
  have hlow := (fuses_u16 hfuses).2
  unfold Call.fuses at hfuses
  simp only [Bool.and_eq_true] at hfuses
  obtain ⟨⟨⟨-, hsparse⟩, htakes⟩, -⟩ := hfuses
  rw [hvalue] at htakes
  simp only [takesBlock, Bool.and_eq_true, decide_eq_true_eq] at htakes
  exact ⟨⟨hvalue, fun hdvd => hmod (Nat.mod_eq_zero_of_dvd hdvd), htakes.2, hcut⟩, hsparse, hlow⟩

/-- The mask is not in the planes of such a block. -/
theorem Ragged.shown {cut : Nat} (h : Ragged q (g.blockElems t) cut) (b : Nat) (px : Nat → Pixel t) :
    q.shown g b px = px := by
  have hplanes : q.maskplanes g = false := by
    rw [Bool.eq_false_iff]
    intro hplanes
    unfold Call.maskplanes at hplanes
    simp only [Bool.and_eq_true, beq_iff_eq] at hplanes
    exact h.whole (Nat.dvd_of_mod_eq_zero hplanes.2)
  funext e
  unfold Call.shown
  rw [hplanes, Bool.false_and, if_neg (by decide)]

/-- The tail is not collected from its planes. -/
theorem frameTail_overread {a a' : FrameState t D} (h : frameTail E q g c a = .ok a') :
    a'.overread = a.overread := by
  obtain ⟨⟨pos, nbytes, planes⟩, -, h⟩ := bind_eq_ok.mp h
  obtain ⟨-, -, h⟩ := bind_eq_ok.mp h
  have hraise : (({ a with pos } : FrameState t D).raise q).overread = a.overread :=
    (raise_keeps _).2.2
  dsimp only at h
  split at h
  · obtain rfl := Except.ok.inj h
    exact (finish_keeps q _).2.1.trans hraise
  · obtain rfl := Except.ok.inj h
    exact (finish_keeps q _).2.1.trans hraise

/-- Where no collect over-reads a block of this size, no chunk does. -/
theorem not_overreads (h : ∀ cut fused, q.overreads (g.blockElems t) cut fused = false) :
    ¬Overreads E q g c := by
  intro hover
  obtain ⟨powder, a', hrun, htrue⟩ := hover
  obtain ⟨a, hblocks, htail⟩ := bind_eq_ok.mp hrun
  have hclean : a.overread = false := by
    refine foldlM_range_induct (fun _ (a : FrameState t D) => a.overread = false) rfl ?_ hblocks
    intro b _ a₁ a₂ ha₁ hstep
    obtain ⟨⟨pos, nbytes, px⟩, -, hstep⟩ := bind_eq_ok.mp hstep
    have hraise : (({ a₁ with pos } : FrameState t D).raise q).overread = false :=
      (raise_keeps _).2.2.trans ha₁
    dsimp only at hstep
    split at hstep
    · obtain rfl := Except.ok.inj hstep
      dsimp only
      rw [hraise, h, Bool.or_self]
    · obtain rfl := Except.ok.inj hstep
      dsimp only
      rw [hraise, h, Bool.or_self]
  rw [frameTail_overread htail, hclean] at htrue
  cases htrue

/-- Only the vsx value over-reads. -/
theorem noOverread_of_value {q : Call t nij D} (h : q.pipe.untranspose ≠ .lowplanesVsx) :
    NoOverread E q := by
  intro g _ f _
  apply not_overreads
  intro cut fused
  unfold Call.overreads
  rw [beq_eq_false_iff_ne.mpr h, Bool.and_false, Bool.false_and, Bool.false_and]

/-- What over-reads does so from every powder. -/
theorem overread_eq_false (h : ¬Overreads E q g c) {powder : Nat → D} {a : FrameState t D}
    (ha : frameRun E q g c powder = .ok a) : a.overread = false := by
  rw [Bool.eq_false_iff]
  intro hover
  exact h ⟨powder, a, ha, hover⟩

/-! ## Why a frame over-reads -/

/-- The blocks of a frame: one that over-reads is a ragged one with small pixels. -/
structure OverreadCause (q : Call t nij D) (g : Geometry) (n : Nat) (a : FrameState t D) (o : Opened t) :
    Prop where
  pos : a.pos = o.pos
  level : q.top = none → a.level = 0
  overread : a.overread = true → ∃ b cut, b < n ∧ Ragged q (g.blockElems t) cut ∧
    (q.dot = none → q.top = none → cut = q.lowCut 0) ∧
    ∀ e, e < g.blockElems t → (o.px (b * g.blockElems t + e)).toNat < 256

theorem level_raise_none (htop : q.top = none) (a : FrameState t D) : (a.raise q).level = a.level := by
  unfold FrameState.raise
  rw [htop]

theorem frameBlocks_overread (powder : Nat → D) (n : Nat) :
    Agree (OverreadCause q g n) (frameBlocks E q g c powder n) (openBlocks E q g c n) := by
  unfold frameBlocks openBlocks
  refine foldlM_range_agree (OverreadCause q g) ⟨rfl, fun _ => rfl, fun h => by cases h⟩ ?_
  intro b _ a o h
  unfold frameBlock
  rw [h.pos]
  apply Agree.bind_same
  intro x
  obtain ⟨pos, nbytes, px⟩ := x
  dsimp only
  obtain ⟨hpos, -, hover⟩ : (({ a with pos } : FrameState t D).raise q).pos = pos ∧ _ ∧
    (({ a with pos } : FrameState t D).raise q).overread = a.overread := raise_keeps _
  have hlevel : q.top = none → (({ a with pos } : FrameState t D).raise q).level = 0 := fun htop =>
    (level_raise_none htop _).trans (h.level htop)
  set a₂ := ({ a with pos } : FrameState t D).raise q with ha₂
  -- a block that was read before, and this one
  have hcause : ∀ sparse cut, (q.dot = none → q.top = none → cut = q.lowCut 0) →
      (a₂.overread || q.overreads (g.blockElems t) cut
        (q.fuses (g.blockElems t) sparse (q.shown g b px))) = true →
      ∃ k cut, k < b + 1 ∧ Ragged q (g.blockElems t) cut ∧
        (q.dot = none → q.top = none → cut = q.lowCut 0) ∧
        ∀ e, e < g.blockElems t → (if k * g.blockElems t + e < b * g.blockElems t
          then o.px (k * g.blockElems t + e)
          else px (k * g.blockElems t + e - b * g.blockElems t)).toNat < 256 := by
    intro sparse cut hcut htrue
    rw [hover] at htrue
    rcases (Bool.or_eq_true _ _).mp htrue with hbefore | hblock
    · obtain ⟨k, cut', hk, hragged, hcut', hlow⟩ := h.overread hbefore
      refine ⟨k, cut', by omega, hragged, hcut', fun e he => ?_⟩
      have hmul := Nat.mul_le_mul_right (g.blockElems t) (show k + 1 ≤ b from hk)
      rw [Nat.succ_mul] at hmul
      rw [if_pos (by omega)]
      exact hlow e he
    · obtain ⟨hragged, -, hlow⟩ := overreads_ragged hblock
      rw [hragged.shown] at hlow
      refine ⟨b, cut, Nat.lt_succ_self b, hragged, hcut, fun e he => ?_⟩
      rw [if_neg (by omega), Nat.add_sub_cancel_left]
      exact hlow e he
  cases hdot : q.dot with
  | none =>
    rw [hdot] at hcause
    refine ⟨hpos, hlevel, fun htrue => ?_⟩
    rw [hdot]
    exact hcause true _ (fun _ htop => by rw [hlevel htop]) htrue
  | some d =>
    rw [hdot] at hcause
    refine ⟨hpos, hlevel, fun htrue => ?_⟩
    rw [hdot]
    exact hcause _ 0 (fun hnone => by cases hnone) htrue

/-- A frame that over-reads has a ragged block with no pixel above 255. -/
theorem overread_cause {powder : Nat → D} {a : FrameState t D} {o : Opened t}
    (ha : frameRun E q g c powder = .ok a) (ho : openFrame E q g c = .ok o) (hover : a.overread = true) :
    ∃ b cut, b < g.total / g.blocksize ∧ Ragged q (g.blockElems t) cut ∧
      (q.dot = none → q.top = none → cut = q.lowCut 0) ∧
      ∀ e, e < g.blockElems t → (o.px (b * g.blockElems t + e)).toNat < 256 := by
  obtain ⟨a₁, hblocks, htail⟩ := bind_eq_ok.mp ha
  obtain ⟨o₁, hopen, hrest⟩ := bind_eq_ok.mp ho
  have hagree := frameBlocks_overread (E := E) (q := q) (g := g) (c := c) powder (g.total / g.blocksize)
  rw [hblocks, hopen] at hagree
  obtain ⟨⟨pos', nbytes', planes'⟩, -, hrest⟩ := bind_eq_ok.mp hrest
  obtain ⟨-, -, hrest⟩ := bind_eq_ok.mp hrest
  obtain rfl := Except.ok.inj hrest
  rw [frameTail_overread htail] at hover
  obtain ⟨b, cut, hb, hragged, hcut, hlow⟩ := OverreadCause.overread hagree hover
  refine ⟨b, cut, hb, hragged, hcut, fun e he => ?_⟩
  have hmul := Nat.mul_le_mul_right (g.blockElems t) (show b + 1 ≤ g.total / g.blocksize from hb)
  rw [Nat.succ_mul] at hmul
  have hlt : b * g.blockElems t + e < g.tailStart t := by
    unfold Geometry.tailStart
    omega
  dsimp only
  rw [if_pos hlt]
  exact hlow e he

end

end Bslz4ToSparse.Pipeline
