import Bslz4ToSparse.Pipeline.Batch
import Bslz4ToSparse.TopPixels.Streaming

/-!
# Sparsifying a batch

Without a limit the list of a frame holds the unmasked pixels above the cut, in the order of the
pixels: for every pixel type, every pipeline, every block size and every codec, with or without a
matrix.
-/

namespace Bslz4ToSparse.Pipeline

open Dot Foundation Steps
open Lz4 (Byte plainDecode)

variable {t : Dtype} {nij : Nat} {D : Type}

/-- The unmasked pixels above the cut. -/
def Call.sparse (q : Call t nij D) (F : Nat → Pixel t) : List (Nat × Pixel t) :=
  ((List.range nij).filter fun p => q.mask p != 0#8 && (F p).gt q.cutPixel).map fun p => (p, F p)

/-- The mask step `none` is for masks where every pixel is valid. -/
def Call.MaskFits (q : Call t nij D) : Prop :=
  q.pipe.mask = .none → ∀ p, p < nij → q.mask p ≠ 0#8

/-! ## What a frame comes to -/

/-- The level, the list and the count of frame `f`. -/
structure Settles (q : Call t nij D) (F : Nat → Nat → Pixel t) (r : RunState t D) (f : Nat) : Prop where
  level : r.level f = (q.settled (F f) nij).1
  list : (r.out nij f).entries = q.kept (q.settled (F f) nij).2
  nabove : r.nabove f = q.counted (q.settled (F f) nij).2

theorem settled_congr {q : Call t nij D} {px px' : Nat → Pixel t} {n : Nat}
    (h : ∀ p, p < n → px p = px' p) : q.settled px n = q.settled px' n := by
  unfold Call.settled
  rw [candidates_congr fun p _ hp => h p (by omega)]

section

variable {E : Platform} {q : Call t nij D} {F : Nat → Nat → Pixel t} (hK : E.kernels.Inverse)

include hK

theorem settles_opened {g : Geometry} (haccept : accept q = .ok g) (hg : Aligned t g)
    (hopened : ∀ f, f < q.chunks.nframes → ∃ o, openFrame E q g (q.chunks.bytes f) = .ok o ∧
      ∀ p, p < nij → o.px p = F f p)
    (hsteady : q.Steady) (hguard : Guarded q g.blocksize F) (s : RunState t D) :
    ∃ r, run E q s = .ok r ∧ ∀ f, f < q.chunks.nframes → Settles q F r f := by
  obtain ⟨r, hr, hframes⟩ := run_opened hK haccept hg hopened hguard s
  refine ⟨r, hr, fun f hf => ?_⟩
  obtain ⟨a, o, halone, ho, hpx, hc⟩ := hframes f hf
  have hfinished := frameRun_finished (E := E) (g := g) (c := q.chunks.bytes f) hsteady (s.powder f)
  rw [halone, ho] at hfinished
  have hready := (run_ready (E := E) hK haccept hg).1
  have hend : g.tailStart t + q.tailElems g = nij := by
    unfold Call.tailElems
    rw [tail_elems hready, tail_end hready]
  have hsame := settled_congr (q := q) hpx
  constructor
  · rw [hc.level, Finished.level hfinished, hend, hsame]
  · rw [hc.list, Finished.list hfinished, hend, hsame]
  · rw [hc.nabove, Finished.nabove hfinished, hend, hsame]

theorem run_settles {blocksize : Nat}
    (hlz4 : ∀ src planes, plainDecode planes.length src = some planes →
      E.codecs.lz4DecompressSafe src planes.length = some planes)
    (h : BatchOf E.codecs q blocksize F) (ha : Admissible q blocksize) (hsteady : q.Steady)
    (hguard : Guarded q blocksize F) (s : RunState t D) :
    ∃ r, run E q s = .ok r ∧ ∀ f, f < q.chunks.nframes → Settles q F r f :=
  settles_opened hK (h.accepted ha) h.aligned (fun _ hf => h.opened hK hlz4 ha hf) hsteady hguard s

end

/-! ## Without a limit -/

theorem gt_nonzero {v cut : Pixel t} (hcut : validCut cut = true) (hv : v.gt cut = true) :
    v.nonzero = true := by
  unfold validCut at hcut
  unfold Pixel.gt at hv
  by_contra hzero
  cases ht : t.isFloat with
  | false =>
    rw [ht, if_neg (by decide), decide_eq_true_iff] at hcut hv
    have hvalue := Pixel.value_eq_zero ht (Bool.eq_false_iff.mpr hzero)
    omega
  | true =>
    rw [ht, if_pos rfl] at hcut hv
    simp only [Bool.and_eq_true, decide_eq_true_iff] at hcut hv
    have hmag : v.magnitude = 0 := by simpa [Pixel.nonzero, ht] using hzero
    have hsigned : v.signedMagnitude = 0 := by
      unfold Pixel.signedMagnitude
      rw [hmag]
      simp
    omega

/-- The cut alone is a level like any other. -/
theorem steady_of_cut {q : Call t nij D} (htop : q.top = none) (hcut : validCut q.cutPixel = true) :
    q.Steady where
  filter := by
    intro top hmem
    rw [htop] at hmem
    cases hmem
  low := by
    intro ht level hlevel v hv
    have hfloat : t.isFloat = false := by rw [ht]; rfl
    have hvalue : 0 ≤ q.cutPixel.value := by
      unfold validCut at hcut
      rw [hfloat, if_neg (by decide)] at hcut
      exact of_decide_eq_true hcut
    have hascending : TopPixels.Ascending q := by
      refine ⟨hfloat, hvalue, ?_, ?_⟩
      all_goals
        intro top hmem
        rw [htop] at hmem
        cases hmem
    exact hascending.low ht hlevel hv
  strict := by
    intro k hk
    rw [TopPixels.Ascending.levels_none htop] at hk
    omega
  nonzero := fun v hv => gt_nonzero hcut hv

/-- The list of the level of the cut. -/
theorem settled_plain {q : Call t nij D} (htop : q.top = none) (hmask : q.MaskFits) (px : Nat → Pixel t) :
    q.kept (q.settled px nij).2 = q.sparse px := by
  have hlevels : q.levels = 0 := TopPixels.Ascending.levels_none htop
  have hlevel : settledLevel q.test q.full q.levels (q.candidates px 0 nij) = 0 := by
    have hle := (settledLevel_spec q.test q.full q.levels (q.candidates px 0 nij)).1
    omega
  unfold Call.kept Call.settled
  rw [htop]
  dsimp only
  rw [hlevel, candidates_eq, List.filter_map, List.filter_filter]
  unfold Call.sparse
  have hsel : ∀ p, p < nij → (q.mask p != 0#8) = maskOk q.emask p := by
    intro p hp
    unfold Call.emask
    split
    · next hnone => simpa [maskOk] using hmask hnone p hp
    · rfl
  congr 1
  apply List.filter_congr
  intro p hp
  rw [Function.comp, Nat.add_zero, hsel p (List.mem_range.mp hp), Bool.and_comm]
  rfl

/-- A batch of frames without a limit: the driver goes through, and the list of every frame has its
unmasked pixels above the cut, each at its place and in order. -/
theorem sparsify_exact (E : Platform) (hK : E.kernels.Inverse)
    (hlz4 : ∀ src planes, plainDecode planes.length src = some planes →
      E.codecs.lz4DecompressSafe src planes.length = some planes)
    (q : Call t nij D) (blocksize : Nat) (F : Nat → Nat → Pixel t) (h : BatchOf E.codecs q blocksize F)
    (ha : Admissible q blocksize) (htop : q.top = none) (hmask : q.MaskFits)
    (hguard : Guarded q blocksize F) (s : RunState t D) :
    ∃ r, run E q s = .ok r ∧ ∀ f, f < q.chunks.nframes →
      r.npx f = (q.sparse (F f)).length ∧ (r.out nij f).entries = q.sparse (F f) := by
  obtain ⟨r, hr, hsettles⟩ := run_settles hK hlz4 h ha (steady_of_cut htop ha.validCut) hguard s
  refine ⟨r, hr, fun f hf => ?_⟩
  have hlist := (hsettles f hf).list.trans (settled_plain htop hmask (F f))
  refine ⟨?_, hlist⟩
  rw [← hlist, Sink.length_entries]
  rfl

/-! ## One pixel of eight -/

/-- The frame of `eightPixels`. -/
def onePixel (p : Nat) : Pixel .u16 := if p = 0 then 1#16 else 0#16

theorem eightPixels_encodes (C : Codecs) : Encodes C .lz4Zero 8 16 onePixel eightPixels := by
  have hsplit : eightPixels = eightPixels.take 12 ++ [eightPixels.drop 16].flatMap sized ++
      pixelBytes onePixel (8 - rawElems .u16 8 16) (rawElems .u16 8 16) := by decide
  rw [hsplit]
  refine .chunk _ [eightPixels.drop 16] rfl (by decide) (by decide) (by decide) ?_
  intro b src hsrc
  cases b with
  | zero =>
    obtain rfl := Option.some.inj hsrc
    have hplain : plainDecode 16 (eightPixels.drop 16) = some (bitshuffle onePixel 0 8) := by
      decide +kernel
    exact hplain
  | succ b => cases hsrc

theorem eightPixelsCall_batch (untranspose : Untranspose) :
    BatchOf Platform.plain.codecs (eightPixelsCall untranspose) 16 fun _ => onePixel where
  nframes := Nat.one_pos
  whole := Nat.dvd_refl 16
  chunks := fun _ _ _ => eightPixels_encodes _
  uncompressed := fun h => by cases h

theorem eightPixelsCall_admissible (untranspose : Untranspose) :
    Admissible (eightPixelsCall untranspose) 16 where
  cut := rfl
  validCut := rfl
  top := fun _ h => by cases h
  small := by decide
  layout := fun _ h => by cases h
  workspace := le_rfl

theorem sparsify_exact_eightPixels :
    ∃ r, run .plain (eightPixelsCall .lowplanesC) (.filled 1#8 ()) = .ok r ∧
      ∀ f, f < 1 → r.npx f = ((eightPixelsCall .lowplanesC).sparse onePixel).length ∧
        (r.out 8 f).entries = (eightPixelsCall .lowplanesC).sparse onePixel :=
  sparsify_exact .plain Kernels.scalarOnly_inverse (fun _ _ h => h) (eightPixelsCall .lowplanesC) 16
    (fun _ => onePixel) (eightPixelsCall_batch _) (eightPixelsCall_admissible _) rfl
    (fun h => by cases h) (guarded_of_value (by decide) _ _) _

end Bslz4ToSparse.Pipeline
