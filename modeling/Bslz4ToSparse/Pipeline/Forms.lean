import Bslz4ToSparse.Pipeline.Powder
import Bslz4ToSparse.TopPixels.Multi

/-!
# Two forms of a batch

The same frames come compressed, in blocks of any size, or as they are, and go through any pipeline and
any layout of the weights. Lists, thresholds, counts and powders do not show which.
-/

namespace Bslz4ToSparse.Pipeline

open Dot Foundation Matrix Steps TopPixels
open Lz4 (Byte plainDecode)

variable {t : Dtype} {nij : Nat} {D D' : Type}

/-! ## The lists -/

/-- The same request for a selection: only the data and the steps differ. -/
structure SameRequest (q : Call t nij D) (q' : Call t nij D') : Prop where
  mask : q.mask = q'.mask
  cut : q.cut = q'.cut
  top : q.top = q'.top
  fits : q.MaskFits
  fits' : q'.MaskFits

namespace SameRequest

variable {q : Call t nij D} {q' : Call t nij D'}

theorem emask (h : SameRequest q q') {p : Nat} (hp : p < nij) : maskOk q.emask p = maskOk q'.emask p := by
  have hvalid : ∀ {D : Type} (q : Call t nij D), q.MaskFits →
      maskOk q.emask p = (q.mask p != 0#8) := by
    intro D q hfits
    unfold Call.emask
    split
    · next hnone => simpa [maskOk] using hfits hnone p hp
    · rfl
  rw [hvalid q h.fits, hvalid q' h.fits', h.mask]

theorem cutAt (h : SameRequest q q') (level : Nat) : q.cutAt level = q'.cutAt level := by
  have hcut : q.cutPixel = q'.cutPixel := by
    unfold Call.cutPixel
    rw [h.cut]
  cases level with
  | zero => exact congrArg some hcut
  | succ level =>
    unfold Call.cutAt
    rw [h.top]

theorem candidates (h : SameRequest q q') (px : Nat → Pixel t) :
    q.candidates px 0 nij = q'.candidates px 0 nij := by
  rw [candidates_eq, candidates_eq]
  congr 1
  apply List.filter_congr
  intro p hp
  exact h.emask (by rw [Nat.add_zero]; exact List.mem_range.mp hp)

theorem settled (h : SameRequest q q') (px : Nat → Pixel t) : q.settled px nij = q'.settled px nij := by
  have htest : q.test = q'.test := by
    funext level e
    unfold Call.test
    rw [h.cutAt]
  have hfull : q.full = q'.full := by
    funext level n
    unfold Call.full
    rw [h.top]
  have hlevels : q.levels = q'.levels := by
    unfold Call.levels
    rw [h.top]
  unfold Call.settled
  rw [h.candidates px, htest, hfull, hlevels]

theorem kept (h : SameRequest q q') (l : List (Nat × Pixel t)) : q.kept l = q'.kept l := by
  unfold Call.kept
  rw [h.top]

theorem counted (h : SameRequest q q') (l : List (Nat × Pixel t)) : q.counted l = q'.counted l := by
  unfold Call.counted
  rw [h.top]

end SameRequest

/-! ## The batch -/

/-- `from_frames` and `multi`, or any two forms of a batch, with integer weights: every frame has the same
list, the same threshold and count, and the same powder. -/
theorem forms_agree (E : Platform) (hK : E.kernels.Inverse)
    (hlz4 : ∀ src planes, plainDecode planes.length src = some planes →
      E.codecs.lz4DecompressSafe src planes.length = some planes)
    (ht : t.isFloat = false) {w : Nat} (fx : FixedPointMatrix ℚ w)
    (q q' : Call t fx.nm.npix (BitVec 64)) (blocksize blocksize' : Nat) (frames : Nat → Nat → Pixel t)
    (h : BatchOf E.codecs q blocksize frames) (h' : BatchOf E.codecs q' blocksize' frames)
    (hcount : q.chunks.nframes = q'.chunks.nframes) (hprepared : Prepared q blocksize)
    (hprepared' : Prepared q' blocksize') (hmask : q.mask = q'.mask) (hfits : q.MaskFits)
    (hfits' : q'.MaskFits) {route route' : Route} {dot dot' : DotStep t fx.nm.npix (BitVec 64)}
    (hdot : q.dot = some (route, dot)) (hdot' : q'.dot = some (route', dot')) (hfx : IntegerDot fx dot)
    (hfx' : IntegerDot fx dot') (hmasked : ∀ p, p < fx.nm.npix → q.mask p = 0#8 → fx.weights.column p = [])
    {howmany : Option Number} {thresholds : Option (List Number)} {limit : Option Nat}
    {thr : Option (List Double)} (hcheck : check howmany thresholds = .ok (limit, thr))
    {cut : List Number} {c : ℤ} (hcut : cutArray t cut = .ok c)
    (hrequest : limit = none ∨ c < 2 ^ 63 ∨ requestThresholds thr c = [] ∨
      ∃ x ∈ requestThresholds thr c, x.tooLarge)
    (hguard : ∀ top, Guarded (q.select [BitVec.ofInt t.bits c] top) blocksize frames)
    (hguard' : ∀ top, Guarded (q'.select [BitVec.ofInt t.bits c] top) blocksize' frames)
    (s s' : RunState t (BitVec 64)) :
    ∃ r selected r' selected', multi E q limit thr cut s = .ok (r, selected) ∧
      multi E q' limit thr cut s' = .ok (r', selected') ∧
      ∀ f, f < q.chunks.nframes → selected f = selected' f ∧ r.powder f = r'.powder f := by
  obtain ⟨h0, hc⟩ := cutArray_bounds hcut
  obtain ⟨req, hmade⟩ := (make_isOk limit q.chunks.nframes ht h0 hc (check_length hcheck c)).mpr hrequest
  have hmade' : Request.make limit thr c t q'.chunks.nframes = .ok req := by rw [← hcount]; exact hmade
  set top : Option Top := if req.native then some req.cTop else none with htop
  obtain ⟨r, selected, hr, hmulti, hselected⟩ :=
    multi_settles hK hlz4 ht h hprepared hcheck hcut hmade htop (hguard top) s
  obtain ⟨r', selected', hr', hmulti', hselected'⟩ :=
    multi_settles hK hlz4 ht h' hprepared' hcheck hcut hmade' htop (hguard' top) s'
  have hsame : SameRequest (q.select [BitVec.ofInt t.bits c] top) (q'.select [BitVec.ofInt t.bits c] top) :=
    ⟨hmask, rfl, rfl, hfits, hfits'⟩
  -- both powders are the product
  have hpowder := integer_powder E hK hlz4 ht fx (q.select [BitVec.ofInt t.bits c] top) blocksize frames
    ⟨h.nframes, h.whole, h.chunks, h.uncompressed⟩ (admissible_select hprepared hcut hmade htop ht).2
    hdot hfx hmasked (hguard top) s
  have hpowder' := integer_powder E hK hlz4 ht fx (q'.select [BitVec.ofInt t.bits c] top) blocksize' frames
    ⟨h'.nframes, h'.whole, h'.chunks, h'.uncompressed⟩ (admissible_select hprepared' hcut hmade' htop ht).2
    hdot' hfx' (by rw [hmask] at hmasked; exact hmasked) (hguard' top) s'
  obtain ⟨r₁, hr₁, hpowder⟩ := hpowder
  obtain ⟨r₂, hr₂, hpowder'⟩ := hpowder'
  obtain rfl := Except.ok.inj (hr.symm.trans hr₁)
  obtain rfl := Except.ok.inj (hr'.symm.trans hr₂)
  refine ⟨r, selected, r', selected', hmulti, hmulti', fun f hf => ⟨?_, funext fun b => ?_⟩⟩
  · rw [hselected f hf, hselected' f (hcount ▸ hf), hsame.settled, hsame.kept, hsame.counted]
  · rw [hpowder f hf b, hpowder' f (hcount ▸ hf) b]

theorem minusOneTwo_prepared (pixels : Bool) (route : Route) {dot : DotStep .i16 2 D}
    (hdot : ∀ be, badLayout be dot = false) :
    Prepared (minusOneTwoCall pixels route dot) (if pixels then defaultBlockBytes else 16) where
  small := (minusOneTwo_admissible pixels route hdot).small
  layout := (minusOneTwo_admissible pixels route hdot).layout
  workspace := (minusOneTwo_admissible pixels route hdot).workspace

/-- One limit of one pixel on two forms of a frame. -/
theorem forms_agree_minusOneTwo :
    ∃ r selected r' selected',
      multi .plain (minusOneTwoCall false .ratioRule (cscIntStep (cscLayout secondOnlyFixed.weights)))
        (some 1) none [.int 0] (.filled 1#8 7#64) = .ok (r, selected) ∧
      multi .plain (minusOneTwoCall true .dense (runIntStep (runLayout secondOnlyFixed.weights [0, 1])))
        (some 1) none [.int 0] (.filled 2#8 3#64) = .ok (r', selected') ∧
      ∀ f, f < 1 → selected f = selected' f ∧ r.powder f = r'.powder f :=
  forms_agree .plain Kernels.scalarOnly_inverse (fun _ _ h => h) rfl secondOnlyFixed
    (minusOneTwoCall false .ratioRule (cscIntStep (cscLayout secondOnlyFixed.weights)))
    (minusOneTwoCall true .dense (runIntStep (runLayout secondOnlyFixed.weights [0, 1])))
    16 defaultBlockBytes (fun _ => falling) (minusOneTwo_batch false _ _) (minusOneTwo_batch true _ _) rfl
    (minusOneTwo_prepared false _ fun _ => rfl) (minusOneTwo_prepared true _ fun _ => rfl) rfl
    (fun h => by cases h) (fun h => by cases h) rfl rfl .csc (.run _ secondOnly_starts)
    secondOnlyFixed_masked (show check (some (.int 1)) none = .ok (some 1, none) from rfl) rfl
    (Or.inr (Or.inl (by decide))) (fun _ => guarded_of_value Untranspose.noConfusion _ _)
    (fun _ => guarded_of_value Untranspose.noConfusion _ _) _ _

end Bslz4ToSparse.Pipeline
