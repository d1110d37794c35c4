import Bslz4ToSparse.Pipeline.Frame

/-!
# What a block gives

A full block is decoded, masked, untransposed and collected in a workspace that all blocks of all
frames share. Whatever the workspace held before, its pixels are those of the planes that the codec
gives, and what it adds to the list and to the powder follows from these pixels.
-/

namespace Bslz4ToSparse.Pipeline

open Dot Foundation Steps
open Lz4 (Byte)

variable {t : Dtype} {nij : Nat} {D : Type}

/-! ## The geometry -/

/-- Blocks of whole groups of 8 pixels. -/
structure Aligned (t : Dtype) (g : Geometry) : Prop where
  pos : 0 < g.blocksize
  whole : 8 * t.size ∣ g.blocksize

namespace Aligned

variable {g : Geometry}

theorem elems_dvd (h : Aligned t g) : 8 ∣ g.blockElems t := by
  obtain ⟨c, hc⟩ := h.whole
  refine ⟨c, ?_⟩
  rw [Geometry.blockElems, hc, show 8 * t.size * c = t.size * (8 * c) by ring,
    Nat.mul_div_cancel_left _ t.size_pos]

theorem size_eq (h : Aligned t g) : g.blocksize = g.blockElems t * t.size :=
  (Nat.div_mul_cancel ((Nat.dvd_mul_left t.size 8).trans h.whole)).symm

theorem elems_pos (h : Aligned t g) : 0 < g.blockElems t := by
  have hsize := h.size_eq
  have hpos := h.pos
  rcases Nat.eq_zero_or_pos (g.blockElems t) with hzero | hlt
  · rw [hzero, Nat.zero_mul] at hsize
    omega
  · exact hlt

/-- A full block stays inside the frame. -/
theorem block_le (h : Aligned t g) (htotal : g.total = nij * t.size) {b : Nat}
    (hb : b < g.total / g.blocksize) : b * g.blockElems t + g.blockElems t ≤ nij := by
  have hmul : (b + 1) * g.blocksize ≤ g.total :=
    (Nat.mul_le_mul_right _ hb).trans (Nat.div_mul_le_self _ _)
  rw [h.size_eq, htotal, ← Nat.mul_assoc] at hmul
  have hle := Nat.le_of_mul_le_mul_right hmul t.size_pos
  rwa [Nat.succ_mul] at hle

end Aligned

/-! ## The untranspose step -/

/-- The pixels of a full block do not depend on what the workspace held. -/
theorem untransposeFull_spec {E : Platform} (hK : E.kernels.Inverse) (p : Pipe t) {L : Memory}
    {blocksize ne nzEnd : Nat} {ws : Workspace t} (h8 : 8 ∣ ne) (hsize : blocksize = ne * t.size)
    (hst : Stores L blocksize nzEnd ws.mem) :
    ∃ ws', untransposeFull E p blocksize ne nzEnd ws = .ok ws' ∧
      ∀ e, e < ne → pixelAt t ws'.block e = planePixel t L ne e := by
  -- a backend on planes that are filled
  have hbackend : ∀ raw scratch : Memory, (∀ i, i < ne * t.size → raw i = L i) →
      ∃ out scratch', untransposeBackend E.kernels p.untranspose raw scratch ne t.size =
          some (out, scratch') ∧
        ∀ e, e < ne → pixelAt t (copyTo ws.block 0 (ne * t.size) out) e = planePixel t L ne e := by
    intro raw scratch hraw
    obtain ⟨out, scratch', hr, hout⟩ :=
      (untransposeBackend_spec hK p.untranspose raw scratch ne t.size).1 h8
    refine ⟨out, scratch', hr, fun e he => ?_⟩
    rw [← (hout.congr h8 hraw).pixel he]
    apply pixelAt_congr
    intro k hk
    have hlt : e * t.size + k < ne * t.size := by
      have hmul := Nat.mul_le_mul_right t.size (show e + 1 ≤ ne from he)
      rw [Nat.succ_mul] at hmul
      omega
    rw [copyTo, if_pos ⟨Nat.zero_le _, by omega⟩, Nat.sub_zero]
  unfold untransposeFull
  dsimp only
  split
  · next hlow =>
    have ht : t.size = 2 := by rw [p.lowplanes_u16 hlow]; rfl
    rw [hsize, ht, Nat.mul_comm] at hst
    have hblock := lowplanesBlock_outcome (t := t) hK ht p.untranspose h8 hst ws.block
      (offset ws.mem blocksize)
    generalize hr : lowplanesBlock E.kernels p.untranspose ws.block ws.mem (offset ws.mem blocksize)
      ne nzEnd = r at hblock ⊢
    obtain ⟨found, raw, scratch⟩ := r
    cases found with
    | some block => exact ⟨_, rfl, fun e he => Unshuffled.pixel hblock he⟩
    | none =>
      obtain ⟨out, scratch', hout, hpx⟩ := hbackend raw scratch fun i hi => by
        rw [ht, Nat.mul_comm] at hi
        rw [hblock i hi]
        exact hst.fill le_rfl hi
      dsimp only
      rw [hout]
      exact ⟨_, rfl, hpx⟩
  · set raw := (if nzEnd < ne * t.size then zeroFill ws.mem nzEnd (ne * t.size - nzEnd) else ws.mem)
      with hraw
    obtain ⟨out, scratch', hout, hpx⟩ := hbackend raw (offset ws.mem blocksize) fun i hi => by
      rw [hsize] at hst
      rw [hraw]
      split
      · exact hst.fill le_rfl hi
      · next hge => exact hst.stored i (by omega) hi
    rw [hout]
    exact ⟨_, rfl, hpx⟩

/-! ## The decode and the mask step -/

section

variable {E : Platform} {q : Call t nij D} {g : Geometry} {b f nzEnd : Nat}

/-- What the workspace holds of a block: the planes of the pixels `px`, or nothing where the pixels
lie in the frame. -/
inductive Holds (q : Call t nij D) (g : Geometry) (f i0 nzEnd : Nat) (mem : Memory)
    (px : Nat → Pixel t) : Prop
  | frame (hq : q.pixels = true) (h : ∀ e, e < g.blockElems t → framePixels q f i0 e = px e)
  | planes (hq : q.pixels = false) (L : Memory) (hst : Stores L g.blocksize nzEnd mem)
      (h : ∀ e, e < g.blockElems t → planePixel t L (g.blockElems t) e = px e)

/-- A block decoded: the cursor behind it, and its planes in the workspace. -/
structure Decoded (q : Call t nij D) (g : Geometry) (b f : Nat) (s : RunState t D)
    (r : RunState t D × Nat × Nat) (x : Nat × Nat × (Nat → Pixel t)) : Prop where
  state : ∃ mem, r.1 = { s with
    cursors := Function.update s.cursors f x.1
    work := { s.work with mem } }
  nbytes : r.2.1 = x.2.1
  holds : Holds q g f (b * g.blockElems t) r.2.2 r.1.work.mem x.2.2

theorem decodeStep_spec (hsize : q.pixels = false → g.blocksize ≤ 2 ^ 31 - 1) (s : RunState t D) :
    Agree (Decoded q g b f s) (decodeStep E q g f s)
      (openBlock E q g (q.chunks.bytes f) b (s.cursors f)) := by
  unfold decodeStep openBlock
  cases hq : q.pixels with
  | true =>
    refine ⟨⟨s.work.mem, ?_⟩, rfl, .frame hq fun e _ => rfl⟩
    rw [Function.update_eq_self]
  | false =>
    simp only [Bool.false_eq_true, if_false]
    apply Agree.bind_same
    intro nbytes
    have hspec := decodeBlock_spec E.codecs E.sse2 q.pipe.decode
      (blockBytes (q.chunks.bytes f) (s.cursors f) nbytes) s.work.mem (hsize hq)
    cases hp : planesOf E.codecs q.pipe.decode
      (blockBytes (q.chunks.bytes f) (s.cursors f) nbytes) g.blocksize with
    | none =>
      rw [hp] at hspec
      rw [hspec]
      rfl
    | some planes =>
      rw [hp] at hspec
      obtain ⟨mem, nzEnd, hr, -, hst⟩ := hspec
      rw [hr]
      exact ⟨⟨mem, rfl⟩, rfl, .planes hq _ hst fun e _ => rfl⟩

/-- The masked planes are those of the pixels that the mask step shows. -/
theorem maskStep_spec (hg : Aligned t g) {px : Nat → Pixel t} {s : RunState t D}
    (h : Holds q g f (b * g.blockElems t) nzEnd s.work.mem px) :
    ∃ mem, maskStep E q g b nzEnd s = { s with work := { s.work with mem } } ∧
      Holds q g f (b * g.blockElems t) nzEnd mem (q.shown g b px) := by
  by_cases hplanes : q.maskplanes g = true
  · have hparts := hplanes
    unfold Call.maskplanes at hparts
    simp only [Bool.and_eq_true, beq_iff_eq] at hparts
    obtain ⟨⟨⟨hchunks, -⟩, -⟩, hmod⟩ := hparts
    have h64 := Nat.dvd_of_mod_eq_zero hmod
    cases h with
    | frame hq =>
      rw [hq] at hchunks
      cases hchunks
    | planes hq L hst hpx =>
      have hunmasked := packMask_unmasked_iff E.avx512 (offset q.mask (b * g.blockElems t)) h64
      unfold maskStep
      by_cases hall : (q.maskbits E g b).2 = true
      · -- nothing of the block is masked
        rw [hplanes, hall, if_neg (by decide)]
        refine ⟨s.work.mem, rfl, .planes hq L hst fun e he => ?_⟩
        have hm : q.mask (b * g.blockElems t + e) ≠ 0#8 := hunmasked.mp hall e he
        unfold Call.shown
        rw [hpx e he, if_neg]
        simp [hm]
      · rw [hplanes, Bool.eq_false_iff.mpr hall, if_pos (by decide)]
        have h8 := hg.elems_dvd
        have hpos := hg.elems_pos
        refine ⟨_, rfl, .planes hq _ (stores_maskPlanes hst E.avx512 E.avx512
          (offset q.mask (b * g.blockElems t)) (Nat.le_of_dvd hpos h8)) fun e he => ?_⟩
        rw [planePixel_maskedPlanes _ _ h8 he, hpx e he]
        unfold Call.shown offset
        rw [hplanes, Bool.true_and]
        cases hm : q.mask (b * g.blockElems t + e) == 0#8 with
        | true => simp [bne, hm]
        | false => simp [bne, hm]
  · refine ⟨s.work.mem, ?_, ?_⟩
    · unfold maskStep
      rw [Bool.eq_false_iff.mpr hplanes, Bool.false_and, if_neg (by decide)]
    · have hshown : q.shown g b px = px := by
        funext e
        unfold Call.shown
        rw [Bool.eq_false_iff.mpr hplanes, Bool.false_and, if_neg (by decide)]
      rwa [hshown]

/-! ## The list and the powder of a block -/

/-- The pixels of a block at hand. -/
theorem blockPixels_spec (hK : E.kernels.Inverse) (hg : Aligned t g) {i0 : Nat} {ws : Workspace t}
    {px : Nat → Pixel t} (h : Holds q g f i0 nzEnd ws.mem px) :
    ∃ ws' px', blockPixels E q g f i0 nzEnd ws = .ok (ws', px') ∧
      ∀ e, e < g.blockElems t → px' e = px e := by
  unfold blockPixels
  cases h with
  | frame hq hpx =>
    rw [hq, if_pos rfl]
    exact ⟨ws, _, rfl, hpx⟩
  | planes hq L hst hpx =>
    obtain ⟨ws', hr, hout⟩ := untransposeFull_spec hK q.pipe hg.elems_dvd hg.size_eq hst
    rw [hq, if_neg (by decide), hr]
    exact ⟨ws', _, rfl, fun e he => (hout e he).trans (hpx e he)⟩

theorem passing_congr {gt gt' : Pixel t → Bool} {w : Work t} {px px' : Nat → Pixel t}
    (hpx : ∀ e, e < w.n → px e = px' e) (hgt : ∀ e, e < w.n → gt (px e) = gt' (px e)) :
    passing gt w px = passing gt' w px' := by
  refine collected_congr _ _ _ fun e _ he => ?_
  have hlt : e < w.n := by omega
  exact ⟨by rw [selects, selects, ← hpx e hlt, hgt e hlt], hpx e hlt⟩

theorem length_passing_le (gt : Pixel t → Bool) (w : Work t) (px : Nat → Pixel t) :
    (passing gt w px).length ≤ w.n := by
  unfold passing collected
  rw [List.length_map]
  exact (List.length_filter_le _ _).trans (by rw [List.length_range'])

/-- What the collect of the low planes gives: the block is listed exactly where the pixels are
below 256 and the value takes it. -/
theorem fusedList_spec (hK : E.kernels.Inverse) (hg : Aligned t g) {w : Work t}
    (hw : w.n = g.blockElems t) {i0 : Nat} (lowCut nbytes : Nat) (sparse : Bool) {ws : Workspace t}
    (o : Sink (Pixel t)) {px : Nat → Pixel t} (h : Holds q g f i0 nzEnd ws.mem px) :
    (q.fuses (g.blockElems t) sparse px = true →
      ∃ ws' o', fusedList E q g w lowCut nbytes nzEnd sparse ws o = .ok (ws', some o') ∧
        (q.overreads (g.blockElems t) lowCut true = false →
          Emits o o' (passing (aboveCut lowCut) w px) (g.blockElems t))) ∧
    (q.fuses (g.blockElems t) sparse px = false →
      ∃ ws', fusedList E q g w lowCut nbytes nzEnd sparse ws o = .ok (ws', none) ∧
        Holds q g f i0 nzEnd ws'.mem px) := by
  -- a block that is not handed to the collect
  have hdecline : (q.pipe.untranspose.lowplanes && sparse && !q.pixels) = false →
      q.fuses (g.blockElems t) sparse px = false ∧
        fusedList E q g w lowCut nbytes nzEnd sparse ws o = .ok (ws, none) := by
    intro hno
    constructor
    · rw [Bool.eq_false_iff]
      intro hfuses
      unfold Call.fuses at hfuses
      simp only [Bool.and_eq_true] at hfuses
      obtain ⟨⟨⟨hchunks, hsparse⟩, htakes⟩, -⟩ := hfuses
      rw [hchunks, hsparse, takesBlock_lowplanes htakes] at hno
      cases hno
    · unfold fusedList
      rw [hno, if_neg (by decide)]
      rfl
  by_cases hgoes : (q.pipe.untranspose.lowplanes && sparse && !q.pixels) = true
  · obtain ⟨hboth, hchunks⟩ := (Bool.and_eq_true _ _).mp hgoes
    obtain ⟨hlow, hsparse⟩ := (Bool.and_eq_true _ _).mp hboth
    have ht16 := q.pipe.lowplanes_u16 hlow
    have ht : t.size = 2 := by rw [ht16]; rfl
    cases h with
    | frame hq =>
      rw [hq] at hchunks
      cases hchunks
    | planes hq L hst hpx =>
      have h8 := hg.elems_dvd
      have hsize : g.blocksize = 2 * g.blockElems t := by
        have heq := hg.size_eq
        rw [ht] at heq
        omega
      rw [hsize] at hst
      have hspec : ListSpec q.pipe.untranspose L _ w.mask _ _ w.i0 lowCut o _ :=
        lowplanesList_spec hK ht q.pipe.untranspose h8 hg.elems_pos hst
          (offset ws.mem g.blocksize) nbytes g.blocksize o
      have hfuses : q.fuses (g.blockElems t) sparse px = true ↔
          takesBlock q.pipe.untranspose (g.blockElems t) = true ∧
            ∀ i, g.blockElems t ≤ i → i < 2 * g.blockElems t → L i = 0#8 := by
        rw [highPlanes_zero_iff ht h8]
        unfold Call.fuses
        rw [hchunks, hsparse, Bool.true_and, Bool.true_and, Bool.and_eq_true]
        refine and_congr_right fun _ => ?_
        rw [List.all_eq_true]
        constructor
        · intro hall e he
          rw [hpx e he]
          exact of_decide_eq_true (hall e (List.mem_range.mpr he))
        · intro hall e he
          rw [← hpx e (List.mem_range.mp he)]
          exact decide_eq_true (hall e (List.mem_range.mp he))
      unfold fusedList
      rw [hgoes, if_pos rfl, hw]
      constructor
      · intro hyes
        obtain ⟨htakes, hhigh⟩ := hfuses.mp hyes
        obtain ⟨raw', scratch', o', hr, hemits⟩ := hspec.taken htakes hhigh
        rw [hr]
        refine ⟨_, o', rfl, fun hno => ?_⟩
        have hlisted : Steps.listed w.mask L (g.blockElems t) w.i0 lowCut =
            passing (aboveCut lowCut) w px := by
          unfold Steps.listed passing
          rw [hw]
          refine collected_congr _ _ _ fun e _ he => ?_
          rw [Nat.zero_add] at he
          exact ⟨by rw [selects, selects, hpx e he], hpx e he⟩
        rw [← hlisted]
        -- without an over-read the groups of 64 end with the block
        have hclean : q.pipe.untranspose = .lowplanesVsx ∧ lowCut < 255 → 64 ∣ g.blockElems t := by
          intro hvsx
          unfold Call.overreads at hno
          simp only [hvsx.1, hvsx.2, beq_self_eq_true, Bool.true_and, decide_true, Bool.and_true,
            bne_eq_false_iff_eq] at hno
          exact Nat.dvd_of_mod_eq_zero hno
        unfold listExtra listRoom at hemits
        split at hemits
        · next hvsx =>
          have h64 := hclean hvsx
          rw [vsxExtra_eq_nil h64, List.append_nil] at hemits
          refine hemits.mono ?_
          unfold vsxLanes
          omega
        · rwa [List.append_nil] at hemits
      · intro hno
        have hkept := hspec.kept fun hyes => by
          rw [hfuses.mpr hyes] at hno
          cases hno
        obtain ⟨raw', scratch', hr, hst', -⟩ := hkept
        rw [hr]
        refine ⟨_, rfl, .planes hq L ⟨fun i hi hlt => ?_, fun i hi hlt => ?_⟩ hpx⟩
        · change joinMem g.blocksize raw' scratch' i = L i
          rw [joinMem, if_pos hlt]
          exact hst'.stored i hi (by omega)
        · exact hst.zeros i hi (by omega)
  · obtain ⟨hno, hr⟩ := hdecline (Bool.eq_false_iff.mpr hgoes)
    constructor
    · intro hyes
      rw [hno] at hyes
      cases hyes
    · intro _
      exact ⟨ws, hr, h⟩

/-- The collect of a pixel block. -/
theorem sparseBlock_emits (collect : Collect) (w : Work t) (px : Nat → Pixel t)
    (o : Sink (Pixel t)) :
    Emits o (sparseBlock collect w px o) (passing (above w.cut) w px) w.n := by
  unfold sparseBlock
  cases hcut : w.cut with
  | none =>
    have hnil : passing (above (none : Option (Pixel t))) w px = [] := by
      unfold passing collected
      rw [List.map_eq_nil_iff, List.filter_eq_nil_iff]
      intro e _
      simp [selects, above]
    rw [hnil]
    exact Emits.refl o w.n
  | some cut => exact collectGt_emits t collect w.mask px w.i0 w.n cut o

/-- A block without a dot. -/
theorem plainBlock_spec (hK : E.kernels.Inverse) (hg : Aligned t g) {w : Work t}
    (hw : w.n = g.blockElems t) (lowCut nbytes : Nat) {ws : Workspace t} (o : Sink (Pixel t))
    {px : Nat → Pixel t} (h : Holds q g f w.i0 nzEnd ws.mem px) :
    ∃ ws' o', plainBlock E q g f w lowCut nbytes nzEnd ws o = .ok (ws', o') ∧
      (q.overreads (g.blockElems t) lowCut (q.fuses (g.blockElems t) true px) = false →
        Emits o o' (passing (if q.fuses (g.blockElems t) true px then aboveCut lowCut
          else above w.cut) w px) (g.blockElems t)) := by
  obtain ⟨hyes, hno⟩ := fusedList_spec hK hg hw lowCut nbytes true o h
  unfold plainBlock
  cases hfuses : q.fuses (g.blockElems t) true px with
  | true =>
    obtain ⟨ws', o', hr, hemits⟩ := hyes hfuses
    rw [hr]
    exact ⟨ws', o', rfl, hemits⟩
  | false =>
    obtain ⟨ws', hr, hholds⟩ := hno hfuses
    obtain ⟨ws'', px', hpixels, hpx⟩ := blockPixels_spec hK hg hholds
    rw [hr]
    refine ⟨ws'', sparseBlock q.pipe.collect w px' o, ?_, fun _ => ?_⟩
    · change (blockPixels E q g f w.i0 nzEnd ws' >>= _) = _
      rw [hpixels]
      rfl
    · rw [← hw] at hpx ⊢
      have hsame : passing (above w.cut) w px' = passing (above w.cut) w px :=
        passing_congr hpx fun _ _ => rfl
      have hemits := sparseBlock_emits q.pipe.collect w px' o
      rw [hsame] at hemits
      exact hemits

/-! ## Compacted lists -/

/-- The list of the non-zero pixels, by their indices. -/
theorem passing_eq_listed (gt : Pixel t → Bool) (w : Work t) (px : Nat → Pixel t) :
    passing gt w px =
      (Dot.listed gt (maskOk w.mask) (fun p => px (p - w.i0)) w.i0 w.n).map fun p =>
        (p, px (p - w.i0)) := by
  unfold passing collected Dot.listed
  rw [List.range'_eq_map_range (s := w.i0), ← List.range_eq_range', List.filter_map, List.map_map]
  have hfilter : (List.range w.n).filter (selects gt w.mask px w.i0) =
      (List.range w.n).filter ((fun p => maskOk w.mask p && gt (px (p - w.i0))) ∘ (w.i0 + ·)) := by
    apply List.filter_congr
    intro e _
    rw [selects, Function.comp, Nat.add_sub_cancel_left, Nat.add_comm]
  rw [hfilter]
  refine List.map_congr_left fun e _ => ?_
  rw [Function.comp, Nat.add_sub_cancel_left, Nat.add_comm]

/-- The sparse routes read a list by its entries. -/
theorem sparse_of_entries {K : DotKernel (Pixel t) D} {fits : Nat → Nat → Prop} (hK : Reads K fits)
    {w : Work t} {px : Nat → Pixel t} {l : PixelList (Pixel t)}
    (h : listEntries l = passing Pixel.nonzero w px) (powder : Nat → D) :
    K.sparse w.i0 w.n l powder = dotPowder K w true px powder := by
  rw [passing_eq_listed] at h
  unfold dotPowder blockDot
  rw [if_pos rfl]
  set ps := Dot.listed Pixel.nonzero (maskOk w.mask) (fun p => px (p - w.i0)) w.i0 w.n with hps
  have hlen : l.nz = ps.length := by
    have hlens := congrArg List.length h
    unfold listEntries at hlens
    rwa [List.length_map, List.length_range, List.length_map] at hlens
  refine congrFun (hK.sparse w.i0 w.n l (.of (fun p => px (p - w.i0)) ps) hlen fun kk hkk => ?_) powder
  have hget := congrArg (fun xs => xs[kk]?) h
  unfold listEntries at hget
  rw [List.getElem?_map, List.getElem?_range hkk, List.getElem?_map,
    List.getElem?_eq_getElem (by omega)] at hget
  obtain ⟨htidx, htval⟩ := Prod.mk.inj (Option.some.inj hget)
  have hgetD : ps.getD kk 0 = ps[kk] := List.getD_eq_getElem _ _ (by omega)
  unfold PixelList.of
  dsimp only
  rw [hgetD]
  exact ⟨htidx, htval⟩

/-- What a compacted list gives. -/
theorem compacted_spec {K : DotKernel (Pixel t) D} {fits : Nat → Nat → Prop} (hK : Reads K fits)
    {w : Work t} {px : Nat → Pixel t} {l : PixelList (Pixel t)}
    (h : listEntries l = passing Pixel.nonzero w px) (o : Sink (Pixel t)) (powder : Nat → D) :
    Emits o (copyAbove w.cut l o) (dotList w true px) w.n ∧
      K.sparse w.i0 w.n l powder = dotPowder K w true px powder := by
  refine ⟨?_, sparse_of_entries hK h powder⟩
  have hemits := copyAbove_emits w.cut l o
  have hnz : l.nz = (passing Pixel.nonzero w px).length := by
    rw [← h, listEntries, List.length_map, List.length_range]
  rw [h] at hemits
  unfold dotList
  rw [if_pos rfl]
  exact hemits.mono (by rw [hnz]; exact length_passing_le _ _ _)

theorem listEntries_of_emits {o' : Sink (Pixel t)} {vals : Nat → Pixel t} {adr : Nat → Nat}
    {es : List (Nat × Pixel t)} {room : Nat} (h : Emits ⟨vals, adr, 0⟩ o' es room) :
    listEntries ⟨o'.adr, o'.vals, o'.npx⟩ = es := h.entries

/-- A pixel block with a dot. -/
theorem sparseDotBlock_spec {K : DotKernel (Pixel t) D} {fits : Nat → Nat → Prop} (hK : Reads K fits)
    (collect : Collect) (sparse : Bool) {w : Work t} (hfit : fits w.i0 w.n) {px px' : Nat → Pixel t}
    (hpx : ∀ e, e < w.n → px' e = px e) (ws : Workspace t) (o : Sink (Pixel t)) (powder : Nat → D) :
    Emits o (sparseDotBlock K collect sparse w px' ws o powder).2.1 (dotList w sparse px) w.n ∧
      (sparseDotBlock K collect sparse w px' ws o powder).2.2 = dotPowder K w sparse px powder := by
  unfold sparseDotBlock
  cases sparse with
  | true =>
    have hnz := collectNz_emits t collect w.mask px' w.i0 w.n ⟨ws.tval, ws.tidx, 0⟩
    have hsame : passing Pixel.nonzero w px' = passing Pixel.nonzero w px :=
      passing_congr hpx fun _ _ => rfl
    exact compacted_spec hK ((listEntries_of_emits hnz).trans hsame) o powder
  | false =>
    have hsame : passing (above w.cut) w px' = passing (above w.cut) w px :=
      passing_congr hpx fun _ _ => rfl
    have hemits := sparseBlock_emits collect w px' o
    rw [hsame] at hemits
    refine ⟨hemits, ?_⟩
    unfold dotPowder blockDot
    refine congrFun (hK.dense px' _ w.i0 w.n hfit fun j hj => ?_) powder
    rw [hpx j hj]
    dsimp only
    rw [Nat.add_sub_cancel_left]

/-- The bytes above 0 are the non-zero pixels. -/
theorem passing_aboveCut_zero {w : Work t} {px : Nat → Pixel t} (ht : t = .u16) :
    passing (aboveCut 0) w px = passing Pixel.nonzero w px := by
  subst ht
  apply passing_congr (fun _ _ => rfl)
  intro e _
  unfold aboveCut Pixel.nonzero
  by_cases hv : px e = 0#_
  · rw [hv]
    rfl
  · have hpos : 0 < (px e).toNat := Nat.pos_of_ne_zero fun h => hv (BitVec.eq_of_toNat_eq (by simpa using h))
    rw [decide_eq_true hpos]
    exact (bne_iff_ne.mpr hv).symm

/-- A block with a dot. -/
theorem dotBlock_spec (hK : E.kernels.Inverse) (hg : Aligned t g) {K : DotKernel (Pixel t) D}
    {fits : Nat → Nat → Prop} (hreads : Reads K fits) (sparse : Bool) {w : Work t}
    (hw : w.n = g.blockElems t) (hfit : fits w.i0 w.n) (nbytes : Nat) {ws : Workspace t}
    (o : Sink (Pixel t)) (powder : Nat → D) {px : Nat → Pixel t}
    (h : Holds q g f w.i0 nzEnd ws.mem px) :
    ∃ ws' o' powder', dotBlock E q g K sparse f w nbytes nzEnd ws o powder = .ok (ws', o', powder') ∧
      (q.overreads (g.blockElems t) 0 (q.fuses (g.blockElems t) sparse px) = false →
        Emits o o' (dotList w sparse px) (g.blockElems t) ∧
          powder' = dotPowder K w sparse px powder) := by
  obtain ⟨hyes, hno⟩ := fusedList_spec hK hg hw 0 nbytes sparse ⟨ws.tval, ws.tidx, 0⟩ h
  unfold dotBlock
  cases hfuses : q.fuses (g.blockElems t) sparse px with
  | true =>
    obtain ⟨ws', l, hr, hemits⟩ := hyes hfuses
    rw [hr]
    refine ⟨_, _, _, rfl, fun hover => ?_⟩
    have hsparse : sparse = true := by
      unfold Call.fuses at hfuses
      simp only [Bool.and_eq_true] at hfuses
      exact hfuses.1.1.2
    have hlist := listEntries_of_emits (hemits hover)
    rw [passing_aboveCut_zero (fuses_u16 hfuses).1] at hlist
    rw [hsparse, ← hw]
    exact compacted_spec hreads hlist o powder
  | false =>
    obtain ⟨ws', hr, hholds⟩ := hno hfuses
    obtain ⟨ws'', px', hpixels, hpx⟩ := blockPixels_spec hK hg hholds
    rw [hr]
    set r := sparseDotBlock K q.pipe.collect sparse w px' ws'' o powder with hr'
    refine ⟨r.1, r.2.1, r.2.2, ?_, fun _ => ?_⟩
    · change (blockPixels E q g f w.i0 nzEnd ws' >>= _) = _
      rw [hpixels]
      rfl
    · rw [← hw] at hpx ⊢
      exact sparseDotBlock_spec hreads q.pipe.collect sparse hfit hpx ws'' o powder

end

end Bslz4ToSparse.Pipeline
