import Bslz4ToSparse.Pipeline.Encoded

/-!
# Batches of frames

The driver is given frames as chunks, in any block size, or as uncompressed pixels. What it makes of
them depends on the frames alone.
-/

namespace Bslz4ToSparse.Pipeline

open Dot Foundation Steps
open Lz4 (Byte plainDecode)

variable {t : Dtype} {nij : Nat} {D : Type}

/-! ## The batch -/

/-- The chunks of a call are the frames `F`, in blocks of `blocksize` bytes. -/
structure BatchOf (C : Codecs) (q : Call t nij D) (blocksize : Nat) (F : Nat → Nat → Pixel t) :
    Prop where
  nframes : 0 < q.chunks.nframes
  whole : 8 * t.size ∣ blocksize
  chunks : q.pixels = false → ∀ f, f < q.chunks.nframes →
    Encodes C q.pipe.decode nij blocksize (F f) (q.chunks.bytes f)
  uncompressed : q.pixels = true → blocksize = defaultBlockBytes ∧
    ∀ f, f < q.chunks.nframes → q.chunks.bytes f = pixelBytes (F f) 0 nij

/-- The other arguments are what the driver asks for. -/
structure Admissible (q : Call t nij D) (blocksize : Nat) : Prop where
  cut : q.cut.length = 1
  validCut : validCut q.cutPixel = true
  top : ∀ top ∈ q.top, 0 ≤ top.howmany ∧ 0 ≤ top.nthr
  small : nij * t.size ≤ 2 ^ 31 - 1
  layout : ∀ d ∈ q.dot, badLayout (blocksize / t.size) d.2 = false
  workspace : workspaceBytes q ⟨nij * t.size, blocksize⟩ ≤ q.workspaceLen

/-! ## The header -/

theorem readBe_append_left (p r : List Byte) {pos n : Nat} (h : pos + n ≤ p.length) :
    readBe (p ++ r) pos n = readBe p pos n := by
  induction n with
  | zero => rfl
  | succ n ih => rw [readBe_succ, readBe_succ, ih (by omega), List.getD_append _ _ _ _ (by omega)]

theorem headerTotal_append {header : List Byte} (h : header.length = 12) (rest : List Byte) :
    headerTotal (header ++ rest) = headerTotal header :=
  readBe_append_left header rest (by omega)

theorem headerBlocksize_append {header : List Byte} (h : header.length = 12) (rest : List Byte) :
    headerBlocksize (header ++ rest) = headerBlocksize header := by
  have hread : readBe32 (header ++ rest) 8 = readBe32 header 8 :=
    readBe_append_left header rest (by omega)
  unfold headerBlocksize
  rw [hread]

/-- An encoded chunk has the header of its frame. -/
theorem Encodes.header {C : Codecs} {decode : Decode} {blocksize : Nat} {F : Nat → Pixel t}
    {c : List Byte} (h : Encodes C decode nij blocksize F c) :
    12 ≤ c.length ∧ headerTotal c = nij * t.size ∧ headerBlocksize c = blocksize := by
  cases h with
  | chunk header srcs hlen htotal hblocksize hcount hsrcs =>
    rw [List.append_assoc]
    refine ⟨?_, ?_, ?_⟩
    · rw [List.length_append]
      omega
    · rw [headerTotal_append hlen, htotal]
    · rw [headerBlocksize_append hlen, hblocksize]

namespace BatchOf

variable {C : Codecs} {q : Call t nij D} {blocksize : Nat} {F : Nat → Nat → Pixel t}

theorem geometry (h : BatchOf C q blocksize F) : readGeometry q = .ok ⟨nij * t.size, blocksize⟩ := by
  cases hq : q.pixels with
  | false =>
    refine (readGeometry_chunks hq).mpr (checkFrames_ok.mpr ?_)
    have hheader := fun f hf => (h.chunks hq f hf).header
    exact ⟨h.nframes, fun f hf => (hheader f hf).1, fun f hf => (hheader f hf).2.1,
      fun f hf => (hheader f hf).2.2⟩
  | true =>
    obtain ⟨hdefault, hbytes⟩ := h.uncompressed hq
    have hcheck : ∀ f, f < q.chunks.nframes → checkPixels q f = .ok () := by
      intro f hf
      unfold checkPixels
      rw [hbytes f hf, length_pixelBytes]
      exact refuse_bind_ok.mpr ⟨by simp, refuse_ok.mpr (by simp)⟩
    have hall : (List.range q.chunks.nframes).foldlM (fun _ f => checkPixels q f) () = .ok () :=
      foldlM_range_idle hcheck
    unfold readGeometry
    rw [hq, if_pos rfl]
    refine refuse_bind_ok.mpr ⟨by simpa using h.nframes.ne', bind_eq_ok.mpr ⟨(), hall, ?_⟩⟩
    rw [hdefault]
    rfl

theorem accepted (h : BatchOf C q blocksize F) (ha : Admissible q blocksize) :
    accept q = .ok ⟨nij * t.size, blocksize⟩ :=
  accept_ok.mpr ⟨ha.cut, ha.validCut, ha.top, h.geometry, rfl, ha.small, ha.layout, ha.workspace⟩

theorem aligned (h : BatchOf C q blocksize F) : Aligned t ⟨nij * t.size, blocksize⟩ := by
  refine ⟨?_, h.whole⟩
  change 0 < blocksize
  cases hq : q.pixels with
  | false =>
    rw [← (h.chunks hq 0 h.nframes).header.2.2]
    exact headerBlocksize_pos _
  | true =>
    rw [(h.uncompressed hq).1]
    decide

end BatchOf

/-! ## Uncompressed frames -/

theorem pixelAt_offset (mem : Memory) (i0 e : Nat) :
    pixelAt t (offset mem (i0 * t.size)) e = pixelAt t mem (i0 + e) := by
  unfold pixelAt offset
  refine gather_congr fun k _ => ?_
  rw [Nat.add_mul, Nat.add_assoc]

section

variable {E : Platform} {q : Call t nij D} {g : Geometry} {c : List Byte}

/-- The blocks of uncompressed pixels are the pixels. -/
theorem openBlocks_pixels (hq : q.pixels = true) (n : Nat) :
    ∃ o, openBlocks E q g c n = .ok o ∧ ∀ p, p < n * g.blockElems t → o.px p = pixelAt t (bytesOf c) p := by
  induction n with
  | zero => exact ⟨_, rfl, fun p hp => absurd hp (by omega)⟩
  | succ n ih =>
    obtain ⟨o, ho, hpx⟩ := ih
    have hopen : openBlock E q g c n o.pos =
        .ok (o.pos, 0, pixelAt t (offset (bytesOf c) (n * g.blockElems t * t.size))) := by
      unfold openBlock
      rw [if_pos hq]
      rfl
    refine ⟨{
      pos := o.pos
      nbytes := Function.update o.nbytes n 0
      px := fun p => if p < n * g.blockElems t then o.px p
        else pixelAt t (offset (bytesOf c) (n * g.blockElems t * t.size)) (p - n * g.blockElems t) },
      ?_, ?_⟩
    · unfold openBlocks at ho ⊢
      rw [foldlM_range_succ, ho]
      change (openBlock E q g c n o.pos >>= _) = _
      rw [hopen]
      rfl
    · intro p _
      dsimp only
      split
      · next hlt => exact hpx p hlt
      · next hge => rw [pixelAt_offset, Nat.add_sub_cancel' (not_lt.mp hge)]

theorem openFrame_pixels (hq : q.pixels = true) :
    ∃ o, openFrame E q g c = .ok o ∧ ∀ p, o.px p = pixelAt t (bytesOf c) p := by
  obtain ⟨o, ho, hpx⟩ := openBlocks_pixels (E := E) (g := g) (c := c) hq (g.total / g.blocksize)
  have htail : tailPlanes E q g c o.pos = .ok (o.pos, 0, []) := by
    unfold tailPlanes Call.tailBytes
    rw [if_pos hq, if_pos rfl]
    rfl
  have hraw : checkRaw q g c o.pos = .ok () := by
    unfold checkRaw
    rw [if_pos (Or.inr hq)]
    rfl
  refine ⟨_, bind_eq_ok.mpr ⟨o, ho, bind_eq_ok.mpr ⟨_, htail, bind_eq_ok.mpr ⟨_, hraw, rfl⟩⟩⟩, ?_⟩
  intro p
  dsimp only
  split
  · next hlt => exact hpx p hlt
  · next hge =>
    unfold tailPixels
    rw [if_pos hq, pixelAt_offset, Nat.add_sub_cancel' (not_lt.mp hge)]

/-- A chunk that can be read goes through. -/
theorem frameRun_opened {o : Opened t} (ho : openFrame E q g c = .ok o) (powder : Nat → D) :
    ∃ a, frameRun E q g c powder = .ok a := by
  obtain ⟨o₁, hopen, hrest⟩ := bind_eq_ok.mp ho
  obtain ⟨⟨pos, nbytes, planes⟩, htail, hrest⟩ := bind_eq_ok.mp hrest
  obtain ⟨u, hraw, _⟩ := bind_eq_ok.mp hrest
  have hagree := frameBlocks_overread (E := E) (q := q) (g := g) (c := c) powder (g.total / g.blocksize)
  rw [hopen] at hagree
  obtain ⟨a, hblocks, hcause⟩ := hagree.ok_right
  rw [← hcause.pos] at htail
  unfold frameRun frameTail
  rw [hblocks]
  change ∃ a', (tailPlanes E q g c a.pos >>= _) = .ok a'
  rw [htail]
  change ∃ a', (checkRaw q g c pos >>= _) = .ok a'
  rw [hraw]
  dsimp only [bind, Except.bind]
  cases q.dot with
  | none => exact ⟨_, rfl⟩
  | some d => exact ⟨_, rfl⟩

end

/-! ## The run -/

/-- Where the vsx collect would go over the end of a full block, a pixel above 255 keeps it away. -/
def Guarded (q : Call t nij D) (blocksize : Nat) (F : Nat → Nat → Pixel t) : Prop :=
  ∀ cut, Ragged q (blocksize / t.size) cut → (q.dot = none → q.top = none → cut = q.lowCut 0) →
    ∀ f, f < q.chunks.nframes → ∀ b, b < nij * t.size / blocksize →
      ∃ e, e < blocksize / t.size ∧ 256 ≤ (F f (b * (blocksize / t.size) + e)).toNat

/-- Every pipeline without the vsx collect is. -/
theorem guarded_of_value {q : Call t nij D} (h : q.pipe.untranspose ≠ .lowplanesVsx) (blocksize : Nat)
    (F : Nat → Nat → Pixel t) : Guarded q blocksize F :=
  fun _ hragged => absurd hragged.value h

/-- Frames that can be read go through, and every frame comes to what its chunk gives alone. -/
theorem run_opened {E : Platform} {q : Call t nij D} {g : Geometry} {F : Nat → Nat → Pixel t}
    (hK : E.kernels.Inverse) (haccept : accept q = .ok g) (hg : Aligned t g)
    (hopened : ∀ f, f < q.chunks.nframes → ∃ o, openFrame E q g (q.chunks.bytes f) = .ok o ∧
      ∀ p, p < nij → o.px p = F f p)
    (hguard : Guarded q g.blocksize F) (s : RunState t D) :
    ∃ r, run E q s = .ok r ∧ ∀ f, f < q.chunks.nframes → ∃ a o,
      frameRun E q g (q.chunks.bytes f) (s.powder f) = .ok a ∧
      openFrame E q g (q.chunks.bytes f) = .ok o ∧
      (∀ p, p < nij → o.px p = F f p) ∧ Carries nij r f a := by
  obtain ⟨r, hr⟩ := (run_ok_iff hK haccept hg s).mpr fun f hf =>
    frameRun_opened (hopened f hf).choose_spec.1 _
  obtain ⟨a, halone, hcarries⟩ := run_frames hK haccept hg hr
  refine ⟨r, hr, fun f hf => ?_⟩
  obtain ⟨o, ho, hpx⟩ := hopened f hf
  refine ⟨a f, o, halone f hf, ho, hpx, hcarries (fun k hk => ?_) f hf⟩
  -- a frame that over-reads has a block that is not guarded
  have hready := (run_ready (E := E) hK haccept hg).1
  rw [Bool.eq_false_iff]
  intro hover
  obtain ⟨o', ho', hpx'⟩ := hopened k hk
  obtain ⟨b, cut, hb, hragged, hcut, hlow⟩ := overread_cause (halone k hk) ho' hover
  obtain ⟨e, he, hlarge⟩ := hguard cut hragged hcut k hk b (by rw [← hready.total]; exact hb)
  have hend := hready.aligned.block_le hready.total hb
  have hsmall := hlow e he
  have hlt : b * (g.blocksize / t.size) + e < nij := by
    change b * (g.blocksize / t.size) + g.blocksize / t.size ≤ nij at hend
    omega
  change (o'.px (b * (g.blocksize / t.size) + e)).toNat < 256 at hsmall
  rw [hpx' _ hlt] at hsmall
  exact absurd hlarge (not_le.mpr hsmall)

section

variable {E : Platform} {q : Call t nij D} {blocksize : Nat} {F : Nat → Nat → Pixel t}
  (hK : E.kernels.Inverse)
  (hlz4 : ∀ src planes, plainDecode planes.length src = some planes →
    E.codecs.lz4DecompressSafe src planes.length = some planes)
  (h : BatchOf E.codecs q blocksize F) (ha : Admissible q blocksize)

include hK hlz4 h ha

/-- The frames can be read. -/
theorem BatchOf.opened {f : Nat} (hf : f < q.chunks.nframes) :
    ∃ o, openFrame E q ⟨nij * t.size, blocksize⟩ (q.chunks.bytes f) = .ok o ∧
      ∀ p, p < nij → o.px p = F f p := by
  cases hq : q.pixels with
  | false =>
    have hready := (run_ready (E := E) hK (h.accepted ha) h.aligned).1
    exact openFrame_encoded hready hq hlz4 (q.chunks.length_lt f) (h.chunks hq f hf)
  | true =>
    obtain ⟨o, ho, hpx⟩ := openFrame_pixels (E := E) (g := ⟨nij * t.size, blocksize⟩)
      (c := q.chunks.bytes f) hq
    refine ⟨o, ho, fun p hp => ?_⟩
    rw [hpx, (h.uncompressed hq).2 f hf, pixelAt_pixelBytes _ _ hp, Nat.zero_add]

/-- The batch goes through, and every frame comes to what its chunk gives alone. -/
theorem run_batch (hguard : Guarded q blocksize F) (s : RunState t D) :
    ∃ r, run E q s = .ok r ∧ ∀ f, f < q.chunks.nframes → ∃ a o,
      frameRun E q ⟨nij * t.size, blocksize⟩ (q.chunks.bytes f) (s.powder f) = .ok a ∧
      openFrame E q ⟨nij * t.size, blocksize⟩ (q.chunks.bytes f) = .ok o ∧
      (∀ p, p < nij → o.px p = F f p) ∧ Carries nij r f a :=
  run_opened hK (h.accepted ha) h.aligned (fun _ hf => h.opened hK hlz4 ha hf) hguard s

end

end Bslz4ToSparse.Pipeline
