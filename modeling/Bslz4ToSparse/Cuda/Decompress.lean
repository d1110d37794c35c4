import Bslz4ToSparse.Cuda.StreamRun
import Bslz4ToSparse.Cuda.Unblock
import Bslz4ToSparse.Cuda.Unshuffle
import Bslz4ToSparse.Pipeline.TwoDecoders

/-!
# The frame on the GPU (src/cuda/bslz4_split.cu)

`unblock` finds the blocks of a chunk; a warp of `decompress` decodes one of them and stores its
pixels. What the warps of a frame leave, in any order, is what `bslz4_driver_decompress` writes.
-/

namespace Bslz4ToSparse.Cuda

open Foundation Steps Pipeline
open Lz4 (Byte plainDecode)

variable {t : Dtype} {nij : Nat}

/-! ## The blocks of a chunk -/

/-- Block `b` of the chunk decodes to `size` bytes. -/
structure BlockAt (c : List Byte) (b size : Nat) (planes : List Byte) : Prop where
  length : planes.length = size
  decodes : ∃ pos, cursor c b = some pos ∧ (nextPos c pos).isSome ∧
    plainDecode size (blockBytes c pos (readBe32 c pos)) = some planes

theorem kcb_any (t : Dtype) : Untranspose.kcb.lowplanes = true → t = .u16 := fun h => by cases h

theorem scalar_any (t : Dtype) : Collect.scalar ≠ .scalar → t = .u16 ∨ t = .u32 := fun h => absurd rfl h

/-- The chunks of an LZ4 batch, read alone. -/
def readingCall (t : Dtype) (nij : Nat) (chunks : Chunks) : Call t nij Unit where
  chunks := chunks
  mask := fun _ => 0#8
  cut := []
  pipe := ⟨.lz4Stock, .pixel, .kcb, .scalar, kcb_any t, scalar_any t⟩
  dot := none
  top := none
  workspaceLen := 0

theorem stockBlock_ok {C : Codecs} (hC : SharedCodec C) {c planes : List Byte} {pos size pos' nbytes : Nat}
    (hzero : (nextPos c pos).isSome → Lz4.hasZeroOffset (blockBytes c pos (readBe32 c pos)) = false)
    (h : stockBlock C .lz4Stock c pos size = .ok (pos', nbytes, planes)) :
    nextPos c pos = some pos' ∧ planes.length = size ∧
      plainDecode size (blockBytes c pos (readBe32 c pos)) = some planes := by
  obtain ⟨n, hn, h⟩ := bind_eq_ok.mp h
  obtain ⟨rfl, hnext⟩ := readSize_ok.mp hn
  split at h
  · cases h
  · next out hout =>
    obtain ⟨hdecode, hlen⟩ := Option.filter_eq_some_iff.mp hout
    have hlen := of_decide_eq_true hlen
    cases h
    refine ⟨by rw [hnext], hlen, ?_⟩
    subst hlen
    exact hC.refuses _ _ (hzero (by rw [hnext]; rfl)) hdecode

section

variable {E : Platform} {chunks : Chunks} {g : Geometry} {f : Nat} (hC : SharedCodec E.codecs)

include hC

/-- The full blocks that the CPU has read. -/
theorem openBlocks_blocks (hg : Aligned t g) {c : List Byte} {n : Nat} {o : Opened t}
    (hzero : NoZeroOffsets c n) (h : openBlocks E (readingCall t nij chunks) g c n = .ok o) :
    cursor c n = some o.pos ∧ ∀ b, b < n → ∃ planes, BlockAt c b g.blocksize planes ∧
      ∀ e, e < g.blockElems t →
        o.px (b * g.blockElems t + e) = planePixel t (bytesOf planes) (g.blockElems t) e := by
  unfold openBlocks at h
  refine foldlM_range_induct (fun n (o : Opened t) => cursor c n = some o.pos ∧ ∀ b, b < n →
    ∃ planes, BlockAt c b g.blocksize planes ∧ ∀ e, e < g.blockElems t →
      o.px (b * g.blockElems t + e) = planePixel t (bytesOf planes) (g.blockElems t) e) ?_ ?_ h
  · exact ⟨rfl, fun b hb => absurd hb (Nat.not_lt_zero b)⟩
  · intro k hk o o' hbefore hstep
    obtain ⟨hcursor, hblocks⟩ := hbefore
    rw [openBlock_stock hC (fun h => by cases h) rfl _ _ _ (by rintro (h | h) <;> cases h)] at hstep
    obtain ⟨x, hx, hstep⟩ := bind_eq_ok.mp hstep
    cases hstock : stockBlock E.codecs (tailDecode .lz4Stock) c o.pos g.blocksize with
    | error e =>
      rw [show (readingCall t nij chunks).pipe.decode = .lz4Stock from rfl, hstock] at hx
      cases hx
    | ok y =>
      rw [show (readingCall t nij chunks).pipe.decode = .lz4Stock from rfl, hstock] at hx
      obtain ⟨pos, nbytes, planes⟩ := y
      obtain ⟨hnext, hlen, hplain⟩ := stockBlock_ok hC (hzero k o.pos hk hcursor) hstock
      cases hx
      cases hstep
      refine ⟨?_, fun b hb => ?_⟩
      · rw [cursor, hcursor]
        exact hnext
      · rcases Nat.lt_succ_iff_lt_or_eq.mp hb with hlt | rfl
        · obtain ⟨planes', hat, hpx⟩ := hblocks b hlt
          refine ⟨planes', hat, fun e he => ?_⟩
          have hle := Nat.mul_le_mul_right (g.blockElems t) (show b + 1 ≤ k from hlt)
          rw [Nat.succ_mul] at hle
          dsimp only
          rw [if_pos (by omega), hpx e he]
        · refine ⟨planes, ⟨hlen, o.pos, hcursor, by rw [hnext]; rfl, hplain⟩, fun e _ => ?_⟩
          dsimp only
          rw [if_neg (by omega), Nat.add_sub_cancel_left]

/-- The frame that the CPU has read: the full blocks, the shorter one and the raw pixels. -/
structure FrameBlocks (g : Geometry) (c : List Byte) (nij : Nat) (px : Nat → Pixel t) : Prop where
  full : ∀ b, b < g.total / g.blocksize → ∃ planes, BlockAt c b g.blocksize planes ∧
    ∀ e, e < g.blockElems t → px (b * g.blockElems t + e) = planePixel t (bytesOf planes) (g.blockElems t) e
  short : tailBlock t.size (g.total % g.blocksize) ≠ 0 → ∃ planes,
    BlockAt c (g.total / g.blocksize) (tailBlock t.size (g.total % g.blocksize)) planes ∧
    ∀ e, e < tailBlock t.size (g.total % g.blocksize) / t.size → px (g.tailStart t + e) =
      planePixel t (bytesOf planes) (tailBlock t.size (g.total % g.blocksize) / t.size) e
  raw : ∀ e, tailBlock t.size (g.total % g.blocksize) / t.size ≤ e → px (g.tailStart t + e) =
    pixelAt t (bytesOf (c.drop (c.length - rawTail g.total g.blocksize t.size)))
      (e - tailBlock t.size (g.total % g.blocksize) / t.size)

theorem openFrame_blocks (hg : Aligned t g) {c : List Byte} {o : Opened t}
    (hzero : NoZeroOffsets c (numBlocks g.total g.blocksize t.size))
    (h : openFrame E (readingCall t nij chunks) g c = .ok o) : FrameBlocks g c nij o.px := by
  rw [openFrame_eq] at h
  obtain ⟨o₁, hblocks, h⟩ := bind_eq_ok.mp h
  obtain ⟨⟨pos, nbytes, planes⟩, htail, h⟩ := bind_eq_ok.mp h
  obtain ⟨-, -, h⟩ := bind_eq_ok.mp h
  obtain rfl := Except.ok.inj h
  obtain ⟨hcursor, hfull⟩ := openBlocks_blocks hC hg
    (fun b pos hb => hzero b pos (hb.trans_le (Nat.le_add_right _ _))) hblocks
  have hbytes : (readingCall t nij chunks).tailBytes g = tailBlock t.size (g.total % g.blocksize) := rfl
  refine ⟨fun b hb => ?_, fun hshort => ?_, fun e he => ?_⟩
  · obtain ⟨planes', hat, hpx⟩ := hfull b hb
    refine ⟨planes', hat, fun e he => ?_⟩
    rw [← hpx e he]
    refine if_pos ?_
    have hle := Nat.mul_le_mul_right (g.blockElems t) (show b + 1 ≤ g.total / g.blocksize from hb)
    rw [Nat.succ_mul] at hle
    unfold Geometry.tailStart
    omega
  · rw [tailPlanes_stock, if_neg (by rw [hbytes]; exact hshort)] at htail
    have hlast : g.total / g.blocksize < numBlocks g.total g.blocksize t.size := by
      rw [numBlocks, if_pos (Nat.pos_of_ne_zero hshort)]
      exact Nat.lt_succ_self _
    obtain ⟨hnext, hlen, hplain⟩ := stockBlock_ok hC (hzero _ _ hlast hcursor) htail
    refine ⟨planes, ⟨hlen, o₁.pos, hcursor, by rw [hnext]; rfl, hplain⟩, fun e he => ?_⟩
    rw [Opened.close_tail]
    exact if_pos he
  · rw [Opened.close_tail]
    exact if_neg (Nat.not_lt.mpr he)

end

/-! ## The kernel -/

/-- `self.ntot`. -/
def hostNtot (totalBytes : Nat) : Nat :=
  totalBytes / defaultBlockBytes + if 0 < totalBytes % defaultBlockBytes then 1 else 0

/-- A run of `decompressStream` on the block whose size stands at `start` of the chunk, to its end; it leaves
`dec`. The chunk stands in a slab, next to others. -/
def StreamRun (c : List Byte) (start : Nat) (dec : Memory) : Prop :=
  ∃ (compData fuel : Nat) (mem : Cell → Byte) (w : Warp (Fin 32) Cell Byte), readBe32 c start < fuel ∧
    (∀ i : Nat, start + 4 + i < c.length → mem (.comp i) = c.getD (start + 4 + i) 0#8) ∧
    Relation.ReflTransGen Warp.Step (streamWarp compData (readBe32 c start) fuel mem) w ∧ w.Done ∧
    ∀ k : Nat, dec k = w.mem (.decomp k)

/-- A warp of `decompress` on a good chunk: the block is decoded when it is stored compressed. -/
def WarpRun (bpp totalBytes : Nat) (c : List Byte) (starts : List (Nat × Nat)) (blockid : Nat)
    (out out' : Memory) : Prop :=
  ∃ dec, (blockid < hostNstored totalBytes bpp → ∃ start, (blockid, start) ∈ starts ∧ StreamRun c start dec) ∧
    DecompressStores bpp totalBytes (hostNtot totalBytes) blockid dec c out out'

/-- The warps of a frame, in the order `order`. -/
inductive FrameRun (bpp totalBytes : Nat) (c : List Byte) (starts : List (Nat × Nat)) :
    List Nat → Memory → Memory → Prop
  | nil (out : Memory) : FrameRun bpp totalBytes c starts [] out out
  | cons {blockid : Nat} {order : List Nat} {out out₁ out' : Memory}
      (hwarp : WarpRun bpp totalBytes c starts blockid out out₁)
      (hrest : FrameRun bpp totalBytes c starts order out₁ out') :
      FrameRun bpp totalBytes c starts (blockid :: order) out out'

/-! ## One warp -/

theorem unblock_starts {c : List Byte} {nstored tocopy totalBytes : Nat}
    (h : (unblock c nstored tocopy totalBytes).1 = 0) (b pos : Nat) :
    (b, pos) ∈ (unblock c nstored tocopy totalBytes).2 ↔ b < nstored ∧ cursor c b = some pos := by
  have hat := unblock_at c nstored
  unfold unblock at h ⊢
  dsimp only at h ⊢
  split at h
  · cases h
  split at h
  · cases h
  split at h
  · cases h
  split at h
  · cases h
  rw [if_neg ‹_›, if_neg ‹_›, if_neg ‹_›, if_neg ‹_›]
  generalize (List.range nstored).foldl (unblockStep c) ⟨12, 0, []⟩ = u at hat h
  dsimp only at h
  split at h
  · cases h
  · exact hat.out h b pos

theorem unblock_header {c : List Byte} {nstored tocopy totalBytes : Nat}
    (h : (unblock c nstored tocopy totalBytes).1 = 0) :
    headerTotal c = totalBytes ∧ headerBlocksize c = 8192 := by
  unfold unblock at h
  dsimp only at h
  split at h
  · cases h
  split at h
  · cases h
  next hwords =>
  split at h
  · cases h
  next hsize =>
  have htotal := readBe64_eq c
  refine ⟨?_, ?_⟩
  · unfold headerTotal
    omega
  · unfold headerBlocksize
    split
    · rfl
    · omega

/-- A warp on a block that the CPU decodes. -/
theorem BlockAt.comes {c planes : List Byte} {b size start : Nat} (hat : BlockAt c b size planes)
    (hc : c.length < 2 ^ 31) (hsize : size < 2 ^ 32) (hstart : cursor c b = some start) (compData : Nat)
    {fuel : Nat} {mem : Cell → Byte} (hfuel : readBe32 c start < fuel)
    (hcomp : ∀ i : Nat, start + 4 + i < c.length → mem (.comp i) = c.getD (start + 4 + i) 0#8) :
    Warp.Comes (Readable (readBe32 c start) size) (Decompressed mem planes)
      (streamWarp compData (readBe32 c start) fuel mem) := by
  obtain ⟨pos, hpos, hnext, hplain⟩ := hat.decodes
  obtain rfl := Option.some.inj (hpos.symm.trans hstart)
  have hroom : pos + 4 + readBe32 c pos ≤ c.length := by
    by_contra hover
    rw [nextPos, if_neg hover] at hnext
    cases hnext
  have hlen : (blockBytes c pos (readBe32 c pos)).length = readBe32 c pos := by
    unfold blockBytes
    rw [List.length_take, List.length_drop]
    omega
  have hblock : ∀ i : Nat, i < (blockBytes c pos (readBe32 c pos)).length →
      mem (.comp i) = (blockBytes c pos (readBe32 c pos)).getD i 0#8 := by
    intro i hi
    rw [hlen] at hi
    rw [hcomp i (by omega)]
    unfold blockBytes
    simp only [List.getD_eq_getElem?_getD, List.getElem?_take, hi, if_true, List.getElem?_drop]
  have hcomes := streamWarp_comes compData hplain (by omega) hsize (hlen.symm ▸ hfuel) hblock
  rwa [hlen, hat.length] at hcomes

/-- What a warp decodes is what the CPU decodes. -/
theorem streamRun_planes {c planes : List Byte} {b size start : Nat} {dec : Memory} (hc : c.length < 2 ^ 31)
    (hsize : size < 2 ^ 32) (hat : BlockAt c b size planes) (hstart : cursor c b = some start)
    (hrun : StreamRun c start dec) : ∀ k, k < size → dec k = bytesOf planes k := by
  obtain ⟨compData, fuel, mem, w, hfuel, hcomp, hsteps, hdone, hdec⟩ := hrun
  obtain ⟨-, hend⟩ := (hat.comes hc hsize hstart compData hfuel hcomp).run hsteps
  rcases hend with ⟨-, hout⟩ | ⟨w', hs⟩
  · intro k hk
    rw [hdec k, hout.bytes k (by rw [hat.length]; exact hk)]
    rfl
  · exact absurd hs hdone.not_step

/-- A chunk alone in its slab. -/
def slabOf (c : List Byte) (start : Nat) : Cell → Byte
  | .comp i => c.getD (start + 4 + i.toNat) 0#8
  | _ => 0#8

theorem BlockAt.exists_streamRun {c planes : List Byte} {b size start : Nat} (hat : BlockAt c b size planes)
    (hc : c.length < 2 ^ 31) (hsize : size < 2 ^ 32) (hstart : cursor c b = some start) :
    ∃ dec, StreamRun c start dec := by
  have hcomp : ∀ i : Nat, start + 4 + i < c.length →
      slabOf c start (.comp i) = c.getD (start + 4 + i) 0#8 := fun _ _ => rfl
  obtain ⟨w, hsteps, hdone, -⟩ := (hat.comes hc hsize hstart 0 (Nat.lt_succ_self _) hcomp).exists_done
  exact ⟨fun k => w.mem (.decomp k), 0, _, slabOf c start, w, Nat.lt_succ_self _, hcomp, hsteps, hdone,
    fun _ => rfl⟩

/-- The geometry of a frame on the GPU. -/
abbrev gpuGeometry (t : Dtype) (nij : Nat) : Geometry := ⟨nij * t.size, defaultBlockBytes⟩

section

variable (hbpp : t.size = 1 ∨ t.size = 2 ∨ t.size = 4)

include hbpp

theorem gpuGeometry_aligned (nij : Nat) : Aligned t (gpuGeometry t nij) := by
  have hwhole : 8 * t.size ∣ 8192 := by rcases hbpp with h | h | h <;> rw [h] <;> decide
  exact ⟨Nat.succ_pos _, hwhole⟩

theorem blockElems_mul_size : 8192 / t.size * t.size = 8192 := by
  rcases hbpp with h | h | h <;> rw [h]

theorem full_blocks (nij : Nat) : nij * t.size / 8192 = nij / (8192 / t.size) := by
  have hmul := blockElems_mul_size hbpp
  calc nij * t.size / 8192 = nij * t.size / (8192 / t.size * t.size) := by rw [hmul]
    _ = nij / (8192 / t.size) := Nat.mul_div_mul_right _ _ t.size_pos

theorem short_pixels (nij : Nat) : tailBlock t.size (nij * t.size % 8192) =
    nij * t.size % 8192 - nij * t.size % 8192 % (t.size * 8) := by
  have hdiv := Nat.div_add_mod (nij * t.size % 8192) (8 * t.size)
  rw [tailBlock, Nat.mul_comm t.size]
  omega

/-- The pixels of block `b`. -/
theorem warpRun_pixels {c : List Byte} {px : Nat → Pixel t} {b : Nat} {out out' : Memory}
    (hc : c.length < 2 ^ 31) (hframe : FrameBlocks (gpuGeometry t nij) c nij px)
    (herr : (unblock c (hostNstored (nij * t.size) t.size) (hostTocopy (nij * t.size) t.size)
      (nij * t.size)).1 = 0)
    (hrun : WarpRun t.size (nij * t.size) c (unblock c (hostNstored (nij * t.size) t.size)
      (hostTocopy (nij * t.size) t.size) (nij * t.size)).2 b out out') (hb : b < hostNtot (nij * t.size)) :
    ∀ p, p < nij → p / (8192 / t.size) = b → pixelAt t out' p = px p := by
  obtain ⟨dec, hdec, hstores⟩ := hrun
  obtain ⟨hunshuffled, hraw, -, -⟩ := decompress_unshuffles hbpp hb hstores
  have hmul := blockElems_mul_size hbpp
  have hfull := full_blocks hbpp nij
  have hplanes : ∀ {size : Nat} {planes : List Byte}, size < 2 ^ 32 → b < hostNstored (nij * t.size) t.size →
      BlockAt c b size planes → ∀ k, k < size → dec k = bytesOf planes k := by
    intro size planes hsize hstored hat
    obtain ⟨start, hmem, hstream⟩ := hdec hstored
    exact streamRun_planes hc hsize hat ((unblock_starts herr b start).mp hmem).2 hstream
  intro p hp hpb
  have hsplit := Nat.div_add_mod p (8192 / t.size)
  rw [hpb, Nat.mul_comm] at hsplit
  have hpos : 0 < 8192 / t.size := by
    rcases Nat.eq_zero_or_pos (8192 / t.size) with hzero | hlt
    · rw [hzero, Nat.zero_mul] at hmul
      cases hmul
    · exact hlt
  have he : p % (8192 / t.size) < 8192 / t.size := Nat.mod_lt p hpos
  set be := 8192 / t.size with hbe
  set e := p % be with hedef
  have hble : b ≤ nij * t.size / 8192 := by
    rw [hfull, ← hpb]
    exact Nat.div_le_div_right hp.le
  have hstart : blockStart (nij * t.size) b = b * be * t.size := by
    rw [blockStart, Nat.min_eq_left hble, Nat.mul_assoc, hmul]
  rw [hstart] at hunshuffled
  rw [← hsplit]
  rcases Nat.lt_or_eq_of_le hble with hlt | hlast
  · -- a full block
    obtain ⟨planes, hat, hpx⟩ := hframe.full b hlt
    have hstored : b < hostNstored (nij * t.size) t.size := Nat.lt_of_lt_of_le hlt (Nat.le_add_right _ _)
    have hat : BlockAt c b 8192 planes := hat
    have hdecoded := hplanes (by decide) hstored hat
    have helems : blockElems t.size (nij * t.size) b = be := if_pos hlt
    have h8 : 8 ∣ be := (gpuGeometry_aligned hbpp nij).elems_dvd
    rw [helems] at hunshuffled
    calc pixelAt t out' (b * be + e) = pixelAt t (offset out' (b * be * t.size)) e :=
          (pixelAt_offset out' (b * be) e).symm
      _ = planePixel t dec be e := hunshuffled.pixel he
      _ = planePixel t (bytesOf planes) be e :=
          planePixel_congr h8 he fun i hi => hdecoded i (hmul ▸ hi)
      _ = px (b * be + e) := (hpx e he).symm
  · -- the last block and the raw pixels
    have hshort := short_pixels hbpp nij
    obtain ⟨hmulb, h8⟩ := blockElems_mul hbpp (nij * t.size) b
    have hnlt : ¬ b < nij * t.size / 8192 := by omega
    rw [if_neg hnlt, ← hshort] at hmulb
    set ne := blockElems t.size (nij * t.size) b with hne
    have hnediv : tailBlock t.size (nij * t.size % 8192) / t.size = ne := by
      rw [← hmulb, Nat.mul_div_cancel _ t.size_pos]
    have htail : (gpuGeometry t nij).tailStart t = b * be := by
      rw [hlast]
      rfl
    by_cases hene : e < ne
    · have hsome : 0 < ne * t.size := Nat.mul_pos (by omega) t.size_pos
      have hshortpos : tailBlock t.size (nij * t.size % 8192) ≠ 0 := by omega
      obtain ⟨planes, hat, hpx⟩ := hframe.short hshortpos
      have hat : BlockAt c (nij * t.size / 8192) (tailBlock t.size (nij * t.size % 8192)) planes := hat
      have hstored : b < hostNstored (nij * t.size) t.size := by
        unfold hostNstored hostTocopy defaultBlockBytes
        rw [if_pos (by omega)]
        omega
      rw [← hlast] at hat
      have hle := tailBlock_le t.size (nij * t.size % 8192)
      have hdecoded := hplanes (by omega) hstored hat
      calc pixelAt t out' (b * be + e) = pixelAt t (offset out' (b * be * t.size)) e :=
            (pixelAt_offset out' (b * be) e).symm
        _ = planePixel t dec ne e := hunshuffled.pixel hene
        _ = planePixel t (bytesOf planes) ne e :=
            planePixel_congr h8 hene fun i hi => hdecoded i (hmulb ▸ hi)
        _ = px (b * be + e) := by
            rw [← htail, hpx e (by change e < tailBlock t.size (nij * t.size % 8192) / t.size; omega)]
            change _ = planePixel t (bytesOf planes) (tailBlock t.size (nij * t.size % 8192) / t.size) e
            rw [hnediv]
    · have hpx := hframe.raw e (by change tailBlock t.size (nij * t.size % 8192) / t.size ≤ e; omega)
      rw [htail] at hpx
      rw [hpx]
      change _ = pixelAt t (bytesOf (c.drop (c.length - rawTail (nij * t.size) 8192 t.size)))
        (e - tailBlock t.size (nij * t.size % 8192) / t.size)
      rw [hnediv]
      have hrawle := Nat.mod_le (nij * t.size % 8192) (t.size * 8)
      have hrawtail : rawTail (nij * t.size) 8192 t.size = nij * t.size % 8192 % (t.size * 8) := by
        rw [rawTail]
        omega
      rw [hrawtail]
      unfold pixelAt
      refine gather_congr fun k hk => ?_
      congr 1
      have hbyte : k / 8 < t.size := by simp only [Dtype.bits] at hk; omega
      have hplace := Nat.mul_le_mul_right t.size (show p + 1 ≤ nij from hp)
      rw [← hsplit] at hplace
      have hexpand : (b * be + e + 1) * t.size = b * 8192 + e * t.size + t.size := by
        rw [Nat.add_mul, Nat.add_mul, Nat.mul_assoc, hmul, Nat.one_mul]
      have hfrom : (b * be + e) * t.size = b * 8192 + e * t.size := by
        rw [Nat.add_mul, Nat.mul_assoc, hmul]
      have hover : (e - ne) * t.size = e * t.size - ne * t.size := Nat.sub_mul _ _ _
      have hmore := Nat.mul_le_mul_right t.size (Nat.le_of_not_lt hene)
      have hindex : nij * t.size - nij * t.size % 8192 % (t.size * 8) + ((e - ne) * t.size + k / 8) =
          (b * be + e) * t.size + k / 8 := by
        rw [hfrom, hover]
        omega
      have hat := hraw (by omega) ((e - ne) * t.size + k / 8) (by omega)
      rw [hindex] at hat
      rw [hat]
      simp only [bytesOf, List.getD_eq_getElem?_getD, List.getElem?_drop]

/-- Another warp leaves the pixel. -/
theorem warpRun_others {c : List Byte} {starts : List (Nat × Nat)} {b : Nat} {out out' : Memory}
    (hrun : WarpRun t.size (nij * t.size) c starts b out out') :
    (∀ p, p < nij → p / (8192 / t.size) ≠ b → pixelAt t out' p = pixelAt t out p) ∧
      ∀ i, nij * t.size ≤ i → out' i = out i := by
  obtain ⟨dec, -, hstores⟩ := hrun
  by_cases hb : b < hostNtot (nij * t.size)
  · obtain ⟨-, -, hframe, -⟩ := decompress_unshuffles hbpp hb hstores
    have hmul := blockElems_mul_size hbpp
    have hfull := full_blocks hbpp nij
    have hntot : b ≤ nij * t.size / 8192 := by
      unfold hostNtot defaultBlockBytes at hb
      split at hb <;> omega
    have hstart : blockStart (nij * t.size) b = b * 8192 := by
      rw [blockStart, Nat.min_eq_left hntot]
    rw [hstart] at hframe
    refine ⟨fun p hp hne => pixelAt_congr fun k hk => hframe _ ?_, fun i hi => hframe i (Or.inr ?_)⟩
    · have hsplit := Nat.div_add_mod p (8192 / t.size)
      have hpos : 0 < 8192 / t.size := (gpuGeometry_aligned hbpp nij).elems_pos
      have hmod := Nat.mod_lt p hpos
      have hple : p / (8192 / t.size) ≤ nij * t.size / 8192 := by
        rw [hfull]
        exact Nat.div_le_div_right hp.le
      set be := 8192 / t.size
      rcases Nat.lt_or_gt_of_ne hne with hlt | hgt
      · left
        have hbefore : p + 1 ≤ b * be := by
          have hle := Nat.mul_le_mul_left be (show p / be + 1 ≤ b from hlt)
          rw [Nat.mul_add, Nat.mul_one, Nat.mul_comm be b] at hle
          omega
        have hbytes := Nat.mul_le_mul_right t.size hbefore
        rw [Nat.mul_assoc, hmul, Nat.add_mul, Nat.one_mul] at hbytes
        omega
      · right
        rw [if_pos (by omega)]
        have hafter : (b + 1) * be ≤ p := by
          have hle := Nat.mul_le_mul_left be (show b + 1 ≤ p / be from hgt)
          rw [Nat.mul_comm be (b + 1)] at hle
          omega
        have hbytes := Nat.mul_le_mul_right t.size hafter
        rw [Nat.mul_assoc, hmul, Nat.add_mul, Nat.one_mul] at hbytes
        omega
    · split
      · next hlt =>
        calc b * 8192 + 8192 = (b + 1) * 8192 := (Nat.succ_mul b 8192).symm
          _ ≤ nij * t.size / 8192 * 8192 := Nat.mul_le_mul_right 8192 hlt
          _ ≤ nij * t.size := Nat.div_mul_le_self _ _
          _ ≤ i := hi
      · exact hi
  · have hnone : ¬ b < hostNtot (nij * t.size) := hb
    unfold DecompressStores at hstores
    dsimp only at hstores
    rw [if_pos (Nat.le_of_not_lt hnone)] at hstores
    subst hstores
    exact ⟨fun _ _ _ => rfl, fun _ _ => rfl⟩

/-! ## The frame -/

/-- The pixels of the blocks that have run are there, whichever ran first. -/
theorem frameRun_pixels {c : List Byte} {px : Nat → Pixel t} (hc : c.length < 2 ^ 31)
    (hframe : FrameBlocks (gpuGeometry t nij) c nij px)
    (herr : (unblock c (hostNstored (nij * t.size) t.size) (hostTocopy (nij * t.size) t.size)
      (nij * t.size)).1 = 0) {order : List Nat} {out out' : Memory}
    (hrun : FrameRun t.size (nij * t.size) c (unblock c (hostNstored (nij * t.size) t.size)
      (hostTocopy (nij * t.size) t.size) (nij * t.size)).2 order out out') :
    (∀ p, p < nij → p / (8192 / t.size) < hostNtot (nij * t.size) → p / (8192 / t.size) ∈ order →
        pixelAt t out' p = px p) ∧
      (∀ p, p < nij → p / (8192 / t.size) ∉ order → pixelAt t out' p = pixelAt t out p) ∧
      ∀ i, nij * t.size ≤ i → out' i = out i := by
  induction hrun with
  | nil out => exact ⟨fun _ _ _ h => absurd h List.not_mem_nil, fun _ _ _ => rfl, fun _ _ => rfl⟩
  | @cons blockid order out out₁ out' hwarp _ ih =>
    obtain ⟨hin, hout, hbehind⟩ := ih
    obtain ⟨hothers, hrest⟩ := warpRun_others hbpp hwarp
    refine ⟨fun p hp hlt hmem => ?_, fun p hp hmem => ?_, fun i hi => (hbehind i hi).trans (hrest i hi)⟩
    · by_cases hlater : p / (8192 / t.size) ∈ order
      · exact hin p hp hlt hlater
      · have hnow : p / (8192 / t.size) = blockid := (List.mem_cons.mp hmem).resolve_right hlater
        rw [hout p hp hlater]
        exact warpRun_pixels hbpp hc hframe herr hwarp (hnow ▸ hlt) p hp hnow
    · have hne : p / (8192 / t.size) ≠ blockid := fun h => hmem (h ▸ List.mem_cons_self)
      rw [hout p hp fun h => hmem (List.mem_cons_of_mem _ h)]
      exact hothers p hp hne

/-- The blocks that the kernel decodes are those of the CPU, none larger than the shared buffer. -/
theorem FrameBlocks.stored {c : List Byte} {px : Nat → Pixel t} (hframe : FrameBlocks (gpuGeometry t nij) c nij px)
    {b : Nat} (hb : b < hostNstored (nij * t.size) t.size) :
    ∃ size planes, size ≤ 8192 ∧ BlockAt c b size planes := by
  unfold hostNstored hostTocopy defaultBlockBytes at hb
  by_cases hfull : b < nij * t.size / 8192
  · obtain ⟨planes, hat, -⟩ := hframe.full b hfull
    exact ⟨8192, planes, le_rfl, hat⟩
  · split at hb
    · next hshort =>
      have hlast : b = nij * t.size / 8192 := by omega
      have htail := short_pixels hbpp nij
      have hle := tailBlock_le t.size (nij * t.size % 8192)
      have hpos : tailBlock t.size (nij * t.size % 8192) ≠ 0 := by omega
      obtain ⟨planes, hat, -⟩ := hframe.short hpos
      rw [hlast]
      exact ⟨tailBlock t.size (nij * t.size % 8192), planes, by omega, hat⟩
    · omega

theorem exists_warpRun {c : List Byte} {px : Nat → Pixel t} (hc : c.length < 2 ^ 31)
    (hframe : FrameBlocks (gpuGeometry t nij) c nij px)
    (herr : (unblock c (hostNstored (nij * t.size) t.size) (hostTocopy (nij * t.size) t.size)
      (nij * t.size)).1 = 0) (b : Nat) (out : Memory) :
    ∃ out', WarpRun t.size (nij * t.size) c (unblock c (hostNstored (nij * t.size) t.size)
      (hostTocopy (nij * t.size) t.size) (nij * t.size)).2 b out out' := by
  have hdec : ∃ dec, b < hostNstored (nij * t.size) t.size → ∃ start,
      (b, start) ∈ (unblock c (hostNstored (nij * t.size) t.size) (hostTocopy (nij * t.size) t.size)
        (nij * t.size)).2 ∧ StreamRun c start dec := by
    by_cases hb : b < hostNstored (nij * t.size) t.size
    · obtain ⟨size, planes, hsize, hat⟩ := hframe.stored hbpp hb
      obtain ⟨start, hstart, -⟩ := hat.decodes
      obtain ⟨dec, hrun⟩ := hat.exists_streamRun hc (by omega) hstart
      exact ⟨dec, fun _ => ⟨start, (unblock_starts herr b start).mpr ⟨hb, hstart⟩, hrun⟩⟩
    · exact ⟨fun _ => 0#8, fun h => absurd h hb⟩
  obtain ⟨dec, hdec⟩ := hdec
  obtain ⟨out', hstores⟩ := DecompressStores.exists t.size (nij * t.size) (hostNtot (nij * t.size)) b dec c out
  exact ⟨out', dec, hdec, hstores⟩

theorem exists_frameRun {c : List Byte} {px : Nat → Pixel t} (hc : c.length < 2 ^ 31)
    (hframe : FrameBlocks (gpuGeometry t nij) c nij px)
    (herr : (unblock c (hostNstored (nij * t.size) t.size) (hostTocopy (nij * t.size) t.size)
      (nij * t.size)).1 = 0) (order : List Nat) (out : Memory) :
    ∃ out', FrameRun t.size (nij * t.size) c (unblock c (hostNstored (nij * t.size) t.size)
      (hostTocopy (nij * t.size) t.size) (nij * t.size)).2 order out out' := by
  induction order generalizing out with
  | nil => exact ⟨out, .nil out⟩
  | cons b order ih =>
    obtain ⟨out₁, hwarp⟩ := exists_warpRun hbpp hc hframe herr b out
    obtain ⟨out', hrest⟩ := ih out₁
    exact ⟨out', .cons hwarp hrest⟩

/-- The chunk that both have accepted. -/
theorem decompress_blocks {E : Platform} (hK : E.kernels.Inverse) (hC : SharedCodec E.codecs) {u : Unpack}
    {s s' : UnpackState} (helem : u.elemSize = t.size) (hdecode : u.decode = .lz4Stock)
    (hunshuffle : u.unshuffle = true) (hcpu : decompress E u s = .ok s') {f : Nat} (hf : f < u.chunks.nframes)
    (hzero : NoZeroOffsets (u.chunks.bytes f) (hostNstored (nij * t.size) t.size))
    (herr : (unblock (u.chunks.bytes f) (hostNstored (nij * t.size) t.size) (hostTocopy (nij * t.size) t.size)
      (nij * t.size)).1 = 0) :
    ∃ px, FrameBlocks (gpuGeometry t nij) (u.chunks.bytes f) nij px ∧
      ∀ p, p < nij → px p = pixelAt t s'.out (f * nij + p) := by
  obtain ⟨g, haccept, hto⟩ := bind_eq_ok.mp hcpu
  have hheaded := checkFrames_ok.mp (acceptUnpack_frames haccept)
  obtain ⟨htotal, hblocksize⟩ := unblock_header herr
  have hg : g = gpuGeometry t nij := by
    rw [hheaded.total f hf] at htotal
    rw [hheaded.blocksize f hf] at hblocksize
    cases g
    dsimp only at htotal hblocksize
    rw [htotal, hblocksize]
    rfl
  have hsmall : g.total ≤ 2 ^ 31 - 1 := by
    obtain ⟨-, h⟩ := refuse_bind_ok.mp haccept
    obtain ⟨-, h⟩ := refuse_bind_ok.mp h
    obtain ⟨⟨total, blocksize⟩, -, h⟩ := bind_eq_ok.mp h
    obtain ⟨hsmall, h⟩ := refuse_bind_ok.mp h
    obtain ⟨-, h⟩ := refuse_bind_ok.mp h
    obtain ⟨-, h⟩ := refuse_bind_ok.mp h
    obtain ⟨-, h⟩ := refuse_bind_ok.mp h
    obtain rfl := Except.ok.inj h
    have hle := of_decide_eq_false hsmall
    dsimp only
    omega
  subst hg
  have hready : Ready E (readingCall t nij u.chunks) (gpuGeometry t nij) :=
    ⟨hK, gpuGeometry_aligned hbpp nij, rfl, hsmall, fun d hd => by cases hd⟩
  have hsame : SameChunks (readingCall t nij u.chunks) u := ⟨rfl, rfl, helem, hdecode, hunshuffle⟩
  obtain ⟨o, ho, hpx⟩ := unpackTo_ok hready hsame hC (fun h => by cases h)
    (by rintro (h | h) <;> cases h) hto f hf
  rw [hostNstored_eq] at hzero
  exact ⟨o.px, openFrame_blocks hC (gpuGeometry_aligned hbpp nij) hzero ho, hpx⟩

/-- Every pixel lies in a block that a warp runs on. -/
theorem pixel_block {p : Nat} (hp : p < nij) : p / (8192 / t.size) < hostNtot (nij * t.size) := by
  have hmul := blockElems_mul_size hbpp
  have hbytes := Nat.mul_le_mul_right t.size (show p + 1 ≤ nij from hp)
  have hle : p / (8192 / t.size) ≤ nij * t.size / 8192 := by
    rw [full_blocks hbpp nij]
    exact Nat.div_le_div_right hp.le
  rcases Nat.lt_or_eq_of_le hle with hlt | hlast
  · exact Nat.lt_of_lt_of_le hlt (Nat.le_add_right _ _)
  · have hfrom : nij * t.size / 8192 * 8192 ≤ p * t.size := by
      calc nij * t.size / 8192 * 8192 = p / (8192 / t.size) * (8192 / t.size) * t.size := by
            rw [← hlast, Nat.mul_assoc, hmul]
        _ ≤ p * t.size := Nat.mul_le_mul_right t.size (Nat.div_mul_le_self p (8192 / t.size))
    have hpos := t.size_pos
    rw [Nat.add_mul, Nat.one_mul] at hbytes
    have hleft : 0 < nij * t.size % 8192 := by
      have hsplit := Nat.div_add_mod (nij * t.size) 8192
      omega
    rw [hlast]
    unfold hostNtot defaultBlockBytes
    rw [if_pos hleft]
    exact Nat.lt_succ_self _

end

/-- `eightPixels` with the default block size. -/
def eightPixelsSlab : List Byte := eightPixels.take 8 ++ [0#8, 0#8, 0#8, 0#8] ++ eightPixels.drop 12

theorem eightPixelsSlab_lt (_ : Nat) : eightPixelsSlab.length < 2 ^ 31 := by decide

def eightPixelsGpu : Unpack where
  chunks := ⟨1, fun _ => eightPixelsSlab, oneFrame_lt, eightPixelsSlab_lt⟩
  outLen := 16
  workspaceLen := 48
  elemSize := 2
  decode := .lz4Stock
  untranspose := .kcb
  unshuffle := true

theorem eightPixelsGpu_unpacks :
    ∃ s', decompress .plain eightPixelsGpu ⟨fun _ => 0#8, fun _ => 0#8, fun _ => 0#8, 0, 0⟩ = .ok s' := by
  cases h : decompress .plain eightPixelsGpu ⟨fun _ => 0#8, fun _ => 0#8, fun _ => 0#8, 0, 0⟩ with
  | ok s' => exact ⟨s', rfl⟩
  | error e =>
    have hok : (decompress .plain eightPixelsGpu
        ⟨fun _ => 0#8, fun _ => 0#8, fun _ => 0#8, 0, 0⟩).toBool = true := by decide +kernel
    rw [h] at hok
    cases hok

theorem eightPixelsSlab_zeroOffsets : NoZeroOffsets eightPixelsSlab (hostNstored (8 * Dtype.u16.size) 2) := by
  intro b pos hb hcursor _
  have hone : hostNstored (8 * Dtype.u16.size) 2 = 1 := by decide
  obtain rfl : b = 0 := by omega
  obtain rfl : 12 = pos := Option.some.inj hcursor
  decide

end Bslz4ToSparse.Cuda
