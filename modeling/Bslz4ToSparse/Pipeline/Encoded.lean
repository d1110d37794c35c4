import Bslz4ToSparse.Pipeline.Header
import Bslz4ToSparse.Pipeline.Isolation

/-!
# Encoded frames

What a writer makes of a frame: a header, then blocks of bitshuffled pixels, each compressed by itself
and behind its size, and at the end the last pixels as they are. Reading such a chunk gives the frame
back.
-/

namespace Bslz4ToSparse.Pipeline

open Dot Foundation Steps
open Lz4 (Byte plainDecode)

variable {t : Dtype} {nij : Nat} {D : Type}

/-! ## The writer -/

/-- `n` in 4 bytes, big endian. -/
def be32 (n : Nat) : List Byte :=
  [BitVec.ofNat 8 (n / 2 ^ 24), BitVec.ofNat 8 (n / 2 ^ 16), BitVec.ofNat 8 (n / 2 ^ 8), BitVec.ofNat 8 n]

/-- The bit-planes of the `ne` pixels from `i0` on. -/
def bitshuffle (F : Nat → Pixel t) (i0 ne : Nat) : List Byte :=
  (List.range (ne * t.size)).map fun i =>
    gather 8 fun r => (F (i0 + (8 * (i % (ne / 8)) + r))).getLsbD (i / (ne / 8))

/-- The bytes of the `n` pixels from `i0` on, little endian. -/
def pixelBytes (F : Nat → Pixel t) (i0 n : Nat) : List Byte :=
  (List.range (n * t.size)).map fun i =>
    gather 8 fun r => (F (i0 + i / t.size)).getLsbD (8 * (i % t.size) + r)

/-- The block `src` stands for `planes`: what the codec of the step gives back. -/
def Compressed (C : Codecs) (decode : Decode) (src planes : List Byte) : Prop :=
  if decode = .zstd then C.zstdDecompress src planes.length = some planes
  else plainDecode planes.length src = some planes

/-- A compressed block behind its size. -/
def sized (src : List Byte) : List Byte := be32 src.length ++ src

/-- The pixels of block `b`: the last one may be shorter. -/
def encodedElems (t : Dtype) (nij blocksize b : Nat) : Nat :=
  if b < nij * t.size / blocksize then blocksize / t.size
  else tailBlock t.size (nij * t.size % blocksize) / t.size

/-- The pixels that are stored as they are. -/
def rawElems (t : Dtype) (nij blocksize : Nat) : Nat := rawTail (nij * t.size) blocksize t.size / t.size

/-- Chunk `c` is the frame `F` of `nij` pixels in blocks of `blocksize` bytes. -/
inductive Encodes (C : Codecs) (decode : Decode) (nij blocksize : Nat) (F : Nat → Pixel t) :
    List Byte → Prop
  | chunk (header : List Byte) (srcs : List (List Byte)) (hlen : header.length = 12)
      (htotal : headerTotal header = nij * t.size) (hblocksize : headerBlocksize header = blocksize)
      (hcount : srcs.length = numBlocks (nij * t.size) blocksize t.size)
      (hsrcs : ∀ b src, srcs[b]? = some src →
        Compressed C decode src
          (bitshuffle F (b * (blocksize / t.size)) (encodedElems t nij blocksize b))) :
      Encodes C decode nij blocksize F (header ++ srcs.flatMap sized ++
        pixelBytes F (nij - rawElems t nij blocksize) (rawElems t nij blocksize))

/-! ## Reading back the parts -/

@[simp] theorem length_be32 (n : Nat) : (be32 n).length = 4 := rfl

theorem getD_middle {pre mid post : List Byte} {k : Nat} (hk : k < mid.length) :
    (pre ++ (mid ++ post)).getD (pre.length + k) 0#8 = mid.getD k 0#8 := by
  rw [List.getD_append_right _ _ _ _ (Nat.le_add_right _ _), Nat.add_sub_cancel_left,
    List.getD_append _ _ _ _ hk]

theorem readBe32_be32 (pre post : List Byte) {n : Nat} (hn : n < 2 ^ 32) :
    readBe32 (pre ++ (be32 n ++ post)) pre.length = n := by
  have hget := fun k (hk : k < 4) => @getD_middle pre (be32 n) post k hk
  unfold readBe32
  rw [readBe_succ, readBe_succ, readBe_succ, readBe_succ, hget 0 (by decide), hget 1 (by decide),
    hget 2 (by decide), hget 3 (by decide)]
  have hzero : readBe (pre ++ (be32 n ++ post)) pre.length 0 = 0 := rfl
  rw [hzero]
  simp only [be32, List.getD_cons_zero, List.getD_cons_succ, BitVec.toNat_ofNat]
  omega

/-- A block is read where it stands. -/
theorem readSize_sized (pre src post : List Byte) (hsrc : src.length < 2 ^ 32) :
    readSize (pre ++ (sized src ++ post)) pre.length = .ok src.length ∧
      blockBytes (pre ++ (sized src ++ post)) pre.length src.length = src := by
  have hsize : readBe32 (pre ++ (sized src ++ post)) pre.length = src.length := by
    unfold sized
    rw [List.append_assoc]
    exact readBe32_be32 pre (src ++ post) hsrc
  have hlen : (pre ++ (sized src ++ post)).length = pre.length + (4 + src.length + post.length) := by
    unfold sized
    rw [List.length_append, List.length_append, List.length_append, length_be32]
  constructor
  · unfold readSize
    rw [hsize, hlen]
    refine refuse_bind_ok.mpr ⟨decide_eq_false (by omega), refuse_bind_ok.mpr ⟨?_, rfl⟩⟩
    exact decide_eq_false (by omega)
  · unfold blockBytes sized
    rw [List.append_assoc, ← List.append_assoc pre, ← List.append_assoc]
    have hdrop : pre.length + 4 = (pre ++ be32 src.length).length := by
      rw [List.length_append, length_be32]
    rw [hdrop, List.append_assoc, List.drop_left, List.take_left]

theorem bytesOf_map_range {n i : Nat} (h : Nat → Byte) (hi : i < n) :
    bytesOf ((List.range n).map h) i = h i := by
  unfold bytesOf
  rw [List.getD_eq_getElem?_getD, List.getElem?_map, List.getElem?_range hi]
  rfl

@[simp] theorem length_bitshuffle (F : Nat → Pixel t) (i0 ne : Nat) :
    (bitshuffle F i0 ne).length = ne * t.size := by
  unfold bitshuffle
  rw [List.length_map, List.length_range]

@[simp] theorem length_pixelBytes (F : Nat → Pixel t) (i0 n : Nat) :
    (pixelBytes F i0 n).length = n * t.size := by
  unfold pixelBytes
  rw [List.length_map, List.length_range]

/-- The planes give the pixels back. -/
theorem planePixel_bitshuffle (F : Nat → Pixel t) (i0 : Nat) {ne e : Nat} (h8 : 8 ∣ ne) (he : e < ne) :
    planePixel t (bytesOf (bitshuffle F i0 ne)) ne e = F (i0 + e) := by
  have hplane : e / 8 < ne / 8 := by
    obtain ⟨c, rfl⟩ := h8
    rw [Nat.mul_div_cancel_left c (by decide)]
    exact Nat.div_lt_of_lt_mul he
  refine BitVec.eq_of_getLsbD_eq fun k hk => ?_
  unfold planePixel bitshuffle
  rw [getLsbD_gather, decide_eq_true hk, Bool.true_and,
    bytesOf_map_range _ (plane_lt h8 (by simpa [Dtype.bits] using hk) he), getLsbD_gather,
    decide_eq_true (Nat.mod_lt e (by decide)), Bool.true_and, Nat.mul_comm k, Nat.mul_add_mod,
    Nat.mod_eq_of_lt hplane, Nat.mul_add_div (by omega), Nat.div_eq_of_lt hplane, Nat.add_zero,
    Nat.div_add_mod]

/-- The bytes give the pixels back. -/
theorem pixelAt_pixelBytes (F : Nat → Pixel t) (i0 : Nat) {n e : Nat} (he : e < n) :
    pixelAt t (bytesOf (pixelBytes F i0 n)) e = F (i0 + e) := by
  refine BitVec.eq_of_getLsbD_eq fun k hk => ?_
  have hbyte : k / 8 < t.size := by
    simp only [Dtype.bits] at hk
    omega
  have hmul := Nat.mul_le_mul_right t.size (show e + 1 ≤ n from he)
  rw [Nat.succ_mul] at hmul
  unfold pixelAt pixelBytes
  rw [getLsbD_gather, decide_eq_true hk, Bool.true_and, bytesOf_map_range _ (by omega), getLsbD_gather,
    decide_eq_true (Nat.mod_lt k (by decide)), Bool.true_and, Nat.mul_comm e, Nat.mul_add_mod,
    Nat.mod_eq_of_lt hbyte, Nat.mul_add_div (by omega), Nat.div_eq_of_lt hbyte, Nat.add_zero,
    Nat.div_add_mod]

/-! ## Reading back a chunk -/

section

variable {C : Codecs}
  (hlz4 : ∀ src planes, plainDecode planes.length src = some planes →
    C.lz4DecompressSafe src planes.length = some planes)

include hlz4

/-- Every decode value gives the planes of a block back. -/
theorem planesOf_compressed {decode : Decode} {src planes : List Byte} {blocksize : Nat}
    (h : Compressed C decode src planes) (hlen : planes.length = blocksize) :
    planesOf C decode src blocksize = some planes := by
  subst hlen
  unfold Compressed at h
  have hfilter : (some planes).filter (fun out => decide (out.length = planes.length)) = some planes := by
    rw [Option.filter_some, if_pos (decide_eq_true rfl)]
  unfold planesOf
  cases decode with
  | zstd =>
    rw [if_pos rfl] at h
    change ((C.zstdDecompress src planes.length).filter _).filter _ = _
    rw [h, hfilter, hfilter]
  | lz4Band | lz4Zero | lz4Stock | pixels =>
    rw [if_neg (by decide)] at h
    split
    · rw [h, hfilter]
    · rw [decodePlain, hlz4 src planes h, hfilter]
      intro hzstd
      cases hzstd

/-- And so do the decoders of the last block. -/
theorem decodePlain_compressed {decode : Decode} {src planes : List Byte}
    (h : Compressed C decode src planes) :
    decodePlain C (tailDecode decode) src planes.length = some planes := by
  unfold Compressed at h
  unfold tailDecode
  split at h
  · next hzstd =>
    rw [if_pos hzstd, decodePlain, h, Option.filter_some, if_pos (decide_eq_true rfl)]
  · next hother =>
    rw [if_neg hother, decodePlain, hlz4 src planes h]
    intro hzstd
    cases hzstd

end

theorem length_flatMap_take_succ {srcs : List (List Byte)} {b : Nat} {src : List Byte}
    (h : srcs[b]? = some src) :
    ((srcs.take (b + 1)).flatMap sized).length =
      ((srcs.take b).flatMap sized).length + src.length + 4 := by
  rw [List.take_add_one, h, Option.toList_some, List.flatMap_append, List.length_append,
    List.flatMap_singleton, sized, List.length_append, length_be32]
  omega

/-- A chunk, cut in front of and behind block `b`. -/
theorem chunk_split (header raw : List Byte) {srcs : List (List Byte)} {b : Nat} {src : List Byte}
    (h : srcs[b]? = some src) :
    header ++ srcs.flatMap sized ++ raw =
      (header ++ (srcs.take b).flatMap sized) ++
        (sized src ++ ((srcs.drop (b + 1)).flatMap sized ++ raw)) := by
  obtain ⟨hb, hsrc⟩ := List.getElem?_eq_some_iff.mp h
  have hsplit : srcs = srcs.take b ++ src :: srcs.drop (b + 1) := by
    rw [← hsrc, List.getElem_cons_drop, List.take_append_drop]
  conv_lhs => rw [hsplit]
  rw [List.flatMap_append, List.flatMap_cons]
  simp only [List.append_assoc]

section

variable {E : Platform} {q : Call t nij D} {g : Geometry} {F : Nat → Pixel t} {header : List Byte}
  {srcs : List (List Byte)} {raw : List Byte}
  (h : Ready E q g) (hq : q.pixels = false) (hheader : header.length = 12)
  (hlz4 : ∀ src planes, plainDecode planes.length src = some planes →
    E.codecs.lz4DecompressSafe src planes.length = some planes)
  (hlen : (header ++ srcs.flatMap sized ++ raw).length < 2 ^ 31)
  (hsrcs : ∀ b src, srcs[b]? = some src → Compressed E.codecs q.pipe.decode src
    (bitshuffle F (b * (g.blocksize / t.size)) (encodedElems t nij g.blocksize b)))

include hlen in
theorem src_length_lt {b : Nat} {src : List Byte} (hb : srcs[b]? = some src) : src.length < 2 ^ 32 := by
  rw [chunk_split header raw hb] at hlen
  simp only [List.length_append, sized] at hlen
  omega

include h hq hheader hlz4 hlen hsrcs

/-- The full blocks. -/
theorem openBlocks_chunk {n : Nat} (hn : n ≤ g.total / g.blocksize) (hcount : n ≤ srcs.length) :
    ∃ o, openBlocks E q g (header ++ srcs.flatMap sized ++ raw) n = .ok o ∧
      o.pos = (header ++ (srcs.take n).flatMap sized).length ∧
      ∀ p, p < n * g.blockElems t → o.px p = F p := by
  induction n with
  | zero =>
    refine ⟨_, rfl, ?_, fun p hp => absurd hp (by omega)⟩
    rw [hq, if_neg (by decide), List.take_zero, List.flatMap_nil, List.append_nil, hheader]
  | succ n ih =>
    obtain ⟨o, ho, hpos, hpx⟩ := ih (by omega) (by omega)
    have hget : srcs[n]? = some srcs[n] := List.getElem?_eq_getElem (by omega)
    have hsrc := src_length_lt hlen hget
    obtain ⟨hsize, hbytes⟩ := readSize_sized (header ++ (srcs.take n).flatMap sized) srcs[n]
      ((srcs.drop (n + 1)).flatMap sized ++ raw) hsrc
    rw [← chunk_split header raw hget, ← hpos] at hsize hbytes
    have helems : encodedElems t nij g.blocksize n = g.blockElems t := by
      unfold encodedElems
      rw [← h.total, if_pos (by omega)]
      rfl
    have hcompressed := hsrcs n _ hget
    rw [helems] at hcompressed
    have hplanes := planesOf_compressed hlz4 hcompressed
      ((length_bitshuffle _ _ _).trans h.aligned.size_eq.symm)
    have hopen : openBlock E q g (header ++ srcs.flatMap sized ++ raw) n o.pos =
        .ok (o.pos + srcs[n].length + 4, srcs[n].length,
          planePixel t (bytesOf (bitshuffle F (n * (g.blocksize / t.size)) (g.blockElems t)))
            (g.blockElems t)) := by
      unfold openBlock
      rw [hq, if_neg (by decide)]
      refine bind_eq_ok.mpr ⟨_, hsize, ?_⟩
      rw [hbytes, hplanes]
      rfl
    refine ⟨{
      pos := o.pos + srcs[n].length + 4
      nbytes := Function.update o.nbytes n srcs[n].length
      px := fun p => if p < n * g.blockElems t then o.px p
        else planePixel t (bytesOf (bitshuffle F (n * (g.blocksize / t.size)) (g.blockElems t)))
          (g.blockElems t) (p - n * g.blockElems t) }, ?_, ?_, ?_⟩
    · unfold openBlocks at ho ⊢
      rw [foldlM_range_succ, ho]
      change (openBlock E q g _ n o.pos >>= _) = _
      rw [hopen]
      rfl
    · dsimp only
      rw [List.length_append, length_flatMap_take_succ hget, hpos, List.length_append]
      omega
    · intro p hp
      dsimp only
      split
      · next hlt => exact hpx p hlt
      · next hge =>
        rw [Nat.succ_mul] at hp
        rw [planePixel_bitshuffle _ _ h.aligned.elems_dvd (by omega)]
        congr 1
        change n * g.blockElems t + _ = _
        omega

/-- The last block. -/
theorem tailPlanes_chunk (hcount : srcs.length = numBlocks g.total g.blocksize t.size) {pos : Nat}
    (hpos : pos = (header ++ (srcs.take (g.total / g.blocksize)).flatMap sized).length) :
    ∃ nbytes planes, tailPlanes E q g (header ++ srcs.flatMap sized ++ raw) pos =
        .ok ((header ++ srcs.flatMap sized).length, nbytes, planes) ∧
      ∀ e, e < q.tailBytes g / t.size →
        planePixel t (bytesOf planes) (q.tailBytes g / t.size) e = F (g.tailStart t + e) := by
  have htail : q.tailBytes g = tailBlock t.size (g.total % g.blocksize) := by
    unfold Call.tailBytes
    rw [hq, if_neg (by decide)]
  unfold numBlocks at hcount
  rw [← htail] at hcount
  unfold tailPlanes
  by_cases hzero : q.tailBytes g = 0
  · rw [hzero, if_neg (by decide), Nat.add_zero] at hcount
    refine ⟨0, [], ?_, fun e he => ?_⟩
    · rw [if_pos hzero, hpos, ← hcount, List.take_length]
      rfl
    · rw [hzero, Nat.zero_div] at he
      omega
  · rw [if_pos (by omega)] at hcount
    obtain ⟨c, hc⟩ := tailBytes_whole q g
    have hne : q.tailBytes g / t.size = 8 * c := by rw [hc, Nat.mul_div_cancel _ t.size_pos]
    have hget : srcs[g.total / g.blocksize]? = some srcs[g.total / g.blocksize] :=
      List.getElem?_eq_getElem (by omega)
    set src := srcs[g.total / g.blocksize] with hsrc
    have hlt := src_length_lt hlen hget
    obtain ⟨hsize, hbytes⟩ := readSize_sized
      (header ++ (srcs.take (g.total / g.blocksize)).flatMap sized) src
      ((srcs.drop (g.total / g.blocksize + 1)).flatMap sized ++ raw) hlt
    rw [← chunk_split header raw hget, ← hpos] at hsize hbytes
    have helems : encodedElems t nij g.blocksize (g.total / g.blocksize) = q.tailBytes g / t.size := by
      unfold encodedElems
      rw [← h.total, if_neg (Nat.lt_irrefl _), htail]
    have hcompressed := hsrcs _ _ hget
    rw [helems] at hcompressed
    set planes := bitshuffle F (g.total / g.blocksize * (g.blocksize / t.size)) (q.tailBytes g / t.size)
      with hplanes
    have hplen : planes.length = q.tailBytes g := by
      rw [hplanes, length_bitshuffle, hne, hc]
    have hdecode := decodePlain_compressed hlz4 hcompressed
    rw [hplen] at hdecode
    refine ⟨src.length, planes, ?_, fun e he => ?_⟩
    · rw [if_neg hzero]
      refine bind_eq_ok.mpr ⟨_, hsize, ?_⟩
      rw [hbytes, hdecode]
      refine refuse_bind_ok.mpr ⟨?_, ?_⟩
      · rw [hplen]
        exact bne_self_eq_false _
      · have hall := length_flatMap_take_succ hget
        rw [← hcount, List.take_length] at hall
        rw [hpos, List.length_append, List.length_append, hall, Nat.add_assoc, Nat.add_assoc, Nat.add_assoc]
        rfl
    · have h8 : 8 ∣ q.tailBytes g / t.size := by
        rw [hne]
        exact Nat.dvd_mul_right 8 c
      exact planePixel_bitshuffle _ _ h8 he

/-- Reading an encoded chunk gives the frame back. -/
theorem openFrame_chunk (hcount : srcs.length = numBlocks g.total g.blocksize t.size)
    (hraw : raw = pixelBytes F (nij - rawElems t nij g.blocksize) (rawElems t nij g.blocksize)) :
    ∃ o, openFrame E q g (header ++ srcs.flatMap sized ++ raw) = .ok o ∧ ∀ p, p < nij → o.px p = F p := by
  have htail : q.tailBytes g = tailBlock t.size (g.total % g.blocksize) := by
    unfold Call.tailBytes
    rw [hq, if_neg (by decide)]
  have hend := tail_end h
  -- the sizes of the parts of the tail, in pixels
  obtain ⟨c, hc⟩ := tailBytes_whole q g
  have hne : q.tailBytes g / t.size = 8 * c := by rw [hc, Nat.mul_div_cancel _ t.size_pos]
  have hle := tailBytes_le q g
  rw [tail_size h, hc] at hle
  have hle' := Nat.le_of_mul_le_mul_right hle t.size_pos
  have hrawBytes : q.rawBytes g = (nij % g.blockElems t - 8 * c) * t.size := by
    unfold Call.rawBytes
    rw [tail_size h, hc, Nat.sub_mul]
  have hrawElems : rawElems t nij g.blocksize = nij % g.blockElems t - 8 * c := by
    unfold rawElems rawTail
    rw [← h.total, ← htail]
    change q.rawBytes g / t.size = _
    rw [hrawBytes, Nat.mul_div_cancel _ t.size_pos]
  have hrawLen : raw.length = q.rawBytes g := by
    rw [hraw, length_pixelBytes, hrawElems, hrawBytes]
  obtain ⟨o, ho, hpos, hpx⟩ := openBlocks_chunk h hq hheader hlz4 hlen hsrcs le_rfl (by
    rw [hcount, numBlocks]
    exact Nat.le_add_right _ _)
  obtain ⟨nbytes, planes, htp, hplanes⟩ := tailPlanes_chunk h hq hheader hlz4 hlen hsrcs hcount hpos
  set front := header ++ srcs.flatMap sized with hfront
  have hcheck : checkRaw q g (front ++ raw) front.length = .ok () := by
    unfold checkRaw
    split
    · rfl
    · rw [refuse_ok, List.length_append, hrawLen, Nat.add_sub_cancel]
      simp
  refine ⟨_, bind_eq_ok.mpr ⟨o, ho, bind_eq_ok.mpr ⟨_, htp, bind_eq_ok.mpr ⟨_, hcheck, rfl⟩⟩⟩, ?_⟩
  intro p hp
  dsimp only
  split
  · next hlt => exact hpx p hlt
  · next hge =>
    obtain ⟨e, rfl⟩ : ∃ e, p = g.tailStart t + e := ⟨p - g.tailStart t, by omega⟩
    rw [Nat.add_sub_cancel_left]
    unfold tailPixels
    rw [hq, if_neg (by decide)]
    split
    · next hlt => exact hplanes e hlt
    · next hge' =>
      rw [hne] at hge' ⊢
      have hdrop : (front ++ raw).drop ((front ++ raw).length - q.rawBytes g) = raw := by
        rw [List.length_append, hrawLen, Nat.add_sub_cancel, List.drop_left]
      rw [hdrop, hraw, pixelAt_pixelBytes _ _ (by omega)]
      congr 1
      omega

end

/-- The frame that a chunk encodes is the one that is read from it. -/
theorem openFrame_encoded {E : Platform} {q : Call t nij D} {g : Geometry} {F : Nat → Pixel t}
    {c : List Byte} (h : Ready E q g) (hq : q.pixels = false)
    (hlz4 : ∀ src planes, plainDecode planes.length src = some planes →
      E.codecs.lz4DecompressSafe src planes.length = some planes)
    (hlen : c.length < 2 ^ 31) (hc : Encodes E.codecs q.pipe.decode nij g.blocksize F c) :
    ∃ o, openFrame E q g c = .ok o ∧ ∀ p, p < nij → o.px p = F p := by
  cases hc with
  | chunk header srcs hheader _ _ hcount hsrcs =>
    rw [← h.total] at hcount
    exact openFrame_chunk h hq hheader hlz4 hlen hsrcs hcount rfl

end Bslz4ToSparse.Pipeline
