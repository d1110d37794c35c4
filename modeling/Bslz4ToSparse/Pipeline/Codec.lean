import Bslz4ToSparse.Lz4.Format
import Bslz4ToSparse.Pipeline.LowPlanesCalls
import Bslz4ToSparse.Pipeline.Walks

/-!
# The codec of a chunk (src/__init__.py)

A chunk does not name its codec. A zstd block starts with a magic number, and no LZ4 block of 8
bytes or more does: its token asks for two literals and a match from before the first byte.
-/

namespace Bslz4ToSparse.Pipeline

open Foundation Steps
open Lz4 (Byte Block Sequences lz4DecodeZero plainDecode plainRun)

/-- The block codecs. -/
inductive Codec where
  | lz4 | zstd
  deriving DecidableEq, Repr

/-- `_ZSTD_MAGIC`. -/
def zstdMagic : List Byte := [0x28#8, 0xB5#8, 0x2F#8, 0xFD#8]

/-- `_codec_of_chunk`. -/
def codecOfChunk (c : List Byte) : Codec :=
  if (c.drop 16).take 4 = zstdMagic then .zstd else .lz4

/-! ## Blocks and the magic number -/

/-- The bytes of a block, as far as they go, are not those of the magic number. -/
theorem block_not_magic {rest : List Byte} {n total : Nat}
    (h : Block ((zstdMagic ++ rest).take n) total) (h8 : 8 ≤ total) : False := by
  have hlit : ∀ inp : List Byte, plainRun inp ((0x28#8 : Byte).toNat / 16) = some (inp, 2) :=
    fun _ => rfl
  have hcons : ∃ tail, (zstdMagic ++ rest).take n = 0x28#8 :: tail ∧
      ∃ k, tail = ([0xB5#8, 0x2F#8, 0xFD#8] ++ rest).take k := by
    cases n with
    | zero => cases h
    | succ n => exact ⟨_, rfl, n, rfl⟩
  obtain ⟨tail, hsrc, k, htail⟩ := hcons
  rw [hsrc] at h
  cases h with
  | last hrun hend =>
    -- two literals are not eight bytes
    rw [hlit] at hrun
    cases hrun
    omega
  | more hrun hdrop hoff hlen hnext =>
    rw [hlit] at hrun
    cases hrun
    -- the low byte of the offset is the last one of the magic number
    have hlow : ∀ lo hi tail', (([0xB5#8, 0x2F#8, 0xFD#8] ++ rest).take k).drop 2 = lo :: hi :: tail' →
        lo = 0xFD#8 := by
      intro lo hi tail' heq
      rcases k with _ | _ | _ | k
      · cases heq
      · cases heq
      · cases heq
      · exact (List.cons.inj heq).1.symm
    rw [htail] at hdrop
    obtain rfl := hlow _ _ _ hdrop
    have hval : (0xFD#8 : Byte).toNat = 253 := rfl
    omega

/-! ## What an lz4 step accepts -/

/-- The lz4 values of the decode step. -/
def isLz4 : Decode → Bool
  | .lz4Band | .lz4Zero | .lz4Stock => true
  | _ => false

section

variable {C : Codecs}
  (hstock : ∀ src cap out, C.lz4DecompressSafe src cap = some out → Block src out.length)

include hstock

theorem decodePlain_block {decode : Decode} (hd : isLz4 decode = true) {src out : List Byte}
    {cap : Nat} (h : decodePlain C decode src cap = some out) : Block src out.length := by
  cases decode with
  | zstd => cases hd
  | pixels => cases hd
  | lz4Band => exact hstock src cap out h
  | lz4Zero => exact hstock src cap out h
  | lz4Stock => exact hstock src cap out h

theorem decodeBlock_block {decode : Decode} (hd : isLz4 decode = true) {sse2 : Bool}
    {src : List Byte} {raw : Memory} {blocksize : Nat} {r : Memory × Nat}
    (h : decodeBlock C sse2 decode src raw blocksize = .ok r) : Block src blocksize := by
  unfold decodeBlock at h
  split at h
  · rcases Lz4.lz4DecodeZero_cases sse2 src blocksize blocksize ⟨blocksize + blocksize, raw⟩ rfl with
      ⟨out, dst, nzEnd, hp, -, -, hout⟩ | ⟨-, hr⟩
    · rw [← hout.length]
      exact Lz4.plainDecode_block hp
    · rw [hr] at h
      cases h
  · cases hp : decodePlain C decode src blocksize with
    | none =>
      rw [hp] at h
      cases h
    | some out =>
      rw [hp] at h
      dsimp only at h
      split at h
      · next hlen =>
        rw [← hlen]
        exact decodePlain_block hstock hd hp
      · cases h

end

/-! ## The first block of a chunk -/

/-- The decoded size of the first block. -/
def firstBlock (total blocksize NB : Nat) : Nat :=
  if 0 < total / blocksize then blocksize else tailBlock NB (total % blocksize)

/-- Its bytes. -/
def firstBytes (c : List Byte) : List Byte := blockBytes c 12 (readBe32 c 12)

/-- A chunk of a batch that one of the decoders takes with an lz4 step, for pixels of `NB` bytes. -/
inductive DecodesLz4 (E : Platform) : List Byte → Nat → Prop
  | decompress {u : Unpack} {s s' : UnpackState} (h : decompress E u s = .ok s')
      (hlz4 : isLz4 u.decode = true) {f : Nat} (hf : f < u.chunks.nframes) :
      DecodesLz4 E (u.chunks.bytes f) u.elemSize
  | run {t : Dtype} {nij : Nat} {D : Type} {q : Call t nij D} {s s' : RunState t D}
      (h : run E q s = .ok s') (hlz4 : isLz4 q.pipe.decode = true) {f : Nat}
      (hf : f < q.chunks.nframes) : DecodesLz4 E (q.chunks.bytes f) t.size

section

variable {E : Platform}
  (hstock : ∀ src cap out, E.codecs.lz4DecompressSafe src cap = some out → Block src out.length)

include hstock

theorem unpackBlock_first {u : Unpack} (hlz4 : isLz4 u.decode = true) {g : Geometry} {f : Nat}
    {s s' : UnpackState} (hpos : s.pos = 12) (h : unpackBlock E u g f s 0 = .ok s') :
    Block (firstBytes (u.chunks.bytes f)) (firstBlock g.total g.blocksize u.elemSize) := by
  obtain ⟨n, hn, h⟩ := bind_eq_ok.mp h
  obtain rfl := (readSize_ok.mp hn).1
  rw [hpos] at h
  dsimp only at h
  split at h
  · cases h
  next planes hplanes =>
  obtain ⟨hlen, -⟩ := refuse_bind_ok.mp h
  have hsize : planes.length = firstBlock g.total g.blocksize u.elemSize := bne_eq_false_iff_eq.mp hlen
  rw [← hsize]
  exact decodePlain_block hstock hlz4 hplanes

variable {t : Dtype} {nij : Nat} {D : Type} {q : Call t nij D} {g : Geometry} {f : Nat}
  {s s' : RunState t D}

theorem blockStep_first (hlz4 : isLz4 q.pipe.decode = true) (hq : q.pixels = false)
    (hpos : s.cursors f = 12) (h : blockStep E q g 0 s f = .ok s') :
    Block (firstBytes (q.chunks.bytes f)) g.blocksize := by
  obtain ⟨⟨s₁, nbytes, nzEnd⟩, hdecode, -⟩ := bind_eq_ok.mp h
  unfold decodeStep at hdecode
  rw [hq] at hdecode
  obtain ⟨n, hn, hdecode⟩ := bind_eq_ok.mp hdecode
  obtain ⟨r, hr, -⟩ := bind_eq_ok.mp hdecode
  obtain rfl := (readSize_ok.mp hn).1
  rw [hpos] at hr
  exact decodeBlock_block hstock hlz4 hr

theorem tailStep_first (hlz4 : isLz4 q.pipe.decode = true) (h0 : q.tailBytes g ≠ 0)
    (hpos : s.cursors f = 12) (h : tailStep E q g s f = .ok s') :
    Block (firstBytes (q.chunks.bytes f)) (q.tailBytes g) := by
  obtain ⟨⟨s₁, nbytes⟩, htail, -⟩ := bind_eq_ok.mp h
  unfold tailBlockStep at htail
  dsimp only at htail
  rw [if_neg h0] at htail
  obtain ⟨n, hn, htail⟩ := bind_eq_ok.mp htail
  obtain rfl := (readSize_ok.mp hn).1
  rw [hpos] at htail
  have hdecode : isLz4 (tailDecode q.pipe.decode) = true := by
    unfold tailDecode
    split
    · next hz =>
      rw [hz] at hlz4
      exact hlz4
    · rfl
  split at htail
  · cases htail
  next planes hplanes =>
  obtain ⟨hlen, -⟩ := refuse_bind_ok.mp htail
  have hsize : planes.length = q.tailBytes g := by simpa using hlen
  rw [← hsize]
  exact decodePlain_block hstock hdecode hplanes

/-- The first block of a chunk that was decoded is a block of its size. -/
theorem decodesLz4_first {c : List Byte} {NB : Nat} (h : DecodesLz4 E c NB)
    (hblock : 0 < numBlocks (headerTotal c) (headerBlocksize c) NB) :
    0 < NB ∧ Block (firstBytes c) (firstBlock (headerTotal c) (headerBlocksize c) NB) := by
  cases h with
  | @decompress u s s' h hlz4 f hf =>
    obtain ⟨g, hg, hframes⟩ := bind_eq_ok.mp h
    have hhead := checkFrames_ok.mp (acceptUnpack_frames hg)
    rw [hhead.total f hf, hhead.blocksize f hf] at hblock ⊢
    constructor
    · have hsize := (refuse_bind_ok.mp hg).1
      by_contra hzero
      obtain hzero : u.elemSize = 0 := by omega
      rw [hzero] at hsize
      cases hsize
    obtain ⟨m, m', -, hframe⟩ := foldlM_range_step hf hframes
    obtain ⟨s₁, hblocks, -⟩ := bind_eq_ok.mp hframe
    obtain ⟨m₂, m₃, hnone, hfirst⟩ := foldlM_range_step hblock hblocks
    cases hnone
    exact unpackBlock_first hstock hlz4 rfl hfirst
  | @run t nij D q s s' h hlz4 f hf =>
    obtain ⟨g, hg, hrun⟩ := bind_eq_ok.mp h
    have hq : q.pixels = false := by
      unfold Call.pixels
      cases hd : q.pipe.decode with
      | pixels =>
        rw [hd] at hlz4
        cases hlz4
      | _ => rfl
    have hhead := checkFrames_ok.mp ((readGeometry_chunks hq).mp (accept_ok.mp hg).geometry)
    rw [hhead.total f hf, hhead.blocksize f hf] at hblock ⊢
    refine ⟨t.size_pos, ?_⟩
    obtain ⟨s₁, hrows, htails⟩ := bind_eq_ok.mp hrun
    unfold firstBlock
    by_cases hfull : 0 < g.total / g.blocksize
    · -- the first step of the first row
      rw [if_pos hfull]
      obtain ⟨m, m', hnone, hrow⟩ := foldlM_range_step hfull hrows
      cases hnone
      obtain ⟨m₂, m₃, hprev, hstep⟩ := foldlM_range_step hf hrow
      have hcur := runTo_cursor hq hf (b := 0) (f := f) (bind_eq_ok.mpr ⟨_, rfl, hprev⟩)
      exact blockStep_first hstock hlz4 hq (Option.some.inj hcur).symm hstep
    · -- no full block: the tail is the first one
      rw [if_neg hfull]
      have hzero : g.total / g.blocksize = 0 := Nat.eq_zero_of_not_pos hfull
      rw [numBlocks, hzero, Nat.zero_add] at hblock
      have h0 : q.tailBytes g ≠ 0 := by
        rw [Call.tailBytes, hq]
        intro hnone
        rw [if_neg (Bool.false_ne_true)] at hnone
        rw [hnone] at hblock
        exact absurd hblock (by decide)
      obtain ⟨m, m', hprev, hstep⟩ := foldlM_range_step hf htails
      have hcur := runTails_cursor hq hf le_rfl (bind_eq_ok.mpr ⟨s₁, hrows, hprev⟩)
      rw [hzero] at hcur
      have hblock := tailStep_first hstock hlz4 h0 (Option.some.inj hcur).symm hstep
      rwa [Call.tailBytes, hq, if_neg Bool.false_ne_true] at hblock

end

/-! ## The codec -/

theorem codecOfChunk_eq {c : List Byte} {total : Nat} (h : Block (firstBytes c) total)
    (h8 : 8 ≤ total) : codecOfChunk c = .lz4 := by
  unfold codecOfChunk
  rw [if_neg]
  intro hmagic
  have hsplit : c.drop 16 = zstdMagic ++ (c.drop 16).drop 4 := by
    rw [← hmagic, List.take_append_drop]
  rw [firstBytes, blockBytes, hsplit] at h
  exact block_not_magic h h8

/-- The zero-aware decoder fills 8 bytes or more from no byte string that starts with the zstd
magic number, and a chunk whose first block was decoded as lz4 is detected as lz4. The stock
decoder is only taken to accept nothing but blocks of the format. -/
theorem codecOfChunk_lz4 (E : Platform)
    (hstock : ∀ src cap out, E.codecs.lz4DecompressSafe src cap = some out → Block src out.length) :
    (∀ (sse2 : Bool) (src : List Byte) (cap slack : Nat) (dst : Buffer Byte) (ret : Int)
      (dst' : Buffer Byte) (nzEnd : Nat), dst.size = cap + slack → 8 ≤ cap →
      lz4DecodeZero sse2 (.ofList src 0#8) dst cap slack = some (.decoded ret dst' nzEnd) →
      ¬ zstdMagic <+: src) ∧
    ∀ (c : List Byte) (NB : Nat), DecodesLz4 E c NB →
      0 < numBlocks (headerTotal c) (headerBlocksize c) NB →
      8 * NB ∣ firstBlock (headerTotal c) (headerBlocksize c) NB → codecOfChunk c = .lz4 := by
  constructor
  · rintro sse2 src cap slack dst ret dst' nzEnd hdst h8 h ⟨rest, rfl⟩
    rcases Lz4.lz4DecodeZero_cases sse2 (zstdMagic ++ rest) cap slack dst hdst with
      ⟨out, dst₁, nz, hp, -, -, hout⟩ | ⟨-, hr⟩
    · have hblock := Lz4.plainDecode_block hp
      rw [hout.length, ← List.take_length (l := zstdMagic ++ rest)] at hblock
      exact block_not_magic hblock h8
    · rw [hr] at h
      cases h
  · intro c NB h hblock hmultiple
    obtain ⟨hpos, hfirst⟩ := decodesLz4_first hstock h hblock
    apply codecOfChunk_eq hfirst
    have hle : 8 * NB ≤ firstBlock (headerTotal c) (headerBlocksize c) NB := by
      apply Nat.le_of_dvd ?_ hmultiple
      unfold firstBlock
      split
      · exact headerBlocksize_pos c
      · next hnone =>
        rw [numBlocks, Nat.eq_zero_of_not_pos hnone, Nat.zero_add] at hblock
        by_contra hzero
        rw [if_neg hzero] at hblock
        exact Nat.lt_irrefl 0 hblock
    omega

/-- One block of 8 bytes, all literals. -/
def literalBlock : Chunks where
  nframes := 1
  bytes := fun _ => [0#8, 0#8, 0#8, 0#8, 0#8, 0#8, 0#8, 8#8, 0#8, 0#8, 0#8, 8#8, 0#8, 0#8, 0#8, 9#8,
    0x80#8, 0xB5#8, 0x2F#8, 0xFD#8, 4#8, 5#8, 6#8, 7#8, 8#8]
  nframes_lt := oneFrame_lt
  length_lt := fun _ => by decide

def literalUnpack : Unpack where
  chunks := literalBlock
  outLen := 8
  workspaceLen := 0
  elemSize := 1
  decode := .lz4Stock
  untranspose := .kcb
  unshuffle := false

theorem codecOfChunk_lz4_literal : codecOfChunk (literalBlock.bytes 0) = .lz4 :=
  (codecOfChunk_lz4 .plain fun _ _ _ h => Lz4.plainDecode_block h).2 _ 1
    (.decompress (u := literalUnpack) (s := ⟨fun _ => 0#8, fun _ => 0#8, fun _ => 0#8, 0, 0⟩) rfl rfl
      (f := 0) (by decide)) (by decide) (by decide)

end Bslz4ToSparse.Pipeline
