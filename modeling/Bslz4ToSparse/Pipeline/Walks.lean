import Bslz4ToSparse.Cuda.Unblock
import Bslz4ToSparse.Pipeline.Cursors

/-!
# The framing walks

Four loops walk the block sizes of a chunk: the one that only collects the starts, the two
decoders and the GPU. They accept the same chunks and read the blocks at the same places.
-/

namespace Bslz4ToSparse.Pipeline

open Cuda Dot Foundation Steps
open Lz4 (Byte)

variable {t : Dtype} {nij : Nat} {D : Type}

/-! ## The walk of the decompress -/

section

variable {E : Platform} {u : Unpack} {g : Geometry} {s s' : UnpackState} {b f : Nat}

theorem unpackBlock_pos (h : unpackBlock E u g f s b = .ok s') :
    nextPos (u.chunks.bytes f) s.pos = some s'.pos := by
  obtain ⟨n, hn, h⟩ := bind_eq_ok.mp h
  rw [(readSize_ok.mp hn).2]
  dsimp only at h
  split at h
  · cases h
  obtain ⟨-, -, h⟩ := bind_eq_ok.mp h
  split at h
  · split at h
    · cases h
    · cases h
      rfl
  · cases h
    rfl

theorem unpackBlocks_cursor (h : unpackBlocks E u g f b s = .ok s') :
    cursor (u.chunks.bytes f) b = some s'.pos := by
  refine foldlM_range_induct (fun k s => cursor (u.chunks.bytes f) k = some s.pos) rfl ?_ h
  intro k _ s s' hk hstep
  rw [cursor, hk]
  exact unpackBlock_pos hstep

theorem unpackBlock_corrupt (h : unpackBlock E u g f s b = .error .corruptChunk) :
    nextPos (u.chunks.bytes f) s.pos = none := by
  rcases bind_eq_error.mp h with hsize | ⟨n, -, hrest⟩
  · exact (readSize_error.mp hsize).2
  · exfalso
    refine Fails.of_eq (P := NotCorrupt) ?_ hrest rfl
    dsimp only
    split
    · exact nofun
    apply Fails.bind (refuse_fails _ (by decide))
    intro _
    split
    · split
      · exact nofun
      · exact Fails.ok _
    · exact Fails.ok _

theorem unpackBlocks_corrupt (h : unpackBlocks E u g f b s = .error .corruptChunk) :
    cursor (u.chunks.bytes f) b = none := by
  unfold unpackBlocks at h
  induction b with
  | zero => cases h
  | succ b ih =>
    rw [foldlM_range_succ] at h
    rw [cursor]
    rcases bind_eq_error.mp h with hb | ⟨m, hm, hlast⟩
    · rw [ih hb]
      rfl
    · rw [unpackBlocks_cursor hm]
      exact unpackBlock_corrupt hlast

/-- The decompress finds no chunk corrupt that its walk and its raw tail fill. -/
theorem unpackFrame_framed (h : Framed (u.chunks.bytes f) (numBlocks g.total g.blocksize u.elemSize)
    (rawTail g.total g.blocksize u.elemSize)) :
    unpackFrame E u g s f ≠ .error .corruptChunk := by
  obtain ⟨pos, hpos, hend⟩ := h
  intro herr
  rcases bind_eq_error.mp herr with hblocks | ⟨s₁, hblocks, hraw⟩
  · rw [unpackBlocks_corrupt hblocks] at hpos
    cases hpos
  · rw [unpackBlocks_cursor hblocks, Option.some_inj] at hpos
    unfold unpackRaw at hraw
    dsimp only at hraw
    split at hraw
    · cases hraw
    rcases bind_eq_error.mp hraw with hcheck | ⟨_, -, hok⟩
    · unfold refuse at hcheck
      split at hcheck
      · next hc =>
        simp only [Bool.or_eq_true, decide_eq_true_eq] at hc
        omega
      · cases hcheck
    · cases hok

theorem acceptUnpack_frames (h : acceptUnpack u = .ok g) :
    checkFrames u.chunks = .ok (g.total, g.blocksize) := by
  obtain ⟨-, h⟩ := refuse_bind_ok.mp h
  obtain ⟨-, h⟩ := refuse_bind_ok.mp h
  obtain ⟨⟨total, blocksize⟩, hc, h⟩ := bind_eq_ok.mp h
  obtain ⟨-, h⟩ := refuse_bind_ok.mp h
  obtain ⟨-, h⟩ := refuse_bind_ok.mp h
  obtain ⟨-, h⟩ := refuse_bind_ok.mp h
  obtain ⟨-, h⟩ := refuse_bind_ok.mp h
  cases h
  exact hc

end

/-! ## The walk of the run -/

section

variable {E : Platform} {q : Call t nij D} {g : Geometry} {s s' : RunState t D} {b f : Nat}

theorem numBlocks_chunks (hq : q.pixels = false) :
    numBlocks g.total g.blocksize t.size =
      g.total / g.blocksize + if q.tailBytes g = 0 then 0 else 1 := by
  rw [numBlocks, Call.tailBytes, hq]
  simp only [Bool.false_eq_true, if_false, Nat.pos_iff_ne_zero, ite_not]

/-- The blocks of a frame that its walk and its raw tail fill are not found corrupt. -/
theorem blockStep_framed (hq : q.pixels = false) (hf : f < q.chunks.nframes)
    (hb : b < g.total / g.blocksize)
    (h : Framed (q.chunks.bytes f) (numBlocks g.total g.blocksize t.size)
      (rawTail g.total g.blocksize t.size)) (hs : runTo E q g s b f = .ok s') :
    blockStep E q g b s' f ≠ .error .corruptChunk := by
  intro herr
  obtain ⟨pos, hpos, -⟩ := h
  have hnext := blockStep_corrupt herr
  have hsome : (cursor (q.chunks.bytes f) (b + 1)).isSome := by
    apply cursor_isSome_mono ?_ (Option.isSome_of_eq_some hpos)
    rw [numBlocks]
    omega
  rw [cursor, runTo_cursor hq hf hs, Option.bind_some, hnext] at hsome
  cases hsome

/-- Nor is their tail. -/
theorem tailStep_framed (hq : q.pixels = false) (hf : f < q.chunks.nframes)
    (h : Framed (q.chunks.bytes f) (numBlocks g.total g.blocksize t.size)
      (rawTail g.total g.blocksize t.size)) (hs : runTails E q g s f = .ok s') :
    tailStep E q g s' f ≠ .error .corruptChunk := by
  intro herr
  obtain ⟨pos, hpos, hend⟩ := h
  have hcur := runTails_cursor hq hf le_rfl hs
  rw [numBlocks_chunks hq] at hpos
  rcases tailStep_corrupt herr with ⟨h0, hnext⟩ | ⟨s₁, nbytes, htail, hraw⟩
  · rw [if_neg h0, cursor, hcur, Option.bind_some, hnext] at hpos
    cases hpos
  · have hmove := tailBlockStep_cursors htail
    have hlast : s₁.cursors f = pos := by
      split at hmove
      · next h0 =>
        rw [if_pos h0, Nat.add_zero, hcur, Option.some_inj] at hpos
        rw [hmove, hpos]
      · next h0 =>
        obtain ⟨pos', hpos', hcursors⟩ := hmove
        rw [if_neg h0, cursor, hcur, Option.bind_some, hpos', Option.some_inj] at hpos
        rw [hcursors, Function.update_self, hpos]
    have hbytes : q.rawBytes g = rawTail g.total g.blocksize t.size := by
      rw [Call.rawBytes, Call.tailBytes, hq]
      rfl
    omega

end

/-! ## All of them -/

/-- The starts that are written for chunk `f`. -/
def StartAt (ch : Chunks) (NB nstarts nblocks f b pos : Nat) : Prop :=
  (f * nblocks + b, pos) ∈ (blockStarts ch NB nstarts).stores

/-- What the four walks have in common for chunk `f` of a batch. -/
structure WalksAgree (ch : Chunks) (t : Dtype) (total blocksize nstarts f : Nat) : Prop where
  /-- Status 0: the sizes of the blocks stay in the chunk, which ends with its raw tail. -/
  status : (blockStarts ch t.size nstarts).status[f]? =
    some (!decide (Framed (ch.bytes f) (numBlocks total blocksize t.size)
      (rawTail total blocksize t.size)))
  /-- The run reads every block where its start is written, and finds nothing corrupt. -/
  run : ∀ {nij : Nat} {D : Type} (E : Platform) (q : Call t nij D) (g : Geometry)
    (s s' : RunState t D), q.chunks = ch → q.pixels = false → accept q = .ok g →
    Framed (ch.bytes f) (numBlocks total blocksize t.size) (rawTail total blocksize t.size) →
    (∀ b, b < total / blocksize → runTo E q g s b f = .ok s' →
      (∀ pos, StartAt ch t.size nstarts (numBlocks total blocksize t.size) f b pos ↔
        pos = s'.cursors f) ∧ blockStep E q g b s' f ≠ .error .corruptChunk) ∧
    (runTails E q g s f = .ok s' →
      (total / blocksize < numBlocks total blocksize t.size →
        ∀ pos, StartAt ch t.size nstarts (numBlocks total blocksize t.size) f (total / blocksize) pos ↔
          pos = s'.cursors f) ∧ tailStep E q g s' f ≠ .error .corruptChunk)
  /-- So does the decompress. -/
  decompress : ∀ (E : Platform) (u : Unpack) (g : Geometry) (s s' : UnpackState), u.chunks = ch →
    u.elemSize = t.size → acceptUnpack u = .ok g →
    Framed (ch.bytes f) (numBlocks total blocksize t.size) (rawTail total blocksize t.size) →
    (∀ b, b < numBlocks total blocksize t.size → unpackBlocks E u g f b s = .ok s' →
      ∀ pos, StartAt ch t.size nstarts (numBlocks total blocksize t.size) f b pos ↔ pos = s'.pos) ∧
    unpackFrame E u g s f ≠ .error .corruptChunk
  /-- Another batch with the same header gives a chunk the same status and the same starts. -/
  alone : ∀ (ch' : Chunks) (nstarts' f' : Nat), checkFrames ch' = .ok (total, blocksize) →
    ch'.nframes * numBlocks total blocksize t.size < 2 ^ 64 →
    ch'.nframes * numBlocks total blocksize t.size ≤ nstarts' → f' < ch'.nframes →
    ch'.bytes f' = ch.bytes f →
    (blockStarts ch' t.size nstarts').status[f']? = (blockStarts ch t.size nstarts).status[f]? ∧
      ∀ b pos, b < numBlocks total blocksize t.size →
        (StartAt ch' t.size nstarts' (numBlocks total blocksize t.size) f' b pos ↔
          StartAt ch t.size nstarts (numBlocks total blocksize t.size) f b pos)
  /-- The GPU accepts the chunks of 8 kB blocks without a zstd frame that have status 0. -/
  gpu : total < 2 ^ 32 → readBe32 (ch.bytes f) 8 = 0 ∨ readBe32 (ch.bytes f) 8 = 8192 →
    ¬ (20 ≤ (ch.bytes f).length ∧ readBe32 (ch.bytes f) 16 = zstdMagic) →
    ((unblock (ch.bytes f) (hostNstored total t.size) (hostTocopy total t.size) total).1 = 0 ↔
      (blockStarts ch t.size nstarts).status[f]? = some false) ∧
    ((unblock (ch.bytes f) (hostNstored total t.size) (hostTocopy total t.size) total).1 = 0 →
      ∀ b pos, b < numBlocks total blocksize t.size →
        ((b, pos) ∈ (unblock (ch.bytes f) (hostNstored total t.size) (hostTocopy total t.size) total).2 ↔
          StartAt ch t.size nstarts (numBlocks total blocksize t.size) f b pos))

/-- What is written for a chunk, from its own bytes. -/
theorem startAt_iff {ch : Chunks} {total blocksize NB nstarts f b pos : Nat}
    (h : Headed ch total blocksize) (he : 1 ≤ NB)
    (hroom : ch.nframes * numBlocks total blocksize NB % 2 ^ 64 ≤ nstarts) (hf : f < ch.nframes)
    (hb : b < numBlocks total blocksize NB) :
    StartAt ch NB nstarts (numBlocks total blocksize NB) f b pos ↔
      cursor (ch.bytes f) b = some pos ∧ (cursor (ch.bytes f) (b + 1)).isSome := by
  unfold StartAt
  rw [blockStarts_stores h he hroom]
  constructor
  · rintro ⟨f', b', hf', hb', hi, hc, hs⟩
    dsimp only at hi hc
    have hfeq : f = f' := by
      have h₁ := congrArg (· / numBlocks total blocksize NB) hi
      simp only [Nat.mul_comm _ (numBlocks total blocksize NB)] at h₁
      rwa [Nat.mul_add_div (by omega), Nat.mul_add_div (by omega), Nat.div_eq_of_lt hb,
        Nat.div_eq_of_lt hb'] at h₁
    subst hfeq
    obtain rfl : b = b' := by omega
    exact ⟨hc, hs⟩
  · rintro ⟨hc, hs⟩
    exact ⟨f, b, hf, hb, rfl, hc, hs⟩

/-- The framing walks agree on every chunk of a batch that the header check accepts. -/
theorem framing_walks_agree {ch : Chunks} {total blocksize : Nat} (t : Dtype) {nstarts f : Nat}
    (hc : checkFrames ch = .ok (total, blocksize))
    (hwrap : ch.nframes * numBlocks total blocksize t.size < 2 ^ 64)
    (hroom : ch.nframes * numBlocks total blocksize t.size ≤ nstarts) (hf : f < ch.nframes) :
    WalksAgree ch t total blocksize nstarts f := by
  have hhead := checkFrames_ok.mp hc
  have hpos := t.size_pos
  have hmod : ∀ n nstarts, n < 2 ^ 64 → n ≤ nstarts → n % 2 ^ 64 ≤ nstarts := by
    intro n nstarts hn hle
    rwa [Nat.mod_eq_of_lt hn]
  have hstatus : ∀ {ch : Chunks} {nstarts f : Nat}, Headed ch total blocksize →
      ch.nframes * numBlocks total blocksize t.size % 2 ^ 64 ≤ nstarts → f < ch.nframes →
      (blockStarts ch t.size nstarts).status[f]? =
        some (!decide (Framed (ch.bytes f) (numBlocks total blocksize t.size)
          (rawTail total blocksize t.size))) := by
    intro ch nstarts f hhead hroom hf
    rw [blockStarts_status hhead hpos hroom, List.getElem?_map, List.getElem?_range hf]
    rfl
  have hroom' := hmod _ _ hwrap hroom
  have hstart : ∀ b pos, b < numBlocks total blocksize t.size →
      Framed (ch.bytes f) (numBlocks total blocksize t.size) (rawTail total blocksize t.size) →
      (StartAt ch t.size nstarts (numBlocks total blocksize t.size) f b pos ↔
        cursor (ch.bytes f) b = some pos) := by
    intro b pos hb hframed
    obtain ⟨last, hlast, -⟩ := hframed
    rw [startAt_iff hhead hpos hroom' hf hb]
    exact and_iff_left (cursor_isSome_mono hb (Option.isSome_of_eq_some hlast))
  refine ⟨hstatus hhead hroom' hf, ?_, ?_, ?_, ?_⟩
  · rintro nij D E q g s s' rfl hq hg hframed
    obtain ⟨rfl, rfl⟩ : total = g.total ∧ blocksize = g.blocksize := by
      have hgeom := (readGeometry_chunks hq).mp (accept_ok.mp hg).geometry
      rw [hc] at hgeom
      exact Prod.mk.inj (Except.ok.inj hgeom)
    constructor
    · intro b hb hs
      refine ⟨fun pos => ?_, blockStep_framed hq hf hb hframed hs⟩
      rw [hstart b pos (by rw [numBlocks]; omega) hframed, runTo_cursor hq hf hs, Option.some_inj,
        eq_comm]
    · intro hs
      refine ⟨fun htail pos => ?_, tailStep_framed hq hf hframed hs⟩
      rw [hstart _ pos htail hframed, runTails_cursor hq hf le_rfl hs, Option.some_inj, eq_comm]
  · rintro E u g s s' rfl hsize hg hframed
    obtain ⟨rfl, rfl⟩ : total = g.total ∧ blocksize = g.blocksize := by
      have hgeom := acceptUnpack_frames hg
      rw [hc] at hgeom
      exact Prod.mk.inj (Except.ok.inj hgeom)
    constructor
    · intro b hb hs pos
      rw [hstart b pos hb hframed, unpackBlocks_cursor hs, Option.some_inj, eq_comm]
    · rw [← hsize] at hframed
      exact unpackFrame_framed hframed
  · intro ch' nstarts' f' hc' hwrap' hroom₂ hf' hbytes
    have hhead' := checkFrames_ok.mp hc'
    have hroom₂' := hmod _ _ hwrap' hroom₂
    constructor
    · rw [hstatus hhead' hroom₂' hf', hstatus hhead hroom' hf, hbytes]
    · intro b pos hb
      rw [startAt_iff hhead' hpos hroom₂' hf' hb, startAt_iff hhead hpos hroom' hf hb, hbytes]
  · intro h32 hsize hmagic
    have hblocksize : blocksize = defaultBlockBytes := by
      rw [← hhead.blocksize f hf, headerBlocksize]
      unfold defaultBlockBytes
      split
      · rfl
      · omega
    subst hblocksize
    have hspec := @unblock_spec _ (numBlocks total defaultBlockBytes t.size)
      (rawTail total defaultBlockBytes t.size) _ (hhead.length f hf) (hhead.total f hf) h32
      hsize hmagic
    rw [hostNstored_eq, hostTocopy_eq, hspec.1, hstatus hhead hroom' hf]
    constructor
    · simp
    · intro hframed b pos hb
      rw [hspec.2 (hspec.1.mpr hframed), hstart b pos hb hframed]
      exact and_iff_right hb

/-- One block of 8 bytes, stored in 3. -/
def oneBlock : Chunks where
  nframes := 1
  bytes := fun _ => [0#8, 0#8, 0#8, 0#8, 0#8, 0#8, 0#8, 8#8, 0#8, 0#8, 0#8, 8#8, 0#8, 0#8, 0#8, 3#8,
    0x10#8, 0#8, 0#8]
  nframes_lt := oneFrame_lt
  length_lt := fun _ => by decide

theorem framing_walks_agree_oneBlock : WalksAgree oneBlock .u8 8 8 1 0 :=
  framing_walks_agree .u8 rfl (by decide) (by decide) (by decide)

end Bslz4ToSparse.Pipeline
