import Bslz4ToSparse.Foundation.Tiles
import Bslz4ToSparse.Foundation.Warp
import Bslz4ToSparse.Lz4.Format
import Bslz4ToSparse.Lz4.Tracks

/-!
# The LZ4 decoder of a warp

`nvcomp_lz4.cuh`: the 32 lanes of a warp decode a block together. They keep a window of the
block in shared memory, read the lengths each for itself, and share the bytes of every copy.
Nothing orders the lanes but the barriers.
-/

namespace Bslz4ToSparse.Cuda

open Foundation Lz4

/-! ## The code -/

/-- What `compData`, `buffer` and `decompData` point to. -/
inductive Cell where
  | comp (i : Int)
  | buffer (i : Nat)
  | decomp (i : Int)
  deriving DecidableEq

abbrev Lane (β : Type) := Thread Cell Byte β

/-- `position_type`. -/
def position (x : Int) : Nat := (x % 2 ^ 32).toNat

/-- `DECOMP_THREADS_PER_CHUNK`. -/
def threadsPerChunk : Nat := 32

/-- `DECOMP_INPUT_BUFFER_SIZE`. -/
def inputBufferSize : Nat := 256

/-- `DECOMP_BUFFER_PREFETCH_DIST`. -/
def prefetchDist : Nat := 128

/-- `compData` is an address. -/
structure BufferControl where
  compData : Nat
  length : Nat
  offset : Int

namespace BufferControl

/-- `begin`. -/
def start (c : BufferControl) : Nat := position c.offset

/-- `end`. -/
def stop (c : BufferControl) : Nat := position (c.offset + inputBufferSize)

/-- `rawAt`, counted from the buffer. -/
def rawAt (c : BufferControl) (i : Nat) : Nat := position ((i : Int) - c.start)

def setAndAlignOffset (c : BufferControl) (offset : Nat) : BufferControl :=
  { c with offset := ((c.compData + offset) / 8 * 8 : Nat) - (c.compData : Int) }

/-- One word of `loadAt`. -/
def loadWord (c : BufferControl) (lane : Nat) : Lane Unit := do
  let bytes ← .gets ((List.range 8).map fun b => .comp (c.offset + (8 * lane + b : Nat)))
  .puts ((List.range 8).map fun b => (.buffer (8 * lane + b), bytes.getD b 0#8))

/-- The other way of `loadAt`: only bytes of the block. -/
def loadBytes (c : BufferControl) (lane : Nat) : Lane Unit :=
  ((strided lane inputBufferSize threadsPerChunk).filter fun i : Nat => decide (c.offset + i < c.length)).forM
    fun i => .get (.comp (c.offset + i)) >>= .put (.buffer i)

def load (c : BufferControl) (lane : Nat) : Lane Unit :=
  if c.offset + inputBufferSize ≤ c.length then c.loadWord lane else c.loadBytes lane

def loadAt (c : BufferControl) (lane offset : Nat) : Lane BufferControl := do
  (c.setAndAlignOffset offset).load lane
  Thread.barrier
  return c.setAndAlignOffset offset

/-- The loop of `readLSIC` over the buffer. -/
def readBuffer (c : BufferControl) : Nat → Nat → Byte → Nat → Lane (Nat × Byte × Nat)
  | 0, _, _, _ => .fail
  | fuel + 1, num, next, idx =>
      if next = 0xFF#8 ∧ idx < c.stop then do
        let next ← .get (.buffer (c.rawAt idx))
        c.readBuffer fuel (position (num + next.toNat)) next (position (idx + 1))
      else
        return (num, next, idx)

/-- The loop of `readLSIC` over `m_compData`. -/
def readComp : Nat → Nat → Byte → Nat → Lane (Nat × Nat)
  | 0, _, _, _ => .fail
  | fuel + 1, num, next, idx =>
      if next = 0xFF#8 then do
        let next ← .get (.comp idx)
        readComp fuel (position (num + next.toNat)) next (position (idx + 1))
      else
        return (num, idx)

def readLSIC (c : BufferControl) (fuel idx : Nat) : Lane (Nat × Nat) := do
  let (num, next, idx) ← c.readBuffer fuel 0 0xFF#8 idx
  readComp fuel num next idx

/-- A length of four bits of the token, after `base`. -/
def readLength (c : BufferControl) (fuel base bits idx : Nat) : Lane (Nat × Nat) :=
  if bits = 15 then do
    let (num, idx) ← c.readLSIC fuel idx
    return (position (base + num), idx)
  else
    return (base, idx)

end BufferControl

def coopCopyNoOverlap (lane : Nat) (dest source : Nat → Cell) (length : Nat) : Lane Unit :=
  (strided lane length threadsPerChunk).forM fun i => .get (source i) >>= .put (dest i)

def coopCopyRepeat (lane : Nat) (dest source : Nat → Cell) (dist length : Nat) : Lane Unit :=
  (strided lane length threadsPerChunk).forM fun i => .get (source (i % dist)) >>= .put (dest i)

def coopCopyOverlap (lane : Nat) (dest source : Nat → Cell) (dist length : Nat) : Lane Unit :=
  if dist < length then coopCopyRepeat lane dest source dist length
  else coopCopyNoOverlap lane dest source length

/-- `readWord`. -/
def readWord (address : Nat → Cell) : Lane Nat := do
  let lo ← .get (address 0)
  let hi ← .get (address 1)
  return lo.toNat ||| hi.toNat <<< 8

/-! `decompressStream`, in parts. -/

namespace BufferControl

def prefetch (c : BufferControl) (lane compIdx : Nat) : Lane BufferControl :=
  if c.stop < position (compIdx + prefetchDist) then c.loadAt lane compIdx else pure c

def copyLiterals (c : BufferControl) (lane decompIdx compIdx numLiterals : Nat) : Lane Unit :=
  if c.stop < position (numLiterals + compIdx) then
    coopCopyNoOverlap lane (fun i => .decomp (decompIdx + i)) (fun i => .comp (compIdx + i)) numLiterals
  else
    coopCopyNoOverlap lane (fun i => .decomp (decompIdx + i)) (fun i => .buffer (c.rawAt compIdx + i))
      numLiterals

def readOffset (c : BufferControl) (compIdx : Nat) : Lane Nat :=
  if c.stop < position (compIdx + 2) then readWord fun i => .comp (compIdx + i)
  else readWord fun i => .buffer (c.rawAt compIdx + i)

/-- Out of the literals in the buffer, or out of the output. -/
def copyMatch (c : BufferControl) (lane decompIdx literalStart numLiterals offset length : Nat) :
    Lane Unit :=
  if offset ≤ numLiterals ∧ c.start ≤ literalStart ∧ position (literalStart + numLiterals) ≤ c.stop then do
    coopCopyOverlap lane (fun i => .decomp (decompIdx + i))
      (fun i => .buffer (c.rawAt (position (literalStart + position (numLiterals - offset))) + i)) offset length
    Thread.barrier
  else do
    Thread.barrier
    coopCopyOverlap lane (fun i => .decomp (decompIdx + i)) (fun i => .decomp (decompIdx - offset + i))
      offset length

/-- What follows the literals of a sequence: the offset, the length and the match. -/
def matchOf (c : BufferControl) (lane fuel bits literalStart numLiterals decompIdx compIdx : Nat) :
    Lane (Nat × Nat) :=
  if compIdx < c.length then do
    let offset ← c.readOffset compIdx
    let (length, compIdx) ← c.readLength fuel (4 + bits) bits (position (compIdx + 2))
    c.copyMatch lane decompIdx literalStart numLiterals offset length
    return (position (decompIdx + length), compIdx)
  else
    return (decompIdx, compIdx)

/-- A turn of the loop, after the prefetch. -/
def sequence (c : BufferControl) (lane fuel decompIdx compIdx : Nat) : Lane (Nat × Nat) := do
  let token ← .get (.buffer (c.rawAt compIdx))
  let (numLiterals, literalStart) ←
    c.readLength fuel (token.toNat / 16) (token.toNat / 16) (position (compIdx + 1))
  c.copyLiterals lane decompIdx literalStart numLiterals
  c.matchOf lane fuel (token.toNat % 16) literalStart numLiterals (position (decompIdx + numLiterals))
    (position (literalStart + numLiterals))

/-- The loop of `decompressStream`. -/
def sequences (lane : Nat) : Nat → BufferControl → Nat → Nat → Lane Unit
  | 0, _, _, _ => .fail
  | fuel + 1, c, decompIdx, compIdx =>
      if compIdx < c.length then do
        let c ← c.prefetch lane compIdx
        let (decompIdx, compIdx) ← c.sequence lane fuel decompIdx compIdx
        sequences lane fuel c decompIdx compIdx
      else
        return ()

end BufferControl

/-- `decompressStream` of one lane; `fuel` bounds the turns of every loop. -/
def decompressStream (compData compEnd fuel lane : Nat) : Lane Unit := do
  let c ← BufferControl.loadAt ⟨compData, compEnd, 0⟩ lane 0
  c.sequences lane fuel 0 0

/-- The warp at the start. -/
def streamWarp (compData compEnd fuel : Nat) (mem : Cell → Byte) : Warp (Fin 32) Cell Byte :=
  ⟨mem, fun lane => decompressStream compData compEnd fuel lane⟩

/-! ## The buffer -/

theorem position_natCast {n : Nat} (h : n < 2 ^ 32) : position n = n := by
  unfold position
  omega

theorem position_eq {x : Int} {n : Nat} (hx : x = n) (h : n < 2 ^ 32) : position x = n := by
  rw [hx, position_natCast h]

/-- The cells that may be read while the output up to `done` is stored. -/
def Readable (len written : Nat) : Cell → Prop
  | .comp i => -8 < i ∧ i < len
  | .buffer i => i < inputBufferSize
  | .decomp i => 0 ≤ i ∧ i < written

/-- The memory holds the block, and the buffer a window of it. -/
structure View (mem : Cell → Byte) (c : BufferControl) (src : List Byte) : Prop where
  length : c.length = src.length
  low : -8 < c.offset
  comp : ∀ i : Nat, i < src.length → mem (.comp i) = src.getD i 0#8
  staged : ∀ i k : Nat, i < src.length → (i : Int) = c.offset + k → k < inputBufferSize →
    mem (.buffer k) = src.getD i 0#8

namespace BufferControl

variable {c : BufferControl} {i : Nat}

theorem stop_eq (hlow : -8 < c.offset) (hle : c.offset ≤ i) (hi : i < 2 ^ 31) :
    (c.stop : Int) = c.offset + inputBufferSize := by
  unfold stop position inputBufferSize
  omega

theorem rawAt_eq (hlow : -8 < c.offset) (hle : c.offset ≤ i) (hi : i < 2 ^ 31) :
    (c.rawAt i : Int) = i - c.offset := by
  unfold rawAt start position
  omega

end BufferControl

namespace View

variable {mem : Cell → Byte} {c : BufferControl} {src : List Byte} {i : Nat} (written : Nat)

/-- A byte of the window. -/
theorem buffered (h : View mem c src) (hsrc : src.length < 2 ^ 31) (hle : c.offset ≤ i) {k : Nat}
    (hi : i + k < src.length) (hstop : i + k < c.stop) :
    mem (.buffer (c.rawAt i + k)) = src.getD (i + k) 0#8 ∧ Readable src.length written (.buffer (c.rawAt i + k)) := by
  have hraw := BufferControl.rawAt_eq h.low hle (show i < 2 ^ 31 by omega)
  have hend := BufferControl.stop_eq h.low hle (show i < 2 ^ 31 by omega)
  have hroom : c.rawAt i + k < inputBufferSize := by omega
  exact ⟨h.staged (i + k) _ hi (by omega) hroom, hroom⟩

theorem readable (hi : i < src.length) : Readable src.length written (.comp i) := ⟨by omega, by omega⟩

end View

/-! ## The lengths -/

theorem drop_cons {src inp : List Byte} {b : Byte} {idx : Nat} (h : src.drop idx = b :: inp) :
    idx < src.length ∧ src.getD idx 0#8 = b ∧ src.drop (idx + 1) = inp := by
  have hlt : idx < src.length := by
    by_contra hle
    rw [List.drop_eq_nil_of_le (Nat.le_of_not_lt hle)] at h
    cases h
  rw [List.drop_eq_getElem_cons hlt] at h
  obtain ⟨hb, hinp⟩ := List.cons.inj h
  refine ⟨hlt, ?_, hinp⟩
  rw [List.getD_eq_getElem _ _ hlt]
  exact hb

section

variable {mem : Cell → Byte} {c : BufferControl} {src : List Byte} (written : Nat)

/-- Where the bytes of a length have been read up to. -/
structure LengthAt (src rest : List Byte) (total num len idx : Nat) : Prop where
  le : idx ≤ src.length
  plain : plainLength (src.drop idx) len = some (rest, total)
  small : num + (total - len) < 2 ^ 32

/-- One more byte. -/
theorem LengthAt.next {rest : List Byte} {total num len idx : Nat} (h : LengthAt src rest total num len idx) :
    idx < src.length ∧
      (src.getD idx 0#8 = 0xFF#8 ∧ LengthAt src rest total (num + 255) (len + 255) (idx + 1) ∧
          num + 255 + (total - (len + 255)) = num + (total - len) ∨
        src.getD idx 0#8 ≠ 0xFF#8 ∧ src.drop (idx + 1) = rest ∧ total = len + (src.getD idx 0#8).toNat) := by
  have hplain := h.plain
  generalize hinp : src.drop idx = inp at hplain
  cases inp with
  | nil => cases hplain
  | cons b inp =>
    obtain ⟨hlt, hb, hdrop⟩ := drop_cons hinp
    refine ⟨hlt, ?_⟩
    rw [hb]
    unfold plainLength at hplain
    by_cases hff : b.toNat = 255
    · rw [if_pos hff] at hplain
      have htotal := (plainLength_length hplain).2
      dsimp only at htotal
      have hsmall := h.small
      exact Or.inl ⟨BitVec.eq_of_toNat_eq hff, ⟨hlt, hdrop ▸ hplain, by omega⟩, by omega⟩
    · rw [if_neg hff] at hplain
      obtain ⟨hrest, htotal⟩ := Prod.mk.inj (Option.some.inj hplain)
      refine Or.inr ⟨fun h => hff (congrArg BitVec.toNat h), hdrop.trans hrest, htotal.symm⟩

theorem readBuffer_spec (h : View mem c src) (hsrc : src.length < 2 ^ 31) {rest : List Byte} {total : Nat} :
    ∀ {fuel num len idx : Nat}, LengthAt src rest total num len idx → c.offset ≤ idx →
      src.length - idx < fuel →
      ∃ num' next idx', Phase (Readable src.length written) mem (c.readBuffer fuel num 0xFF#8 idx) []
          (.done (num', next, idx')) ∧ idx ≤ idx' ∧ src.length - idx' < fuel ∧
        (next ≠ 0xFF#8 ∧ num' = num + (total - len) ∧ idx' ≤ src.length ∧ src.drop idx' = rest ∨
          next = 0xFF#8 ∧ ∃ len', LengthAt src rest total num' len' idx' ∧
            num' + (total - len') = num + (total - len)) := by
  intro fuel
  induction fuel with
  | zero => intro num len idx _ _ hfuel; exact absurd hfuel (Nat.not_lt_zero _)
  | succ fuel ih =>
    intro num len idx hat hle hfuel
    obtain ⟨hlt, hnext⟩ := hat.next
    have hsmall := hat.small
    unfold BufferControl.readBuffer
    by_cases hstop : idx < c.stop
    · rw [if_pos ⟨rfl, hstop⟩]
      obtain ⟨hbyte, hR⟩ := h.buffered written (k := 0) hsrc hle (by omega) (by omega)
      rw [Nat.add_zero] at hbyte hR
      have hget := Phase.get mem hR
      rw [hbyte, Nat.add_zero] at hget
      have hidx : position ((idx : Int) + 1) = idx + 1 := position_eq (by omega) (by omega)
      rcases hnext with ⟨hff, hat', hsum⟩ | ⟨hff, hdrop, htotal⟩
      · have hnum : position ((num : Int) + (src.getD idx 0#8).toNat) = num + 255 := by
          rw [hff]
          exact position_eq rfl (by have := hat'.small; omega)
        obtain ⟨num', next, idx', hphase, hle', hfuel', hcases⟩ := ih hat' (by omega) (by omega)
        refine ⟨num', next, idx', hget.andThen_nil ?_, by omega, by omega, ?_⟩
        · rw [hnum, hidx, hff]
          exact hphase
        · rwa [hsum] at hcases
      · have hnum : position ((num : Int) + (src.getD idx 0#8).toNat) = num + (total - len) :=
          position_eq (by omega) (by omega)
        refine ⟨num + (total - len), src.getD idx 0#8, idx + 1, hget.andThen_nil ?_, by omega, by omega,
          Or.inl ⟨hff, rfl, hlt, hdrop⟩⟩
        rw [hnum, hidx]
        cases fuel with
        | zero => omega
        | succ fuel =>
          unfold BufferControl.readBuffer
          rw [if_neg fun h => hff h.1]
          exact .refl _
    · rw [if_neg fun h => hstop h.2]
      exact ⟨num, 0xFF#8, idx, .refl _, le_rfl, hfuel, Or.inr ⟨rfl, len, hat, rfl⟩⟩

theorem readComp_spec (h : View mem c src) (hsrc : src.length < 2 ^ 31) {rest : List Byte} {total : Nat} :
    ∀ {fuel num len idx : Nat}, LengthAt src rest total num len idx → src.length - idx < fuel →
      ∃ idx', Phase (Readable src.length written) mem (BufferControl.readComp fuel num 0xFF#8 idx) []
          (.done (num + (total - len), idx')) ∧ idx ≤ idx' ∧ idx' ≤ src.length ∧ src.drop idx' = rest := by
  intro fuel
  induction fuel with
  | zero => intro num len idx _ hfuel; exact absurd hfuel (Nat.not_lt_zero _)
  | succ fuel ih =>
    intro num len idx hat hfuel
    obtain ⟨hlt, hnext⟩ := hat.next
    have hsmall := hat.small
    unfold BufferControl.readComp
    rw [if_pos rfl]
    have hget := Phase.get mem (View.readable written hlt)
    rw [h.comp idx hlt] at hget
    have hidx : position ((idx : Int) + 1) = idx + 1 := position_eq (by omega) (by omega)
    rcases hnext with ⟨hff, hat', hsum⟩ | ⟨hff, hdrop, htotal⟩
    · have hnum : position ((num : Int) + (src.getD idx 0#8).toNat) = num + 255 := by
        rw [hff]
        exact position_eq rfl (by have := hat'.small; omega)
      obtain ⟨idx', hphase, hle', hend⟩ := ih hat' (by omega)
      refine ⟨idx', hget.andThen_nil ?_, by omega, hend⟩
      rw [hnum, hidx, hff, ← hsum]
      exact hphase
    · have hnum : position ((num : Int) + (src.getD idx 0#8).toNat) = num + (total - len) :=
        position_eq (by omega) (by omega)
      refine ⟨idx + 1, hget.andThen_nil ?_, by omega, hlt, hdrop⟩
      rw [hnum, hidx]
      cases fuel with
      | zero => omega
      | succ fuel =>
        unfold BufferControl.readComp
        rw [if_neg hff]
        exact .refl _

theorem readLSIC_spec (h : View mem c src) (hsrc : src.length < 2 ^ 31) {rest : List Byte}
    {fuel total len idx : Nat} (hat : LengthAt src rest total 0 len idx) (hle : c.offset ≤ idx)
    (hfuel : src.length - idx < fuel) :
    ∃ idx', Phase (Readable src.length written) mem (c.readLSIC fuel idx) [] (.done (total - len, idx')) ∧
      idx ≤ idx' ∧ idx' ≤ src.length ∧ src.drop idx' = rest := by
  obtain ⟨num, next, idx₁, hbuffer, hle₁, hfuel₁, hcases⟩ :=
    readBuffer_spec written h hsrc hat hle hfuel
  rcases hcases with ⟨hff, hnum, hend, hdrop⟩ | ⟨hff, len', hat', hsum⟩
  · rw [Nat.zero_add] at hnum
    subst hnum
    have hdone : Phase (Readable src.length written) mem (BufferControl.readComp fuel (total - len) next idx₁)
        [] (.done (total - len, idx₁)) := by
      cases fuel with
      | zero => omega
      | succ fuel =>
        unfold BufferControl.readComp
        rw [if_neg hff]
        exact .refl _
    exact ⟨idx₁, hbuffer.andThen_nil hdone, hle₁, hend, hdrop⟩
  · obtain ⟨idx₂, hcomp, hle₂, hend, hdrop⟩ := readComp_spec written h hsrc hat' hfuel₁
    rw [hsum, Nat.zero_add] at hcomp
    subst hff
    exact ⟨idx₂, hbuffer.andThen_nil hcomp, hle₁.trans hle₂, hend, hdrop⟩

/-- A length: the same as in the plain decoder, wherever the lane finds its bytes. -/
theorem readLength_spec (h : View mem c src) (hsrc : src.length < 2 ^ 31) {rest : List Byte}
    (fuel base : Nat) {bits n idx : Nat} (hrun : plainRun (src.drop idx) bits = some (rest, n)) (hidx : idx ≤ src.length)
    (hle : c.offset ≤ idx) (hfuel : src.length - idx < fuel) (hsmall : base + (n - bits) < 2 ^ 32) :
    ∃ idx', Phase (Readable src.length written) mem (c.readLength fuel base bits idx) []
        (.done (base + (n - bits), idx')) ∧ idx ≤ idx' ∧ idx' ≤ src.length ∧ src.drop idx' = rest := by
  unfold plainRun at hrun
  unfold BufferControl.readLength
  by_cases hbits : bits = 15
  · subst hbits
    rw [if_pos rfl] at hrun
    rw [if_pos rfl]
    have hat : LengthAt src rest n 0 15 idx := ⟨hidx, hrun, by omega⟩
    obtain ⟨idx', hphase, hend⟩ := readLSIC_spec written h hsrc hat hle hfuel
    have hsum : position ((base : Int) + (n - 15 : Nat)) = base + (n - 15) := position_eq (by omega) hsmall
    refine ⟨idx', hphase.andThen_nil ?_, hend⟩
    rw [← hsum]
    exact .refl _
  · rw [if_neg hbits] at hrun
    rw [if_neg hbits]
    obtain ⟨hrest, hn⟩ := Prod.mk.inj (Option.some.inj hrun)
    subst hn
    rw [Nat.sub_self, Nat.add_zero]
    exact ⟨idx, .refl _, le_rfl, hidx, hrest⟩

/-! ## The copies -/

/-- What a lane stores of `bytes`, at `written` of the output. -/
def share (bytes : List Byte) (written lane : Nat) : List (Cell × Byte) :=
  (strided lane bytes.length threadsPerChunk).map fun i : Nat => (.decomp (written + i), bytes.getD i 0#8)

theorem coopCopyNoOverlap_spec {R : Cell → Prop} {lane n : Nat} (source : Nat → Cell) {bytes : List Byte}
    (hlen : bytes.length = n) (hsource : ∀ i, i < n → mem (source i) = bytes.getD i 0#8 ∧ R (source i)) :
    Phase R mem (coopCopyNoOverlap lane (fun i => .decomp (written + i)) source n) (share bytes written lane)
      (.done ()) := by
  have hlt : ∀ i ∈ strided lane n threadsPerChunk, i < n := fun i hi => ((mem_strided (by decide)).mp hi).2.1
  have hcopies : Phase R mem ((strided lane n threadsPerChunk).forM fun i : Nat =>
      Thread.get (source i) >>= Thread.put (Cell.decomp (written + i)))
      ((strided lane n threadsPerChunk).map fun i : Nat => (Cell.decomp (written + i), mem (source i))) (.done ()) :=
    Phase.copies (fun i : Nat => Cell.decomp (written + i)) source fun i hi => (hsource i (hlt i hi)).2
  have hshare : share bytes written lane =
      (strided lane n threadsPerChunk).map fun i : Nat => (Cell.decomp (written + i), mem (source i)) := by
    unfold share
    rw [hlen]
    refine List.map_congr_left fun i hi => ?_
    rw [(hsource i (hlt i hi)).1]
  rw [hshare]
  exact hcopies

theorem coopCopyOverlap_spec {R : Cell → Prop} {lane dist n : Nat} {source : Nat → Cell} {bytes : List Byte}
    (hlen : bytes.length = n)
    (hsource : ∀ i, i < n → mem (source (i % dist)) = bytes.getD i 0#8 ∧ R (source (i % dist))) :
    Phase R mem (coopCopyOverlap lane (fun i => .decomp (written + i)) source dist n) (share bytes written lane)
      (.done ()) := by
  unfold coopCopyOverlap
  by_cases hdist : dist < n
  · rw [if_pos hdist]
    exact coopCopyNoOverlap_spec _ (fun i => source (i % dist)) hlen hsource
  · rw [if_neg hdist]
    refine coopCopyNoOverlap_spec _ source hlen fun i hi => ?_
    have hsame := hsource i hi
    rwa [Nat.mod_eq_of_lt (by omega)] at hsame

/-- The literals of a sequence. -/
def literals (src : List Byte) (idx n : Nat) : List Byte := (src.drop idx).take n

theorem length_literals {idx n : Nat} (h : idx + n ≤ src.length) : (literals src idx n).length = n := by
  unfold literals
  rw [List.length_take, List.length_drop]
  omega

theorem getD_literals {idx n i : Nat} (hi : i < n) : (literals src idx n).getD i 0#8 = src.getD (idx + i) 0#8 := by
  unfold literals
  simp only [List.getD_eq_getElem?_getD, List.getElem?_take, hi, if_true, List.getElem?_drop]

theorem copyLiterals_spec (h : View mem c src) (hsrc : src.length < 2 ^ 31) (lane decompIdx : Nat) {idx n : Nat}
    (hle : c.offset ≤ idx) (hn : idx + n ≤ src.length) :
    Phase (Readable src.length written) mem (c.copyLiterals lane decompIdx idx n)
      (share (literals src idx n) decompIdx lane) (.done ()) := by
  unfold BufferControl.copyLiterals
  have hsum : position ((n : Int) + idx) = n + idx := position_eq (by omega) (by omega)
  rw [hsum]
  by_cases hstop : c.stop < n + idx
  · rw [if_pos hstop]
    refine coopCopyNoOverlap_spec _ (fun i => .comp (idx + i)) (length_literals hn) fun i hi => ?_
    rw [getD_literals hi]
    have hcell : ((idx : Int) + i) = (idx + i : Nat) := by omega
    rw [hcell]
    exact ⟨h.comp _ (by omega), View.readable written (by omega)⟩
  · rw [if_neg hstop]
    refine coopCopyNoOverlap_spec _ (fun i => .buffer (c.rawAt idx + i)) (length_literals hn)
      fun i hi => ?_
    rw [getD_literals hi]
    exact h.buffered written hsrc hle (by omega) (by omega)

theorem word_eq (lo hi : Byte) : lo.toNat ||| hi.toNat <<< 8 = lo.toNat + 256 * hi.toNat := by
  have hor := Nat.two_pow_add_eq_or_of_lt (i := 8) lo.isLt hi.toNat
  rw [Nat.shiftLeft_eq, Nat.mul_comm hi.toNat, Nat.or_comm, ← hor]
  omega

theorem readOffset_spec (h : View mem c src) (hsrc : src.length < 2 ^ 31) (idx : Nat)
    (hle : c.offset ≤ idx) (hn : idx + 2 ≤ src.length) :
    Phase (Readable src.length written) mem (c.readOffset idx) []
      (.done ((src.getD idx 0#8).toNat + 256 * (src.getD (idx + 1) 0#8).toNat)) := by
  have hword : ∀ address : Nat → Cell, (∀ k, k < 2 → mem (address k) = src.getD (idx + k) 0#8 ∧
      Readable src.length written (address k)) → Phase (Readable src.length written) mem (readWord address) []
      (.done ((src.getD idx 0#8).toNat + 256 * (src.getD (idx + 1) 0#8).toNat)) := by
    intro address haddress
    obtain ⟨hlo, hRlo⟩ := haddress 0 (by decide)
    obtain ⟨hhi, hRhi⟩ := haddress 1 (by decide)
    have hgetlo := Phase.get mem hRlo
    have hgethi := Phase.get mem hRhi
    rw [hlo, Nat.add_zero] at hgetlo
    rw [hhi] at hgethi
    refine hgetlo.andThen_nil (hgethi.andThen_nil ?_)
    rw [word_eq]
    exact .refl _
  unfold BufferControl.readOffset
  have hsum : position ((idx : Int) + 2) = idx + 2 := position_eq (by omega) (by omega)
  rw [hsum]
  by_cases hstop : c.stop < idx + 2
  · rw [if_pos hstop]
    refine hword _ fun k hk => ?_
    have hcell : ((idx : Int) + k) = (idx + k : Nat) := by omega
    rw [hcell]
    exact ⟨h.comp _ (by omega), View.readable written (by omega)⟩
  · rw [if_neg hstop]
    exact hword _ fun k hk => h.buffered written hsrc hle (by omega) (by omega)

/-- The bytes of a match. -/
def matched (out : List Byte) (offset n : Nat) : List Byte := (Lz4.copyMatch offset n out).drop out.length

theorem copyMatch_eq (out : List Byte) (offset n : Nat) :
    Lz4.copyMatch offset n out = out ++ matched out offset n := by
  obtain ⟨l, hl, -⟩ := copyMatch_eq_append offset n out
  unfold matched
  rw [hl, List.drop_left]

theorem length_matched (out : List Byte) (offset n : Nat) : (matched out offset n).length = n := by
  unfold matched
  rw [List.length_drop, copyMatch_length, Nat.add_sub_cancel_left]

theorem getD_matched {out : List Byte} {offset n i : Nat} (h0 : 0 < offset) (hle : offset ≤ out.length)
    (hi : i < n) : (matched out offset n).getD i 0#8 = out.getD (out.length - offset + i % offset) 0#8 := by
  rw [← copyMatch_getD_new offset h0 n out i hle hi]
  unfold matched
  simp only [List.getD_eq_getElem?_getD, List.getElem?_drop]

/-- The lanes copy a match out of the literals they have in the buffer, or when all of them have come to the
barrier, out of the output. -/
theorem copyMatch_spec (h : View mem c src) (hsrc : src.length < 2 ^ 31) {out : List Byte}
    {idx num offset : Nat} (n : Nat) (hle : c.offset ≤ idx) (hnum : idx + num ≤ src.length) (h0 : 0 < offset)
    (hoffset : offset ≤ (out ++ literals src idx num).length) :
    (∀ lane, Phase (Readable src.length written) mem
        (c.copyMatch lane (out ++ literals src idx num).length idx num offset n)
        (share (matched (out ++ literals src idx num) offset n) (out ++ literals src idx num).length lane)
        (.sync (.done ()))) ∨
      ∃ copy : Nat → Lane Unit,
        (∀ lane, c.copyMatch lane (out ++ literals src idx num).length idx num offset n = .sync (copy lane)) ∧
        ∀ mem' : Cell → Byte, (∀ k : Nat, k < (out ++ literals src idx num).length →
            mem' (.decomp k) = (out ++ literals src idx num).getD k 0#8) →
          ∀ lane, Phase (fun cell => ∃ k : Nat, cell = .decomp k ∧ k < (out ++ literals src idx num).length) mem'
            (copy lane)
            (share (matched (out ++ literals src idx num) offset n) (out ++ literals src idx num).length lane)
            (.done ()) := by
  have hlen : (out ++ literals src idx num).length = out.length + num := by
    rw [List.length_append, length_literals hnum]
  unfold BufferControl.copyMatch
  have hsum : position ((idx : Int) + num) = idx + num := position_eq (by omega) (by omega)
  rw [hsum]
  by_cases hbuffer : offset ≤ num ∧ c.start ≤ idx ∧ idx + num ≤ c.stop
  · left
    intro lane
    rw [if_pos hbuffer]
    obtain ⟨hnear, -, hstop⟩ := hbuffer
    have hsub : position ((num : Int) - offset) = num - offset := position_eq (by omega) (by omega)
    have hfrom : position ((idx : Int) + (num - offset : Nat)) = idx + (num - offset) :=
      position_eq (by omega) (by omega)
    rw [hsub, hfrom]
    have hcopy : Phase (Readable src.length written) mem
        (coopCopyOverlap lane (fun i => .decomp ((out ++ literals src idx num).length + i))
          (fun i => .buffer (c.rawAt (idx + (num - offset)) + i)) offset n)
        (share (matched (out ++ literals src idx num) offset n) (out ++ literals src idx num).length lane)
        (.done ()) := by
      refine coopCopyOverlap_spec _ (length_matched ..) fun i hi => ?_
      have hmod := Nat.mod_lt i h0
      obtain ⟨hbyte, hR⟩ := h.buffered written (i := idx + (num - offset)) (k := i % offset) hsrc
        (by omega) (by omega) (by omega)
      refine ⟨?_, hR⟩
      rw [hbyte, getD_matched h0 hoffset hi, List.getD_append_right _ _ _ _ (by omega),
        getD_literals (by omega)]
      congr 1
      omega
    exact hcopy.bind fun _ => Thread.barrier
  · right
    refine ⟨_, fun lane => if_neg hbuffer, fun mem' hmem' lane => ?_⟩
    refine coopCopyOverlap_spec _ (length_matched ..) fun i hi => ?_
    have hmod := Nat.mod_lt i h0
    have hcell : (((out ++ literals src idx num).length : Int) - offset + (i % offset : Nat)) =
        ((out ++ literals src idx num).length - offset + i % offset : Nat) := by omega
    rw [hcell, getD_matched h0 hoffset hi]
    exact ⟨hmem' _ (by omega), _, rfl, by omega⟩

/-! ## Loading the window -/

theorem setAndAlignOffset_bounds (c : BufferControl) (idx : Nat) :
    -8 < (c.setAndAlignOffset idx).offset ∧ (c.setAndAlignOffset idx).offset ≤ idx ∧
      (idx : Int) < (c.setAndAlignOffset idx).offset + 8 := by
  unfold BufferControl.setAndAlignOffset
  dsimp only
  omega

/-- What a lane stores of the window. -/
def window (mem : Cell → Byte) (c : BufferControl) (lane : Nat) : List (Cell × Byte) :=
  if c.offset + inputBufferSize ≤ c.length then
    (List.range 8).map fun b => (.buffer (8 * lane + b), mem (.comp (c.offset + (8 * lane + b : Nat))))
  else
    ((strided lane inputBufferSize threadsPerChunk).filter fun i : Nat =>
      decide (c.offset + i < c.length)).map fun i : Nat => (.buffer i, mem (.comp (c.offset + i)))

/-- The cells of the block that a load may touch: up to 7 of them stand before it. -/
def Loadable (len : Nat) (cell : Cell) : Prop := ∃ i : Int, cell = .comp i ∧ -8 < i ∧ i < len

theorem load_spec {lane : Nat} (hlane : lane < 32) (hlow : -8 < c.offset) (hlen : c.length = src.length) :
    Phase (Loadable src.length) mem (c.load lane) (window mem c lane) (.done ()) := by
  unfold BufferControl.load window
  by_cases hroom : c.offset + inputBufferSize ≤ c.length
  · rw [if_pos hroom, if_pos hroom]
    unfold BufferControl.loadWord
    refine (Phase.gets fun cell hcell => ?_).andThen_nil ?_
    · obtain ⟨b, hb, rfl⟩ := List.mem_map.mp hcell
      have hb := List.mem_range.mp hb
      unfold inputBufferSize at hroom
      exact ⟨_, rfl, by omega, by omega⟩
    · have hword : ((List.range 8).map fun b => (Cell.buffer (8 * lane + b),
            mem (.comp (c.offset + (8 * lane + b : Nat))))) =
          (List.range 8).map fun b => (Cell.buffer (8 * lane + b),
            (((List.range 8).map fun b => Cell.comp (c.offset + (8 * lane + b : Nat))).map mem).getD b 0#8) := by
        refine List.map_congr_left fun b hb => ?_
        have hb := List.mem_range.mp hb
        simp only [List.getD_eq_getElem?_getD, List.getElem?_map, List.getElem?_range hb, Option.map_some,
          Option.getD_some]
      rw [hword]
      exact Phase.puts _
  · rw [if_neg hroom, if_neg hroom]
    refine Phase.copies (fun i : Nat => Cell.buffer i) (fun i : Nat => Cell.comp (c.offset + i)) fun i hi => ?_
    have hlt := of_decide_eq_true (List.mem_filter.mp hi).2
    exact ⟨_, rfl, by omega, by omega⟩

theorem mem_window {lane : Nat} (hlane : lane < 32) {s : Cell × Byte} (h : s ∈ window mem c lane) :
    ∃ k, k < inputBufferSize ∧ s = (.buffer k, mem (.comp (c.offset + k))) ∧
      lane = if c.offset + inputBufferSize ≤ c.length then k / 8 else k % 32 := by
  unfold window at h
  by_cases hroom : c.offset + inputBufferSize ≤ c.length
  · rw [if_pos hroom] at h
    obtain ⟨b, hb, rfl⟩ := List.mem_map.mp h
    have hb := List.mem_range.mp hb
    refine ⟨8 * lane + b, ?_, rfl, ?_⟩
    · unfold inputBufferSize
      omega
    · rw [if_pos hroom]
      omega
  · rw [if_neg hroom] at h
    obtain ⟨i, hi, rfl⟩ := List.mem_map.mp h
    obtain ⟨hle, hlt, hmod⟩ := (mem_strided (by decide)).mp (List.mem_filter.mp hi).1
    unfold threadsPerChunk at hmod
    refine ⟨i, hlt, rfl, ?_⟩
    rw [if_neg hroom]
    omega

theorem window_covers {k : Nat} (hk : k < inputBufferSize) (hlt : c.offset + k < c.length) :
    ∃ lane, lane < 32 ∧ (Cell.buffer k, mem (.comp (c.offset + k))) ∈ window mem c lane := by
  unfold window
  unfold inputBufferSize at hk
  by_cases hroom : c.offset + inputBufferSize ≤ c.length
  · simp only [if_pos hroom]
    refine ⟨k / 8, by omega, List.mem_map.mpr ⟨k % 8, List.mem_range.mpr (by omega), ?_⟩⟩
    rw [Nat.div_add_mod]
  · simp only [if_neg hroom]
    refine ⟨k % 32, by omega, List.mem_map.mpr ⟨k, List.mem_filter.mpr ⟨?_, decide_eq_true hlt⟩, rfl⟩⟩
    refine (mem_strided (by decide)).mpr ⟨by omega, hk, ?_⟩
    unfold threadsPerChunk
    omega

end

end Bslz4ToSparse.Cuda
