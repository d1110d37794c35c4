import Bslz4ToSparse.Common
import Bslz4ToSparse.Foundation.Loops

/-!
# Chunk headers (src/pipeline/driver.c)

A chunk starts with the decoded size in 8 bytes and the block size in 4, both big endian. The
chunks of a batch have to agree on both.
-/

namespace Bslz4ToSparse.Pipeline

open Foundation
open Lz4 (Byte)

/-- A batch of chunks. The number of chunks is an `int`, the lengths are `int32`. -/
structure Chunks where
  nframes : Nat
  bytes : Nat → List Byte
  nframes_lt : nframes < 2 ^ 31
  length_lt : ∀ f, (bytes f).length < 2 ^ 31

theorem oneFrame_lt : 1 < 2 ^ 31 := by decide

theorem twoFrames_lt : 2 < 2 ^ 31 := by decide

/-- The decoded size. -/
def headerTotal (c : List Byte) : Nat := readBe64 c 0

/-- The block size; 0 stands for the default. -/
def headerBlocksize (c : List Byte) : Nat :=
  if readBe32 c 8 = 0 then defaultBlockBytes else readBe32 c 8

/-- `bslz4_driver_check_frames`: the decoded size and the block size of every chunk. -/
def checkFrames (ch : Chunks) : Except Err (Nat × Nat) := do
  refuse (ch.nframes == 0) .badNframes
  refuse ((List.range ch.nframes).any fun f => (ch.bytes f).length < 12) .corruptChunk
  refuse ((List.range' 1 (ch.nframes - 1)).any fun f =>
    headerTotal (ch.bytes f) != headerTotal (ch.bytes 0) ||
      headerBlocksize (ch.bytes f) != headerBlocksize (ch.bytes 0)) .frameMismatch
  return (headerTotal (ch.bytes 0), headerBlocksize (ch.bytes 0))

/-- What an accepted batch has: every chunk its header, and all the same one. -/
structure Headed (ch : Chunks) (total blocksize : Nat) : Prop where
  pos : 0 < ch.nframes
  length : ∀ f, f < ch.nframes → 12 ≤ (ch.bytes f).length
  total : ∀ f, f < ch.nframes → headerTotal (ch.bytes f) = total
  blocksize : ∀ f, f < ch.nframes → headerBlocksize (ch.bytes f) = blocksize

theorem checkFrames_ok {ch : Chunks} {total blocksize : Nat} :
    checkFrames ch = .ok (total, blocksize) ↔ Headed ch total blocksize := by
  unfold checkFrames refuse
  constructor
  · intro h
    split at h
    · cases h
    next hn =>
    rw [ok_bind] at h
    split at h
    · cases h
    next hlen =>
    rw [ok_bind] at h
    split at h
    · cases h
    next hsame =>
    obtain ⟨rfl, rfl⟩ := Prod.mk.inj (Except.ok.inj h)
    have hother : ∀ f, f < ch.nframes → headerTotal (ch.bytes f) = headerTotal (ch.bytes 0) ∧
        headerBlocksize (ch.bytes f) = headerBlocksize (ch.bytes 0) := by
      intro f hf
      rcases Nat.eq_zero_or_pos f with rfl | hpos
      · exact ⟨rfl, rfl⟩
      · by_contra hne
        apply hsame
        apply List.any_eq_true.mpr
        refine ⟨f, List.mem_range'_1.mpr (by omega), ?_⟩
        simp only [Bool.or_eq_true, bne_iff_ne]
        exact not_and_or.mp hne
    constructor
    · simpa [Nat.pos_iff_ne_zero] using hn
    · intro f hf
      by_contra hlt
      exact hlen (List.any_eq_true.mpr ⟨f, List.mem_range.mpr hf, by simpa using hlt⟩)
    · exact fun f hf => (hother f hf).1
    · exact fun f hf => (hother f hf).2
  · intro h
    have hpos := h.pos
    rw [if_neg (by simpa using hpos.ne'), ok_bind, if_neg, ok_bind, if_neg, ok_bind]
    · rw [h.total 0 hpos, h.blocksize 0 hpos]
      rfl
    · intro hany
      obtain ⟨f, hf, hne⟩ := List.any_eq_true.mp hany
      have hlt := List.mem_range'_1.mp hf
      rw [h.total f (by omega), h.total 0 hpos, h.blocksize f (by omega), h.blocksize 0 hpos] at hne
      simp at hne
    · intro hany
      obtain ⟨f, hf, hlt⟩ := List.any_eq_true.mp hany
      have hle := h.length f (List.mem_range.mp hf)
      simp only [decide_eq_true_eq] at hlt
      omega

theorem readBe_succ (p : List Byte) (pos n : Nat) :
    readBe p pos (n + 1) = 256 * readBe p pos n + (p.getD (pos + n) 0#8).toNat := by
  rw [readBe, List.range_succ, List.foldl_append, List.foldl_cons, List.foldl_nil]
  rfl

theorem readBe_lt (p : List Byte) (pos n : Nat) : readBe p pos n < 256 ^ n := by
  induction n with
  | zero => exact Nat.one_pos
  | succ n ih =>
    have hbyte := (p.getD (pos + n) 0#8).isLt
    rw [readBe_succ, Nat.pow_succ]
    omega

theorem readBe_append (p : List Byte) (pos m n : Nat) :
    readBe p pos (m + n) = 256 ^ n * readBe p pos m + readBe p (pos + m) n := by
  induction n with
  | zero =>
    rw [Nat.pow_zero, Nat.one_mul]
    rfl
  | succ n ih =>
    rw [← Nat.add_assoc, readBe_succ, ih, readBe_succ, Nat.add_assoc pos m n]
    ring

theorem readBe64_eq (p : List Byte) : readBe64 p 0 = 2 ^ 32 * readBe32 p 0 + readBe32 p 4 :=
  readBe_append p 0 4 4

theorem headerTotal_lt (c : List Byte) : headerTotal c < 2 ^ 64 := readBe_lt c 0 8

theorem headerBlocksize_lt (c : List Byte) : headerBlocksize c < 2 ^ 32 := by
  have h : readBe32 c 8 < 2 ^ 32 := readBe_lt c 8 4
  unfold headerBlocksize
  split
  · decide
  · exact h

theorem headerBlocksize_pos (c : List Byte) : 0 < headerBlocksize c := by
  unfold headerBlocksize
  split
  · decide
  · omega

end Bslz4ToSparse.Pipeline
