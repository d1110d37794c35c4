import Bslz4ToSparse.Common
import Bslz4ToSparse.Lz4.Refine

/-!
# The decode step (src/steps/decode.h)

One compressed block to its bit-planes. The stock LZ4 decoder and zstd are third-party
code, taken as parameters; the zero-aware decoder is the repository's.
-/

namespace Bslz4ToSparse.Steps

open Lz4 (Byte plainDecode lz4DecodeZero)

/-- The `decode` values. -/
inductive Decode where
  | lz4Band | lz4Zero | lz4Stock | zstd | pixels
  deriving DecidableEq, Repr

/-- `LZ4_decompress_safe` and `ZSTD_decompress`: the bytes written, as many as the return
value says, or a negative return. -/
structure Codecs where
  lz4DecompressSafe : List Byte → Nat → Option (List Byte)
  zstdDecompress : List Byte → Nat → Option (List Byte)

def lz4zeroRatio : Nat := 24
def lz4zeroDense : Nat := 8

/-- `bslz4_decode_plain`. -/
def decodePlain (C : Codecs) (decode : Decode) (src : List Byte) (cap : Nat) : Option (List Byte) :=
  match decode with
  | .zstd => (C.zstdDecompress src cap).filter fun out => out.length = cap
  | _ => C.lz4DecompressSafe src cap

/-- Whether a block goes to the zero-aware decoder. -/
def takesZero (decode : Decode) (n blocksize : Nat) : Bool :=
  match decode with
  | .lz4Zero => true
  | .lz4Band => decide (n * lz4zeroRatio < blocksize) || decide (blocksize < n * lz4zeroDense)
  | _ => false

/-- `bslz4_decode_block`, and the driver's check that it returns the block size: the planes
and `nz_end`. `raw` is followed by `blocksize` bytes of slack. -/
def decodeBlock (C : Codecs) (sse2 : Bool) (decode : Decode) (src : List Byte) (raw : Memory)
    (blocksize : Nat) : Except Err (Memory × Nat) :=
  if takesZero decode src.length blocksize then
    match lz4DecodeZero sse2 (.ofList src 0#8) ⟨blocksize + blocksize, raw⟩ blocksize blocksize with
    | none => .error .fault
    | some (.rejected _) => .error .decompress
    | some (.decoded ret dst nzEnd) =>
        if ret = blocksize then .ok (dst.get, nzEnd) else .error .decompress
  else
    match decodePlain C decode src blocksize with
    | none => .error .decompress
    | some out =>
        if out.length = blocksize then .ok (copyTo raw 0 blocksize (bytesOf out), blocksize)
        else .error .decompress

/-- The planes of a block as the codec of the pipeline gives them. -/
def planesOf (C : Codecs) (decode : Decode) (src : List Byte) (blocksize : Nat) :
    Option (List Byte) :=
  (if takesZero decode src.length blocksize then plainDecode blocksize src
    else decodePlain C decode src blocksize).filter fun out => out.length = blocksize

/-- A block is decoded exactly when its codec fills the block size; the planes are then those
of the codec, zeros at the end maybe not stored. -/
theorem decodeBlock_spec (C : Codecs) (sse2 : Bool) (decode : Decode) (src : List Byte)
    (raw : Memory) {blocksize : Nat} (hsize : blocksize ≤ 2 ^ 31 - 1) :
    match planesOf C decode src blocksize with
    | none => decodeBlock C sse2 decode src raw blocksize = .error .decompress
    | some out => ∃ raw' nzEnd, decodeBlock C sse2 decode src raw blocksize = .ok (raw', nzEnd) ∧
        nzEnd ≤ blocksize ∧ Stores (bytesOf out) blocksize nzEnd raw' := by
  unfold planesOf decodeBlock
  cases hz : takesZero decode src.length blocksize with
  | true =>
    have hret : (BitVec.ofNat 32 blocksize).toInt = blocksize := by
      rw [BitVec.toInt_ofNat', Int.bmod_eq_of_le] <;> omega
    simp only [if_true]
    rcases Lz4.lz4DecodeZero_cases sse2 src blocksize blocksize ⟨blocksize + blocksize, raw⟩ rfl with
      ⟨out, dst, nzEnd, hp, hr, -, hd⟩ | ⟨hno, hr⟩
    · rw [hp, Option.filter_some, if_pos (decide_eq_true hd.length), hr]
      exact ⟨dst.get, nzEnd, by simp [hret], hd.nzEnd_le, fun i hi _ => hd.stored i hi,
        fun i hi _ => hd.zeros i hi⟩
    · rw [hr]
      cases hp : plainDecode blocksize src with
      | none => rfl
      | some out => rw [Option.filter_some, if_neg (by simpa using hno out hp)]
  | false =>
    simp only [Bool.false_eq_true, if_false]
    cases hp : decodePlain C decode src blocksize with
    | none => rfl
    | some out =>
      by_cases hlen : out.length = blocksize
      · rw [Option.filter_some, if_pos (decide_eq_true hlen)]
        refine ⟨_, blocksize, if_pos hlen, le_rfl, fun i hi _ => ?_, fun i hi hlt => by omega⟩
        rw [copyTo, if_pos (by omega), Nat.sub_zero]
      · rw [Option.filter_some, if_neg (by simpa using hlen)]
        exact if_neg hlen

end Bslz4ToSparse.Steps
