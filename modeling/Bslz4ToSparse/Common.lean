import Bslz4ToSparse.Lz4.Naive

/-!
# Error codes, big-endian words and memory (src/pipeline/common.h)

Memory is a function from offsets to bytes, so that a model says what happens to every byte
of a buffer, also to those it does not mention.
-/

namespace Bslz4ToSparse

open Lz4 (Byte)

/-- The error returns. `fault` is not one of them: it is undefined behaviour. -/
inductive Err where
  | tooManyPixels | tooLarge | decompress | badThreshold | workspaceTooSmall | untranspose
  | badNframes | frameMismatch | corruptChunk | badLayout | tooFewPixels | badPipeline
  | unavailable | dtype | badCut
  | fault
  deriving DecidableEq, Repr

/-- The value of the enumeration constant. -/
def Err.code : Err → Option Int
  | tooManyPixels => some (-99)
  | tooLarge => some (-98)
  | decompress => some (-2)
  | badThreshold => some (-100)
  | workspaceTooSmall => some (-103)
  | untranspose => some (-104)
  | badNframes => some (-105)
  | frameMismatch => some (-106)
  | corruptChunk => some (-107)
  | badLayout => some (-109)
  | tooFewPixels => some (-110)
  | badPipeline => some (-111)
  | unavailable => some (-112)
  | dtype => some (-113)
  | badCut => some (-114)
  | fault => none

/-- `if (c) return e`. -/
def refuse (c : Bool) (e : Err) : Except Err Unit := if c then .error e else .ok ()

@[simp] theorem refuse_true (e : Err) : refuse true e = .error e := rfl

@[simp] theorem refuse_false (e : Err) : refuse false e = .ok () := rfl

theorem refuse_ok {c : Bool} {e : Err} {u : Unit} : refuse c e = .ok u ↔ c = false := by
  cases c <;> simp [refuse]

/-- `BSLZ4_DEFAULT_BLOCK_BYTES`. -/
def defaultBlockBytes : Nat := 8192

/-- A big-endian number of `n` bytes from `pos` on. -/
def readBe (p : List Byte) (pos n : Nat) : Nat :=
  (List.range n).foldl (fun v i => 256 * v + (p.getD (pos + i) 0#8).toNat) 0

/-- `bslz4_read_be32`. -/
def readBe32 (p : List Byte) (pos : Nat) : Nat := readBe p pos 4

/-- `bslz4_read_be64`. -/
def readBe64 (p : List Byte) (pos : Nat) : Nat := readBe p pos 8

/-! ## Memory -/

abbrev Memory : Type := Nat → Byte

/-- `memset(mem + start, 0, n)`. -/
def zeroFill (mem : Memory) (start n : Nat) : Memory := fun i =>
  if start ≤ i ∧ i < start + n then 0#8 else mem i

/-- The bytes `[start, start + n)` replaced by the first ones of `xs` (`memcpy`). -/
def copyTo (mem : Memory) (start n : Nat) (xs : Memory) : Memory := fun i =>
  if start ≤ i ∧ i < start + n then xs (i - start) else mem i

/-- The bytes of a list, and zeros behind it. -/
def bytesOf (xs : List Byte) : Memory := fun i => xs.getD i 0#8

/-- `mem + start`. -/
def offset (mem : Memory) (start : Nat) : Memory := fun i => mem (start + i)

/-- `raw` holds the `n` bytes `L` up to `nzEnd`, and the rest of them is zero but maybe not
stored. -/
structure Stores (L : Memory) (n nzEnd : Nat) (raw : Memory) : Prop where
  stored : ∀ i, i < nzEnd → i < n → raw i = L i
  zeros : ∀ i, nzEnd ≤ i → i < n → L i = 0#8

namespace Stores

variable {L raw : Memory} {n nzEnd : Nat}

/-- The zeros written up to `m`. -/
theorem fill (h : Stores L n nzEnd raw) {m i : Nat} (hm : m ≤ n) (hi : i < m) :
    zeroFill raw nzEnd (m - nzEnd) i = L i := by
  unfold zeroFill
  by_cases hnz : i < nzEnd
  · rw [if_neg (by omega)]
    exact h.stored i hnz (by omega)
  · rw [if_pos (by omega)]
    exact (h.zeros i (by omega) (by omega)).symm

/-- Writing zeros behind `nzEnd` keeps what is stored. -/
theorem fill_behind (h : Stores L n nzEnd raw) {start : Nat} (hs : nzEnd ≤ start) (m : Nat) :
    Stores L n nzEnd (zeroFill raw start m) := by
  refine ⟨fun i hi hin => ?_, h.zeros⟩
  rw [zeroFill, if_neg (by omega)]
  exact h.stored i hi hin

end Stores

end Bslz4ToSparse
