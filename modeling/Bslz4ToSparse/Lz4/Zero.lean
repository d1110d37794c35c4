import Bslz4ToSparse.Foundation.Buffer
import Bslz4ToSparse.Lz4.Naive
import Mathlib.Data.Nat.Init

/-!
# The zero-aware LZ4 block decoder (src/steps/lz4zero.h)

Offsets stand for the pointers: `ip` into the source, `op`, `written` and
`zeroFrom` into the destination. Every read and write is a partial operation on
the source or on the `cap + slack` bytes of the destination; one outside of its
buffer is `Stop.fault`, and so is a loop that does not end.
-/

namespace Bslz4ToSparse.Lz4

open Foundation

/-- Why the decoder stops before its end. -/
inductive Stop where
  | malformed            -- `return -1`
  | fault                -- an access outside of a buffer, or no end of a loop
  deriving DecidableEq, Repr

/-- A partial access. -/
def access {α : Type} : Option α → Except Stop α
  | some a => .ok a
  | none => .error .fault

@[simp] theorem access_some {α : Type} (a : α) : access (some a) = .ok a := rfl

/-- `if (c) return -1`. -/
def refuse (c : Bool) : Except Stop Unit := if c then .error .malformed else .ok ()

@[simp] theorem refuse_true : refuse true = .error .malformed := rfl

@[simp] theorem refuse_false : refuse false = .ok () := rfl

/-- The `do … while (b == 255)` that extends a length of 15. -/
def lengthExt (src : Buffer Byte) (cap : Nat) : Nat → Nat → Nat → Except Stop (Nat × Nat)
  | 0, _, _ => .error .fault
  | fuel + 1, ip, len => do
      refuse (src.size ≤ ip)
      let b ← access (src.load ip)
      let len := len + b.toNat
      refuse (cap < len)
      if b.toNat = 255 then lengthExt src cap fuel (ip + 1) len else return (ip + 1, len)

/-- A literal or match length: the token's four bits, extended when they are all set. -/
def runLength (src : Buffer Byte) (cap ip bits : Nat) : Except Stop (Nat × Nat) :=
  if bits = 15 then lengthExt src cap src.size ip 15 else .ok (ip, bits)

/-- `while (q > lo && q[-1] == 0) q--`, from `q = lo + n`. -/
def scanBack (b : Buffer Byte) (lo : Nat) : Nat → Except Stop Nat
  | 0 => .ok lo
  | n + 1 => do
      let v ← access (b.load (lo + n))
      if v = 0#8 then scanBack b lo n else return lo + n + 1

/-- `bslz4_copy_overlap`: copies `[src, op)` onto `op`, doubling what repeats. -/
def copyOverlap (src fin : Nat) : Nat → Buffer Byte → Nat → Except Stop (Buffer Byte)
  | 0, _, _ => .error .fault
  | fuel + 1, dst, op =>
      if op < fin then do
        let n := min (op - src) (fin - op)
        let dst ← access (dst.copyWithin op src n)
        copyOverlap src fin fuel dst (op + n)
      else .ok dst

/-- The 64-byte stores of `bslz4_zero_fill`, `n` of them from `p` on. -/
def fill64 (p : Nat) : Nat → Buffer Byte → Except Stop (Buffer Byte)
  | 0, dst => .ok dst
  | n + 1, dst => do
      let dst ← fill64 p n dst
      access (dst.fill (p + 64 * n) 64 0#8)

/-- `bslz4_zero_fill`. -/
def zeroFill (dst : Buffer Byte) (p n limit : Nat) : Except Stop (Buffer Byte) :=
  let n64 := (n + 63) / 64 * 64
  if n ≤ 512 ∧ n64 ≤ limit - p then fill64 p (n64 / 64) dst else access (dst.fill p n 0#8)

/-- The mask of the non-zero bytes of a 16-byte chunk: `~movemask(cmpeq(v, 0)) & 0xFFFF`. -/
def nonzeroMask (v : Nat → Byte) : Nat := Nat.ofBits fun k : Fin 16 => v k != 0#8

/-- The 16-byte chunks of a match of at most 64 bytes, with the non-zero bytes gathered as
one mask. `n` chunks are done. -/
def chunkMask (mat op : Nat) : Nat → Buffer Byte → Except Stop (Buffer Byte × Nat)
  | 0, dst => .ok (dst, 0)
  | n + 1, dst => do
      let (dst, nz) ← chunkMask mat op n dst
      let v ← access (dst.loadRange (mat + 16 * n) 16)
      let dst ← access (dst.storeRange (op + 16 * n) 16 v)
      return (dst, nz ||| (nonzeroMask v <<< (16 * n)))

/-- The same chunks of a longer match: the last one that holds a non-zero byte, and its mask. -/
def chunkLast (mat op mlen : Nat) : Nat → Buffer Byte → Except Stop (Buffer Byte × Nat × Nat)
  | 0, dst => .ok (dst, 0, 0)
  | n + 1, dst => do
      let (dst, lastc, lastm) ← chunkLast mat op mlen n dst
      let c := 16 * n
      let v ← access (dst.loadRange (mat + c) 16)
      let dst ← access (dst.storeRange (op + c) 16 v)
      let m := if mlen - c < 16 then nonzeroMask v &&& (2 ^ (mlen - c) - 1) else nonzeroMask v
      return (dst, if m ≠ 0 then c else lastc, if m ≠ 0 then m else lastm)

/-- A match that does not overlap itself: its bytes, and the end `q` of its last non-zero one.
`sse2` is the build's `BSLZ4_LZ4ZERO_SSE2`. -/
def copyPlain (sse2 : Bool) (dst : Buffer Byte) (mat op mlen olim : Nat) :
    Except Stop (Buffer Byte × Nat) :=
  if sse2 ∧ mlen ≤ 64 ∧ 64 ≤ olim - op then do
    let (dst, nz) ← chunkMask mat op ((mlen + 15) / 16) dst
    let nz := if mlen < 64 then nz &&& (2 ^ mlen - 1) else nz
    return (dst, if nz ≠ 0 then op + (nz.log2 + 1) else op)
  else if sse2 ∧ mlen + 16 ≤ olim - op then do
    let (dst, lastc, lastm) ← chunkLast mat op mlen ((mlen + 15) / 16) dst
    return (dst, if lastm ≠ 0 then op + lastc + (lastm.log2 + 1) else op)
  else if mlen ≤ 64 ∧ 64 ≤ olim - op then do
    let t ← access (dst.loadRange mat 64)
    let dst ← access (dst.storeRange op 64 t)
    return (dst, ← scanBack dst op mlen)
  else do
    let dst ← access (dst.copyWithin op mat mlen)
    return (dst, ← scanBack dst op mlen)

/-- A match of distance `off < mlen`: if its last `off` bytes are zero, so is all of it. -/
def copyPeriodic (dst : Buffer Byte) (mat op off mlen : Nat) : Except Stop (Buffer Byte × Nat) := do
  let dst ← copyOverlap mat (op + mlen) (mlen + 1) dst op
  let stop := op + mlen - off
  let q ← scanBack dst stop off
  return (dst, if q = stop then op else q)

/-- The bytes of a match, and the end of its last non-zero one. -/
def copyBytes (sse2 : Bool) (dst : Buffer Byte) (mat op off mlen olim : Nat) :
    Except Stop (Buffer Byte × Nat) :=
  if mlen ≤ off then copyPlain sse2 dst mat op mlen olim else copyPeriodic dst mat op off mlen

/-- The decoder's variables between two sequences. -/
structure Cursor where
  ip : Nat
  op : Nat
  written : Nat
  zeroFrom : Nat
  dst : Buffer Byte

/-- Materialise the pending zeros `[written, op)`. -/
def flushZeros (s : Cursor) (olim : Nat) : Except Stop (Buffer Byte) :=
  if s.written < s.op then zeroFill s.dst s.written (s.op - s.written) olim else .ok s.dst

/-- The literals of a sequence. -/
def literalRun (src : Buffer Byte) (olim lit : Nat) (s : Cursor) : Except Stop Cursor := do
  if lit = 0 then return s
  let q ← scanBack src s.ip lit
  if q = s.ip then return { s with op := s.op + lit, ip := s.ip + lit }
  let dst ← flushZeros s olim
  let n := if lit ≤ 32 ∧ 32 ≤ src.size - s.ip ∧ 32 ≤ olim - s.op then 32 else lit
  let dst ← access (dst.copyFrom s.op src s.ip n)
  return { ip := s.ip + lit, op := s.op + lit, written := s.op + lit,
           zeroFrom := s.op + (q - s.ip), dst }

/-- The match of a sequence. -/
def matchRun (sse2 : Bool) (olim off mlen : Nat) (s : Cursor) : Except Stop Cursor := do
  let mat := s.op - off
  if s.zeroFrom ≤ mat then return { s with op := s.op + mlen }
  let dst ← flushZeros s olim
  let (dst, q) ← copyBytes sse2 dst mat s.op off mlen olim
  return { s with op := s.op + mlen, written := s.op + mlen, zeroFrom := q, dst }

/-- The token and the literals of a turn of the loop: the token's match bits and the cursor. -/
def literalPart (src : Buffer Byte) (cap olim : Nat) (s : Cursor) : Except Stop (Nat × Cursor) := do
  refuse (src.size ≤ s.ip)
  let token ← access (src.load s.ip)
  let (ip, lit) ← runLength src cap (s.ip + 1) (token.toNat / 16)
  refuse (src.size - ip < lit ∨ cap - s.op < lit)
  refuse ((cap - s.op < 12 ∨ cap - s.op - 12 < lit ∨ src.size - ip < 8 ∨ src.size - ip - 8 < lit) ∧
    ip + lit ≠ src.size)
  let s ← literalRun src olim lit { s with ip }
  return (token.toNat % 16, s)

/-- The offset and the match of a turn of the loop. -/
def matchPart (sse2 : Bool) (src : Buffer Byte) (cap olim bits : Nat) (s : Cursor) :
    Except Stop Cursor := do
  refuse (src.size - s.ip < 2)
  let lo ← access (src.load s.ip)
  let hi ← access (src.load (s.ip + 1))
  let off := lo.toNat + 256 * hi.toNat
  let (ip, mlen) ← runLength src cap (s.ip + 2) bits
  let mlen := mlen + 4
  refuse (off = 0 ∨ s.op < off)
  refuse (cap - s.op < mlen ∨ cap - s.op - mlen < 5)
  matchRun sse2 olim off mlen { s with ip }

/-- `for (;;)`. -/
def sequences (sse2 : Bool) (src : Buffer Byte) (cap olim : Nat) :
    Nat → Cursor → Except Stop Cursor
  | 0, _ => .error .fault
  | fuel + 1, s => do
      let (bits, s) ← literalPart src cap olim s
      if s.ip = src.size then return s
      let s ← matchPart sse2 src cap olim bits s
      sequences sse2 src cap olim fuel s

/-- What the caller sees. The destination of a malformed block is not given back: no caller
reads it. -/
inductive Outcome where
  | rejected (ret : Int)
  | decoded (ret : Int) (dst : Buffer Byte) (nzEnd : Nat)

/-- The return value. -/
def Outcome.ret : Outcome → Int
  | rejected ret => ret
  | decoded ret _ _ => ret

/-- `bslz4_lz4_decode_zero`; `dst` has `cap + slack` bytes and `none` is undefined behaviour. -/
def lz4DecodeZero (sse2 : Bool) (src dst : Buffer Byte) (cap slack : Nat) : Option Outcome :=
  match sequences sse2 src cap (cap + slack) (src.size + 1) ⟨0, 0, 0, 0, dst⟩ with
  | .error .fault => none
  | .error .malformed => some (.rejected (-1))
  | .ok s =>
      if s.op ≠ cap then some (.rejected (-1))
      else some (.decoded (BitVec.ofNat 32 cap).toInt s.dst s.written)

end Bslz4ToSparse.Lz4
