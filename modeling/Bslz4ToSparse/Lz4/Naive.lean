import Mathlib.Data.List.GetD
import Mathlib.Tactic.Ring

/-!
# The plain LZ4 block decoder

The abstract decoder of one LZ4 block: it reads the sequences one after another
and appends the output one byte at a time. It keeps no positions and no buffer,
only the input that is left and the output so far. The end-of-block rules are
those of the block format as the reference decoder enforces them, with an offset
of 0 refused.
-/

namespace Bslz4ToSparse.Lz4

/-- A byte of a block. -/
abbrev Byte := BitVec 8

/-- The bytes that extend a length of 15: each is added, and one below 255 ends them. -/
def plainLength : List Byte → Nat → Option (List Byte × Nat)
  | [], _ => none
  | b :: inp, len =>
      if b.toNat = 255 then plainLength inp (len + 255) else some (inp, len + b.toNat)

/-- A literal or match length: four bits of the token, extended when they are all set. -/
def plainRun (inp : List Byte) (bits : Nat) : Option (List Byte × Nat) :=
  if bits = 15 then plainLength inp 15 else some (inp, bits)

/-- A match of `n` bytes at distance `off`, one byte after the other, so that it may
repeat bytes it has written itself. -/
def copyMatch (off : Nat) : Nat → List Byte → List Byte
  | 0, out => out
  | n + 1, out => copyMatch off n (out ++ [out.getD (out.length - off) 0#8])

/-- Literals that reach the last 12 output bytes or the last 8 input bytes end the block. -/
def plainMustEnd (cap outLen inLen lit : Nat) : Bool :=
  decide (cap < outLen + lit + 12) || decide (inLen < lit + 8)

/-- A token and its literals: the token's match bits, the input left and the output. -/
def plainLiterals (cap : Nat) : List Byte → List Byte → Option (Nat × List Byte × List Byte)
  | [], _ => none
  | token :: inp, out => do
      let (inp, lit) ← plainRun inp (token.toNat / 16)
      guard (lit ≤ inp.length ∧ out.length + lit ≤ cap)
      guard (plainMustEnd cap out.length inp.length lit = true → lit = inp.length)
      return (token.toNat % 16, inp.drop lit, out ++ inp.take lit)

/-- An offset, a match length and the match; the last 5 bytes of the output are literals. -/
def plainMatch (cap bits : Nat) : List Byte → List Byte → Option (List Byte × List Byte)
  | lo :: hi :: inp, out => do
      let off := lo.toNat + 256 * hi.toNat
      let (inp, mlen) ← plainRun inp bits
      guard (off ≠ 0 ∧ off ≤ out.length)
      guard (out.length + (mlen + 4) + 5 ≤ cap)
      return (inp, copyMatch off (mlen + 4) out)
  | _, _ => none

/-- The sequences of a block, each at least a token long: `fuel` bounds their number. The
last one is literals only. -/
def plainSequences (cap : Nat) : Nat → List Byte → List Byte → Option (List Byte)
  | 0, _, _ => none
  | fuel + 1, inp, out => do
      let (bits, inp, out) ← plainLiterals cap inp out
      if inp = [] then return out
      let (inp, out) ← plainMatch cap bits inp out
      plainSequences cap fuel inp out

/-- The output of the block `src` in a destination of `cap` bytes, or `none` if the
block is malformed. Each sequence takes at least one input byte. -/
def plainDecode (cap : Nat) (src : List Byte) : Option (List Byte) :=
  plainSequences cap (src.length + 1) src []

theorem plainLength_length :
    ∀ {inp : List Byte} {len : Nat} {r : List Byte × Nat},
      plainLength inp len = some r → r.1.length < inp.length ∧ len ≤ r.2 := by
  intro inp
  induction inp with
  | nil => intro len r h; simp [plainLength] at h
  | cons b inp ih =>
    intro len r h
    by_cases hb : b.toNat = 255
    · simp only [plainLength, hb, if_true] at h
      obtain ⟨h₁, h₂⟩ := ih h
      simp only [List.length_cons]
      omega
    · simp only [plainLength, hb, if_false, Option.some.injEq] at h
      subst h
      simp

@[simp] theorem copyMatch_length (off n : Nat) (out : List Byte) :
    (copyMatch off n out).length = out.length + n := by
  induction n generalizing out with
  | zero => rfl
  | succ n ih => rw [copyMatch, ih, List.length_append, List.length_singleton]; omega

/-- The bytes already written stay. -/
theorem copyMatch_getD_old (off n : Nat) (out : List Byte) {i : Nat} (hi : i < out.length) :
    (copyMatch off n out).getD i 0#8 = out.getD i 0#8 := by
  induction n generalizing out with
  | zero => rfl
  | succ n ih =>
    rw [copyMatch, ih _ (by simp; omega), List.getD_append _ _ _ _ hi]

/-- A match repeats the `off` bytes before it. -/
theorem copyMatch_getD_new (off : Nat) (h0 : 0 < off) :
    ∀ (n : Nat) (out : List Byte) (k : Nat), off ≤ out.length → k < n →
      (copyMatch off n out).getD (out.length + k) 0#8 = out.getD (out.length - off + k % off) 0#8 := by
  intro n
  induction n with
  | zero => intro out k _ hk; omega
  | succ n ih =>
    intro out k hoff hk
    rw [copyMatch]
    cases k with
    | zero =>
      rw [Nat.add_zero, copyMatch_getD_old _ _ _ (by simp), List.getD_append_right _ _ _ _ le_rfl]
      simp
    | succ k =>
      have hstep := ih (out ++ [out.getD (out.length - off) 0#8]) k (by simp; omega) (by omega)
      rw [List.length_append, List.length_singleton] at hstep
      rw [show out.length + (k + 1) = out.length + 1 + k by omega, hstep]
      by_cases hlast : k % off = off - 1
      · -- the source of this byte is the one the match has just appended
        rw [hlast, show out.length + 1 - off + (off - 1) = out.length by omega,
          List.getD_append_right _ _ _ _ le_rfl]
        have hz : (k + 1) % off = 0 := by
          rw [Nat.add_mod, hlast]
          by_cases h1 : off = 1
          · subst h1; rfl
          · rw [Nat.mod_eq_of_lt (show 1 < off by omega), Nat.sub_add_cancel h0, Nat.mod_self]
        simp [hz]
      · have hlt : k % off < off := Nat.mod_lt _ h0
        have hs : (k + 1) % off = k % off + 1 := by
          rw [Nat.add_mod, Nat.mod_eq_of_lt (show 1 < off by omega)]
          exact Nat.mod_eq_of_lt (by omega)
        rw [hs, List.getD_append _ _ _ _ (by omega)]
        congr 1
        omega

end Bslz4ToSparse.Lz4
