import Bslz4ToSparse.Lz4.Refine
import Mathlib.Data.Option.Basic

/-!
# Well-formed LZ4 blocks

The block format itself: what a sequence is and how far it reaches. Decoders differ in the
blocks they refuse, but none accepts a byte string that is not a block.
-/

namespace Bslz4ToSparse.Lz4

/-- The bytes are the last sequences of a block whose output has `n` bytes so far and `total`
in the end. -/
inductive Sequences : List Byte → Nat → Nat → Prop
  | last {token : Byte} {inp rest : List Byte} {n lit : Nat}
      (hlit : plainRun inp (token.toNat / 16) = some (rest, lit)) (hend : rest.length = lit) :
      Sequences (token :: inp) n (n + lit)
  | more {token lo hi : Byte} {inp rest tail next : List Byte} {n lit mlen total : Nat}
      (hlit : plainRun inp (token.toNat / 16) = some (rest, lit))
      (htail : rest.drop lit = lo :: hi :: tail)
      (hoff : lo.toNat + 256 * hi.toNat ≤ n + lit)
      (hlen : plainRun tail (token.toNat % 16) = some (next, mlen))
      (hnext : Sequences next (n + lit + (mlen + 4)) total) :
      Sequences (token :: inp) n total

/-- The bytes are a block of `total` bytes. -/
abbrev Block (src : List Byte) (total : Nat) : Prop := Sequences src 0 total

theorem plainLiterals_ok {cap bits : Nat} {inp out inp' out' : List Byte}
    (h : plainLiterals cap inp out = some (bits, inp', out')) :
    ∃ token tail rest lit, inp = token :: tail ∧ plainRun tail (token.toNat / 16) = some (rest, lit) ∧
      lit ≤ rest.length ∧ bits = token.toNat % 16 ∧ inp' = rest.drop lit ∧
      out'.length = out.length + lit := by
  cases inp with
  | nil => cases h
  | cons token tail =>
    obtain ⟨⟨rest, lit⟩, hrun, h⟩ := Option.bind_eq_some_iff.mp h
    obtain ⟨_, hroom, h⟩ := Option.bind_eq_some_iff.mp h
    obtain ⟨-, -, h⟩ := Option.bind_eq_some_iff.mp h
    have hle := ((Option.guard_eq_some' _).mp hroom).1
    cases h
    refine ⟨token, tail, rest, lit, rfl, hrun, hle, rfl, rfl, ?_⟩
    rw [List.length_append, List.length_take, Nat.min_eq_left hle]

theorem plainMatch_ok {cap bits : Nat} {inp out inp' out' : List Byte}
    (h : plainMatch cap bits inp out = some (inp', out')) :
    ∃ lo hi tail mlen, inp = lo :: hi :: tail ∧ lo.toNat + 256 * hi.toNat ≤ out.length ∧
      plainRun tail bits = some (inp', mlen) ∧ out'.length = out.length + (mlen + 4) := by
  rcases inp with _ | ⟨lo, _ | ⟨hi, tail⟩⟩
  · cases h
  · cases h
  · obtain ⟨⟨next, mlen⟩, hrun, h⟩ := Option.bind_eq_some_iff.mp h
    obtain ⟨_, hoff, h⟩ := Option.bind_eq_some_iff.mp h
    obtain ⟨-, -, h⟩ := Option.bind_eq_some_iff.mp h
    have hle := ((Option.guard_eq_some' _).mp hoff).2
    cases h
    exact ⟨lo, hi, tail, mlen, rfl, hle, hrun, copyMatch_length _ _ _⟩

/-- What the plain decoder accepts is a block. -/
theorem plainDecode_block {cap : Nat} {src out : List Byte} (h : plainDecode cap src = some out) :
    Block src out.length := by
  have hrest : ∀ (fuel : Nat) (inp sofar out : List Byte),
      plainSequences cap fuel inp sofar = some out → Sequences inp sofar.length out.length := by
    intro fuel
    induction fuel with
    | zero =>
      intro inp sofar out h
      cases h
    | succ fuel ih =>
      intro inp sofar out h
      obtain ⟨⟨bits, inp₁, out₁⟩, hlit, h⟩ := Option.bind_eq_some_iff.mp h
      obtain ⟨token, tail, rest, lit, rfl, hrun, hle, rfl, rfl, hlen⟩ := plainLiterals_ok hlit
      dsimp only at h
      split at h
      · -- the last sequence is literals only
        next hnil =>
        obtain rfl := Option.some.inj h
        have hend : rest.length = lit := le_antisymm (List.drop_eq_nil_iff.mp hnil) hle
        rw [hlen]
        exact .last hrun hend
      · obtain ⟨⟨inp₂, out₂⟩, hmatch, h⟩ := Option.bind_eq_some_iff.mp h
        obtain ⟨lo, hi, tail', mlen, htail, hoff, hmlen, hlen'⟩ := plainMatch_ok hmatch
        have hnext := ih inp₂ out₂ out h
        rw [hlen] at hoff hlen'
        rw [hlen'] at hnext
        exact .more hrun htail hoff hmlen hnext
  exact hrest _ _ _ _ h

/-- A match of offset 0 among the first `fuel` sequences. -/
def zeroOffsetFrom : Nat → List Byte → Bool
  | 0, _ => false
  | _ + 1, [] => false
  | fuel + 1, token :: inp =>
      match plainRun inp (token.toNat / 16) with
      | none => false
      | some (rest, lit) =>
          match rest.drop lit with
          | lo :: hi :: tail =>
              (lo == 0#8 && hi == 0#8) ||
                match plainRun tail (token.toNat % 16) with
                | none => false
                | some (next, _) => zeroOffsetFrom fuel next
          | _ => false

/-- The block `src` has a match of offset 0, which the format does not allow and the lz4 library takes. -/
def hasZeroOffset (src : List Byte) : Bool := zeroOffsetFrom (src.length + 1) src

end Bslz4ToSparse.Lz4
