import Mathlib.Data.List.Basic
import Mathlib.Tactic.Ring

/-!
# Little endian numbers

A number below `256 ^ w` as `w` bytes, the lowest first, and an array of such numbers as their
bytes one after another.
-/

namespace Bslz4ToSparse.Foundation

/-- The `w` low bytes of a number. -/
def toLe : Nat → Nat → List (BitVec 8)
  | 0, _ => []
  | w + 1, v => BitVec.ofNat 8 v :: toLe w (v / 256)

/-- The number that bytes stand for. -/
def ofLe : List (BitVec 8) → Nat
  | [] => 0
  | b :: bs => b.toNat + 256 * ofLe bs

@[simp] theorem length_toLe (w v : Nat) : (toLe w v).length = w := by
  induction w generalizing v with
  | zero => rfl
  | succ w ih => rw [toLe, List.length_cons, ih]

theorem ofLe_toLe {w v : Nat} (h : v < 256 ^ w) : ofLe (toLe w v) = v := by
  induction w generalizing v with
  | zero =>
    rw [pow_zero, Nat.lt_one_iff] at h
    rw [h]
    rfl
  | succ w ih =>
    have hdiv : v / 256 < 256 ^ w := by
      rw [Nat.div_lt_iff_lt_mul (by norm_num), ← pow_succ]
      exact h
    rw [toLe, ofLe, ih hdiv, BitVec.toNat_ofNat]
    omega

/-- The first `n` numbers of `w` bytes. -/
def elements (w : Nat) : Nat → List (BitVec 8) → List Nat
  | 0, _ => []
  | n + 1, bytes => ofLe (bytes.take w) :: elements w n (bytes.drop w)

@[simp] theorem length_elements (w n : Nat) (bytes : List (BitVec 8)) :
    (elements w n bytes).length = n := by
  induction n generalizing bytes with
  | zero => rfl
  | succ n ih => rw [elements, List.length_cons, ih]

@[simp] theorem length_flatMap_toLe (w : Nat) (vs : List Nat) :
    (vs.flatMap (toLe w)).length = w * vs.length := by
  induction vs with
  | nil => rfl
  | cons v vs ih =>
    rw [List.flatMap_cons, List.length_append, length_toLe, ih, List.length_cons]
    ring

/-- An array is read back as it was written, whatever follows it. -/
theorem elements_flatMap {w : Nat} {vs : List Nat} (h : ∀ v ∈ vs, v < 256 ^ w)
    (tail : List (BitVec 8)) : elements w vs.length (vs.flatMap (toLe w) ++ tail) = vs := by
  induction vs with
  | nil => rfl
  | cons v vs ih =>
    rw [List.length_cons, elements, List.flatMap_cons, List.append_assoc,
      List.take_left' (length_toLe w v), List.drop_left' (length_toLe w v),
      ofLe_toLe (h v List.mem_cons_self), ih fun u hu => h u (List.mem_cons_of_mem v hu)]

end Bslz4ToSparse.Foundation
