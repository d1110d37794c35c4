import Bslz4ToSparse.Foundation.Reciprocal
import Mathlib.Data.BitVec

/-!
# Rows and columns of pixels (src/__init__.py)

`_unravel` divides the indices of a frame by its row length with a multiplication in 64-bit words
and a shift. The products wrap for the shortest rows; the 16 bits that are kept do not notice.
-/

namespace Bslz4ToSparse.Pipeline

open Foundation

/-- `-(-(1 << 40) // nfast)`. -/
def magic (nfast : Nat) : Nat := (-(Int.fdiv (-(2 ^ 40)) nfast)).toNat

/-- Row and column of an index by the reciprocal, in `uint64`. -/
def unravelReciprocal (nfast : Nat) (i : BitVec 32) : BitVec 16 × BitVec 16 :=
  let t := i.setWidth 64
  let r := (t * BitVec.ofNat 64 (magic nfast)) >>> 40
  (r.setWidth 16, (t - r * BitVec.ofNat 64 nfast).setWidth 16)

/-- `np.divmod` in `uint32`. -/
def unravelDivmod (nfast : Nat) (i : BitVec 32) : BitVec 16 × BitVec 16 :=
  ((i / BitVec.ofNat 32 nfast).setWidth 16, (i % BitVec.ofNat 32 nfast).setWidth 16)

/-- `indices.max()`. -/
def maxIndex (indices : List (BitVec 32)) : Nat := (indices.map BitVec.toNat).foldr max 0

/-- `_unravel`: the `uint16` rows and columns. -/
def unravel (indices : List (BitVec 32)) (nfast : Nat) : List (BitVec 16) × List (BitVec 16) :=
  if indices = [] then ([], [])
  else if 2 ^ 14 ≤ nfast ∨ 2 ^ 26 ≤ maxIndex indices then (indices.map (unravelDivmod nfast)).unzip
  else (indices.map (unravelReciprocal nfast)).unzip

theorem le_maxIndex {indices : List (BitVec 32)} {i : BitVec 32} (h : i ∈ indices) :
    i.toNat ≤ maxIndex indices := by
  unfold maxIndex
  induction indices with
  | nil => exact absurd h List.not_mem_nil
  | cons a indices ih =>
    rw [List.map_cons, List.foldr_cons]
    cases h with
    | head => exact Nat.le_max_left _ _
    | tail _ h => exact (ih h).trans (Nat.le_max_right _ _)

theorem magic_eq {nfast : Nat} (h : 1 ≤ nfast) : magic nfast = (2 ^ 40 + nfast - 1) / nfast := by
  obtain ⟨hlow, hhigh⟩ := @ceilDiv_bounds (2 ^ 40) nfast h
  set m := (2 ^ 40 + nfast - 1) / nfast
  have hdiv : (-(2 ^ 40) : Int) / nfast = -(m : Int) := by
    have hcast : ((m * nfast : Nat) : Int) = nfast * m := by push_cast; ring
    have hunique := (@Int.ediv_emod_unique (-(2 ^ 40)) nfast (nfast * m - 2 ^ 40) (-m) (by omega)).mpr
      ⟨by ring, by omega, by omega⟩
    exact hunique.1
  rw [magic, Int.fdiv_eq_ediv_of_nonneg _ (Int.natCast_nonneg nfast), hdiv, Int.neg_neg,
    Int.toNat_natCast]

/-! ## The two paths -/

theorem unravelDivmod_eq {nfast : Nat} (h : nfast < 2 ^ 32) (i : BitVec 32) :
    unravelDivmod nfast i =
      (BitVec.ofNat 16 (i.toNat / nfast), BitVec.ofNat 16 (i.toNat % nfast)) := by
  have hdiv : (BitVec.ofNat 32 nfast).toNat = nfast := Nat.mod_eq_of_lt h
  apply Prod.ext
  · apply BitVec.eq_of_toNat_eq
    rw [unravelDivmod, BitVec.toNat_setWidth, BitVec.toNat_udiv, hdiv, BitVec.toNat_ofNat]
  · apply BitVec.eq_of_toNat_eq
    rw [unravelDivmod, BitVec.toNat_setWidth, BitVec.toNat_umod, hdiv, BitVec.toNat_ofNat]

/-- Only the upper bits of the quotient are lost, where the product wraps. -/
theorem reciprocal_quotient {nfast : Nat} (h1 : 1 ≤ nfast) (h2 : nfast < 2 ^ 14) {i : BitVec 32}
    (hi : i.toNat < 2 ^ 26) :
    ((i.setWidth 64 * BitVec.ofNat 64 (magic nfast)) >>> 40).toNat = i.toNat / nfast % 2 ^ 24 := by
  have hexact : i.toNat * magic nfast / 2 ^ 40 = i.toNat / nfast := by
    rw [magic_eq h1]
    apply mul_ceilDiv_div h1
    calc i.toNat * (nfast - 1) ≤ i.toNat * 2 ^ 14 := Nat.mul_le_mul_left _ (by omega)
      _ < 2 ^ 26 * 2 ^ 14 := Nat.mul_lt_mul_of_pos_right hi (by decide)
      _ = 2 ^ 40 := by norm_num
  rw [BitVec.toNat_ushiftRight, BitVec.toNat_mul, BitVec.toNat_ofNat, BitVec.toNat_setWidth,
    Nat.mod_eq_of_lt (show i.toNat < 2 ^ 64 by omega), Nat.mul_mod_mod, Nat.shiftRight_eq_div_pow,
    show (2 ^ 64 : Nat) = 2 ^ 40 * 2 ^ 24 by norm_num, Nat.mod_mul_right_div_self, hexact]

/-- What was lost of the quotient is a multiple of 2^16 in the column. -/
theorem unravelReciprocal_eq {nfast : Nat} (h1 : 1 ≤ nfast) (h2 : nfast < 2 ^ 14) {i : BitVec 32}
    (hi : i.toNat < 2 ^ 26) :
    unravelReciprocal nfast i =
      (BitVec.ofNat 16 (i.toNat / nfast), BitVec.ofNat 16 (i.toNat % nfast)) := by
  have hq := reciprocal_quotient h1 h2 hi
  set r := (i.setWidth 64 * BitVec.ofNat 64 (magic nfast)) >>> 40 with hr
  have hsplit := Nat.div_add_mod (i.toNat / nfast) (2 ^ 24)
  have hrem := Nat.div_add_mod i.toNat nfast
  apply Prod.ext
  · apply BitVec.eq_of_toNat_eq
    rw [unravelReciprocal, ← hr, BitVec.toNat_setWidth, hq, BitVec.toNat_ofNat,
      Nat.mod_mod_of_dvd _ (by norm_num)]
  · have hmul : i.toNat / nfast % 2 ^ 24 * nfast + i.toNat / nfast / 2 ^ 24 * nfast * 2 ^ 24 +
        i.toNat % nfast = i.toNat := by
      calc i.toNat / nfast % 2 ^ 24 * nfast + i.toNat / nfast / 2 ^ 24 * nfast * 2 ^ 24 +
            i.toNat % nfast
          = nfast * (2 ^ 24 * (i.toNat / nfast / 2 ^ 24) + i.toNat / nfast % 2 ^ 24) +
              i.toNat % nfast := by ring
        _ = i.toNat := by rw [hsplit, hrem]
    have hprod : (r * BitVec.ofNat 64 nfast).toNat = i.toNat / nfast % 2 ^ 24 * nfast := by
      rw [BitVec.toNat_mul, hq, BitVec.toNat_ofNat, Nat.mod_eq_of_lt (show nfast < 2 ^ 64 by omega),
        Nat.mod_eq_of_lt (by omega)]
    apply BitVec.eq_of_toNat_eq
    rw [unravelReciprocal, ← hr, BitVec.toNat_setWidth, BitVec.toNat_sub, hprod,
      BitVec.toNat_setWidth, BitVec.toNat_ofNat, Nat.mod_eq_of_lt (show i.toNat < 2 ^ 64 by omega)]
    omega

/-! ## Every index -/

/-- Rows and columns are the quotients and remainders modulo 2^16, on both paths, and these
themselves for an image of at most 65536 rows and columns. -/
theorem unravel_exact {nfast : Nat} (h1 : 1 ≤ nfast) (h2 : nfast ≤ 2 ^ 32 - 1)
    (indices : List (BitVec 32)) :
    unravel indices nfast =
        (indices.map fun i => BitVec.ofNat 16 (i.toNat / nfast),
          indices.map fun i => BitVec.ofNat 16 (i.toNat % nfast)) ∧
      ∀ nslow, nslow ≤ 65536 → nfast ≤ 65536 → (∀ i ∈ indices, i.toNat < nslow * nfast) →
        (unravel indices nfast).1.map BitVec.toNat = indices.map (fun i => i.toNat / nfast) ∧
        (unravel indices nfast).2.map BitVec.toNat = indices.map (fun i => i.toNat % nfast) := by
  have heq : unravel indices nfast =
      (indices.map fun i => BitVec.ofNat 16 (i.toNat / nfast),
        indices.map fun i => BitVec.ofNat 16 (i.toNat % nfast)) := by
    have hunzip : ∀ f : BitVec 32 → BitVec 16 × BitVec 16,
        (∀ i ∈ indices, f i =
          (BitVec.ofNat 16 (i.toNat / nfast), BitVec.ofNat 16 (i.toNat % nfast))) →
        (indices.map f).unzip = (indices.map fun i => BitVec.ofNat 16 (i.toNat / nfast),
          indices.map fun i => BitVec.ofNat 16 (i.toNat % nfast)) := by
      intro f hf
      rw [List.map_congr_left hf, List.unzip_eq_map, List.map_map, List.map_map]
      rfl
    unfold unravel
    split
    · next hnil =>
      rw [hnil]
      rfl
    split
    · exact hunzip _ fun i _ => unravelDivmod_eq (by omega) i
    · next hsmall =>
      rw [not_or, not_le, not_le] at hsmall
      exact hunzip _ fun i hi =>
        unravelReciprocal_eq h1 hsmall.1 ((le_maxIndex hi).trans_lt hsmall.2)
  refine ⟨heq, fun nslow hslow hfast hin => ?_⟩
  rw [heq]
  constructor
  · rw [List.map_map]
    apply List.map_congr_left
    intro i hi
    have hlt : i.toNat / nfast < nslow := Nat.div_lt_of_lt_mul (by rw [Nat.mul_comm]; exact hin i hi)
    rw [Function.comp_apply, BitVec.toNat_ofNat, Nat.mod_eq_of_lt (by omega)]
  · rw [List.map_map]
    apply List.map_congr_left
    intro i _
    have hlt := Nat.mod_lt i.toNat h1
    rw [Function.comp_apply, BitVec.toNat_ofNat, Nat.mod_eq_of_lt (by omega)]

/-- Rows of one pixel: the product of the last index wraps. -/
theorem unravel_exact_wraps :
    unravel [5#32, 16777221#32] 1 =
      ([5#32, 16777221#32].map fun i => BitVec.ofNat 16 (i.toNat / 1),
        [5#32, 16777221#32].map fun i => BitVec.ofNat 16 (i.toNat % 1)) :=
  (unravel_exact (by decide) (by decide) [5#32, 16777221#32]).1

end Bslz4ToSparse.Pipeline
