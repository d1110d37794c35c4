import Mathlib.Data.BitVec
import Mathlib.Data.List.Nodup
import Mathlib.Data.List.Flatten
import Mathlib.Data.List.Perm.Basic

/-!
# Strided and tiled traversals

The loops that walk an interval in chunks, in strides, or in strides within tiles. Each
visits every index of the interval once.
-/

namespace Bslz4ToSparse.Foundation

/-- `for (r = a; r < b; r += step)`. -/
def strided (a b step : Nat) : List Nat := List.range' a ((b - a + (step - 1)) / step) step

/-- The values of an `int` that counts from `k` to below `b`. -/
def intLoop (b step : BitVec 32) : Nat → BitVec 32 → List Nat
  | 0, _ => []
  | fuel + 1, k => if k.slt b then k.toNat :: intLoop b step fuel (k + step) else []

/-- The indices of `[a, b)` in tiles, each tile `stride` apart per pass. -/
def tiled (tile stride a b : Nat) : List Nat :=
  (strided a b tile).flatMap fun t0 =>
    (List.range stride).flatMap fun s => strided (t0 + s) (min (t0 + tile) b) stride

theorem lt_ceilDiv {step : Nat} (h : 0 < step) (i m : Nat) :
    i < (m + (step - 1)) / step ↔ step * i < m := by
  rw [Nat.lt_iff_add_one_le, Nat.le_div_iff_mul_le h, Nat.add_mul, Nat.mul_comm i step]
  omega

theorem mem_strided {a b step x : Nat} (h : 0 < step) :
    x ∈ strided a b step ↔ a ≤ x ∧ x < b ∧ (x - a) % step = 0 := by
  rw [strided, List.mem_range']
  constructor
  · rintro ⟨i, hi, rfl⟩
    have hlt := (lt_ceilDiv h i (b - a)).mp hi
    exact ⟨by omega, by omega, by simp⟩
  · rintro ⟨hax, hxb, hmod⟩
    have hx := Nat.div_add_mod (x - a) step
    exact ⟨(x - a) / step, (lt_ceilDiv h _ _).mpr (by omega), by omega⟩

theorem nodup_strided {a b step : Nat} (h : 0 < step) : (strided a b step).Nodup :=
  List.nodup_range' step h

theorem strided_cons {a b step : Nat} (h : 0 < step) (hab : a < b) :
    strided a b step = a :: strided (a + step) b step := by
  have hcount : (b - a + (step - 1)) / step = (b - (a + step) + (step - 1)) / step + 1 := by
    rcases Nat.lt_or_ge b (a + step) with hlt | hge
    · have hzero : (b - (a + step) + (step - 1)) / step = 0 := Nat.div_eq_of_lt (by omega)
      rw [hzero]
      exact Nat.div_eq_of_lt_le (by omega) (by omega)
    · rw [← Nat.add_div_right _ h]
      congr 1
      omega
  rw [strided, strided, hcount, List.range'_succ]

/-- A counter that stays below 2^31 does not wrap. -/
theorem intLoop_eq {b step : Nat} (h : 0 < step) (hb : b + step ≤ 2 ^ 31)
    {fuel a : Nat} (ha : a < 2 ^ 31) (hfuel : b - a < fuel) :
    intLoop (.ofNat 32 b) (.ofNat 32 step) fuel (.ofNat 32 a) = strided a b step := by
  induction fuel generalizing a with
  | zero => exact absurd hfuel (Nat.not_lt_zero _)
  | succ fuel ih =>
    have hint : ∀ {n : Nat}, n < 2 ^ 31 → (BitVec.ofNat 32 n).toInt = n := fun hn => by
      rw [BitVec.toInt_eq_toNat_of_lt (by rw [BitVec.toNat_ofNat]; omega), BitVec.toNat_ofNat,
        Nat.mod_eq_of_lt (by omega)]
    have hslt : (BitVec.ofNat 32 a).slt (.ofNat 32 b) = decide (a < b) := by
      rw [BitVec.slt_eq_decide, hint ha, hint (by omega)]
      simp
    rw [intLoop, hslt]
    by_cases hab : a < b
    · rw [if_pos (decide_eq_true hab), strided_cons h hab, ← BitVec.ofNat_add, BitVec.toNat_ofNat,
        Nat.mod_eq_of_lt (by omega), ih (by omega) (by omega)]
    · rw [if_neg (by simp [hab]), strided, Nat.sub_eq_zero_of_le (by omega), Nat.zero_add,
        Nat.div_eq_of_lt (by omega), List.range'_zero]

/-- The strides from 0. -/
theorem strided_zero {step : Nat} (h : 0 < step) (n : Nat) :
    strided 0 n step = (List.range ((n + step - 1) / step)).map (· * step) := by
  refine List.ext_getElem ?_ fun i h₁ h₂ => ?_
  · simp [strided, Nat.add_sub_assoc (show 1 ≤ step from h)]
  · simp [strided, Nat.mul_comm]

/-- The passes over an interval visit it once. -/
theorem passes_perm {stride : Nat} (h : 0 < stride) (a b : Nat) :
    ((List.range stride).flatMap fun s => strided (a + s) b stride).Perm (List.range' a (b - a)) := by
  refine (List.perm_ext_iff_of_nodup ?_ List.nodup_range').mpr fun x => ?_
  · refine List.nodup_flatMap.mpr ⟨fun s _ => nodup_strided h, ?_⟩
    refine List.nodup_range.imp_of_mem ?_
    intro s s' hs hs' hne x hx hx'
    have hlt := List.mem_range.mp hs
    have hlt' := List.mem_range.mp hs'
    obtain ⟨h₁, -, h₂⟩ := (mem_strided h).mp hx
    obtain ⟨h₁', -, h₂'⟩ := (mem_strided h).mp hx'
    -- both passes are the one of the distance from `a`
    have hpass : ∀ r, r < stride → a + r ≤ x → (x - (a + r)) % stride = 0 → (x - a) % stride = r := by
      intro r hr hle hmod
      have hdvd := Nat.dvd_of_mod_eq_zero hmod
      rw [show x - a = r + (x - (a + r)) by omega, Nat.add_mod, hmod, Nat.add_zero, Nat.mod_mod,
        Nat.mod_eq_of_lt hr]
    exact hne ((hpass s hlt h₁ h₂).symm.trans (hpass s' hlt' h₁' h₂'))
  · rw [List.mem_flatMap, List.mem_range'_1]
    constructor
    · rintro ⟨s, -, hx⟩
      have hx' := (mem_strided h).mp hx
      omega
    · intro hx
      refine ⟨(x - a) % stride, List.mem_range.mpr (Nat.mod_lt _ h), (mem_strided h).mpr ?_⟩
      have hle := Nat.mod_le (x - a) stride
      refine ⟨by omega, by omega, ?_⟩
      have hsub := Nat.dvd_sub_mod (n := stride) (x - a)
      rw [Nat.sub_sub] at hsub
      exact Nat.mod_eq_zero_of_dvd hsub

/-- The tiles of an interval follow one another without gaps. -/
theorem flatMap_tiles {tile : Nat} (h : 0 < tile) (a b : Nat) :
    (strided a b tile).flatMap (fun t0 => List.range' t0 (min (t0 + tile) b - t0)) =
      List.range' a (b - a) := by
  have hpart : ∀ c, (List.range' a c tile).flatMap
      (fun t0 => List.range' t0 (min (t0 + tile) b - t0)) = List.range' a (min (b - a) (tile * c)) := by
    intro c
    induction c with
    | zero => simp
    | succ c ih =>
      rw [List.range'_concat, List.flatMap_append, ih, List.flatMap_singleton, Nat.mul_succ]
      by_cases hend : b - a ≤ tile * c
      · have hnone : min (a + tile * c + tile) b - (a + tile * c) = 0 := by omega
        rw [hnone, Nat.min_eq_left hend, Nat.min_eq_left (Nat.le_trans hend (Nat.le_add_right _ _))]
        simp
      · rw [Nat.min_eq_right (by omega), List.range'_append_1]
        congr 1
        omega
  rw [strided, hpart]
  have hle : b - a ≤ tile * ((b - a + (tile - 1)) / tile) := by
    by_contra hlt
    have hmem := (lt_ceilDiv h ((b - a + (tile - 1)) / tile) (b - a)).mpr (by omega)
    omega
  rw [Nat.min_eq_left hle]

theorem tiled_perm {tile stride : Nat} (ht : 0 < tile) (hs : 0 < stride) (a b : Nat) :
    (tiled tile stride a b).Perm (List.range' a (b - a)) := by
  rw [← flatMap_tiles ht, tiled]
  exact List.Perm.flatMap_left _ fun t0 _ => passes_perm hs t0 _

end Bslz4ToSparse.Foundation
