import Bslz4ToSparse.Common
import Bslz4ToSparse.Foundation.Bits
import Bslz4ToSparse.Pixel

/-!
# Bit-planes and the untranspose step (src/steps/untranspose.h)

A bitshuffled block of `ne` pixels holds one plane of `ne / 8` bytes for each bit of a
pixel. The kernels that undo it are third-party code; they are parameters here, with the
inverse bitshuffle as what is assumed of them.
-/

namespace Bslz4ToSparse.Steps

open Foundation
open Lz4 (Byte)

variable {t : Dtype}

/-- Pixel `e` of a pixel block (little endian). -/
def pixelAt (t : Dtype) (mem : Memory) (e : Nat) : Pixel t :=
  gather t.bits fun k => (mem (e * t.size + k / 8)).getLsbD (k % 8)

/-- Pixel `e` of the bit-planes of `ne` pixels: bit `k` is bit `e % 8` of byte `e / 8` of plane `k`. -/
def planePixel (t : Dtype) (planes : Memory) (ne e : Nat) : Pixel t :=
  gather t.bits fun k => (planes (k * (ne / 8) + e / 8)).getLsbD (e % 8)

/-- `out` is the inverse bitshuffle of `inp`, for `ne` elements of `nb` bytes. -/
def Unshuffled (inp out : Memory) (ne nb : Nat) : Prop :=
  ∀ e, e < ne → ∀ b, b < nb → ∀ i, i < 8 →
    (out (e * nb + b)).getLsbD i = (inp ((8 * b + i) * (ne / 8) + e / 8)).getLsbD (e % 8)

/-- The byte of a plane lies in the block. -/
theorem plane_lt {ne nb k e : Nat} (h8 : 8 ∣ ne) (hk : k < 8 * nb) (he : e < ne) :
    k * (ne / 8) + e / 8 < ne * nb := by
  obtain ⟨m, rfl⟩ := h8
  rw [Nat.mul_div_cancel_left m (by decide)]
  have he8 : e / 8 < m := Nat.div_lt_of_lt_mul he
  have hstep : k * m + m ≤ 8 * nb * m := by
    rw [← Nat.succ_mul]
    exact Nat.mul_le_mul_right m hk
  have hcomm : 8 * m * nb = 8 * nb * m := by rw [Nat.mul_assoc, Nat.mul_comm m nb, ← Nat.mul_assoc]
  omega

theorem planePixel_congr {planes planes' : Memory} {ne e : Nat} (h8 : 8 ∣ ne) (he : e < ne)
    (h : ∀ i, i < ne * t.size → planes i = planes' i) :
    planePixel t planes ne e = planePixel t planes' ne e :=
  gather_congr fun _ hk => by rw [h _ (plane_lt h8 hk he)]

theorem pixelAt_congr {mem mem' : Memory} {e : Nat}
    (h : ∀ b, b < t.size → mem (e * t.size + b) = mem' (e * t.size + b)) :
    pixelAt t mem e = pixelAt t mem' e :=
  gather_congr fun k hk => by rw [h (k / 8) (by simp only [Dtype.bits] at hk; omega)]

/-- The pixels of an unshuffled block are those of its planes. -/
theorem Unshuffled.pixel {inp out : Memory} {ne e : Nat} (h : Unshuffled inp out ne t.size)
    (he : e < ne) : pixelAt t out e = planePixel t inp ne e := by
  refine gather_congr fun k hk => ?_
  have hb : k / 8 < t.size := by
    simp only [Dtype.bits] at hk
    omega
  rw [h e he (k / 8) hb (k % 8) (Nat.mod_lt k (by decide)), Nat.div_add_mod]

theorem Unshuffled.congr {inp inp' out : Memory} {ne nb : Nat} (h : Unshuffled inp out ne nb)
    (h8 : 8 ∣ ne) (hinp : ∀ i, i < ne * nb → inp i = inp' i) : Unshuffled inp' out ne nb := by
  intro e he b hb i hi
  rw [h e he b hb i hi, hinp _ (plane_lt h8 (by omega) he)]

/-- The `untranspose` values. -/
inductive Untranspose where
  | lowplanesVbmi | lowplanesAvx2 | lowplanesVsx | lowplanesC | kcb | neon | scalar
  deriving DecidableEq, Repr

/-- `untranspose <= BSLZ4_UNTRANSPOSE_LOWPLANES_C`. -/
def Untranspose.lowplanes : Untranspose → Bool
  | lowplanesVbmi | lowplanesAvx2 | lowplanesVsx | lowplanesC => true
  | _ => false

/-- The third-party kernels: the output of `size` elements of `elemSize` bytes, or a negative
return. `bitshufDecodeBlock` (kcb) may be given no scratch; it also leaves a scratch. `tileStack` is what
the arrays of a collect happen to hold on the stack before the tile at a pixel. -/
structure Kernels where
  bitshufDecodeBlock : Memory → Option Memory → Nat → Nat → Option (Memory × Memory)
  transByteBitrowScal : Memory → Nat → Nat → Option Memory
  shuffleBitEightelemScal : Memory → Nat → Nat → Option Memory
  transByteBitrowNeon : Memory → Nat → Nat → Option Memory
  shuffleBitEightelemNeon : Memory → Nat → Nat → Option Memory
  tileStack : Nat → Memory × (Nat → BitVec 64)

/-- `bslz4_untranspose_backend`: the pixel block and the scratch. -/
def untransposeBackend (K : Kernels) (value : Untranspose) (inp scratch : Memory)
    (size elemSize : Nat) : Option (Memory × Memory) :=
  match value with
  | .neon => do
      let s ← K.transByteBitrowNeon inp size elemSize
      let out ← K.shuffleBitEightelemNeon s size elemSize
      return (out, copyTo scratch 0 (size * elemSize) s)
  | .scalar => do
      let s ← K.transByteBitrowScal inp size elemSize
      let out ← K.shuffleBitEightelemScal s size elemSize
      return (out, copyTo scratch 0 (size * elemSize) s)
  | _ => K.bitshufDecodeBlock inp (some scratch) size elemSize

/-- A kernel is the inverse bitshuffle on whole groups of 8 elements and an error otherwise. -/
def IsInverse (f : Memory → Nat → Nat → Option Memory) : Prop :=
  ∀ inp ne nb, (8 ∣ ne → ∃ out, f inp ne nb = some out ∧ Unshuffled inp out ne nb) ∧
    (¬ 8 ∣ ne → f inp ne nb = none)

/-- What is assumed of the third-party kernels. -/
structure Kernels.Inverse (K : Kernels) : Prop where
  kcb : ∀ scratch, IsInverse fun inp ne nb =>
    (K.bitshufDecodeBlock inp (some scratch) ne nb).map Prod.fst
  bytes : ∀ inp ne, 8 ∣ ne →
    ∃ r, K.bitshufDecodeBlock inp none ne 1 = some r ∧ Unshuffled inp r.1 ne 1
  scal : IsInverse fun inp ne nb =>
    (K.transByteBitrowScal inp ne nb).bind fun s => K.shuffleBitEightelemScal s ne nb
  neon : IsInverse fun inp ne nb =>
    (K.transByteBitrowNeon inp ne nb).bind fun s => K.shuffleBitEightelemNeon s ne nb

/-! ## The scalar kernels

The bytes of every plane gathered by group of 8 elements, then the bits of each byte. -/

/-- Group `ii`, byte `jj` and bit `kk` of the elements, from plane `8 * jj + kk`. -/
def transByteBitrow (inp : Memory) (ne nb : Nat) : Memory := fun i =>
  inp (i % (8 * nb) * (ne / 8) + i / (8 * nb))

/-- Byte `b` of element `e`: bit `e % 8` of each of 8 bytes. -/
def shuffleBitEightelem (inp : Memory) (nb : Nat) : Memory := fun i =>
  gather 8 fun q => (inp (i / nb / 8 * (8 * nb) + (8 * (i % nb) + q))).getLsbD (i / nb % 8)

theorem unshuffled_scal (inp : Memory) (ne nb : Nat) :
    Unshuffled inp (shuffleBitEightelem (transByteBitrow inp ne nb) nb) ne nb := by
  intro e _ b hb i hi
  have hdiv : (e * nb + b) / nb = e := by
    rw [Nat.mul_comm, Nat.mul_add_div (by omega), Nat.div_eq_of_lt hb, Nat.add_zero]
  have hmod : (e * nb + b) % nb = b := by rw [Nat.mul_comm, Nat.mul_add_mod, Nat.mod_eq_of_lt hb]
  have hplane : 8 * b + i < 8 * nb := by omega
  rw [shuffleBitEightelem, getLsbD_gather, decide_eq_true hi, Bool.true_and, hdiv, hmod,
    transByteBitrow, Nat.mul_comm (e / 8), Nat.mul_add_mod, Nat.mod_eq_of_lt hplane,
    Nat.mul_add_div (by omega), Nat.div_eq_of_lt hplane, Nat.add_zero]

/-- Kernels that all are the scalar ones. -/
def Kernels.scalarOnly : Kernels where
  bitshufDecodeBlock inp scratch ne nb :=
    if ne % 8 = 0 then
      some (shuffleBitEightelem (transByteBitrow inp ne nb) nb, scratch.getD fun _ => 0#8)
    else none
  transByteBitrowScal inp ne nb := if ne % 8 = 0 then some (transByteBitrow inp ne nb) else none
  shuffleBitEightelemScal inp ne nb := if ne % 8 = 0 then some (shuffleBitEightelem inp nb) else none
  transByteBitrowNeon inp ne nb := if ne % 8 = 0 then some (transByteBitrow inp ne nb) else none
  shuffleBitEightelemNeon inp ne nb := if ne % 8 = 0 then some (shuffleBitEightelem inp nb) else none
  tileStack _ := (fun _ => 0xA5#8, fun _ => 0xA5A5A5A5A5A5A5A5#64)

theorem Kernels.scalarOnly_inverse : Kernels.scalarOnly.Inverse := by
  have hpair : IsInverse fun inp ne nb =>
      (if ne % 8 = 0 then some (transByteBitrow inp ne nb) else none).bind fun s =>
        if ne % 8 = 0 then some (shuffleBitEightelem s nb) else none := by
    intro inp ne nb
    constructor
    · intro h8
      have hmod := Nat.mod_eq_zero_of_dvd h8
      exact ⟨_, by simp only [hmod, if_true, Option.bind_some], unshuffled_scal inp ne nb⟩
    · intro h8
      have hmod : ¬ ne % 8 = 0 := fun h => h8 (Nat.dvd_of_mod_eq_zero h)
      simp only [hmod, if_false, Option.bind_none]
  refine ⟨fun scratch inp ne nb => ?_, fun inp ne h8 => ?_, hpair, hpair⟩
  · constructor
    · intro h8
      have hmod := Nat.mod_eq_zero_of_dvd h8
      exact ⟨_, by simp only [Kernels.scalarOnly, hmod, if_true, Option.map_some],
        unshuffled_scal inp ne nb⟩
    · intro h8
      have hmod : ¬ ne % 8 = 0 := fun h => h8 (Nat.dvd_of_mod_eq_zero h)
      simp only [Kernels.scalarOnly, hmod, if_false, Option.map_none]
  · exact ⟨_, if_pos (Nat.mod_eq_zero_of_dvd h8), unshuffled_scal inp ne 1⟩

/-- Every backend undoes the bitshuffle of whole groups of 8 elements, and refuses others. -/
theorem untransposeBackend_spec {K : Kernels} (hK : K.Inverse) (value : Untranspose)
    (inp scratch : Memory) (ne nb : Nat) :
    (8 ∣ ne → ∃ out scratch', untransposeBackend K value inp scratch ne nb = some (out, scratch') ∧
      Unshuffled inp out ne nb) ∧
    (¬ 8 ∣ ne → untransposeBackend K value inp scratch ne nb = none) := by
  have hkcb : (8 ∣ ne → ∃ out scratch', K.bitshufDecodeBlock inp (some scratch) ne nb =
      some (out, scratch') ∧ Unshuffled inp out ne nb) ∧
      (¬ 8 ∣ ne → K.bitshufDecodeBlock inp (some scratch) ne nb = none) := by
    have h := hK.kcb scratch inp ne nb
    constructor
    · intro h8
      obtain ⟨out, hout, hu⟩ := h.1 h8
      obtain ⟨r, hr, rfl⟩ := Option.map_eq_some_iff.mp hout
      exact ⟨r.1, r.2, hr, hu⟩
    · intro h8
      exact Option.map_eq_none_iff.mp (h.2 h8)
  have hpair : ∀ (first second : Memory → Nat → Nat → Option Memory),
      IsInverse (fun inp ne nb => (first inp ne nb).bind fun s => second s ne nb) →
      ∀ r, r = ((first inp ne nb).bind fun s => (second s ne nb).bind fun out =>
        some (out, copyTo scratch 0 (ne * nb) s)) →
      (8 ∣ ne → ∃ out scratch', r = some (out, scratch') ∧ Unshuffled inp out ne nb) ∧
        (¬ 8 ∣ ne → r = none) := by
    rintro first second h r rfl
    obtain ⟨hok, herr⟩ := h inp ne nb
    cases hs : first inp ne nb with
    | none =>
      simp only [hs, Option.bind_none, implies_true, and_true] at hok ⊢
      intro h8
      obtain ⟨out, hout, -⟩ := hok h8
      cases hout
    | some s =>
      simp only [hs, Option.bind_some] at hok herr ⊢
      constructor
      · intro h8
        obtain ⟨out, hout, hu⟩ := hok h8
        exact ⟨out, _, by rw [hout, Option.bind_some], hu⟩
      · intro h8
        rw [herr h8, Option.bind_none]
  cases value with
  | neon => exact hpair _ _ hK.neon _ rfl
  | scalar => exact hpair _ _ hK.scal _ rfl
  | lowplanesVbmi | lowplanesAvx2 | lowplanesVsx | lowplanesC | kcb => exact hkcb

end Bslz4ToSparse.Steps
