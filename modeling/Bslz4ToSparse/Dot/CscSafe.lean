import Bslz4ToSparse.Dot.Csc
import Bslz4ToSparse.Foundation.Loops
import Bslz4ToSparse.Matrix.Normalise

/-!
# The csc dots inside their arrays (src/steps/dot_csc.hpp)

The kernels once more, over the arrays that they are given: a read outside an array and
a bin outside the powder give `none`. On a consistent matrix whose bins are below `nbins`
they never do, and leave what the kernels of `Dot.Csc` leave.
-/

namespace Bslz4ToSparse.Dot

open Foundation Matrix

variable {P F D G : Type}

/-- The bin and the weight of entry `k`. -/
def readEntry (m : RawMatrix F) (k : Nat) : Option (Nat × F) := do
  let bin ← m.indices[k]?
  let weight ← m.data[k]?
  if bin.toNat < m.nbins then some (bin.toNat, weight) else none

/-- `for (k = k0; k < k1; k++) out[indices[k]] += data[k] * v`. -/
def addEntriesChecked (A : Arith P F D) (m : RawMatrix F) (k0 k1 : Nat) (v : D) (out : Nat → D) :
    Option (Nat → D) :=
  (List.range' k0 (k1 - k0)).foldlM (fun out k => do
    let e ← readEntry m k
    return modifyAt out e.1 fun o => A.add o (A.mul (A.weight e.2) v)) out

/-- The entries of pixel `p`. -/
def addPixelChecked (A : Arith P F D) (m : RawMatrix F) (p : Nat) (v : D) (out : Nat → D) :
    Option (Nat → D) := do
  let k0 ← m.indptr[p]?
  let k1 ← m.indptr[p + 1]?
  addEntriesChecked A m k0.toNat k1.toNat v out

/-- The loop of `dense_dot`. -/
def denseDotChecked (A : Arith P F D) (m : RawMatrix F) (px : Nat → P) (i0 n : Nat)
    (out : Nat → D) : Option (Nat → D) :=
  (List.range n).foldlM (fun out j => addPixelChecked A m (j + i0) (A.pixel (px j)) out) out

/-- Whether `sparse_dot_core` stages the block. -/
def stagesChecked (m : RawMatrix F) (i0 n : Nat) : Option Bool := do
  let k1 ← m.indptr[i0 + n]?
  let k0 ← m.indptr[i0]?
  let eblk := (k1 - k0).toNat
  return decide (3 * n < 2 * eblk) && decide (eblk < 4 * n)

/-- `out[indices[sk[e]]] += data[sk[e]] * sv[e]` for the staged entries. -/
def applyStagedChecked (A : Arith P F D) (m : RawMatrix F) (st : Staging D) (out : Nat → D) :
    Option (Nat → D) :=
  (List.range st.pos).foldlM (fun out e => do
    let entry ← readEntry m (st.sk e)
    return modifyAt out entry.1 fun o => A.add o (A.mul (A.weight entry.2) (st.sv e))) out

/-- One listed pixel of a staging chunk. -/
def stagePixelChecked (A : Arith P F D) (m : RawMatrix F) (addr : Nat) (val : P)
    (s : Staging D × (Nat → D)) : Option (Staging D × (Nat → D)) := do
  let k0 ← m.indptr[addr]?
  let k1 ← m.indptr[addr + 1]?
  let len := (k1 - k0).toNat
  let v := A.pixelFloat val
  let st := s.1
  if len ≤ 8 then
    return ({
      pos := st.pos + len
      sk := fun e => if st.pos ≤ e ∧ e < st.pos + 8 then (k0 + BitVec.ofNat 32 (e - st.pos)).toNat
        else st.sk e
      sv := fun e => if st.pos ≤ e ∧ e < st.pos + 8 then v else st.sv e }, s.2)
  else
    let out ← applyStagedChecked A m st s.2
    let out ← addEntriesChecked A m k0.toNat (k0 + BitVec.ofNat 32 len).toNat (A.pixel val) out
    return ({ st with pos := 0 }, out)

/-- One staging chunk: the listed pixels `[base, fin)`. -/
def stageChunkChecked (A : Arith P F D) (m : RawMatrix F) (l : PixelList P) (base fin : Nat)
    (s : Staging D × (Nat → D)) : Option (Staging D × (Nat → D)) := do
  let s ← (List.range' base (fin - base)).foldlM
    (fun s kk => stagePixelChecked A m (l.tidx kk) (l.tval kk) s) ({ s.1 with pos := 0 }, s.2)
  let out ← applyStagedChecked A m s.1 s.2
  return (s.1, out)

/-- The accumulation of `sparse_dot_core`. -/
def sparseDotChecked (A : Arith P F D) (m : RawMatrix F) (i0 n : Nat) (l : PixelList P)
    (out : Nat → D) : Option (Nat → D) := do
  if ← stagesChecked m i0 n then
    let s ← (strided 0 l.nz dotStage).foldlM (fun s base =>
      stageChunkChecked A m l base (min (base + dotStage) l.nz) s) (⟨0, fun _ => 0, fun _ => A.zero⟩, out)
    return s.2
  else
    (List.range l.nz).foldlM (fun out kk =>
      addPixelChecked A m (l.tidx kk) (A.pixel (l.tval kk)) out) out

/-! ## The checks pass -/

/-- A consistent matrix whose bins are bins of the powder. -/
structure InRange (m : RawMatrix F) : Prop extends m.Consistent where
  bins_lt : ∀ i ∈ m.indices, i.toNat < m.nbins

/-- The arrays, as the kernels of `Dot.Csc` read them. -/
def rawCsc [Inhabited F] (m : RawMatrix F) : MatCsc F where
  data := fun k => m.data.getD k default
  indices := fun k => (m.indices.getD k 0).toNat
  indptr := m.ptr

/-- A step from one pointer to the next does not wrap. -/
theorem add_ptr {m : RawMatrix F} {p j : Nat} (hj : m.ptr p + j ≤ m.ptr (p + 1)) :
    (m.indptr.getD p 0 + BitVec.ofNat 32 j).toNat = m.ptr p + j := by
  have hlt : m.ptr (p + 1) < 2 ^ 32 := (m.indptr.getD (p + 1) 0).isLt
  rw [BitVec.toNat_add, BitVec.toNat_ofNat, Nat.mod_eq_of_lt (show j < 2 ^ 32 by omega)]
  exact Nat.mod_eq_of_lt (hj.trans_lt hlt)

section Pointers

variable {m : RawMatrix F} (hm : InRange m)

include hm

theorem readPtr_eq {p : Nat} (hp : p ≤ m.npix) : m.indptr[p]? = some (m.indptr.getD p 0) := by
  have hlt : p < m.indptr.length := by rw [hm.length_indptr]; omega
  rw [List.getElem?_eq_getElem hlt, List.getD_eq_getElem _ _ hlt]

theorem ptr_mono {p q : Nat} (hpq : p ≤ q) (hq : q ≤ m.npix) : m.ptr p ≤ m.ptr q := by
  induction q, hpq using Nat.le_induction with
  | base => exact le_rfl
  | succ q _ ih => exact (ih (by omega)).trans (hm.mono q hq)

theorem ptr_le_length {p : Nat} (hp : p ≤ m.npix) : m.ptr p ≤ m.indices.length :=
  (ptr_mono hm hp le_rfl).trans hm.last.le

/-- The difference of two pointers does not wrap. -/
theorem sub_ptr {p q : Nat} (hpq : p ≤ q) (hq : q ≤ m.npix) :
    (m.indptr.getD q 0 - m.indptr.getD p 0).toNat = m.ptr q - m.ptr p :=
  BitVec.toNat_sub_of_le (BitVec.le_def.mpr (ptr_mono hm hpq hq))

end Pointers

section

variable [Inhabited F] {A : Arith P F D} {m : RawMatrix F} (hm : InRange m)

include hm

theorem readEntry_eq {k : Nat} (hk : k < m.indices.length) :
    readEntry m k = some ((rawCsc m).indices k, (rawCsc m).data k) := by
  have hbin := hm.bins_lt _ (List.getElem_mem hk)
  have hdata : k < m.data.length := by rw [hm.length_data]; exact hk
  simp [readEntry, rawCsc, List.getElem?_eq_getElem hk, List.getElem?_eq_getElem hdata, hbin,
    List.getD_eq_getElem?_getD]

theorem addEntriesChecked_eq {k0 k1 : Nat} (h : k1 ≤ m.indices.length) (v : D) (out : Nat → D) :
    addEntriesChecked A m k0 k1 v out = some (addEntries A (rawCsc m) k0 k1 v out) := by
  apply foldlM_eq_some
  intro k hk out
  have hlt := List.mem_range'_1.mp hk
  rw [readEntry_eq hm (show k < m.indices.length by omega)]
  rfl

theorem addPixelChecked_eq {p : Nat} (hp : p < m.npix) (v : D) (out : Nat → D) :
    addPixelChecked A m p v out = some (addPixel A (rawCsc m) p v out) := by
  rw [addPixelChecked, readPtr_eq hm hp.le, readPtr_eq hm (show p + 1 ≤ m.npix from hp)]
  exact addEntriesChecked_eq hm (ptr_le_length hm (show p + 1 ≤ m.npix from hp)) v out

theorem denseDotChecked_eq {i0 n : Nat} (h : i0 + n ≤ m.npix) (px : Nat → P) (out : Nat → D) :
    denseDotChecked A m px i0 n out = some (denseDot A (rawCsc m) px i0 n out) := by
  apply foldlM_eq_some
  intro j hj out
  have hlt := List.mem_range.mp hj
  exact addPixelChecked_eq hm (by omega) _ out

theorem stagesChecked_eq {i0 n : Nat} (h : i0 + n ≤ m.npix) :
    stagesChecked m i0 n = some (stages (rawCsc m) i0 n) := by
  rw [stagesChecked, readPtr_eq hm h, readPtr_eq hm (show i0 ≤ m.npix by omega)]
  simp only [Option.bind_eq_bind, Option.bind_some, sub_ptr hm (Nat.le_add_right i0 n) h]
  rfl

/-- The staged entries of a check and of the kernel: the same, and inside the arrays. -/
structure Staged (m : RawMatrix F) (st st' : Staging D) : Prop where
  pos : st.pos = st'.pos
  slots : ∀ e, e < st.pos → st.sk e = st'.sk e ∧ st.sv e = st'.sv e ∧ st.sk e < m.indices.length

theorem applyStagedChecked_eq {st st' : Staging D} (hst : Staged m st st') (out : Nat → D) :
    applyStagedChecked A m st out = some (applyStaged A (rawCsc m) st' out) := by
  rw [applyStaged, ← hst.pos]
  apply foldlM_eq_some
  intro e he out
  obtain ⟨hk, hv, hlt⟩ := hst.slots e (List.mem_range.mp he)
  rw [readEntry_eq hm hlt, ← hk, ← hv]
  rfl

/-- A check and the kernel inside a staging chunk. -/
def Follows (m : RawMatrix F) (s s' : Staging D × (Nat → D)) : Prop := Staged m s.1 s'.1 ∧ s.2 = s'.2

theorem stagePixelChecked_follows {addr : Nat} (hp : addr < m.npix) (val : P)
    {s s' : Staging D × (Nat → D)} (hs : Follows m s s') :
    ∃ t, stagePixelChecked A m addr val s = some t ∧
      Follows m t (stagePixel A (rawCsc m) addr val s') := by
  obtain ⟨hst, hout⟩ := hs
  have hend := ptr_le_length hm (show addr + 1 ≤ m.npix from hp)
  have hmono := hm.mono addr hp
  have hlen := sub_ptr hm (show addr ≤ addr + 1 by omega) hp
  have hdef : (rawCsc m).indptr (addr + 1) - (rawCsc m).indptr addr = m.ptr (addr + 1) - m.ptr addr := rfl
  rw [stagePixelChecked, readPtr_eq hm hp.le, readPtr_eq hm (show addr + 1 ≤ m.npix from hp)]
  simp only [Option.bind_eq_bind, Option.bind_some, hlen, stagePixel, hdef]
  by_cases h8 : m.ptr (addr + 1) - m.ptr addr ≤ 8
  · rw [if_pos h8, if_pos h8]
    refine ⟨_, rfl, ⟨?_, ?_⟩, hout⟩
    · simp only [hst.pos]
    · intro e he
      simp only at he ⊢
      rw [← hst.pos]
      by_cases hold : e < s.1.pos
      · rw [if_neg (by omega), if_neg (by omega), if_neg (by omega), if_neg (by omega)]
        exact hst.slots e hold
      · have hslot := add_ptr (show m.ptr addr + (e - s.1.pos) ≤ m.ptr (addr + 1) by omega)
        rw [if_pos (by omega), if_pos (by omega), if_pos (by omega), if_pos (by omega), hslot]
        exact ⟨rfl, rfl, by omega⟩
  · have hsum := add_ptr (show m.ptr addr + (m.ptr (addr + 1) - m.ptr addr) ≤ m.ptr (addr + 1) by omega)
    rw [if_neg h8, if_neg h8, applyStagedChecked_eq hm hst, hout, hsum]
    simp only [Option.bind_some]
    rw [addEntriesChecked_eq hm (by omega)]
    exact ⟨_, rfl, ⟨rfl, fun e he => absurd he (Nat.not_lt_zero e)⟩, rfl⟩

theorem stageChunkChecked_follows {l : PixelList P} (hl : ∀ kk, kk < l.nz → l.tidx kk < m.npix)
    {base fin : Nat} (hfin : fin ≤ l.nz) {s s' : Staging D × (Nat → D)} (hs : Follows m s s') :
    ∃ t, stageChunkChecked A m l base fin s = some t ∧
      Follows m t (stageChunk A (rawCsc m) l base fin s') := by
  have hempty : Follows m ({ s.1 with pos := 0 }, s.2) ({ s'.1 with pos := 0 }, s'.2) :=
    ⟨⟨rfl, fun e he => absurd he (Nat.not_lt_zero e)⟩, hs.2⟩
  have hturn : ∀ kk ∈ List.range' base (fin - base), ∀ s s', Follows m s s' →
      ∃ t, stagePixelChecked A m (l.tidx kk) (l.tval kk) s = some t ∧
        Follows m t (stagePixel A (rawCsc m) (l.tidx kk) (l.tval kk) s') := by
    intro kk hkk s s' h
    have hlt := List.mem_range'_1.mp hkk
    exact stagePixelChecked_follows hm (hl kk (by omega)) (l.tval kk) h
  obtain ⟨t, hfold, hst, hout⟩ := foldlM_simulates hturn hempty
  rw [stageChunkChecked, hfold]
  simp only [Option.bind_eq_bind, Option.bind_some, applyStagedChecked_eq hm hst, hout]
  exact ⟨_, rfl, hst, rfl⟩

theorem sparseDotChecked_eq {i0 n : Nat} (h : i0 + n ≤ m.npix) {l : PixelList P}
    (hl : ∀ kk, kk < l.nz → l.tidx kk < m.npix) (out : Nat → D) :
    sparseDotChecked A m i0 n l out = some (sparseDotCore A (rawCsc m) i0 n l out) := by
  rw [sparseDotChecked, stagesChecked_eq hm h, sparseDotCore]
  simp only [Option.bind_eq_bind, Option.bind_some]
  split
  · have hstart : Follows m ((⟨0, fun _ => 0, fun _ => A.zero⟩ : Staging D), out)
        (⟨0, fun _ => 0, fun _ => A.zero⟩, out) :=
      ⟨⟨rfl, fun e he => absurd he (Nat.not_lt_zero e)⟩, rfl⟩
    have hturn : ∀ base ∈ strided 0 l.nz dotStage, ∀ s s', Follows m s s' →
        ∃ t, stageChunkChecked A m l base (min (base + dotStage) l.nz) s = some t ∧
          Follows m t (stageChunk A (rawCsc m) l base (min (base + dotStage) l.nz) s') :=
      fun base _ s s' h => stageChunkChecked_follows hm hl (min_le_right _ _) h
    obtain ⟨t, hfold, -, hout⟩ := foldlM_simulates hturn hstart
    rw [hfold]
    exact congrArg some hout
  · apply foldlM_eq_some
    intro kk hkk out
    exact addPixelChecked_eq hm (hl kk (List.mem_range.mp hkk)) _ out

end

/-! ## Validated matrices -/

/-- For any arithmetic, block and pixels, both products stay inside the arrays and the powder. -/
def Safe (m : RawMatrix F) : Prop :=
  ∀ (P D : Type) (A : Arith P F D) (i0 n : Nat), i0 + n ≤ m.npix → ∀ out : Nat → D,
    (∀ px, (denseDotChecked A m px i0 n out).isSome) ∧
      ∀ l : PixelList P, (∀ kk, kk < l.nz → i0 ≤ l.tidx kk ∧ l.tidx kk < i0 + n) →
        (sparseDotChecked A m i0 n l out).isSome

theorem InRange.safe [Inhabited F] {m : RawMatrix F} (hm : InRange m) : Safe m := by
  intro P D A i0 n h out
  constructor
  · intro px
    rw [denseDotChecked_eq hm h]
    rfl
  · intro l hl
    rw [sparseDotChecked_eq hm h fun kk hkk => by have hkk' := hl kk hkk; omega]
    rfl

/-- The dense route over all pixels reads every entry. -/
theorem Safe.bins_lt {m : RawMatrix F} (hm : m.Consistent) (h : Safe m) :
    ∀ i ∈ m.indices, i.toNat < m.nbins := by
  intro i hi
  obtain ⟨k, hk, rfl⟩ := List.getElem_of_mem hi
  obtain ⟨p, hp, hlow, hhigh⟩ := hm.exists_column hk
  obtain ⟨hdense, -⟩ := h Unit Unit ⟨(), fun _ _ => (), fun _ _ => (), fun _ _ _ => (), fun _ => (),
    fun _ => (), fun _ => ()⟩ 0 m.npix (by omega) fun _ => ()
  obtain ⟨out, hout⟩ := Option.isSome_iff_exists.mp (hdense fun _ => ())
  obtain ⟨s, t, hpixel⟩ := foldlM_some_mem hout (List.mem_range.mpr hp)
  rw [addPixelChecked, Nat.add_zero] at hpixel
  obtain ⟨k0, hk0, hpixel⟩ := Option.bind_eq_some_iff.mp hpixel
  obtain ⟨k1, hk1, hentries⟩ := Option.bind_eq_some_iff.mp hpixel
  have h0 : k0.toNat = m.ptr p := by rw [RawMatrix.ptr, List.getD_eq_getElem?_getD, hk0]; rfl
  have h1 : k1.toNat = m.ptr (p + 1) := by rw [RawMatrix.ptr, List.getD_eq_getElem?_getD, hk1]; rfl
  obtain ⟨s', t', hentry⟩ := foldlM_some_mem hentries
    (show k ∈ List.range' k0.toNat (k1.toNat - k0.toNat) from List.mem_range'_1.mpr (by omega))
  obtain ⟨e, he, -⟩ := Option.bind_eq_some_iff.mp hentry
  rw [readEntry] at he
  obtain ⟨bin, hbin, he⟩ := Option.bind_eq_some_iff.mp he
  obtain ⟨weight, -, he⟩ := Option.bind_eq_some_iff.mp he
  rw [List.getElem?_eq_getElem hk] at hbin
  obtain rfl := Option.some.inj hbin
  by_contra hge
  rw [if_neg hge] at he
  exact absurd he (by simp)

/-- The caller's arrays after the narrowing: some column pointer is below the one before, which the
folding of the mask refuses, or every index is a bin. -/
def Harmless (c : CallerMatrix G) : Prop :=
  (∃ p, p + 1 < c.indptr.values.length ∧
    c.indptr.values.getD (p + 1) 0 % 2 ^ 32 < c.indptr.values.getD p 0 % 2 ^ 32) ∨
  ∀ v ∈ c.indices.values, v % 2 ^ 32 < c.nbins

theorem toNat_narrowed (v : ℤ) : ((BitVec.ofInt 32 v).toNat : ℤ) = v % 2 ^ 32 := by
  rw [BitVec.toNat_ofInt]
  exact Int.toNat_of_nonneg (Int.emod_nonneg v (by norm_num))

/-- An accepted matrix stays inside its arrays for every mask exactly when it is harmless. -/
theorem normaliseMatrix_safe_iff [Inhabited F] (float32 : G → F) (c : CallerMatrix G)
    (npix : Option Nat) {m : RawMatrix F} (h : normaliseMatrix float32 c npix = .ok m)
    (hdata : c.data.length = c.indices.elems.length) (hlen : c.indices.elems.length < 2 ^ 32) :
    (∀ mask fm, m.fold mask = .ok fm → Safe fm) ↔ Harmless c := by
  obtain ⟨hm, hnbins, hindices, hindptr, -⟩ := normaliseMatrix_validated h hdata hlen
  have hptr : ∀ p, (m.ptr p : ℤ) = c.indptr.values.getD p 0 % 2 ^ 32 := by
    intro p
    rw [RawMatrix.ptr, hindptr, getD_map_zero (f := BitVec.ofInt 32) rfl, toNat_narrowed]
  have hdecreasing : m.counts.any (· < 0) = true ↔ ∃ p, p + 1 < c.indptr.values.length ∧
      c.indptr.values.getD (p + 1) 0 % 2 ^ 32 < c.indptr.values.getD p 0 % 2 ^ 32 := by
    rw [RawMatrix.any_counts_iff, hindptr, List.length_map]
    simp only [← hptr, Nat.cast_lt]
  have hbins : (∀ i ∈ m.indices, i.toNat < m.nbins) ↔ ∀ v ∈ c.indices.values, v % 2 ^ 32 < c.nbins := by
    rw [hindices, hnbins, List.forall_mem_map]
    simp only [← toNat_narrowed, Nat.cast_lt]
  rw [Harmless, ← hdecreasing, ← hbins]
  constructor
  · intro hsafe
    by_cases hcounts : m.counts.any (· < 0) = true
    · exact Or.inl hcounts
    · right
      have hok : m.counts.any (· < 0) = false := by simpa using hcounts
      obtain ⟨fm, hfm, hi, hn⟩ := RawMatrix.fold_unmasked hm hok
      obtain ⟨hcons, -⟩ := RawMatrix.fold_consistent hm hfm
      rw [← hi, ← hn]
      exact (hsafe _ fm hfm).bins_lt hcons
  · rintro (hcounts | hall) mask fm hfm
    · exact absurd hfm (RawMatrix.fold_refused hcounts fm)
    · obtain ⟨hcons, -, hn, hsub⟩ := RawMatrix.fold_consistent hm hfm
      exact InRange.safe ⟨hcons, fun i hi => by rw [hn]; exact hall i (hsub i hi)⟩

/-- Indices that are not negative are harmless. -/
theorem harmless_of_nonneg (float32 : G → F) (c : CallerMatrix G)
    (npix : Option Nat) {m : RawMatrix F} (h : normaliseMatrix float32 c npix = .ok m)
    (hdata : c.data.length = c.indices.elems.length) (hlen : c.indices.elems.length < 2 ^ 32)
    (hindices : ∀ v ∈ c.indices.values, 0 ≤ v ∧ v < 2 ^ 63) : Harmless c := by
  obtain ⟨-, -, -, -, hchecked⟩ := normaliseMatrix_validated h hdata hlen
  refine Or.inr fun v hv => ?_
  obtain ⟨h0, hlt⟩ := hindices v hv
  have hcheck := hchecked v hv
  rw [toInt64, Int.bmod_eq_of_le (by omega) (by omega)] at hcheck
  omega

/-- One pixel with one entry, of the given index. -/
def oneEntry (index : ℤ) : CallerMatrix ℚ where
  data := [1]
  indices := ⟨.i64, rfl, [BitVec.ofInt 64 index]⟩
  indptr := ⟨.i64, rfl, [0#64, 1#64]⟩
  nbins := 1

/-- What `normalise_matrix` makes of it. -/
def oneEntryRaw (index : BitVec 32) : RawMatrix ℚ := ⟨[1], [index], [0#32, 1#32], 1, 1⟩

theorem normaliseMatrix_safe_iff_oneEntry :
    (oneEntryRaw 0#32).fold [1#8] = .ok (oneEntryRaw 0#32) ∧ Safe (oneEntryRaw 0#32) := by
  have hfold : (oneEntryRaw 0#32).fold [1#8] = .ok (oneEntryRaw 0#32) := by decide +kernel
  have hsafe := (normaliseMatrix_safe_iff id (oneEntry 0) (some 1) (m := oneEntryRaw 0#32)
    (by decide +kernel) (by decide) (by decide)).mpr (Or.inr (by decide +kernel))
  exact ⟨hfold, hsafe [1#8] _ hfold⟩

/-- The index -1 passes the check, becomes 2^32 - 1, and is not a bin. -/
theorem negativeIndex_accepted :
    normaliseMatrix id (oneEntry (-1)) (some 1) = .ok (oneEntryRaw (BitVec.ofInt 32 (-1))) ∧
    (oneEntryRaw (BitVec.ofInt 32 (-1))).fold [1#8] = .ok (oneEntryRaw (BitVec.ofInt 32 (-1))) ∧
    ¬ Safe (oneEntryRaw (BitVec.ofInt 32 (-1))) := by
  refine ⟨by decide +kernel, by decide +kernel, fun h => ?_⟩
  obtain ⟨hdense, -⟩ := h Unit Unit ⟨(), fun _ _ => (), fun _ _ => (), fun _ _ _ => (), fun _ => (),
    fun _ => (), fun _ => ()⟩ 0 1 (by decide) fun _ => ()
  exact absurd (hdense fun _ => ()) (by decide +kernel)

end Bslz4ToSparse.Dot
