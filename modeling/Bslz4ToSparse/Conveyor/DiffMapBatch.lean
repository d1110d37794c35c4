import Bslz4ToSparse.Conveyor.DiffMap
import Bslz4ToSparse.Pipeline.Powder

/-!
# What a batch of the map gives

A call of a decoder, clipped, leaves the powders and the lists of the clipped frames; they go to the cells
of these frames and to no other.
-/

namespace Bslz4ToSparse.Conveyor

open Foundation Matrix Dot Pipeline
open Lz4 (Byte plainDecode)
open TopPixels (multi MultiError Selected unmaskedAbove Prepared)

variable {t : Dtype} {w : Nat} {fx : FixedPointMatrix ℚ w} {I : Type}

/-! ## What a frame is to give -/

namespace MapContext

variable (c : MapContext t fx I)

/-- The unmasked pixels above `wtmax`. -/
def hotPixels (F : Nat → Pixel t) : List (Pixel t × Nat) := unmaskedAbove c.plan c.wtmax F

/-- The powder of the frame with its pixels clipped to `wtmax`. -/
def clippedPowder (F : Nat → Pixel t) : Nat → BitVec 64 := fixedPowder fx fun p => clip c.wtmax (F p)

/-- The entry of frame `fi` in `clipped`. -/
def frameClipped (F : Nat → Nat → Pixel t) (fi : Nat) : Option Clipped :=
  if (c.hotPixels (F fi)).isEmpty then none
  else some ⟨fi, (c.hotPixels (F fi)).map Prod.snd, (c.hotPixels (F fi)).map fun e => astypeInt64 e.1⟩

/-- The plan is one for the frames `F`. -/
structure Planned (blocksize nframes : Nat) (F : Nat → Nat → Pixel t) : Prop where
  whole : 8 * t.size ∣ blocksize
  compressed : c.plan.pixels = false
  prepared : Prepared c.plan blocksize
  dot : ∃ route dot, c.plan.dot = some (route, dot) ∧ IntegerDot fx dot
  masked : ∀ p, p < fx.nm.npix → c.plan.mask p = 0#8 → fx.weights.column p = []
  maskFits : c.plan.MaskFits
  wtmax : 0 ≤ c.wtmax
  guarded : ∀ cut, Ragged c.plan (blocksize / t.size) cut → ∀ fi, fi < nframes →
    ∀ b, b < fx.nm.npix * t.size / blocksize →
      ∃ e, e < blocksize / t.size ∧ 256 ≤ (F fi (b * (blocksize / t.size) + e)).toNat

/-- The chunks hold the frames `F`, and the plan is one for them. -/
structure Readable (E : Platform) (blocksize nframes : Nat) (F : Nat → Nat → Pixel t) : Prop
    extends c.Planned blocksize nframes F where
  chunks : ∀ fi, fi < nframes → Encodes E.codecs c.plan.pipe.decode fx.nm.npix blocksize (F fi) (c.chunk fi)

end MapContext

/-- What thread `k` has decoded. -/
structure DecodedRight (c : MapContext t fx I) (F : Nat → Nat → Pixel t) (idxs : List Nat)
    (powder : Nat → Nat → BitVec 64) (selected : Nat → Selected t) : Prop where
  powder : ∀ i fi, idxs[i]? = some fi → powder i = c.clippedPowder (F fi)
  kept : ∀ i fi, idxs[i]? = some fi → (selected i).kept = c.hotPixels (F fi)

/-! ## A batch -/

theorem column_of_le {F : Type} (m : NormalMatrix F) {p : Nat} (hp : m.npix ≤ p) : m.column p = [] := by
  have hptr : m.ptr (p + 1) = 0 := by
    rw [NormalMatrix.ptr, List.getD_eq_default]
    rw [m.length_indptr]
    omega
  rw [NormalMatrix.column, Foundation.segment, hptr, Nat.zero_sub, List.take_zero]

/-- No pixel is above the largest value of its type. -/
theorem unmaskedAbove_min (q : Call t fx.nm.npix (BitVec 64)) (wtmax : ℤ) (F : Nat → Pixel t) :
    unmaskedAbove q (min wtmax t.largest) F = unmaskedAbove q wtmax F := by
  unfold unmaskedAbove
  congr 1
  apply List.filter_congr
  intro p _
  have hle := TopPixels.value_le_largest (F p)
  congr 1
  rw [decide_eq_decide]
  omega

/-- The pixels that the call lists are those that clipping asks for. -/
theorem keepsAbove_unmasked (q : Call t fx.nm.npix (BitVec 64)) (wtmax : ℤ) (F : Nat → Pixel t) :
    KeepsAbove (fun p => q.mask p != 0#8) fx.nm.npix wtmax F ((unmaskedAbove q wtmax F).map Prod.swap) := by
  have hfst : ((unmaskedAbove q wtmax F).map Prod.swap).map Prod.fst =
      (List.range fx.nm.npix).filter fun p => q.mask p != 0#8 && decide (wtmax < (F p).value) := by
    rw [unmaskedAbove, List.map_map, List.map_map]
    exact List.map_id'' (fun _ => rfl) _
  constructor
  · rw [hfst]
    exact List.nodup_range.filter _
  · intro e he
    obtain ⟨e', he', rfl⟩ := List.mem_map.mp he
    obtain ⟨p, hp, rfl⟩ := List.mem_map.mp he'
    obtain ⟨hlt, hkeep⟩ := List.mem_filter.mp hp
    rw [Bool.and_eq_true] at hkeep
    exact ⟨List.mem_range.mp hlt, hkeep.1, rfl⟩
  · intro p hp hmask habove
    rw [hfst]
    exact List.mem_filter.mpr ⟨List.mem_range.mpr hp, by rw [hmask, decide_eq_true habove]; rfl⟩

section

variable {E : Platform} {c : MapContext t fx I} {blocksize nframes : Nat} {F : Nat → Nat → Pixel t}
  (hK : E.kernels.Inverse)
  (hlz4 : ∀ src planes, plainDecode planes.length src = some planes →
    E.codecs.lz4DecompressSafe src planes.length = some planes)
  (ht : t.isFloat = false) (hu : t ≠ .u64)
  (h : c.Readable E blocksize nframes F)

include hK hlz4 ht hu h

/-- A batch goes through, with the clipped powders of its frames and their pixels above `wtmax`. -/
theorem decode_ok {indices : List Nat} (hin : ∀ fi ∈ indices, fi < nframes) {j0 : Nat}
    (hj : j0 < indices.length) (s : RunState t (BitVec 64)) :
    ∃ s' selected, c.decode E indices j0 s = .ok (s', selected) ∧
      DecodedRight c F (c.batchAt indices j0) s'.powder selected := by
  set idxs := c.batchAt indices j0 with hidxs
  have hlt : ∀ f, f < idxs.length → idxs.getD f 0 < nframes := by
    intro f hf
    rw [List.getD_eq_getElem _ _ hf]
    exact hin _ (List.mem_of_mem_drop (List.mem_of_mem_take (List.getElem_mem hf)))
  have hpos : 0 < idxs.length := by
    have hbatch := c.batch_pos
    rw [hidxs, MapContext.batchAt, List.length_take, List.length_drop]
    omega
  have hw := h.wtmax
  have hcut : TopPixels.cutArray t [.int c.wtmax] = .ok (min c.wtmax t.largest) := by
    unfold TopPixels.cutArray
    dsimp only
    rw [if_neg (not_lt.mpr hw)]
  have hbatch : BatchOf E.codecs (c.call indices j0) blocksize fun f => F (idxs.getD f 0) :=
    ⟨hpos, h.whole, fun _ f hf => h.chunks _ (hlt f hf),
      fun hpixels => absurd (h.compressed.symm.trans hpixels) Bool.false_ne_true⟩
  have hprepared : Prepared (c.call indices j0) blocksize :=
    ⟨h.prepared.small, h.prepared.layout, h.prepared.workspace⟩
  have hmade : TopPixels.Request.make none none (min c.wtmax t.largest) t idxs.length =
      .ok ⟨none, min c.wtmax t.largest, TopPixels.requestThresholds none (min c.wtmax t.largest), [], [],
        false⟩ := TopPixels.make_numpy (Or.inl rfl)
  have hcheck : TopPixels.check none none = .ok (none, none) := rfl
  have hguard : Guarded ((c.call indices j0).select [BitVec.ofInt t.bits (min c.wtmax t.largest)] none)
      blocksize fun f => F (idxs.getD f 0) :=
    fun cut hragged _ f hf b hb =>
      h.guarded cut ⟨hragged.value, hragged.whole, hragged.small, hragged.cut⟩ _ (hlt f hf) b hb
  obtain ⟨r, selected, hrun, hmulti, hselected⟩ :=
    TopPixels.multi_settles hK hlz4 ht hbatch hprepared hcheck hcut hmade rfl hguard s
  obtain ⟨hask, hadmissible⟩ := TopPixels.admissible_select hprepared hcut hmade rfl ht
  have hkept : ∀ f, f < idxs.length → (selected f).kept = c.hotPixels (F (idxs.getD f 0)) := by
    intro f hf
    obtain ⟨h0, hc⟩ := TopPixels.cutArray_bounds hcut
    have hnij : fx.nm.npix ≤ 2 ^ 31 - 1 :=
      (Nat.le_mul_of_pos_right _ t.size_pos).trans h.prepared.small
    rw [hselected f hf, TopPixels.Asked.finish ht hcheck h0 hc hmade hask h.maskFits hnij
      (fun hnative => absurd hnative Bool.false_ne_true)]
    exact unmaskedAbove_min _ _ _
  have hpowder : ∀ f, f < idxs.length → ∀ b, r.powder f b = fixedPowder fx (F (idxs.getD f 0)) b := by
    obtain ⟨route, dot, hdot, hinteger⟩ := h.dot
    obtain ⟨r', hr', hproduct⟩ := run_product hK hlz4
      (q := (c.call indices j0).select [BitVec.ofInt t.bits (min c.wtmax t.largest)] none)
      ⟨hbatch.nframes, hbatch.whole, hbatch.chunks, hbatch.uncompressed⟩ hadmissible hdot
      (hinteger.multiplies ht _) h.masked hguard s
    obtain rfl := Except.ok.inj (hr'.symm.trans hrun)
    intro f hf b
    rw [hproduct f hf b, hinteger.finish, fixedPowder_eq]
    rfl
  refine ⟨c.clipBatch idxs.length r selected, selected, ?_, ?_, ?_⟩
  · unfold MapContext.decode
    rw [hmulti]
    rfl
  · intro i fi hi
    obtain ⟨hilt, hget⟩ := List.getElem?_eq_some_iff.mp hi
    have hfi : idxs.getD i 0 = fi := by rw [List.getD_eq_getElem _ _ hilt, hget]
    have hlist : ((List.range idxs.length).map fun i => (selected i).kept.map Prod.swap)[i]? =
        some ((unmaskedAbove c.plan c.wtmax (F fi)).map Prod.swap) := by
      rw [List.getElem?_map, List.getElem?_range hilt, Option.map_some, hkept i hilt, hfi]
      rfl
    have hmask : ∀ p, (c.plan.mask p != 0#8) = false → fx.weights.column p = [] := by
      intro p hp
      by_cases hlt : p < fx.nm.npix
      · exact h.masked p hlt (by simpa using hp)
      · exact column_of_le fx.weights (not_lt.mp hlt)
    funext b
    rw [MapContext.clipBatch]
    dsimp only
    rw [clipExactPowder, hlist]
    dsimp only
    rw [clipFrame_eq hw hmask (keepsAbove_unmasked c.plan c.wtmax (F fi)), hpowder i hilt, hfi,
      MapContext.clippedPowder, fixedPowder_clip hw, sum_excess hw, lostExcess_eq_zero ht hu, add_zero]
  · intro i fi hi
    obtain ⟨hilt, hget⟩ := List.getElem?_eq_some_iff.mp hi
    rw [hkept i hilt, List.getD_eq_getElem _ _ hilt, hget]

end

/-! ## The cells of a batch -/

/-- A cell that is assigned has one of its rows. -/
theorem assignRows_from {β : Type} (cells : List (Nat × Nat)) (rows : Nat → β) (n : Nat)
    (cube : Nat × Nat → β) (cell : Nat × Nat) :
    let after := (cells.zipIdx n).foldl (fun cube x => Function.update cube x.1 (rows x.2)) cube
    (cell ∉ cells ∧ after cell = cube cell) ∨ ∃ i, cells[i]? = some cell ∧ after cell = rows (n + i) := by
  induction cells generalizing n cube with
  | nil => exact Or.inl ⟨List.not_mem_nil, rfl⟩
  | cons a cells ih =>
    dsimp only
    rw [List.zipIdx_cons, List.foldl_cons]
    rcases ih (n + 1) (Function.update cube a (rows n)) with ⟨hmem, hsame⟩ | ⟨i, hi, hrow⟩
    · by_cases hcell : cell = a
      · refine Or.inr ⟨0, by rw [hcell]; rfl, hsame.trans ?_⟩
        rw [hcell, Function.update_self]
        rfl
      · refine Or.inl ⟨?_, hsame.trans (Function.update_of_ne hcell _ _)⟩
        rw [List.mem_cons, not_or]
        exact ⟨hcell, hmem⟩
    · exact Or.inr ⟨i + 1, hi, hrow.trans (by rw [Nat.add_right_comm, Nat.add_assoc])⟩

namespace MapContext

variable (c : MapContext t fx I)

/-- The cell of frame `fi`. -/
def cell (fi : Nat) : Nat × Nat := (c.row.getD fi 0, c.col.getD fi 0)

variable {c} {nframes : Nat} {β : Type} {idxs : List Nat} {rows : Nat → β} {value : Nat → β}
  (hd : Distinct c.row c.col nframes) (hin : ∀ fi ∈ idxs, fi < nframes)
  (hrows : ∀ i fi, idxs[i]? = some fi → rows i = value fi) (cube : Nat × Nat → β)

include hd hin hrows in
/-- The frames of a batch get their rows, the others keep theirs. -/
theorem assignRows_frame {fi : Nat} (hfi : fi < nframes) :
    assignRows (c.cells idxs) rows cube (c.cell fi) = value fi ∨
      fi ∉ idxs ∧ assignRows (c.cells idxs) rows cube (c.cell fi) = cube (c.cell fi) := by
  rcases assignRows_from (c.cells idxs) rows 0 cube (c.cell fi) with ⟨hmem, hsame⟩ | ⟨i, hi, hrow⟩
  · exact Or.inr ⟨fun h => hmem (List.mem_map_of_mem h), hsame⟩
  · rw [cells, List.getElem?_map] at hi
    obtain ⟨fj, hfj, hcell⟩ := Option.map_eq_some_iff.mp hi
    obtain ⟨hr, hc⟩ := Prod.mk.inj hcell
    obtain rfl := hd fj fi (hin fj (List.mem_of_getElem? hfj)) hfi hr hc
    exact Or.inl (hrow.trans ((congrArg rows (Nat.zero_add i)).trans (hrows i fj hfj)))

include hin in
theorem assignRows_other {cell : Nat × Nat} (hcell : ∀ fi, fi < nframes → c.cell fi ≠ cell) :
    assignRows (c.cells idxs) rows cube cell = cube cell := by
  rcases assignRows_from (c.cells idxs) rows 0 cube cell with ⟨-, hsame⟩ | ⟨i, hi, -⟩
  · exact hsame
  · rw [cells, List.getElem?_map] at hi
    obtain ⟨fj, hfj, heq⟩ := Option.map_eq_some_iff.mp hi
    exact absurd heq (hcell fj (hin fj (List.mem_of_getElem? hfj)))

end MapContext

/-- The lists of a batch are those of its frames. -/
theorem batchClipped_eq {c : MapContext t fx I} {F : Nat → Nat → Pixel t} {idxs : List Nat}
    {powder : Nat → Nat → BitVec 64} {selected : Nat → Selected t}
    (h : DecodedRight c F idxs powder selected) :
    batchClipped idxs selected = idxs.filterMap (c.frameClipped F) := by
  have hzip : idxs.filterMap (c.frameClipped F) =
      idxs.zipIdx.filterMap fun x => c.frameClipped F x.1 := by
    conv_lhs => rw [← List.zipIdx_map_fst 0 idxs, List.filterMap_map]
    rfl
  rw [hzip, batchClipped]
  refine List.filterMap_congr fun x hx => ?_
  obtain ⟨-, hget⟩ := List.mem_zipIdx_iff_le_and_getElem?_sub.mp hx
  rw [Nat.sub_zero] at hget
  rw [h.kept _ _ hget]
  rfl

/-! ## A cube -/

namespace MapContext

variable (c : MapContext t fx I)

theorem batchAt_append (indices : List Nat) (j0 : Nat) :
    c.batchAt indices j0 ++ indices.drop (j0 + c.batch) = indices.drop j0 := by
  rw [batchAt, ← List.drop_drop]
  exact List.take_append_drop _ _

/-- What is left of a group once a batch has been written. -/
theorem batch_move (indices : List Nat) (j0 : Nat) (waiting : List Nat) :
    (c.batchAt indices j0 ++ waiting ++ indices.drop (j0 + c.batch)).Perm (waiting ++ indices.drop j0) := by
  rw [← c.batchAt_append indices j0, ← List.append_assoc]
  exact List.perm_append_comm.append_right _

theorem mem_batchAt {indices : List Nat} {j0 fi : Nat} (h : fi ∈ c.batchAt indices j0) : fi ∈ indices :=
  List.mem_of_mem_drop (List.mem_of_mem_take h)

/-- The cells of the frames hold their values, those of no frame are zero; but for the `pending` frames. -/
structure CubeWritten {β : Type} (nframes : Nat) (value : Nat → β) (zero : β) (cube : Nat × Nat → β)
    (pending : List Nat) : Prop where
  frame : ∀ fi, fi < nframes → fi ∉ pending → cube (c.cell fi) = value fi
  other : ∀ cell, (∀ fi, fi < nframes → c.cell fi ≠ cell) → cube cell = zero

variable {c} {β : Type} {nframes : Nat} {value : Nat → β} {zero : β} {cube : Nat × Nat → β}
  {pending pending' : List Nat}

theorem CubeWritten.perm (h : c.CubeWritten nframes value zero cube pending) (hp : pending'.Perm pending) :
    c.CubeWritten nframes value zero cube pending' :=
  ⟨fun fi hfi hmem => h.frame fi hfi fun hold => hmem (hp.mem_iff.mpr hold), h.other⟩

theorem CubeWritten.assign (h : c.CubeWritten nframes value zero cube pending)
    (hd : Distinct c.row c.col nframes) {idxs : List Nat} {rows : Nat → β}
    (hin : ∀ fi ∈ idxs, fi < nframes) (hrows : ∀ i fi, idxs[i]? = some fi → rows i = value fi)
    (hp : (idxs ++ pending').Perm pending) :
    c.CubeWritten nframes value zero (assignRows (c.cells idxs) rows cube) pending' := by
  refine ⟨fun fi hfi hmem => ?_, fun cell hcell => ?_⟩
  · rcases assignRows_frame hd hin hrows cube hfi with hnew | ⟨hnot, hsame⟩
    · exact hnew
    · rw [hsame]
      refine h.frame fi hfi fun hold => ?_
      rcases List.mem_append.mp (hp.mem_iff.mpr hold) with hidx | hlater
      · exact hnot hidx
      · exact hmem hlater
  · rw [assignRows_other hin cube hcell]
    exact h.other cell hcell

end MapContext

end Bslz4ToSparse.Conveyor
