import Bslz4ToSparse.Foundation.Rounds
import Bslz4ToSparse.Pipeline.Decompress

/-!
# Where the decoders read

Both decoders keep a cursor into each chunk. Whatever a block holds, the cursor is where the
walk over the sizes of the blocks is, and only the walk finds a chunk corrupt.
-/

namespace Bslz4ToSparse.Pipeline

open Dot Foundation Steps
open Lz4 (Byte)

variable {t : Dtype} {nij : Nat} {D : Type}

/-! ## The size of a block -/

theorem readSize_ok {c : List Byte} {pos n : Nat} :
    readSize c pos = .ok n ↔ n = readBe32 c pos ∧ nextPos c pos = some (pos + n + 4) := by
  unfold readSize nextPos refuse
  by_cases hlen : c.length < pos + 4
  · have hlt : ¬ pos + 4 + readBe32 c pos ≤ c.length := by omega
    simp [hlen, hlt]
  · by_cases hsize : c.length < pos + 4 + readBe32 c pos
    · have hlt : ¬ pos + 4 + readBe32 c pos ≤ c.length := by omega
      simp [hlen, hsize, hlt]
    · have hle : pos + 4 + readBe32 c pos ≤ c.length := by omega
      simp only [hlen, hsize, hle, decide_false, Bool.false_eq_true, if_false, if_true, ok_bind,
        pure_eq_ok, Except.ok.injEq, Option.some.injEq]
      omega

theorem readSize_error {c : List Byte} {pos : Nat} {e : Err} :
    readSize c pos = .error e ↔ e = .corruptChunk ∧ nextPos c pos = none := by
  unfold readSize nextPos refuse
  by_cases hlen : c.length < pos + 4
  · have hlt : ¬ pos + 4 + readBe32 c pos ≤ c.length := by omega
    simp [hlen, hlt, eq_comm]
  · by_cases hsize : c.length < pos + 4 + readBe32 c pos
    · have hlt : ¬ pos + 4 + readBe32 c pos ≤ c.length := by omega
      simp [hlen, hsize, hlt, eq_comm]
    · have hle : pos + 4 + readBe32 c pos ≤ c.length := by omega
      simp [hlen, hsize, hle]

/-! ## The steps and the cursors -/

section

variable {E : Platform} {q : Call t nij D} {g : Geometry} {s s' : RunState t D} {b f : Nat}

theorem decodeStep_ok (hq : q.pixels = false) {nbytes nzEnd : Nat}
    (h : decodeStep E q g f s = .ok (s', nbytes, nzEnd)) :
    readSize (q.chunks.bytes f) (s.cursors f) = .ok nbytes ∧
      s'.cursors = Function.update s.cursors f (s.cursors f + nbytes + 4) := by
  unfold decodeStep at h
  rw [hq] at h
  obtain ⟨n, hn, h⟩ := bind_eq_ok.mp h
  obtain ⟨⟨mem, nz⟩, -, h⟩ := bind_eq_ok.mp h
  cases h
  exact ⟨hn, rfl⟩

/-- A block that was taken moved the cursor of its frame over it. -/
theorem blockStep_cursors (hq : q.pixels = false) (h : blockStep E q g b s f = .ok s') :
    ∃ pos, nextPos (q.chunks.bytes f) (s.cursors f) = some pos ∧
      s'.cursors = Function.update s.cursors f pos := by
  obtain ⟨⟨s₁, nbytes, nzEnd⟩, hdecode, h⟩ := bind_eq_ok.mp h
  obtain ⟨hsize, hcursors⟩ := decodeStep_ok hq hdecode
  refine ⟨_, (readSize_ok.mp hsize).2, ?_⟩
  rw [← hcursors]
  dsimp only at h
  cases hdot : q.dot with
  | none =>
    rw [hdot] at h
    obtain ⟨⟨ws, o⟩, -, h⟩ := bind_eq_ok.mp h
    cases h
    exact raiseFrame_cursors.trans (maskStep_cursors nzEnd)
  | some d =>
    rw [hdot] at h
    obtain ⟨⟨ws, o, powder⟩, -, h⟩ := bind_eq_ok.mp h
    cases h
    exact raiseFrame_cursors.trans (maskStep_cursors nzEnd)

theorem tailBlockStep_cursors {nbytes : Nat} (h : tailBlockStep E q g f s = .ok (s', nbytes)) :
    if q.tailBytes g = 0 then s'.cursors = s.cursors
    else ∃ pos, nextPos (q.chunks.bytes f) (s.cursors f) = some pos ∧
      s'.cursors = Function.update s.cursors f pos := by
  unfold tailBlockStep at h
  dsimp only at h
  split at h
  · next h0 =>
    cases h
    rw [if_pos h0]
  · next h0 =>
    rw [if_neg h0]
    obtain ⟨n, hn, h⟩ := bind_eq_ok.mp h
    refine ⟨_, (readSize_ok.mp hn).2, ?_⟩
    split at h
    · cases h
    obtain ⟨-, -, h⟩ := bind_eq_ok.mp h
    split at h
    · cases h
    cases h
    rfl

@[simp] theorem rawStep_cursors (h : rawStep q g f s = .ok s') : s'.cursors = s.cursors := by
  unfold rawStep at h
  dsimp only at h
  split at h
  · cases h
    rfl
  · obtain ⟨-, -, h⟩ := bind_eq_ok.mp h
    cases h
    rfl

theorem tailStep_cursors (h : tailStep E q g s f = .ok s') :
    if q.tailBytes g = 0 then s'.cursors = s.cursors
    else ∃ pos, nextPos (q.chunks.bytes f) (s.cursors f) = some pos ∧
      s'.cursors = Function.update s.cursors f pos := by
  obtain ⟨⟨s₁, nbytes⟩, htail, h⟩ := bind_eq_ok.mp h
  obtain ⟨s₂, hraw, h⟩ := bind_eq_ok.mp h
  have hsame : s'.cursors = s₁.cursors := by
    rw [← rawStep_cursors hraw]
    dsimp only at h
    cases hdot : q.dot with
    | none =>
      rw [hdot] at h
      cases h
      rw [endFrame_cursors, setOut_cursors, raiseFrame_cursors]
    | some d =>
      rw [hdot] at h
      cases h
      rw [endFrame_cursors]
      exact raiseFrame_cursors
  rw [hsame]
  exact tailBlockStep_cursors htail

/-! ## The runs and the cursors -/

/-- The cursors after `b` blocks, and one more of the first `f` frames. -/
def CursorsAt (ch : Chunks) (b f : Nat) (cursors : Nat → Nat) : Prop :=
  ∀ k, k < ch.nframes → cursor (ch.bytes k) (if k < f then b + 1 else b) = some (cursors k)

theorem CursorsAt.next {ch : Chunks} {cursors : Nat → Nat} {pos : Nat}
    (h : CursorsAt ch b f cursors) (hpos : nextPos (ch.bytes f) (cursors f) = some pos) :
    CursorsAt ch b (f + 1) (Function.update cursors f pos) := by
  intro k hk
  have hcur := h k hk
  rcases Nat.lt_trichotomy k f with hlt | rfl | hgt
  · rw [Function.update_of_ne (by omega), if_pos (by omega)]
    rwa [if_pos hlt] at hcur
  · rw [if_neg (Nat.lt_irrefl k)] at hcur
    rw [Function.update_self, if_pos (by omega), cursor, hcur]
    exact hpos
  · rw [Function.update_of_ne (by omega), if_neg (by omega)]
    rwa [if_neg (by omega)] at hcur

theorem CursorsAt.row {ch : Chunks} {cursors : Nat → Nat}
    (h : CursorsAt ch b ch.nframes cursors) : CursorsAt ch (b + 1) 0 cursors := by
  intro k hk
  have hcur := h k hk
  rwa [if_pos hk] at hcur

theorem blockRow_cursors (hq : q.pixels = false) {n : Nat} (hs : CursorsAt q.chunks b 0 s.cursors)
    (h : (List.range n).foldlM (blockStep E q g b) s = .ok s') :
    CursorsAt q.chunks b n s'.cursors := by
  refine foldlM_range_induct (fun k s => CursorsAt q.chunks b k s.cursors) hs ?_ h
  intro k _ s s' hk hstep
  obtain ⟨pos, hpos, hcursors⟩ := blockStep_cursors hq hstep
  rw [hcursors]
  exact hk.next hpos

theorem rows_cursors (hq : q.pixels = false) {n : Nat}
    (h : (List.range n).foldlM (blockRow E q g) (startRun q s) = .ok s') :
    CursorsAt q.chunks n 0 s'.cursors := by
  refine foldlM_range_induct (fun k s => CursorsAt q.chunks k 0 s.cursors) ?_ ?_ h
  · intro k _
    rw [if_neg (Nat.not_lt_zero k)]
    simp [startRun, hq, cursor]
  · intro k _ s s' hk hrow
    exact (blockRow_cursors hq hk hrow).row

/-- Block `b` of frame `f` is read where the walk is. -/
theorem runTo_cursor (hq : q.pixels = false) (hf : f < q.chunks.nframes)
    (h : runTo E q g s b f = .ok s') : cursor (q.chunks.bytes f) b = some (s'.cursors f) := by
  obtain ⟨s₁, hrows, hrow⟩ := bind_eq_ok.mp h
  have hcur := blockRow_cursors hq (rows_cursors hq hrows) hrow f hf
  rwa [if_neg (Nat.lt_irrefl f)] at hcur

/-- So is the last, shorter block. -/
theorem runTails_cursor (hq : q.pixels = false) {n : Nat} (hf : f < q.chunks.nframes) (hn : n ≤ f)
    (h : runTails E q g s n = .ok s') :
    cursor (q.chunks.bytes f) (g.total / g.blocksize) = some (s'.cursors f) := by
  obtain ⟨s₁, hrows, htails⟩ := bind_eq_ok.mp h
  have hstart := rows_cursors hq hrows f hf
  rw [if_neg (Nat.not_lt_zero f)] at hstart
  rw [hstart, Option.some_inj]
  refine foldlM_range_induct (fun _ s => s₁.cursors f = s.cursors f) rfl ?_ htails
  intro k hk s s' hs hstep
  rw [hs]
  have hmove := tailStep_cursors hstep
  split at hmove
  · rw [hmove]
  · obtain ⟨pos, -, hcursors⟩ := hmove
    rw [hcursors, Function.update_of_ne (by omega)]

end

/-! ## Who finds a chunk corrupt -/

/-- An error other than the one of the walk and the check of the raw tail. -/
abbrev NotCorrupt (e : Err) : Prop := e ≠ .corruptChunk

theorem refuse_fails {P : Err → Prop} (c : Bool) {e : Err} (h : P e) : Fails P (refuse c e) := by
  cases c with
  | true => exact h
  | false => trivial

theorem decodeBlock_fails (C : Codecs) (sse2 : Bool) (decode : Decode) (src : List Byte)
    (raw : Memory) (blocksize : Nat) :
    Fails NotCorrupt (decodeBlock C sse2 decode src raw blocksize) := by
  unfold decodeBlock
  split
  · split
    · exact nofun
    · exact nofun
    · split
      · exact Fails.ok _
      · exact nofun
  · split
    · exact nofun
    · split
      · exact Fails.ok _
      · exact nofun

theorem openPlanes_fails (raw : Memory) (ne nzEnd : Nat) :
    Fails NotCorrupt (openPlanes raw ne nzEnd) := by
  unfold openPlanes
  dsimp only
  split
  · exact nofun
  · exact Fails.ok _

theorem lowplanesList_fails (K : Kernels) (value : Untranspose) (raw scratch : Memory)
    (ne nzEnd n blocksize : Nat) (mask : Mask) (i0 cut : Nat) (o : Sink (Pixel t)) :
    Fails NotCorrupt (lowplanesList K value raw scratch ne nzEnd n blocksize mask i0 cut o) := by
  have hopen : ∀ {α β : Type} (raw : Memory) (f : Nat × Memory → Except Err α) (k : α → Except Err β),
      (∀ r, Fails NotCorrupt (f r)) → (∀ a, Fails NotCorrupt (k a)) →
      Fails NotCorrupt ((openPlanes raw ne nzEnd >>= f) >>= k) := fun raw f k hf hk =>
    ((openPlanes_fails raw ne nzEnd).bind hf).bind hk
  cases value with
  | lowplanesVbmi =>
    rw [lowplanesList]
    split
    · exact Fails.ok _
    dsimp only
    split
    · exact Fails.ok _
    split
    · exact Fails.ok _
    exact hopen _ _ _ (fun _ => Fails.ok _) fun _ => Fails.ok _
  | lowplanesAvx2 =>
    rw [lowplanesList]
    split
    · exact Fails.ok _
    dsimp only
    split
    · exact Fails.ok _
    split
    · exact Fails.ok _
    exact hopen _ _ _ (fun _ => Fails.ok _) fun _ => Fails.ok _
  | lowplanesVsx =>
    rw [lowplanesList]
    split
    · exact Fails.ok _
    dsimp only
    split
    · exact Fails.ok _
    split
    · exact Fails.ok _
    exact hopen _ _ _ (fun _ => Fails.ok _) fun _ => Fails.ok _
  | lowplanesC =>
    rw [lowplanesList]
    split
    · exact Fails.ok _
    dsimp only
    split
    · exact Fails.ok _
    split
    · exact Fails.ok _
    split
    · exact Fails.ok _
    · exact Fails.ok _
  | kcb | neon | scalar => exact Fails.ok _

section

variable {E : Platform} {q : Call t nij D} {g : Geometry}

theorem fusedList_fails (w : Work t) (lowCut nbytes nzEnd : Nat) (sparse : Bool) (ws : Workspace t)
    (o : Sink (Pixel t)) :
    Fails NotCorrupt (fusedList E q g w lowCut nbytes nzEnd sparse ws o) := by
  unfold fusedList
  split
  · apply Fails.bind (lowplanesList_fails _ _ _ _ _ _ _ _ _ _ _ _)
    exact fun _ => Fails.ok _
  · exact Fails.ok _

theorem blockPixels_fails (f i0 nzEnd : Nat) (ws : Workspace t) :
    Fails NotCorrupt (blockPixels E q g f i0 nzEnd ws) := by
  unfold blockPixels
  split
  · exact Fails.ok _
  apply Fails.bind
  · unfold untransposeFull
    dsimp only
    split
    · split
      · exact Fails.ok _
      · split
        · exact nofun
        · exact Fails.ok _
    · split
      · exact nofun
      · exact Fails.ok _
  · exact fun _ => Fails.ok _

/-- A block step finds a chunk corrupt only where the walk leaves the chunk. -/
theorem blockStep_corrupt {b f : Nat} {s : RunState t D}
    (h : blockStep E q g b s f = .error .corruptChunk) :
    nextPos (q.chunks.bytes f) (s.cursors f) = none := by
  rcases bind_eq_error.mp h with hdecode | ⟨⟨s₁, nbytes, nzEnd⟩, -, hrest⟩
  · unfold decodeStep at hdecode
    split at hdecode
    · cases hdecode
    rcases bind_eq_error.mp hdecode with hsize | ⟨n, -, hblock⟩
    · exact (readSize_error.mp hsize).2
    · rcases bind_eq_error.mp hblock with hd | ⟨r, -, hok⟩
      · exact absurd rfl ((decodeBlock_fails _ _ _ _ _ _).of_eq hd)
      · cases hok
  · exfalso
    refine Fails.of_eq (P := NotCorrupt) ?_ hrest rfl
    dsimp only
    cases q.dot with
    | none =>
      apply Fails.bind
      · apply Fails.bind (fusedList_fails _ _ _ _ _ _ _)
        rintro ⟨ws, found⟩
        cases found with
        | some o => exact Fails.ok _
        | none =>
          apply Fails.bind (blockPixels_fails _ _ _ _)
          exact fun _ => Fails.ok _
      · exact fun _ => Fails.ok _
    | some d =>
      apply Fails.bind
      · apply Fails.bind (fusedList_fails _ _ _ _ _ _ _)
        rintro ⟨ws, found⟩
        cases found with
        | some o => exact Fails.ok _
        | none =>
          apply Fails.bind (blockPixels_fails _ _ _ _)
          exact fun _ => Fails.ok _
      · exact fun _ => Fails.ok _

/-- The tail finds a chunk corrupt only there, or where its raw bytes are not behind the walk. -/
theorem tailStep_corrupt {f : Nat} {s : RunState t D}
    (h : tailStep E q g s f = .error .corruptChunk) :
    (q.tailBytes g ≠ 0 ∧ nextPos (q.chunks.bytes f) (s.cursors f) = none) ∨
      ∃ s₁ nbytes, tailBlockStep E q g f s = .ok (s₁, nbytes) ∧
        (q.chunks.bytes f).length < s₁.cursors f + q.rawBytes g := by
  rcases bind_eq_error.mp h with htail | ⟨⟨s₁, nbytes⟩, htail, hrest⟩
  · left
    unfold tailBlockStep at htail
    dsimp only at htail
    split at htail
    · cases htail
    next h0 =>
    refine ⟨h0, ?_⟩
    rcases bind_eq_error.mp htail with hsize | ⟨n, -, hblock⟩
    · exact (readSize_error.mp hsize).2
    · exfalso
      refine Fails.of_eq (P := NotCorrupt) ?_ hblock rfl
      split
      · exact nofun
      · apply Fails.bind (refuse_fails _ (by decide))
        · intro _
          split
          · exact nofun
          · exact Fails.ok _
  · right
    refine ⟨s₁, nbytes, htail, ?_⟩
    rcases bind_eq_error.mp hrest with hraw | ⟨s₂, -, hend⟩
    · unfold rawStep at hraw
      dsimp only at hraw
      split at hraw
      · cases hraw
      rcases bind_eq_error.mp hraw with hcheck | ⟨_, -, hok⟩
      · unfold refuse at hcheck
        split at hcheck
        · next hc =>
          simp only [Bool.or_eq_true, decide_eq_true_eq] at hc
          omega
        · cases hcheck
      · cases hok
    · exfalso
      dsimp only at hend
      cases hdot : q.dot with
      | none => rw [hdot] at hend; cases hend
      | some d => rw [hdot] at hend; cases hend

end

end Bslz4ToSparse.Pipeline
