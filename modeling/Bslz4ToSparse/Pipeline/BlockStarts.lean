import Bslz4ToSparse.Foundation.Tiles
import Bslz4ToSparse.Pipeline.Header

/-!
# Where the blocks start (src/pipeline/driver.c, src/cuda/bslz4_split.cu)

Every block is its compressed size in 4 bytes and the compressed bytes. Finding the starts is
a walk over these sizes, which nothing but the end of the chunk bounds.
-/

namespace Bslz4ToSparse.Pipeline

open Foundation
open Lz4 (Byte)

/-! ## The walk over one chunk -/

/-- The position behind the block at `pos`, if the block lies in the chunk. -/
def nextPos (c : List Byte) (pos : Nat) : Option Nat :=
  if pos + 4 + readBe32 c pos ≤ c.length then some (pos + 4 + readBe32 c pos) else none

/-- Where block `b` starts. -/
def cursor (c : List Byte) : Nat → Option Nat
  | 0 => some 12
  | b + 1 => (cursor c b).bind (nextPos c)

/-- The sizes of the blocks stay in the chunk, and `raw` bytes are left behind the last one. -/
def Framed (c : List Byte) (nblocks raw : Nat) : Prop :=
  ∃ pos, cursor c nblocks = some pos ∧ pos + raw = c.length

instance (c : List Byte) (nblocks raw : Nat) : Decidable (Framed c nblocks raw) :=
  match h : cursor c nblocks with
  | none => isFalse fun ⟨_, hpos, _⟩ => by rw [h] at hpos; cases hpos
  | some pos =>
    if hend : pos + raw = c.length then isTrue ⟨pos, h, hend⟩
    else isFalse fun ⟨_, hpos, hend'⟩ => hend (Option.some.inj (h.symm.trans hpos) ▸ hend')

theorem nextPos_bounds {c : List Byte} {pos pos' : Nat} (h : nextPos c pos = some pos') :
    pos + 4 ≤ pos' ∧ pos' ≤ c.length := by
  unfold nextPos at h
  split at h
  · next hle =>
    obtain rfl := Option.some.inj h
    omega
  · cases h

theorem cursor_le {c : List Byte} (hc : 12 ≤ c.length) {b pos : Nat} (h : cursor c b = some pos) :
    pos ≤ c.length := by
  cases b with
  | zero =>
    obtain rfl := Option.some.inj h
    exact hc
  | succ b =>
    obtain ⟨pos', -, hnext⟩ := Option.bind_eq_some_iff.mp h
    exact (nextPos_bounds hnext).2

/-- A walk that reaches a block has passed those before it. -/
theorem cursor_isSome_mono {c : List Byte} {a b : Nat} (hab : a ≤ b) (h : (cursor c b).isSome) :
    (cursor c a).isSome := by
  induction b with
  | zero => rwa [Nat.le_zero.mp hab]
  | succ b ih =>
    rcases Nat.eq_or_lt_of_le hab with rfl | hlt
    · exact h
    · apply ih (Nat.le_of_lt_succ hlt)
      rw [cursor] at h
      cases hb : cursor c b with
      | none => rw [hb] at h; cases h
      | some pos => rfl

/-! ## The blocks of a frame -/

/-- The bytes of the partial last block: whole groups of 8 elements. -/
def tailBlock (NB remaining : Nat) : Nat := 8 * NB * (remaining / (8 * NB))

def numBlocks (total blocksize NB : Nat) : Nat :=
  total / blocksize + if 0 < tailBlock NB (total % blocksize) then 1 else 0

/-- The bytes that are stored raw at the chunk's end. -/
def rawTail (total blocksize NB : Nat) : Nat :=
  total % blocksize - tailBlock NB (total % blocksize)

theorem tailBlock_le (NB remaining : Nat) : tailBlock NB remaining ≤ remaining :=
  Nat.mul_div_le remaining (8 * NB)

/-! ## bslz4_driver_block_starts -/

/-- `BSLZ4_WALK`. -/
def walkWidth : Nat := 8

/-- The chunks that are walked side by side, and the stores to `starts` in their order. -/
structure Lanes where
  pos : Nat → Nat
  st : Nat → Bool              -- `BSLZ4_ERR_CORRUPT_CHUNK`
  stores : List (Nat × Nat)

/-- Block `b` of the chunk in lane `k`. -/
def walkLane (ch : Chunks) (nblocks f0 b : Nat) (g : Lanes) (k : Nat) : Lanes :=
  if g.st k then g
  else
    let cf := ch.bytes (f0 + k)
    if cf.length < g.pos k + 4 ∨ 2 ^ 32 - 1 < g.pos k then
      { g with st := Function.update g.st k true }
    else
      let nbytes := readBe32 cf (g.pos k)
      if cf.length < g.pos k + 4 + nbytes then { g with st := Function.update g.st k true }
      else
        { g with
          pos := Function.update g.pos k (g.pos k + (nbytes + 4))
          stores := g.stores ++ [((f0 + k) * nblocks + b, g.pos k)] }

/-- The walk of `m` chunks from `f0` on. -/
def walkGroup (ch : Chunks) (nblocks f0 m : Nat) : Lanes :=
  (List.range nblocks).foldl (fun g b => (List.range m).foldl (walkLane ch nblocks f0 b) g)
    ⟨fun _ => 12, fun _ => false, []⟩

/-- What the call returns and what it writes; `nblocksOut` and `status` may stay unwritten. -/
structure BlockStarts where
  rc : Except Err Unit
  nblocksOut : Option Nat
  stores : List (Nat × Nat)
  status : List Bool

/-- The chunks from `f0` on: their stores, and whether each is corrupt. -/
def walkFrames (ch : Chunks) (nblocks raw f0 : Nat) : List (Nat × Nat) × List Bool :=
  let m := if ch.nframes - f0 < walkWidth then ch.nframes - f0 else walkWidth
  let g := walkGroup ch nblocks f0 m
  (g.stores, (List.range m).map fun k =>
    g.st k || g.pos k + raw != (ch.bytes (f0 + k)).length)

/-- `bslz4_driver_block_starts`. The product of the counts wraps. -/
def blockStarts (ch : Chunks) (elemSize nstarts : Nat) : BlockStarts :=
  if elemSize < 1 then ⟨.error .dtype, none, [], []⟩
  else
    match checkFrames ch with
    | .error e => ⟨.error e, none, [], []⟩
    | .ok (total, blocksize) =>
      let nblocks := numBlocks total blocksize elemSize
      if nstarts < ch.nframes * nblocks % 2 ^ 64 then
        ⟨.error .workspaceTooSmall, some nblocks, [], []⟩
      else
        let groups := (strided 0 ch.nframes walkWidth).map
          (walkFrames ch nblocks (rawTail total blocksize elemSize))
        let status := groups.flatMap Prod.snd
        ⟨if status.any id then .error .corruptChunk else .ok (), some nblocks,
          groups.flatMap Prod.fst, status⟩

/-- `int f0` does not wrap up to 2^31 - 8 frames. -/
theorem walkFrames_int (ch : Chunks) (nblocks raw : Nat) {fuel : Nat} (hfits : ch.nframes + walkWidth ≤ 2 ^ 31)
    (hfuel : ch.nframes < fuel) :
    (intLoop (.ofNat 32 ch.nframes) (.ofNat 32 walkWidth) fuel 0#32).map (walkFrames ch nblocks raw) =
      (strided 0 ch.nframes walkWidth).map (walkFrames ch nblocks raw) := by
  rw [show 0#32 = .ofNat 32 0 from rfl, intLoop_eq (by decide) hfits (by decide) hfuel]

/-! ## What the walk leaves -/

/-- What the walk of chunk `f` stores for block `b`. -/
def stored (ch : Chunks) (nblocks f b : Nat) : List (Nat × Nat) :=
  match cursor (ch.bytes f) b with
  | none => []
  | some pos => if (nextPos (ch.bytes f) pos).isSome then [(f * nblocks + b, pos)] else []

/-- Lane `k` of a group, `b` blocks into its chunk. -/
structure LaneAt (ch : Chunks) (f0 b : Nat) (g : Lanes) (k : Nat) : Prop where
  st : g.st k = (cursor (ch.bytes (f0 + k)) b).isNone
  pos : ∀ pos, cursor (ch.bytes (f0 + k)) b = some pos → g.pos k = pos

section

variable {ch : Chunks} {nblocks f0 m : Nat}

/-- The tests of a lane, as those of the walk. -/
theorem walkLane_eq (b k : Nat) {g : Lanes} (hpos : g.pos k ≤ (ch.bytes (f0 + k)).length)
    (hst : g.st k = false) :
    walkLane ch nblocks f0 b g k =
      match nextPos (ch.bytes (f0 + k)) (g.pos k) with
      | none => { g with st := Function.update g.st k true }
      | some pos' => { g with
          pos := Function.update g.pos k pos'
          stores := g.stores ++ [((f0 + k) * nblocks + b, g.pos k)] } := by
  have hlt := ch.length_lt (f0 + k)
  unfold walkLane nextPos
  rw [if_neg (by rw [hst]; exact Bool.false_ne_true)]
  simp only []
  by_cases hshort : (ch.bytes (f0 + k)).length < g.pos k + 4
  · rw [if_pos (Or.inl hshort), if_neg (by omega)]
  · rw [if_neg (by omega)]
    by_cases hlong : (ch.bytes (f0 + k)).length < g.pos k + 4 + readBe32 (ch.bytes (f0 + k)) (g.pos k)
    · rw [if_pos hlong, if_neg (by omega)]
    · rw [if_neg hlong, if_pos (by omega), Nat.add_comm _ 4, ← Nat.add_assoc]

/-- One lane moves on by a block, and the others stay. -/
theorem walkLane_step {b k : Nat} {g : Lanes} (hc : 12 ≤ (ch.bytes (f0 + k)).length)
    (h : LaneAt ch f0 b g k) :
    LaneAt ch f0 (b + 1) (walkLane ch nblocks f0 b g k) k ∧
    (∀ j, j ≠ k → (walkLane ch nblocks f0 b g k).st j = g.st j ∧
      (walkLane ch nblocks f0 b g k).pos j = g.pos j) ∧
    (walkLane ch nblocks f0 b g k).stores = g.stores ++ stored ch nblocks (f0 + k) b := by
  have hst := h.st
  unfold stored
  cases hcur : cursor (ch.bytes (f0 + k)) b with
  | none =>
    have hnext : cursor (ch.bytes (f0 + k)) (b + 1) = none := by
      rw [cursor, hcur]
      rfl
    rw [hcur, Option.isNone_none] at hst
    have hstays : walkLane ch nblocks f0 b g k = g := if_pos hst
    rw [hstays]
    refine ⟨⟨?_, ?_⟩, fun j _ => ⟨rfl, rfl⟩, (List.append_nil _).symm⟩
    · rw [hnext]
      exact hst
    · intro pos hpos
      rw [hnext] at hpos
      cases hpos
  | some pos =>
    rw [hcur, Option.isNone_some] at hst
    have hpos := h.pos pos hcur
    have hnext : cursor (ch.bytes (f0 + k)) (b + 1) = nextPos (ch.bytes (f0 + k)) pos := by
      rw [cursor, hcur]
      rfl
    rw [walkLane_eq b k (hpos ▸ cursor_le hc hcur) hst, hpos]
    dsimp only
    cases hn : nextPos (ch.bytes (f0 + k)) pos with
    | none =>
      refine ⟨⟨?_, ?_⟩, fun j hj => ⟨Function.update_of_ne hj _ _, rfl⟩, (List.append_nil _).symm⟩
      · rw [hnext, hn]
        exact Function.update_self _ _ _
      · intro pos hpos
        rw [hnext, hn] at hpos
        cases hpos
    | some pos' =>
      refine ⟨⟨?_, ?_⟩, fun j hj => ⟨rfl, Function.update_of_ne hj _ _⟩, rfl⟩
      · rw [hnext, hn]
        exact hst
      · intro q hq
        rw [hnext, hn] at hq
        obtain rfl := Option.some.inj hq
        exact Function.update_self _ _ _

/-- One block of every lane. -/
theorem walkRow_step (hc : ∀ k, k < m → 12 ≤ (ch.bytes (f0 + k)).length) {b : Nat} {g : Lanes}
    (h : ∀ k, k < m → LaneAt ch f0 b g k) :
    (∀ k, k < m →
      LaneAt ch f0 (b + 1) ((List.range m).foldl (walkLane ch nblocks f0 b) g) k) ∧
    ((List.range m).foldl (walkLane ch nblocks f0 b) g).stores =
      g.stores ++ (List.range m).flatMap fun k => stored ch nblocks (f0 + k) b := by
  -- the lanes before `k` have moved on, the others have not
  have hrow := @foldl_range_induct _ (walkLane ch nblocks f0 b) m
    (fun k g' => (∀ j, j < k → LaneAt ch f0 (b + 1) g' j) ∧
      (∀ j, k ≤ j → j < m → LaneAt ch f0 b g' j) ∧
      g'.stores = g.stores ++ (List.range k).flatMap fun k => stored ch nblocks (f0 + k) b)
    g ⟨fun j hj => absurd hj (Nat.not_lt_zero j), fun j _ hj => h j hj, (List.append_nil _).symm⟩ ?_
  · exact ⟨hrow.1, hrow.2.2⟩
  · rintro k hk g' ⟨hbefore, hafter, hstores⟩
    obtain ⟨hlane, hother, hstore⟩ := @walkLane_step _ nblocks _ _ _ _ (hc k hk) (hafter k le_rfl hk)
    refine ⟨?_, ?_, ?_⟩
    · intro j hj
      rcases Nat.eq_or_lt_of_le (Nat.le_of_lt_succ hj) with rfl | hlt
      · exact hlane
      · obtain ⟨hst, hpos⟩ := hother j hlt.ne
        have hj' := hbefore j hlt
        exact ⟨hst.trans hj'.st, fun pos hcur => hpos.trans (hj'.pos pos hcur)⟩
    · intro j hj hlt
      obtain ⟨hst, hpos⟩ := hother j (by omega)
      have hj' := hafter j (by omega) hlt
      exact ⟨hst.trans hj'.st, fun pos hcur => hpos.trans (hj'.pos pos hcur)⟩
    · rw [hstore, hstores, List.range_succ, List.flatMap_append, List.flatMap_singleton,
        List.append_assoc]

/-- The whole walk of a group. -/
theorem walkGroup_spec (hc : ∀ k, k < m → 12 ≤ (ch.bytes (f0 + k)).length) :
    (∀ k, k < m → LaneAt ch f0 nblocks (walkGroup ch nblocks f0 m) k) ∧
    (walkGroup ch nblocks f0 m).stores = (List.range nblocks).flatMap fun b =>
      (List.range m).flatMap fun k => stored ch nblocks (f0 + k) b := by
  unfold walkGroup
  apply foldl_range_induct fun b (g : Lanes) => (∀ k, k < m → LaneAt ch f0 b g k) ∧
    g.stores = (List.range b).flatMap fun b =>
      (List.range m).flatMap fun k => stored ch nblocks (f0 + k) b
  · exact ⟨fun k _ => ⟨rfl, fun pos h => Option.some.inj h⟩, rfl⟩
  · rintro b - g ⟨hlanes, hstores⟩
    obtain ⟨hlanes', hstores'⟩ := @walkRow_step _ nblocks _ _ hc _ _ hlanes
    refine ⟨hlanes', ?_⟩
    rw [hstores', hstores, List.range_succ, List.flatMap_append, List.flatMap_singleton]

theorem LaneAt.status {b raw k : Nat} {g : Lanes} (h : LaneAt ch f0 b g k) :
    (g.st k || g.pos k + raw != (ch.bytes (f0 + k)).length) =
      !decide (Framed (ch.bytes (f0 + k)) b raw) := by
  apply Bool.eq_not.mpr
  rw [ne_eq, eq_comm, Bool.eq_iff_iff, decide_eq_true_iff, Framed, h.st]
  cases hcur : cursor (ch.bytes (f0 + k)) b with
  | none => simp
  | some pos => simp [h.pos pos hcur]

theorem mem_stored {f b : Nat} {e : Nat × Nat} :
    e ∈ stored ch nblocks f b ↔ e.1 = f * nblocks + b ∧ cursor (ch.bytes f) b = some e.2 ∧
      (cursor (ch.bytes f) (b + 1)).isSome := by
  have hnext : cursor (ch.bytes f) (b + 1) = (cursor (ch.bytes f) b).bind (nextPos (ch.bytes f)) := rfl
  unfold stored
  rw [hnext]
  cases cursor (ch.bytes f) b with
  | none => simp
  | some pos =>
    dsimp only [Option.bind_some]
    split
    · next h =>
      rw [List.mem_singleton, Prod.ext_iff, Option.some_inj]
      simp [h, eq_comm]
    · next h => simp [h]

end

section

variable {ch : Chunks} {total blocksize elemSize nstarts : Nat}

/-- An accepted call with room for the product of the counts, as it wraps. -/
theorem blockStarts_eq (h : Headed ch total blocksize) (he : 1 ≤ elemSize)
    (hroom : ch.nframes * numBlocks total blocksize elemSize % 2 ^ 64 ≤ nstarts) :
    ∃ groups, groups = (strided 0 ch.nframes walkWidth).map
        (walkFrames ch (numBlocks total blocksize elemSize) (rawTail total blocksize elemSize)) ∧
      blockStarts ch elemSize nstarts =
        ⟨if (groups.flatMap Prod.snd).any id then .error .corruptChunk else .ok (),
          some (numBlocks total blocksize elemSize), groups.flatMap Prod.fst,
          groups.flatMap Prod.snd⟩ := by
  refine ⟨_, rfl, ?_⟩
  unfold blockStarts
  rw [if_neg (by omega), checkFrames_ok.mpr h]
  exact if_neg (by omega)

theorem blockStarts_tooSmall (h : Headed ch total blocksize) (he : 1 ≤ elemSize)
    (hroom : nstarts < ch.nframes * numBlocks total blocksize elemSize % 2 ^ 64) :
    blockStarts ch elemSize nstarts =
      ⟨.error .workspaceTooSmall, some (numBlocks total blocksize elemSize), [], []⟩ := by
  unfold blockStarts
  rw [if_neg (by omega), checkFrames_ok.mpr h]
  exact if_pos hroom

/-- The chunks of the group from `f0` on. -/
theorem group_length (h : Headed ch total blocksize) {f0 : Nat}
    (hf0 : f0 ∈ strided 0 ch.nframes walkWidth) :
    ∀ k, k < (if ch.nframes - f0 < walkWidth then ch.nframes - f0 else walkWidth) →
      f0 + k < ch.nframes ∧ 12 ≤ (ch.bytes (f0 + k)).length := by
  intro k hk
  have hlt := ((mem_strided (by decide)).mp hf0).2.1
  have hf : f0 + k < ch.nframes := by split at hk <;> omega
  exact ⟨hf, h.length _ hf⟩

/-- What is stored. -/
theorem blockStarts_stores (h : Headed ch total blocksize) (he : 1 ≤ elemSize)
    (hroom : ch.nframes * numBlocks total blocksize elemSize % 2 ^ 64 ≤ nstarts) {e : Nat × Nat} :
    e ∈ (blockStarts ch elemSize nstarts).stores ↔
      ∃ f b, f < ch.nframes ∧ b < numBlocks total blocksize elemSize ∧
        e.1 = f * numBlocks total blocksize elemSize + b ∧ cursor (ch.bytes f) b = some e.2 ∧
        (cursor (ch.bytes f) (b + 1)).isSome := by
  obtain ⟨groups, hgroups, heq⟩ := blockStarts_eq h he hroom
  rw [heq, hgroups]
  dsimp only
  rw [List.flatMap_map, List.mem_flatMap]
  constructor
  · rintro ⟨f0, hf0, hmem⟩
    have hgroup := group_length h hf0
    have hspec := (@walkGroup_spec _ (numBlocks total blocksize elemSize) _ _
      fun k hk => (hgroup k hk).2).2
    rw [walkFrames] at hmem
    dsimp only at hmem
    rw [hspec] at hmem
    obtain ⟨b, hb, hmem⟩ := List.mem_flatMap.mp hmem
    obtain ⟨k, hk, hmem⟩ := List.mem_flatMap.mp hmem
    exact ⟨f0 + k, b, (hgroup k (List.mem_range.mp hk)).1, List.mem_range.mp hb, mem_stored.mp hmem⟩
  · rintro ⟨f, b, hf, hb, hstored⟩
    have htiles := flatMap_tiles (show 0 < walkWidth by decide) 0 ch.nframes
    have hin : f ∈ List.range' 0 (ch.nframes - 0) := List.mem_range'_1.mpr (by omega)
    rw [← htiles] at hin
    obtain ⟨f0, hf0, hin⟩ := List.mem_flatMap.mp hin
    have hlt := List.mem_range'_1.mp hin
    refine ⟨f0, hf0, ?_⟩
    have hgroup := group_length h hf0
    have hspec := (@walkGroup_spec _ (numBlocks total blocksize elemSize) _ _
      fun k hk => (hgroup k hk).2).2
    rw [walkFrames]
    dsimp only
    rw [hspec]
    refine List.mem_flatMap.mpr ⟨b, List.mem_range.mpr hb, List.mem_flatMap.mpr ⟨f - f0, ?_, ?_⟩⟩
    · rw [List.mem_range]
      split <;> omega
    · rw [show f0 + (f - f0) = f by omega]
      exact mem_stored.mpr hstored

/-- The status of every chunk. -/
theorem blockStarts_status (h : Headed ch total blocksize) (he : 1 ≤ elemSize)
    (hroom : ch.nframes * numBlocks total blocksize elemSize % 2 ^ 64 ≤ nstarts) :
    (blockStarts ch elemSize nstarts).status = (List.range ch.nframes).map fun f =>
      !decide (Framed (ch.bytes f) (numBlocks total blocksize elemSize)
        (rawTail total blocksize elemSize)) := by
  obtain ⟨groups, hgroups, heq⟩ := blockStarts_eq h he hroom
  have htiles := flatMap_tiles (show 0 < walkWidth by decide) 0 ch.nframes
  rw [heq, hgroups]
  dsimp only
  rw [List.flatMap_map, List.range_eq_range', ← Nat.sub_zero ch.nframes, ← htiles, List.map_flatMap,
    Nat.sub_zero]
  apply List.flatMap_congr
  intro f0 hf0
  have hlt := ((mem_strided (by decide)).mp hf0).2.1
  have hgroup := group_length h hf0
  have hspec := (@walkGroup_spec _ (numBlocks total blocksize elemSize) _ _
    fun k hk => (hgroup k hk).2).1
  have hwidth : min (f0 + walkWidth) ch.nframes - f0 =
      if ch.nframes - f0 < walkWidth then ch.nframes - f0 else walkWidth := by
    split <;> omega
  rw [walkFrames, hwidth, List.range'_eq_map_range, List.map_map]
  apply List.map_congr_left
  intro k hk
  exact (hspec k (List.mem_range.mp hk)).status

end

/-! ## The bound of the output -/

/-- No store reaches `nstarts`, and a batch with more blocks than that is refused. -/
def StartsBounded (ch : Chunks) (elemSize nstarts : Nat) : Prop :=
  (∀ e ∈ (blockStarts ch elemSize nstarts).stores, e.1 < nstarts) ∧
    ∀ total blocksize, checkFrames ch = .ok (total, blocksize) → 1 ≤ elemSize →
      nstarts < ch.nframes * numBlocks total blocksize elemSize →
        (blockStarts ch elemSize nstarts).rc = .error .workspaceTooSmall

theorem index_lt {f b nframes nblocks : Nat} (hf : f < nframes) (hb : b < nblocks) :
    f * nblocks + b < nframes * nblocks := by
  have hmul := Nat.mul_le_mul_right nblocks (show f + 1 ≤ nframes from hf)
  rw [Nat.succ_mul] at hmul
  omega

theorem blockStarts_refused {ch : Chunks} {elemSize nstarts : Nat}
    (h : ¬((∃ total blocksize, checkFrames ch = .ok (total, blocksize)) ∧ 1 ≤ elemSize)) :
    (blockStarts ch elemSize nstarts).stores = [] := by
  unfold blockStarts
  split
  · rfl
  · next he =>
    cases hc : checkFrames ch with
    | error e => rfl
    | ok geometry => exact absurd ⟨⟨_, _, hc⟩, by omega⟩ h

theorem rc_ne_tooSmall {ch : Chunks} {total blocksize elemSize nstarts : Nat}
    (h : Headed ch total blocksize) (he : 1 ≤ elemSize)
    (hroom : ch.nframes * numBlocks total blocksize elemSize % 2 ^ 64 ≤ nstarts) :
    (blockStarts ch elemSize nstarts).rc ≠ .error .workspaceTooSmall := by
  obtain ⟨groups, -, heq⟩ := blockStarts_eq h he hroom
  rw [heq]
  dsimp only
  split
  · simp
  · simp

/-- The bound holds where the product of the counts still exceeds `nstarts` after it wraps. -/
theorem blockStarts_bounded_iff (ch : Chunks) (elemSize nstarts : Nat) :
    StartsBounded ch elemSize nstarts ↔
      ∀ total blocksize, checkFrames ch = .ok (total, blocksize) → 1 ≤ elemSize →
        nstarts < ch.nframes * numBlocks total blocksize elemSize →
          nstarts < ch.nframes * numBlocks total blocksize elemSize % 2 ^ 64 := by
  constructor
  · rintro ⟨-, hsmall⟩ total blocksize hc he hlt
    by_contra hwrap
    exact rc_ne_tooSmall (checkFrames_ok.mp hc) he (by omega) (hsmall total blocksize hc he hlt)
  · intro h
    constructor
    · intro e hmem
      by_cases hok : (∃ total blocksize, checkFrames ch = .ok (total, blocksize)) ∧ 1 ≤ elemSize
      · obtain ⟨⟨total, blocksize, hc⟩, he⟩ := hok
        have hhead := checkFrames_ok.mp hc
        by_cases hroom : ch.nframes * numBlocks total blocksize elemSize % 2 ^ 64 ≤ nstarts
        · obtain ⟨f, b, hf, hb, hi, -, -⟩ := (blockStarts_stores hhead he hroom).mp hmem
          have hlt := index_lt hf hb
          have hexact : ch.nframes * numBlocks total blocksize elemSize ≤ nstarts := by
            by_contra hgt
            have hwrap := h total blocksize hc he (by omega)
            omega
          omega
        · rw [blockStarts_tooSmall hhead he (by omega)] at hmem
          cases hmem
      · rw [blockStarts_refused hok] at hmem
        cases hmem
    · intro total blocksize hc he hlt
      rw [blockStarts_tooSmall (checkFrames_ok.mp hc) he (h total blocksize hc he hlt)]

/-- A header of 2^63 blocks of one byte, and an empty block. -/
def wrappedChunk : List Byte :=
  [0x80#8, 0#8, 0#8, 0#8, 0#8, 0#8, 0#8, 0#8, 0#8, 0#8, 0#8, 1#8, 0#8, 0#8, 0#8, 0#8]

def wrappedChunks : Chunks where
  nframes := 2
  bytes := fun _ => wrappedChunk
  nframes_lt := twoFrames_lt
  length_lt := fun _ => by decide

/-- Two chunks of 2^63 blocks: their product wraps to 0, which an empty output has room for. -/
theorem not_blockStarts_bounded :
    (0, 12) ∈ (blockStarts wrappedChunks 1 0).stores ∧ ¬StartsBounded wrappedChunks 1 0 := by
  have hhead : Headed wrappedChunks (2 ^ 63) 1 := checkFrames_ok.mp (by decide)
  have hstore : (0, 12) ∈ (blockStarts wrappedChunks 1 0).stores :=
    (blockStarts_stores hhead le_rfl (by decide)).mpr
      ⟨0, 0, by decide, by decide, by decide, rfl, by decide⟩
  exact ⟨hstore, fun h => absurd (h.1 _ hstore) (by decide)⟩

end Bslz4ToSparse.Pipeline
