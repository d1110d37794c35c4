import Bslz4ToSparse.Pipeline.BlockStarts

/-!
# The walk over the block headers on the GPU (src/cuda/bslz4_split.cu)

One thread walks the chunk of one image. The host tells it how many blocks are stored
compressed and how many bytes are raw.
-/

namespace Bslz4ToSparse.Cuda

open Foundation Pipeline
open Lz4 (Byte)

/-- The first four bytes of a zstd frame. -/
def zstdMagic : Nat := 0x28B52FFD

/-- The thread: the position, the error so far, and what was stored to `starts`. -/
structure Unblock where
  pos : Nat
  e : Nat
  out : List (Nat × Nat)
  deriving DecidableEq, Repr

/-- Block `b`. -/
def unblockStep (c : List Byte) (u : Unblock) (b : Nat) : Unblock :=
  if u.e ≠ 0 then u
  else if c.length < u.pos + 4 then { u with e := 1 }
  else
    let l := readBe32 c u.pos
    if c.length < u.pos + 4 + l then { u with e := 1 }
    else { u with pos := u.pos + (4 + l), out := u.out ++ [(b, u.pos)] }

/-- `unblock` for the chunk `c`: the error and the stores. -/
def unblock (c : List Byte) (nstored tocopy totalBytes : Nat) : Nat × List (Nat × Nat) :=
  if c.length < 12 then (1, [])
  else
    let bs := readBe32 c 8
    if readBe32 c 0 ≠ 0 ∨ readBe32 c 4 ≠ totalBytes then (3, [])
    else if bs ≠ 0 ∧ bs ≠ 8192 then (4, [])
    else if nstored ≠ 0 ∧ 20 ≤ c.length ∧ readBe32 c 16 = zstdMagic then (5, [])
    else
      let u := (List.range nstored).foldl (unblockStep c) ⟨12, 0, []⟩
      (if u.e = 0 ∧ u.pos + tocopy ≠ c.length then 2 else u.e, u.out)

/-- `self.tocopy` of the host. -/
def hostTocopy (totalBytes bpp : Nat) : Nat := totalBytes % defaultBlockBytes % (bpp * 8)

/-- `self.nstored`: the blocks with a compressed stream. -/
def hostNstored (totalBytes bpp : Nat) : Nat :=
  totalBytes / defaultBlockBytes +
    if 0 < totalBytes % defaultBlockBytes - hostTocopy totalBytes bpp then 1 else 0

/-! ## The host's numbers -/

theorem hostTocopy_eq (totalBytes bpp : Nat) :
    hostTocopy totalBytes bpp = rawTail totalBytes defaultBlockBytes bpp := by
  have hdiv := Nat.div_add_mod (totalBytes % defaultBlockBytes) (8 * bpp)
  rw [hostTocopy, rawTail, tailBlock, Nat.mul_comm bpp]
  omega

theorem hostNstored_eq (totalBytes bpp : Nat) :
    hostNstored totalBytes bpp = numBlocks totalBytes defaultBlockBytes bpp := by
  have hle := tailBlock_le bpp (totalBytes % defaultBlockBytes)
  rw [hostNstored, numBlocks, hostTocopy_eq, rawTail]
  congr 2
  rw [eq_iff_iff]
  omega

/-! ## The walk -/

/-- Where the thread is after `b` blocks. -/
structure ThreadAt (c : List Byte) (b : Nat) (u : Unblock) : Prop where
  e : u.e = 0 ↔ (cursor c b).isSome
  pos : u.e = 0 → cursor c b = some u.pos
  out : u.e = 0 → ∀ k pos, (k, pos) ∈ u.out ↔ k < b ∧ cursor c k = some pos

theorem unblockStep_at {c : List Byte} {b : Nat} {u : Unblock} (h : ThreadAt c b u) :
    ThreadAt c (b + 1) (unblockStep c u b) := by
  have hcursor : cursor c (b + 1) = (cursor c b).bind (nextPos c) := rfl
  unfold unblockStep
  by_cases he : u.e = 0
  · have hpos := h.pos he
    rw [hpos, Option.bind_some] at hcursor
    rw [if_neg (not_not.mpr he)]
    have hstop : nextPos c u.pos = none → ThreadAt c (b + 1) { u with e := 1 } := by
      intro hnone
      rw [hnone] at hcursor
      exact ⟨by simp [hcursor], by simp, by simp⟩
    split
    · exact hstop (if_neg (by omega))
    dsimp only
    split
    · exact hstop (if_neg (by omega))
    · have hnext : nextPos c u.pos = some (u.pos + (4 + readBe32 c u.pos)) := by
        rw [nextPos, if_pos (by omega), Nat.add_assoc]
      rw [hnext] at hcursor
      refine ⟨by simp [hcursor, he], fun _ => hcursor, fun _ k pos => ?_⟩
      rw [List.mem_append, h.out he, List.mem_singleton, Prod.mk.injEq]
      constructor
      · rintro (⟨hk, hp⟩ | ⟨rfl, rfl⟩)
        · exact ⟨by omega, hp⟩
        · exact ⟨by omega, hpos⟩
      · rintro ⟨hk, hp⟩
        rcases Nat.lt_or_ge k b with hlt | hge
        · exact Or.inl ⟨hlt, hp⟩
        · obtain rfl : k = b := by omega
          rw [hpos] at hp
          exact Or.inr ⟨rfl, (Option.some.inj hp).symm⟩
  · rw [if_pos he]
    have hnone : cursor c b = none := by
      have hsome := mt h.e.mpr he
      simpa using hsome
    rw [hnone] at hcursor
    exact ⟨by simp [he, hcursor], fun h0 => absurd h0 he, fun h0 => absurd h0 he⟩

theorem unblock_at (c : List Byte) (n : Nat) :
    ThreadAt c n ((List.range n).foldl (unblockStep c) ⟨12, 0, []⟩) := by
  induction n with
  | zero => exact ⟨by simp [cursor], fun _ => rfl, fun _ k pos => by simp⟩
  | succ n ih =>
    rw [List.range_succ, List.foldl_append, List.foldl_cons, List.foldl_nil]
    exact unblockStep_at ih

/-- A chunk of 8 kB blocks that does not start with a zstd frame: no error exactly where its
blocks and its raw tail fill it, and then every block's position is stored. -/
theorem unblock_spec {c : List Byte} {nstored tocopy totalBytes : Nat} (hlen : 12 ≤ c.length)
    (htotal : headerTotal c = totalBytes) (h32 : totalBytes < 2 ^ 32)
    (hsize : readBe32 c 8 = 0 ∨ readBe32 c 8 = 8192)
    (hmagic : ¬ (20 ≤ c.length ∧ readBe32 c 16 = zstdMagic)) :
    ((unblock c nstored tocopy totalBytes).1 = 0 ↔ Framed c nstored tocopy) ∧
      ((unblock c nstored tocopy totalBytes).1 = 0 → ∀ b pos,
        (b, pos) ∈ (unblock c nstored tocopy totalBytes).2 ↔ b < nstored ∧ cursor c b = some pos) := by
  have hwords : readBe32 c 0 = 0 ∧ readBe32 c 4 = totalBytes := by
    have heq := readBe64_eq c
    rw [headerTotal] at htotal
    have hlow : readBe32 c 4 < 2 ^ 32 := readBe_lt c 4 4
    omega
  have hat := unblock_at c nstored
  have hrun : unblock c nstored tocopy totalBytes =
      (if ((List.range nstored).foldl (unblockStep c) ⟨12, 0, []⟩).e = 0 ∧
          ((List.range nstored).foldl (unblockStep c) ⟨12, 0, []⟩).pos + tocopy ≠ c.length then 2
        else ((List.range nstored).foldl (unblockStep c) ⟨12, 0, []⟩).e,
        ((List.range nstored).foldl (unblockStep c) ⟨12, 0, []⟩).out) := by
    unfold unblock
    rw [if_neg (by omega)]
    dsimp only
    rw [if_neg (by omega), if_neg (by omega), if_neg fun h => hmagic h.2]
  rw [hrun]
  generalize (List.range nstored).foldl (unblockStep c) ⟨12, 0, []⟩ = u at hat
  dsimp only
  by_cases he : u.e = 0
  · have hpos := hat.pos he
    by_cases hend : u.pos + tocopy = c.length
    · rw [if_neg fun h => h.2 hend]
      exact ⟨⟨fun _ => ⟨u.pos, hpos, hend⟩, fun _ => he⟩, fun _ => hat.out he⟩
    · rw [if_pos ⟨he, hend⟩]
      refine ⟨⟨nofun, ?_⟩, nofun⟩
      rintro ⟨pos, hc, hp⟩
      rw [hpos, Option.some_inj] at hc
      omega
  · rw [if_neg fun h => he h.1]
    refine ⟨⟨fun h0 => absurd h0 he, ?_⟩, fun h0 => absurd h0 he⟩
    rintro ⟨pos, hc, -⟩
    exact absurd (hat.e.mpr (by rw [hc]; rfl)) he

end Bslz4ToSparse.Cuda
