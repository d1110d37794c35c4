import Bslz4ToSparse.Lz4.Format
import Bslz4ToSparse.Pipeline.Decompress
import Bslz4ToSparse.Pipeline.Sparsify
import Bslz4ToSparse.Pipeline.Walks

/-!
# The two decoders

`bslz4_driver_run` and `bslz4_driver_decompress` check the chunks and walk their blocks each on its own.
They accept the same chunks, and the first one lists the pixels that the second one writes.
-/

namespace Bslz4ToSparse.Pipeline

open Foundation Steps
open Lz4 (Byte hasZeroOffset plainDecode)

variable {t : Dtype} {nij : Nat} {D : Type}

/-! ## The output in pixels -/

theorem pixelAt_copyTo {mem src : Memory} {a n e : Nat} (he : e < n) :
    pixelAt t (copyTo mem (a * t.size) (n * t.size) src) (a + e) = pixelAt t src e := by
  have hlt := Nat.mul_le_mul_right t.size (show e + 1 ≤ n from he)
  rw [Nat.succ_mul] at hlt
  refine gather_congr fun k hk => ?_
  simp only [Dtype.bits] at hk
  have hadd := Nat.add_mul a e t.size
  rw [copyTo, if_pos (by omega)]
  congr 2
  omega

theorem pixelAt_copyTo_of_lt {mem src : Memory} {a n e : Nat} (he : e < a) :
    pixelAt t (copyTo mem (a * t.size) (n * t.size) src) e = pixelAt t mem e := by
  have hlt := Nat.mul_le_mul_right t.size (show e + 1 ≤ a from he)
  rw [Nat.succ_mul] at hlt
  exact pixelAt_congr fun b hb => if_neg (by omega)

theorem pixelAt_copyTo_of_ge {mem src : Memory} {a n e : Nat} (he : a + n ≤ e) :
    pixelAt t (copyTo mem (a * t.size) (n * t.size) src) e = pixelAt t mem e := by
  have hle := Nat.mul_le_mul_right t.size he
  rw [Nat.add_mul] at hle
  exact pixelAt_congr fun b hb => if_neg (by omega)

/-- `n` pixels of frame `f` are written, and no other frame is touched. -/
structure Written (nij f n : Nat) (out out' : Memory) (px : Nat → Pixel t) : Prop where
  written : ∀ p, p < n → pixelAt t out' (f * nij + p) = px p
  others : ∀ p, p < f * nij ∨ (f + 1) * nij ≤ p → pixelAt t out' p = pixelAt t out p

/-- The next `m` pixels. -/
theorem Written.write {f n m : Nat} {out out' src : Memory} {px next px' : Nat → Pixel t}
    (h : Written nij f n out out' px) (hroom : n + m ≤ nij) (hsrc : ∀ e, e < m → pixelAt t src e = next e)
    (hpx : ∀ p, p < n + m → px' p = if p < n then px p else next (p - n)) :
    Written nij f (n + m) out
      (copyTo out' (f * (nij * t.size) + n * t.size) (m * t.size) src) px' := by
  have hstart : f * (nij * t.size) + n * t.size = (f * nij + n) * t.size := by ring
  have hnext : (f + 1) * nij = f * nij + nij := Nat.succ_mul f nij
  rw [hstart]
  constructor
  · intro p hp
    rw [hpx p hp]
    split
    · next hlt => rw [pixelAt_copyTo_of_lt (by omega), h.written p hlt]
    · next hge =>
      have hplace : f * nij + p = f * nij + n + (p - n) := by omega
      rw [hplace, pixelAt_copyTo (by omega), hsrc _ (by omega)]
  · intro p hp
    rw [← h.others p hp]
    rcases hp with hp | hp
    · exact pixelAt_copyTo_of_lt (by omega)
    · exact pixelAt_copyTo_of_ge (by omega)

/-- The state between two blocks. -/
structure Unpacked (nij f n : Nat) (out : Memory) (s : UnpackState) (o : Opened t) : Prop where
  pos : s.pos = o.pos
  off : s.off = n * t.size
  pixels : Written nij f n out s.out o.px

/-! ## The calls -/

/-- Both are given the same chunks, the codec of the chunks, and the pixel size. -/
structure SameChunks (q : Call t nij D) (u : Unpack) : Prop where
  compressed : q.pixels = false
  chunks : u.chunks = q.chunks
  elemSize : u.elemSize = t.size
  decode : u.decode = tailDecode q.pipe.decode
  unshuffle : u.unshuffle = true

/-- What the callers see to, for chunks that have the geometry `g`. -/
structure Roomy (q : Call t nij D) (u : Unpack) (g : Geometry) : Prop where
  total : g.total = nij * t.size
  small : g.total ≤ 2 ^ 31 - 1
  whole : 8 * t.size ∣ g.blocksize
  layout : ∀ d ∈ q.dot, badLayout (g.blockElems t) d.2 = false
  workspace : workspaceBytes q g ≤ q.workspaceLen
  output : u.chunks.nframes * g.total ≤ u.outLen
  blocks : 3 * min g.blocksize g.total ≤ u.workspaceLen

/-- The lz4 library next to the decoder for chunks with long runs of zeros, on blocks that fill their
room: it takes what that one takes, and more than that only where a match has the offset 0. -/
structure SharedCodec (C : Codecs) : Prop where
  takes : ∀ src planes, plainDecode planes.length src = some planes →
    C.lz4DecompressSafe src planes.length = some planes
  refuses : ∀ src planes, hasZeroOffset src = false →
    C.lz4DecompressSafe src planes.length = some planes → plainDecode planes.length src = some planes

/-- No match of the first `n` blocks of the chunk `c` has the offset 0. -/
def NoZeroOffsets (c : List Byte) (n : Nat) : Prop :=
  ∀ b pos, b < n → cursor c b = some pos → (nextPos c pos).isSome →
    hasZeroOffset (blockBytes c pos (readBe32 c pos)) = false

/-- The blocks that a value decodes with the decoder for long runs of zeros. -/
def UsesZero (decode : Decode) : Prop := decode = .lz4Zero ∨ decode = .lz4Band

/-- The planes of a block, whichever decoder gives them. -/
theorem planesOf_shared {C : Codecs} (hC : SharedCodec C) {decode : Decode} (hd : decode ≠ .pixels)
    (src : List Byte) (size : Nat) (hzero : UsesZero decode → hasZeroOffset src = false) :
    planesOf C decode src size =
      (decodePlain C (tailDecode decode) src size).filter fun out => out.length = size := by
  have hsame : UsesZero decode → (plainDecode size src).filter (fun out => decide (out.length = size)) =
      (C.lz4DecompressSafe src size).filter fun out => decide (out.length = size) := by
    intro huses
    apply Option.ext
    intro planes
    simp only [Option.filter_eq_some_iff, decide_eq_true_eq]
    constructor
    · intro h
      obtain ⟨hplain, rfl⟩ := h
      exact ⟨hC.takes src planes hplain, rfl⟩
    · intro h
      obtain ⟨hsafe, rfl⟩ := h
      exact ⟨hC.refuses src planes (hzero huses) hsafe, rfl⟩
  unfold planesOf
  cases decode with
  | pixels => exact absurd rfl hd
  | zstd => rfl
  | lz4Stock => rfl
  | lz4Zero => exact hsame (Or.inl rfl)
  | lz4Band =>
    split
    · exact hsame (Or.inr rfl)
    · rfl

/-! ## One block -/

/-- The planes of the block of `size` bytes at `pos`: where the next block is, the compressed size and
the planes. -/
def stockBlock (C : Codecs) (decode : Decode) (c : List Byte) (pos size : Nat) :
    Except Err (Nat × Nat × List Byte) := do
  let nbytes ← readSize c pos
  match (decodePlain C decode (blockBytes c pos nbytes) size).filter fun out => out.length = size with
  | none => .error .decompress
  | some planes => return (pos + nbytes + 4, nbytes, planes)

section

variable {E : Platform} {q : Call t nij D} {u : Unpack} {g : Geometry} {f : Nat}

/-- A block of `m` pixels is unshuffled behind the ones before it. -/
theorem unpackBlock_agree (hK : E.kernels.Inverse) (hu : SameChunks q u) {b m size : Nat}
    (hsize : (if b < g.total / g.blocksize then g.blocksize
      else tailBlock u.elemSize (g.total % g.blocksize)) = size)
    (hm : size = m * t.size) (h8 : 8 ∣ m) (s : UnpackState) :
    Agree (fun s' x => s'.pos = x.1 ∧ s'.off = s.off + size ∧ ∃ src,
        s'.out = copyTo s.out (f * g.total + s.off) size src ∧
        ∀ e, e < m → pixelAt t src e = planePixel t (bytesOf x.2.2) m e)
      (unpackBlock E u g f s b) (stockBlock E.codecs u.decode (u.chunks.bytes f) s.pos size) := by
  unfold unpackBlock stockBlock
  rw [hsize]
  apply Agree.bind_same
  intro nbytes
  cases decodePlain E.codecs u.decode (blockBytes (u.chunks.bytes f) s.pos nbytes) size with
  | none => exact rfl
  | some planes =>
    dsimp only
    by_cases hlen : planes.length = size
    · have hsame : (planes.length != size) = false := by simpa using hlen
      rw [Option.filter_some, if_pos (decide_eq_true hlen), hsame, refuse_false]
      change Agree _ (if u.unshuffle = true then _ else _) _
      rw [if_pos hu.unshuffle]
      have hne : size / u.elemSize = m := by
        rw [hu.elemSize, hm, Nat.mul_div_cancel _ t.size_pos]
      have helem := hu.elemSize
      set raw := copyTo s.mem 0 size (bytesOf planes) with hraw
      obtain ⟨out, scratch, hr, hout⟩ := (untransposeBackend_spec hK u.untranspose raw
        (offset raw (min g.blocksize g.total)) (size / u.elemSize) u.elemSize).1 (by rw [hne]; exact h8)
      rw [hr]
      refine ⟨rfl, rfl, _, rfl, fun e he => ?_⟩
      rw [hne, helem] at hout
      have hplanes : ∀ i, i < m * t.size → raw i = bytesOf planes i := by
        intro i hi
        rw [hraw, copyTo, if_pos (by omega), Nat.sub_zero]
      rw [← (hout.congr h8 hplanes).pixel he]
      apply pixelAt_congr
      intro k hk
      have hmul := Nat.mul_le_mul_right t.size (show e + 1 ≤ m from he)
      rw [Nat.succ_mul] at hmul
      rw [copyTo, if_pos (by omega), Nat.sub_zero]
    · have hother : (planes.length != size) = true := by simpa using hlen
      have hdrop : ¬decide (planes.length = size) = true := by simpa using hlen
      rw [Option.filter_some, if_neg hdrop, hother, refuse_true]
      exact rfl

theorem openBlock_stock (hC : SharedCodec E.codecs) (hd : q.pipe.decode ≠ .pixels) (hq : q.pixels = false)
    (c : List Byte) (b pos : Nat) (hzero : UsesZero q.pipe.decode → (nextPos c pos).isSome →
      hasZeroOffset (blockBytes c pos (readBe32 c pos)) = false) :
    openBlock E q g c b pos = (stockBlock E.codecs (tailDecode q.pipe.decode) c pos g.blocksize).map
      fun x => (x.1, x.2.1, planePixel t (bytesOf x.2.2) (g.blockElems t)) := by
  unfold openBlock stockBlock
  rw [if_neg (by rw [hq]; decide)]
  cases hsize : readSize c pos with
  | error e => rfl
  | ok nbytes =>
    obtain ⟨rfl, hnext⟩ := readSize_ok.mp hsize
    change (match planesOf E.codecs q.pipe.decode (blockBytes c pos (readBe32 c pos)) g.blocksize with
      | none => _ | some planes => _) = _
    rw [planesOf_shared hC hd _ _ fun huses => hzero huses (by rw [hnext]; rfl)]
    dsimp only [bind, Except.bind]
    cases (decodePlain E.codecs (tailDecode q.pipe.decode) (blockBytes c pos (readBe32 c pos))
      g.blocksize).filter fun out => out.length = g.blocksize with
    | none => rfl
    | some planes => rfl

theorem tailPlanes_stock (c : List Byte) (pos : Nat) :
    tailPlanes E q g c pos = if q.tailBytes g = 0 then .ok (pos, 0, [])
      else stockBlock E.codecs (tailDecode q.pipe.decode) c pos (q.tailBytes g) := by
  unfold tailPlanes stockBlock
  split
  · rfl
  · cases readSize c pos with
    | error e => rfl
    | ok nbytes =>
      dsimp only [bind, Except.bind]
      cases decodePlain E.codecs (tailDecode q.pipe.decode) (blockBytes c pos nbytes) (q.tailBytes g) with
      | none => rfl
      | some planes =>
        by_cases hlen : planes.length = q.tailBytes g
        · have hsame : (planes.length != q.tailBytes g) = false := by simpa using hlen
          rw [Option.filter_some, if_pos (decide_eq_true hlen)]
          dsimp only
          rw [hsame, refuse_false]
        · have hother : (planes.length != q.tailBytes g) = true := by simpa using hlen
          rw [Option.filter_some, if_neg (by simpa using hlen)]
          dsimp only
          rw [hother, refuse_true]

/-! ## One frame -/

variable (hready : Ready E q g) (hu : SameChunks q u)

include hready hu

/-- The full blocks. -/
theorem unpackBlocks_agree (hC : SharedCodec E.codecs) (hd : q.pipe.decode ≠ .pixels)
    (hzero : UsesZero q.pipe.decode → NoZeroOffsets (u.chunks.bytes f) (g.total / g.blocksize))
    (s : UnpackState) :
    Agree (Unpacked nij f (g.tailStart t) s.out) (unpackBlocks E u g f (g.total / g.blocksize) s)
      (openBlocks E q g (u.chunks.bytes f) (g.total / g.blocksize)) := by
  have hg := hready.aligned
  suffices hwalk : Agree (fun s' o => Unpacked nij f (g.tailStart t) s.out s' o ∧
      cursor (u.chunks.bytes f) (g.total / g.blocksize) = some s'.pos)
      (unpackBlocks E u g f (g.total / g.blocksize) s)
      (openBlocks E q g (u.chunks.bytes f) (g.total / g.blocksize)) by
    exact hwalk.mono fun _ _ h => h.1
  unfold unpackBlocks openBlocks Geometry.tailStart
  refine foldlM_range_agree (fun b s' o => Unpacked nij f (b * g.blockElems t) s.out s' o ∧
    cursor (u.chunks.bytes f) b = some s'.pos) ?_ ?_
  · refine ⟨⟨?_, by rw [Nat.zero_mul, Nat.zero_mul], fun p hp => by omega, fun _ _ => rfl⟩, rfl⟩
    dsimp only
    rw [hu.compressed, if_neg (by decide)]
  · intro b hb s' o hboth
    obtain ⟨h, hcursor⟩ := hboth
    have hagree := unpackBlock_agree (f := f) (b := b) hready.kernels hu (if_pos hb) hg.size_eq hg.elems_dvd s'
    replace hagree := hagree.of_ok fun s'' hs'' => unpackBlock_pos hs''
    rw [hu.decode, h.pos] at hagree
    rw [openBlock_stock hC hd hu.compressed _ _ _ fun huses hnext =>
      hzero huses b o.pos hb (h.pos ▸ hcursor) hnext]
    have hmap : ∀ x : Except Err (Nat × Nat × List Byte), ((x.map fun x =>
        (x.1, x.2.1, planePixel t (bytesOf x.2.2) (g.blockElems t))) >>= fun r =>
          (pure { pos := r.1, nbytes := Function.update o.nbytes b r.2.1,
                  px := fun p => if p < b * g.blockElems t then o.px p
                    else r.2.2 (p - b * g.blockElems t) } : Except Err (Opened t))) =
        x.map fun x => { pos := x.1, nbytes := Function.update o.nbytes b x.2.1,
                         px := fun p => if p < b * g.blockElems t then o.px p
                           else planePixel t (bytesOf x.2.2) (g.blockElems t) (p - b * g.blockElems t) } := by
      intro x
      cases x with
      | error e => rfl
      | ok x => rfl
    have hroom := hg.block_le hready.total hb
    change Agree _ _ (_ >>= _)
    rw [hmap]
    refine hagree.map_right fun s'' x hx => ?_
    obtain ⟨⟨hpos, hoff, src, hout, hsrc⟩, hnext⟩ := hx
    rw [hready.total, h.off] at hout
    rw [h.off] at hoff
    rw [hg.size_eq] at hout
    rw [Nat.succ_mul]
    refine ⟨⟨hpos, ?_, ?_⟩, by rw [cursor, hcursor]; exact h.pos ▸ hnext⟩
    · rw [hoff, hg.size_eq, Nat.add_mul]
    · rw [hout]
      exact h.pixels.write hroom hsrc fun _ _ => rfl

/-- The raw pixels at the end. -/
theorem unpackRaw_agree {out : Memory} {s : UnpackState} {o : Opened t} {planes : List Byte}
    (h : Unpacked nij f (g.tailStart t + q.tailBytes g / t.size) out s o)
    (hpx : ∀ e, q.tailBytes g / t.size ≤ e →
      o.px (g.tailStart t + e) = tailPixels q g (u.chunks.bytes f) planes e) :
    Agree (fun s' o => Written nij f nij out s'.out o.px) (unpackRaw u g f s)
      (checkRaw q g (u.chunks.bytes f) o.pos >>= fun _ => pure o) := by
  obtain ⟨c, hc⟩ := tailBytes_whole q g
  have hsize := tail_size hready
  have hend := tail_end hready
  have hle := tailBytes_le q g
  have hne : q.tailBytes g / t.size = 8 * c := by rw [hc, Nat.mul_div_cancel _ t.size_pos]
  have hraw : rawTail g.total g.blocksize u.elemSize = q.rawBytes g := by
    unfold rawTail Call.rawBytes Call.tailBytes
    rw [hu.elemSize, hu.compressed, if_neg (by decide)]
  have hcle : 8 * c ≤ nij % g.blockElems t := by
    rw [hc, hsize] at hle
    exact Nat.le_of_mul_le_mul_right hle t.size_pos
  have hrem : q.rawBytes g = (nij % g.blockElems t - 8 * c) * t.size := by
    unfold Call.rawBytes
    rw [hsize, hc, ← Nat.sub_mul]
  rw [hne] at h
  unfold unpackRaw checkRaw
  rw [hraw]
  dsimp only
  by_cases hzero : q.rawBytes g = 0
  · rw [if_pos hzero, if_pos (Or.inl hzero)]
    have hnone : nij % g.blockElems t - 8 * c = 0 := by
      rw [hrem] at hzero
      exact (Nat.mul_eq_zero.mp hzero).resolve_right t.size_pos.ne'
    have hall : g.tailStart t + 8 * c = nij := by omega
    rw [hall] at h
    exact h.pixels
  · rw [if_neg hzero, if_neg (by rw [hu.compressed]; simpa using hzero), h.pos]
    apply Agree.bind_same
    intro _
    have hplace : g.tailStart t + 8 * c + (nij % g.blockElems t - 8 * c) = nij := by omega
    have hnext : ∀ p, p < g.tailStart t + 8 * c + (nij % g.blockElems t - 8 * c) → o.px p =
        if p < g.tailStart t + 8 * c then o.px p
        else pixelAt t (bytesOf ((u.chunks.bytes f).drop ((u.chunks.bytes f).length - q.rawBytes g)))
          (p - (g.tailStart t + 8 * c)) := by
      intro p _
      split
      · rfl
      · next hge =>
        have htail := hpx (p - g.tailStart t) (by rw [hne]; omega)
        unfold tailPixels at htail
        rw [hu.compressed, if_neg (by decide), hne, if_neg (by omega)] at htail
        rw [show g.tailStart t + (p - g.tailStart t) = p by omega] at htail
        rw [htail, Nat.sub_sub]
    have hwrite := h.pixels.write (by omega) (fun _ _ => rfl) hnext
    rw [hplace] at hwrite
    have hat : f * (nij * t.size) + (g.tailStart t + 8 * c) * t.size = f * g.total + s.off := by
      rw [hready.total, h.off]
    rw [hat, ← hrem] at hwrite
    exact hwrite

/-- The full blocks `o` and the tail. -/
def Opened.close (q : Call t nij D) (g : Geometry) (c : List Byte) (o : Opened t) (pos nbytes : Nat)
    (planes : List Byte) : Opened t where
  pos := pos
  nbytes := Function.update o.nbytes (g.total / g.blocksize) nbytes
  px := fun p => if p < g.tailStart t then o.px p else tailPixels q g c planes (p - g.tailStart t)

omit hready hu in
theorem openFrame_eq (c : List Byte) :
    openFrame E q g c = (openBlocks E q g c (g.total / g.blocksize) >>= fun o =>
      tailPlanes E q g c o.pos >>= fun x => checkRaw q g c x.1 >>= fun _ =>
        pure (o.close q g c x.1 x.2.1 x.2.2)) := rfl

omit hready hu in
theorem Opened.close_tail {c : List Byte} {o : Opened t} {pos nbytes : Nat} {planes : List Byte} (e : Nat) :
    (o.close q g c pos nbytes planes).px (g.tailStart t + e) = tailPixels q g c planes e := by
  unfold Opened.close
  dsimp only
  rw [if_neg (by omega), Nat.add_sub_cancel_left]

/-- A frame is unpacked when it can be read, into its pixels. -/
theorem unpackFrame_agree (hC : SharedCodec E.codecs) (hd : q.pipe.decode ≠ .pixels)
    (hzero : UsesZero q.pipe.decode → NoZeroOffsets (u.chunks.bytes f) (g.total / g.blocksize))
    (s : UnpackState) :
    Agree (fun s' o => Written nij f nij s.out s'.out o.px) (unpackFrame E u g s f)
      (openFrame E q g (u.chunks.bytes f)) := by
  obtain ⟨c, hc⟩ := tailBytes_whole q g
  have hne : q.tailBytes g / t.size = 8 * c := by rw [hc, Nat.mul_div_cancel _ t.size_pos]
  have hblocks := unpackBlocks_agree (f := f) hready hu hC hd hzero s
  rw [openFrame_eq]
  unfold unpackFrame
  rw [hu.elemSize, numBlocks_chunks hu.compressed]
  by_cases hzero : q.tailBytes g = 0
  · rw [if_pos hzero, Nat.add_zero]
    refine hblocks.bind fun s' o h => ?_
    rw [tailPlanes_stock, if_pos hzero]
    refine unpackRaw_agree (o := o.close q g (u.chunks.bytes f) o.pos 0 []) hready hu
      ⟨h.pos, ?_, ?_, h.pixels.others⟩ fun e _ => Opened.close_tail e
    · rw [hzero, Nat.zero_div, Nat.add_zero, h.off]
    · intro p hp
      rw [hzero, Nat.zero_div, Nat.add_zero] at hp
      rw [h.pixels.written p hp]
      exact (if_pos hp).symm
  · rw [if_neg hzero]
    have hsplit : unpackBlocks E u g f (g.total / g.blocksize + 1) s =
        (unpackBlocks E u g f (g.total / g.blocksize) s).bind fun s =>
          unpackBlock E u g f s (g.total / g.blocksize) := foldlM_range_succ _ _ _
    have hassoc : (unpackBlocks E u g f (g.total / g.blocksize + 1) s >>= fun s => unpackRaw u g f s) =
        (unpackBlocks E u g f (g.total / g.blocksize) s >>= fun s =>
          unpackBlock E u g f s (g.total / g.blocksize) >>= fun s => unpackRaw u g f s) := by
      rw [hsplit]
      cases unpackBlocks E u g f (g.total / g.blocksize) s with
      | error e => rfl
      | ok s => rfl
    rw [hassoc]
    refine hblocks.bind fun s' o h => ?_
    have htail : (if g.total / g.blocksize < g.total / g.blocksize then g.blocksize
        else tailBlock u.elemSize (g.total % g.blocksize)) = q.tailBytes g := by
      rw [if_neg (lt_irrefl _), hu.elemSize, Call.tailBytes, hu.compressed, if_neg (by decide)]
    have hagree := unpackBlock_agree (f := f) hready.kernels hu htail hc (Nat.dvd_mul_right 8 c) s'
    rw [tailPlanes_stock, if_neg hzero]
    rw [hu.decode, h.pos] at hagree
    refine hagree.bind fun s'' x hx => ?_
    obtain ⟨hpos, hoff, src, hout, hsrc⟩ := hx
    have hroom : g.tailStart t + 8 * c ≤ nij := by
      have hend := tail_end hready
      have hle := tailBytes_le q g
      rw [hc, tail_size hready] at hle
      have hcle := Nat.le_of_mul_le_mul_right hle t.size_pos
      omega
    refine unpackRaw_agree (o := o.close q g (u.chunks.bytes f) x.1 x.2.1 x.2.2) hready hu
      ⟨hpos, ?_, ?_⟩ fun e _ => Opened.close_tail e
    · rw [hoff, h.off, hne, Nat.add_mul, hc]
    · rw [hne, hout, hready.total, h.off, hc]
      refine h.pixels.write hroom hsrc fun p hp => ?_
      unfold Opened.close
      dsimp only
      split
      · rfl
      · unfold tailPixels
        rw [hu.compressed, if_neg (by decide), hne, if_pos (by omega)]

/-! ## The batch -/

/-- The frames that were unpacked could all be read, and lie behind one another. -/
theorem unpackTo_ok (hC : SharedCodec E.codecs) (hd : q.pipe.decode ≠ .pixels) {s s' : UnpackState} {n : Nat}
    (hzero : UsesZero q.pipe.decode → ∀ f, f < n →
      NoZeroOffsets (u.chunks.bytes f) (g.total / g.blocksize))
    (h : unpackTo E u g s n = .ok s') :
    ∀ f, f < n → ∃ o, openFrame E q g (u.chunks.bytes f) = .ok o ∧
      ∀ p, p < nij → o.px p = pixelAt t s'.out (f * nij + p) := by
  refine foldlM_range_induct (fun n (s : UnpackState) => ∀ f, f < n → ∃ o,
    openFrame E q g (u.chunks.bytes f) = .ok o ∧ ∀ p, p < nij → o.px p = pixelAt t s.out (f * nij + p))
    (fun f hf => by omega) ?_ h
  intro k hk s₁ s₂ hbefore hstep f hf
  have hagree := unpackFrame_agree (f := k) hready hu hC hd (fun huses => hzero huses k hk) s₁
  rw [hstep] at hagree
  obtain ⟨o, ho, hw⟩ := hagree.ok_left
  rcases Nat.lt_succ_iff_lt_or_eq.mp hf with hlt | rfl
  · obtain ⟨o', ho', hpx⟩ := hbefore f hlt
    refine ⟨o', ho', fun p hp => ?_⟩
    have hmul := Nat.mul_le_mul_right nij (show f + 1 ≤ k from hlt)
    rw [Nat.succ_mul] at hmul
    rw [hpx p hp, hw.others _ (Or.inl (by omega))]
  · exact ⟨o, ho, fun p hp => (hw.written p hp).symm⟩

theorem unpackTo_isOk (hC : SharedCodec E.codecs) (hd : q.pipe.decode ≠ .pixels) (s : UnpackState) {n : Nat}
    (hzero : UsesZero q.pipe.decode → ∀ f, f < n →
      NoZeroOffsets (u.chunks.bytes f) (g.total / g.blocksize))
    (h : ∀ f, f < n → ∃ o, openFrame E q g (u.chunks.bytes f) = .ok o) :
    ∃ s', unpackTo E u g s n = .ok s' := by
  induction n with
  | zero => exact ⟨s, rfl⟩
  | succ n ih =>
    obtain ⟨s', hs'⟩ := ih (fun huses f hf => hzero huses f (by omega)) fun f hf => h f (by omega)
    obtain ⟨o, ho⟩ := h n (Nat.lt_succ_self n)
    have hagree := unpackFrame_agree (f := n) hready hu hC hd
      (fun huses => hzero huses n (Nat.lt_succ_self n)) s'
    rw [ho] at hagree
    obtain ⟨s'', hs'', -⟩ := hagree.ok_right
    refine ⟨s'', ?_⟩
    unfold unpackTo at hs' ⊢
    rw [foldlM_range_succ, hs']
    exact hs''

end

/-! ## The two entry points -/

section

variable {q : Call t nij D} {u : Unpack} {g : Geometry}

theorem acceptUnpack_roomy (hu : SameChunks q u) (hgeometry : readGeometry q = .ok g) (hr : Roomy q u g) :
    acceptUnpack u = .ok g := by
  have hframes := (readGeometry_chunks hu.compressed).mp hgeometry
  have hwhole : g.blocksize % (8 * u.elemSize) = 0 := by
    rw [hu.elemSize]
    exact Nat.mod_eq_zero_of_dvd hr.whole
  have houtput := hr.output
  have hblocks := hr.blocks
  have hsmall := hr.small
  unfold acceptUnpack
  refine refuse_bind_ok.mpr ⟨?_, refuse_bind_ok.mpr ⟨?_, ?_⟩⟩
  · rw [hu.elemSize]
    cases t <;> rfl
  · rw [hu.decode, tailDecode]
    split <;> rfl
  · rw [hu.chunks] at houtput ⊢
    refine bind_eq_ok.mpr ⟨_, hframes, refuse_bind_ok.mpr ⟨by simpa using hsmall,
      refuse_bind_ok.mpr ⟨by simpa using houtput, refuse_bind_ok.mpr ⟨by simp [hwhole],
        refuse_bind_ok.mpr ⟨?_, rfl⟩⟩⟩⟩⟩
    rw [hu.unshuffle, Bool.true_and, decide_eq_false_iff_not]
    omega

theorem accept_roomy (hcut : q.cut.length = 1) (hvalid : validCut q.cutPixel = true) (htop : q.top = none)
    (hgeometry : readGeometry q = .ok g) (hr : Roomy q u g) : accept q = .ok g := by
  refine accept_ok.mpr ⟨hcut, hvalid, ?_, hgeometry, hr.total, hr.small, hr.layout, hr.workspace⟩
  intro top hmem
  rw [htop] at hmem
  cases hmem

theorem readGeometry_aligned (hq : q.pixels = false) (hgeometry : readGeometry q = .ok g)
    (hwhole : 8 * t.size ∣ g.blocksize) : Aligned t g := by
  have hheaded := checkFrames_ok.mp ((readGeometry_chunks hq).mp hgeometry)
  refine ⟨?_, hwhole⟩
  rw [← hheaded.blocksize 0 hheaded.pos]
  exact headerBlocksize_pos _

end

/-- The unpacking of one block of 8 pixels. -/
def eightPixelsUnpack (untranspose : Untranspose) : Unpack where
  chunks := (eightPixelsCall untranspose).chunks
  outLen := 16
  workspaceLen := 48
  elemSize := 2
  decode := .lz4Stock
  untranspose := .kcb
  unshuffle := true

theorem eightPixelsUnpack_roomy (untranspose : Untranspose) (g : Geometry)
    (h : readGeometry (eightPixelsCall untranspose) = .ok g) :
    Roomy (eightPixelsCall untranspose) (eightPixelsUnpack untranspose) g := by
  rw [(eightPixelsCall_batch untranspose).geometry] at h
  obtain rfl := Except.ok.inj h
  constructor
  · rfl
  · decide
  · decide
  · intro d hd
    cases hd
  · exact le_rfl
  · exact show 1 * (8 * Dtype.u16.size) ≤ 16 by decide
  · exact show 3 * min 16 (8 * Dtype.u16.size) ≤ 48 by decide

theorem plain_shared : SharedCodec Platform.plain.codecs := ⟨fun _ _ h => h, fun _ _ _ h => h⟩

theorem eightPixels_zeroOffsets (n : Nat) (hn : n ≤ 1) : NoZeroOffsets eightPixels n := by
  intro b pos hb hcursor _
  obtain rfl : b = 0 := by omega
  obtain rfl : 12 = pos := Option.some.inj hcursor
  decide

end Bslz4ToSparse.Pipeline
