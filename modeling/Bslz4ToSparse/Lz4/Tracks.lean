import Bslz4ToSparse.Lz4.Zero

/-!
# What the zero-aware decoder keeps

The decoder leaves zeros unwritten, so its buffer is not its output. `Tracks`
relates the two: the bytes below `written` are stored, and from `zeroFrom` on the
output is zero, whatever the buffer holds there. Every part of a sequence keeps
the relation while it extends the output as the plain decoder does.
-/

namespace Bslz4ToSparse.Lz4

open Foundation

/-- The physical state `s` of a decoder of `cap` bytes stands for the output `out`. -/
structure Tracks (cap slack : Nat) (s : Cursor) (out : List Byte) : Prop where
  size : s.dst.size = cap + slack
  op_eq : s.op = out.length
  op_le : s.op ≤ cap
  written_le : s.written ≤ s.op
  zeroFrom_le : s.zeroFrom ≤ s.written
  stored : ∀ i, i < s.written → s.dst.get i = out.getD i 0#8
  zeros : ∀ i, s.zeroFrom ≤ i → out.getD i 0#8 = 0#8

theorem tracks_init (cap slack : Nat) (dst : Buffer Byte) (h : dst.size = cap + slack) :
    Tracks cap slack ⟨0, 0, 0, 0, dst⟩ [] where
  size := h
  op_eq := rfl
  op_le := Nat.zero_le _
  written_le := le_rfl
  zeroFrom_le := le_rfl
  stored := by intro i hi; simp at hi
  zeros := by simp

/-! ## Scanning back -/

theorem scanBack_spec (b : Buffer Byte) (lo : Nat) :
    ∀ n, lo + n ≤ b.size → ∃ q, scanBack b lo n = .ok q ∧ lo ≤ q ∧ q ≤ lo + n ∧
      (∀ i, q ≤ i → i < lo + n → b.get i = 0#8) ∧ (q ≠ lo → b.get (q - 1) ≠ 0#8) := by
  intro n
  induction n with
  | zero =>
    intro _
    exact ⟨lo, rfl, le_rfl, by omega, by intro i h₁ h₂; omega, fun h => absurd rfl h⟩
  | succ n ih =>
    intro h
    have hload : b.load (lo + n) = some (b.get (lo + n)) := Buffer.load_eq (by omega)
    by_cases hz : b.get (lo + n) = 0#8
    · obtain ⟨q, hq, h₁, h₂, h₃, h₄⟩ := ih (by omega)
      refine ⟨q, ?_, h₁, by omega, ?_, h₄⟩
      · simpa [scanBack, hload, hz] using hq
      · intro i hi hi'
        by_cases hlast : i = lo + n
        · rw [hlast, hz]
        · exact h₃ i hi (by omega)
    · refine ⟨lo + n + 1, ?_, by omega, by omega, by intro i h₁ h₂; omega, fun _ => hz⟩
      simp [scanBack, hload, hz]

/-! ## Materialising pending zeros -/

theorem fill64_wrote (p : Nat) (dst : Buffer Byte) :
    ∀ n, p + 64 * n ≤ dst.size →
      ∃ dst', fill64 p n dst = .ok dst' ∧ Buffer.Wrote dst dst' p (64 * n) (fun _ => 0#8) := by
  intro n
  induction n with
  | zero => intro _; exact ⟨dst, rfl, Buffer.Wrote.refl dst p _⟩
  | succ n ih =>
    intro h
    obtain ⟨d₁, he₁, hw₁⟩ := ih (by omega)
    obtain ⟨d₂, he₂, hw₂⟩ := Buffer.fill_wrote (b := d₁) (i := p + 64 * n) (n := 64) 0#8
      (by rw [hw₁.size]; omega)
    refine ⟨d₂, ?_, ?_⟩
    · simp [fill64, he₁, he₂]
    · exact hw₁.append hw₂

/-- `bslz4_zero_fill` may zero more than it is asked to, never past the limit. -/
theorem zeroFill_wrote (dst : Buffer Byte) {p n limit : Nat} (hp : p + n ≤ limit)
    (hl : limit ≤ dst.size) :
    ∃ dst' m, zeroFill dst p n limit = .ok dst' ∧ n ≤ m ∧
      Buffer.Wrote dst dst' p m (fun _ => 0#8) := by
  unfold zeroFill
  by_cases hc : n ≤ 512 ∧ (n + 63) / 64 * 64 ≤ limit - p
  · rw [if_pos hc]
    obtain ⟨d, he, hw⟩ := fill64_wrote p dst ((n + 63) / 64 * 64 / 64) (by omega)
    exact ⟨d, _, he, by omega, hw⟩
  · rw [if_neg hc]
    obtain ⟨d, he, hw⟩ := Buffer.fill_wrote (b := dst) (i := p) (n := n) 0#8 (by omega)
    exact ⟨d, n, by rw [he, access_some], le_rfl, hw⟩

/-- After the pending zeros are written, the buffer holds the whole output. -/
theorem flushZeros_spec {cap slack : Nat} {s : Cursor} {out : List Byte}
    (ht : Tracks cap slack s out) :
    ∃ dst, flushZeros s (cap + slack) = .ok dst ∧ dst.size = cap + slack ∧
      ∀ i, i < s.op → dst.get i = out.getD i 0#8 := by
  have hop := ht.op_le
  have hwr := ht.written_le
  have hzf := ht.zeroFrom_le
  have hsz := ht.size
  unfold flushZeros
  by_cases hlt : s.written < s.op
  · rw [if_pos hlt]
    obtain ⟨d, m, he, hm, hw⟩ := zeroFill_wrote s.dst
      (show s.written + (s.op - s.written) ≤ cap + slack by omega) (by omega)
    refine ⟨d, he, by rw [hw.size, hsz], ?_⟩
    intro i hi
    by_cases hiw : i < s.written
    · rw [hw.outside i (Or.inl hiw), ht.stored i hiw]
    · have h := hw.inside (i - s.written) (by omega)
      rw [show s.written + (i - s.written) = i by omega] at h
      rw [h, ht.zeros i (by omega)]
  · rw [if_neg hlt]
    exact ⟨s.dst, rfl, hsz, fun i hi => ht.stored i (by omega)⟩

/-! ## Extending the output -/

theorem getD_append_zeros {out l : List Byte} {z : Nat} (ho : ∀ i, z ≤ i → out.getD i 0#8 = 0#8)
    (hl : ∀ k, z ≤ out.length + k → l.getD k 0#8 = 0#8) {i : Nat} (hi : z ≤ i) :
    (out ++ l).getD i 0#8 = 0#8 := by
  by_cases h : i < out.length
  · rw [List.getD_append _ _ _ _ h, ho i hi]
  · rw [List.getD_append_right _ _ _ _ (by omega), hl _ (by omega)]

/-- Zeros need not be written: only the position moves. -/
theorem Tracks.skip {cap slack : Nat} {s : Cursor} {out l : List Byte}
    (ht : Tracks cap slack s out) (hz : ∀ k, l.getD k 0#8 = 0#8) (hc : s.op + l.length ≤ cap)
    (ip : Nat) :
    Tracks cap slack { s with op := s.op + l.length, ip } (out ++ l) where
  size := ht.size
  op_eq := by simp [ht.op_eq]
  op_le := hc
  written_le := by have h := ht.written_le; simp only; omega
  zeroFrom_le := ht.zeroFrom_le
  stored := by
    intro i hi
    have hw := ht.written_le
    have ho := ht.op_eq
    rw [List.getD_append _ _ _ _ (by simp only at hi; omega)]
    exact ht.stored i hi
  zeros := fun i hi => getD_append_zeros ht.zeros (fun k _ => hz k) hi

theorem Tracks.moveTo {cap slack : Nat} {s : Cursor} {out : List Byte}
    (ht : Tracks cap slack s out) (ip : Nat) : Tracks cap slack { s with ip } out :=
  ⟨ht.size, ht.op_eq, ht.op_le, ht.written_le, ht.zeroFrom_le, ht.stored, ht.zeros⟩

/-- Bytes written behind a complete prefix. -/
theorem Tracks.write {cap slack q : Nat} {dst : Buffer Byte} {out l : List Byte} (ip : Nat)
    (hsize : dst.size = cap + slack) (hc : out.length + l.length ≤ cap)
    (hold : ∀ i, i < out.length → dst.get i = out.getD i 0#8)
    (hnew : ∀ k, k < l.length → dst.get (out.length + k) = l.getD k 0#8)
    (hq : out.length ≤ q) (hq' : q ≤ out.length + l.length)
    (hz : ∀ k, q ≤ out.length + k → l.getD k 0#8 = 0#8) :
    Tracks cap slack ⟨ip, out.length + l.length, out.length + l.length, q, dst⟩ (out ++ l) where
  size := hsize
  op_eq := by simp
  op_le := hc
  written_le := le_rfl
  zeroFrom_le := hq'
  stored := by
    intro i hi
    by_cases h : i < out.length
    · rw [List.getD_append _ _ _ _ h, hold i h]
    · have hk := hnew (i - out.length) (by simp only at hi; omega)
      rw [show out.length + (i - out.length) = i by omega] at hk
      rw [List.getD_append_right _ _ _ _ (by omega), hk]
  zeros := by
    intro i hi
    refine getD_append_zeros (z := q) ?_ hz hi
    intro j hj
    exact List.getD_eq_default _ _ (by omega)

theorem getD_take_drop {src : List Byte} {ip lit k : Nat} (hk : k < lit) :
    ((src.drop ip).take lit).getD k 0#8 = src.getD (ip + k) 0#8 := by
  simp [List.getD_eq_getElem?_getD, hk, List.getElem?_drop]

theorem literalRun_spec {src : List Byte} {cap slack lit : Nat} {s : Cursor} {out : List Byte}
    (ht : Tracks cap slack s out) (hin : s.ip + lit ≤ src.length) (hout : s.op + lit ≤ cap) :
    ∃ s', literalRun (.ofList src 0#8) (cap + slack) lit s = .ok s' ∧ s'.ip = s.ip + lit ∧
      Tracks cap slack s' (out ++ (src.drop s.ip).take lit) := by
  have hlen : ((src.drop s.ip).take lit).length = lit := by
    rw [List.length_take, List.length_drop]; omega
  by_cases h0 : lit = 0
  · subst h0
    exact ⟨s, by simp [literalRun], rfl, by simpa using ht⟩
  obtain ⟨q, hq, hq₁, hq₂, hzero, -⟩ := scanBack_spec (.ofList src 0#8) s.ip lit (by simpa using hin)
  have hz : ∀ k, q ≤ s.ip + k → ((src.drop s.ip).take lit).getD k 0#8 = 0#8 := by
    intro k hk
    by_cases hkl : k < lit
    · rw [getD_take_drop hkl]
      exact hzero (s.ip + k) hk (by omega)
    · exact List.getD_eq_default _ _ (by omega)
  by_cases hqip : q = s.ip
  · refine ⟨{ s with op := s.op + lit, ip := s.ip + lit }, ?_, rfl, ?_⟩
    · simp [literalRun, h0, hq, hqip]
    · have hskip := ht.skip (l := (src.drop s.ip).take lit) (fun k => hz k (by omega))
        (by omega) (s.ip + lit)
      rwa [hlen] at hskip
  · obtain ⟨d, hd, hdsize, hdold⟩ := flushZeros_spec ht
    -- the fixed-size copy and the exact one store the same literals
    obtain ⟨n, hn, hn'⟩ : ∃ n,
        (if lit ≤ 32 ∧ 32 ≤ (Buffer.ofList src 0#8).size - s.ip ∧ 32 ≤ cap + slack - s.op then 32
          else lit) = n ∧ lit ≤ n ∧ s.ip + n ≤ src.length ∧ s.op + n ≤ cap + slack := by
      refine ⟨_, rfl, ?_⟩
      rw [Buffer.size_ofList]
      split <;> omega
    obtain ⟨d', hcopy, hw⟩ := Buffer.copyFrom_wrote
      (show s.ip + n ≤ (Buffer.ofList src 0#8).size by rw [Buffer.size_ofList]; omega)
      (show s.op + n ≤ d.size by omega)
    refine ⟨⟨s.ip + lit, s.op + lit, s.op + lit, s.op + (q - s.ip), d'⟩, ?_, rfl, ?_⟩
    · simp only [literalRun, h0, if_false, hq, hqip, hd, ok_bind, hn, hcopy, access_some,
        pure_eq_ok]
    · have hop := ht.op_eq
      have hres := Tracks.write (s.ip + lit) (q := s.op + (q - s.ip))
        (hw.size.trans hdsize) (show out.length + ((src.drop s.ip).take lit).length ≤ cap by omega)
        (by intro i hi; rw [hw.outside i (Or.inl (by omega)), hdold i (by omega)])
        (by
          intro k hk
          rw [← hop, hw.inside k (by omega), getD_take_drop (by omega), Buffer.get_ofList])
        (by omega) (by omega) (by intro k hk; exact hz k (by omega))
      rwa [hlen, ← hop] at hres

/-! ## Copying a match -/

/-- The match `f` of `n` bytes has been stored at `op`, and it is zero from `q` on. What
lies behind it may have changed. -/
structure Copied (dst dst' : Buffer Byte) (op n q : Nat) (f : Nat → Byte) : Prop where
  size : dst'.size = dst.size
  old : ∀ i, i < op → dst'.get i = dst.get i
  new : ∀ k, k < n → dst'.get (op + k) = f k
  le_q : op ≤ q
  q_le : q ≤ op + n
  zeros : ∀ k, k < n → q ≤ op + k → f k = 0#8

theorem testBit_nonzeroMask (v : Nat → Byte) (k : Nat) :
    (nonzeroMask v).testBit k = (decide (k < 16) && v k != 0#8) := by
  by_cases h : k < 16
  · simp [nonzeroMask, h]
  · simp [nonzeroMask, h, Nat.testBit_ofBits_ge _ k (show 16 ≤ k by omega)]

/-- The chunks store the match although they are loaded and stored one after the other:
the bytes of it lie below `op`. -/
structure Chunked (dst dst' : Buffer Byte) (mat op n : Nat) : Prop where
  size : dst'.size = dst.size
  outside : ∀ i, i < op → dst'.get i = dst.get i
  new : ∀ k, k < 16 * n → mat + k < op → dst'.get (op + k) = dst.get (mat + k)

theorem Chunked.step {dst d₁ d₂ : Buffer Byte} {mat op n : Nat} (h : Chunked dst d₁ mat op n)
    (hw : Buffer.Wrote d₁ d₂ (op + 16 * n) 16 (fun k => d₁.get (mat + 16 * n + k))) :
    Chunked dst d₂ mat op (n + 1) where
  size := hw.size.trans h.size
  outside := by
    intro i hi
    rw [hw.outside i (Or.inl (by omega)), h.outside i hi]
  new := by
    intro k hk hop
    by_cases hn : k < 16 * n
    · rw [hw.outside _ (Or.inl (by omega)), h.new k hn hop]
    · have hin := hw.inside (k - 16 * n) (by omega)
      rw [show op + 16 * n + (k - 16 * n) = op + k by omega,
        show mat + 16 * n + (k - 16 * n) = mat + k by omega] at hin
      rw [hin, h.outside _ hop]

theorem chunkMask_spec (mat op : Nat) (dst : Buffer Byte) :
    ∀ n, mat + 16 * n ≤ dst.size → op + 16 * n ≤ dst.size →
      ∃ dst' nz, chunkMask mat op n dst = .ok (dst', nz) ∧ Chunked dst dst' mat op n ∧
        nz < 2 ^ (16 * n) ∧
        ∀ k, mat + k < op → nz.testBit k = (decide (k < 16 * n) && dst.get (mat + k) != 0#8) := by
  intro n
  induction n with
  | zero =>
    intro _ _
    exact ⟨dst, 0, rfl, ⟨rfl, fun _ _ => rfl, by omega⟩, by simp, by simp⟩
  | succ n ih =>
    intro hm ho
    obtain ⟨d₁, nz, he, hc, hlt, hbit⟩ := ih (by omega) (by omega)
    have hload : d₁.loadRange (mat + 16 * n) 16 = some (fun k => d₁.get (mat + 16 * n + k)) :=
      Buffer.loadRange_eq (by rw [hc.size]; omega)
    obtain ⟨d₂, hs, hw⟩ := Buffer.storeRange_wrote (b := d₁) (i := op + 16 * n) (n := 16)
      (fun k => d₁.get (mat + 16 * n + k)) (by rw [hc.size]; omega)
    set v : Nat → Byte := fun k => d₁.get (mat + 16 * n + k) with hv
    refine ⟨d₂, nz ||| (nonzeroMask v <<< (16 * n)), ?_, hc.step hw, ?_, ?_⟩
    · simp only [chunkMask, he, ok_bind, hload, access_some, hs, pure_eq_ok]
    · refine Nat.or_lt_two_pow (hlt.trans_le (Nat.pow_le_pow_right (by omega) (by omega))) ?_
      rw [Nat.shiftLeft_eq, show 16 * (n + 1) = 16 + 16 * n by omega, Nat.pow_add]
      refine Nat.mul_lt_mul_of_pos_right ?_ (Nat.two_pow_pos _)
      exact Nat.ofBits_lt_two_pow _
    · intro k hop
      rw [Nat.testBit_or, hbit k hop, Nat.testBit_shiftLeft, testBit_nonzeroMask]
      by_cases hn : k < 16 * n
      · simp [hn, show ¬ 16 * n ≤ k by omega, show k < 16 * (n + 1) by omega]
      · have hvk : v (k - 16 * n) = dst.get (mat + k) := by
          simp only [hv]
          rw [show mat + 16 * n + (k - 16 * n) = mat + k by omega]
          exact hc.outside _ hop
        rw [hvk]
        by_cases hn' : k < 16 * (n + 1)
        · simp [hn, hn', show 16 * n ≤ k by omega, show k - 16 * n < 16 by omega]
        · simp [hn, hn', show ¬ k - 16 * n < 16 by omega]

/-- The highest bit of a mask of non-zero bytes marks the last one of them. -/
theorem log2_mask_spec {m n : Nat} {f : Nat → Byte}
    (hbit : ∀ k, m.testBit k = (decide (k < n) && f k != 0#8)) :
    (m = 0 → ∀ k, k < n → f k = 0#8) ∧
    (m ≠ 0 → m.log2 + 1 ≤ n ∧ ∀ k, m.log2 + 1 ≤ k → k < n → f k = 0#8) := by
  constructor
  · intro h0 k hk
    have h := hbit k
    simpa [h0, hk] using h
  · intro hm
    constructor
    · have h := hbit m.log2
      rw [Nat.testBit_log2 hm] at h
      simp at h
      omega
    · intro k hk hkn
      have hlt : m.testBit k = false :=
        Nat.testBit_lt_two_pow (Nat.lt_log2_self.trans_le (Nat.pow_le_pow_right (by omega) hk))
      have h := hbit k
      simpa [hlt, hkn] using h

/-- The end of the last non-zero byte of a match, from its mask. -/
theorem maskEnd_spec {m n : Nat} {f : Nat → Byte} (op : Nat)
    (hbit : ∀ k, m.testBit k = (decide (k < n) && f k != 0#8)) :
    op ≤ (if m ≠ 0 then op + (m.log2 + 1) else op) ∧
    (if m ≠ 0 then op + (m.log2 + 1) else op) ≤ op + n ∧
    ∀ k, k < n → (if m ≠ 0 then op + (m.log2 + 1) else op) ≤ op + k → f k = 0#8 := by
  obtain ⟨hz, hnz⟩ := log2_mask_spec hbit
  by_cases hm : m = 0
  · simp only [hm, ne_eq, not_true_eq_false, if_false]
    exact ⟨le_rfl, by omega, fun k hk _ => hz hm k hk⟩
  · obtain ⟨h₁, h₂⟩ := hnz hm
    rw [if_pos hm]
    exact ⟨by omega, by omega, fun k hk hq => h₂ k (by omega) hk⟩

theorem testBit_and_low (x n k : Nat) :
    (x &&& (2 ^ n - 1)).testBit k = (decide (k < n) && x.testBit k) := by
  rw [Nat.testBit_and, Nat.testBit_two_pow_sub_one, Bool.and_comm]

/-- What `chunkLast` knows of the first `n` bytes of the match. -/
structure LastChunk (f : Nat → Byte) (n lastc lastm : Nat) : Prop where
  none : lastm = 0 → ∀ k, k < n → f k = 0#8
  le : lastm ≠ 0 → lastc + (lastm.log2 + 1) ≤ n
  zeros : lastm ≠ 0 → ∀ k, lastc + (lastm.log2 + 1) ≤ k → k < n → f k = 0#8

theorem chunkLast_spec (mat op mlen : Nat) (dst : Buffer Byte) (hsep : mat + mlen ≤ op) :
    ∀ n, mat + 16 * n ≤ dst.size → op + 16 * n ≤ dst.size →
      ∃ dst' lastc lastm, chunkLast mat op mlen n dst = .ok (dst', lastc, lastm) ∧
        Chunked dst dst' mat op n ∧
        LastChunk (fun k => dst.get (mat + k)) (min (16 * n) mlen) lastc lastm := by
  intro n
  induction n with
  | zero =>
    intro _ _
    exact ⟨dst, 0, 0, rfl, ⟨rfl, fun _ _ => rfl, by omega⟩,
      ⟨fun _ k hk => by simp at hk, fun h => absurd rfl h, fun h => absurd rfl h⟩⟩
  | succ n ih =>
    intro hm ho
    obtain ⟨d₁, lastc, lastm, he, hc, hl⟩ := ih (by omega) (by omega)
    have hload : d₁.loadRange (mat + 16 * n) 16 = some (fun k => d₁.get (mat + 16 * n + k)) :=
      Buffer.loadRange_eq (by rw [hc.size]; omega)
    obtain ⟨d₂, hs, hw⟩ := Buffer.storeRange_wrote (b := d₁) (i := op + 16 * n) (n := 16)
      (fun k => d₁.get (mat + 16 * n + k)) (by rw [hc.size]; omega)
    have hv : ∀ k, 16 * n + k < mlen →
        d₁.get (mat + 16 * n + k) = dst.get (mat + (16 * n + k)) := by
      intro k hk
      rw [hc.outside _ (by omega), Nat.add_assoc]
    -- the mask of the chunk, without the bytes past the match
    obtain ⟨m, hm', hbit⟩ : ∃ m, (if mlen - 16 * n < 16 then
          nonzeroMask (fun k => d₁.get (mat + 16 * n + k)) &&& (2 ^ (mlen - 16 * n) - 1)
        else nonzeroMask (fun k => d₁.get (mat + 16 * n + k))) = m ∧
        ∀ k, m.testBit k =
          (decide (k < min 16 (mlen - 16 * n)) && dst.get (mat + (16 * n + k)) != 0#8) := by
      refine ⟨_, rfl, ?_⟩
      intro k
      by_cases hin : 16 * n + k < mlen
      · rw [← hv k hin]
        by_cases hc' : mlen - 16 * n < 16
        · rw [if_pos hc', testBit_and_low, testBit_nonzeroMask]
          simp [show k < 16 by omega, show k < mlen - 16 * n by omega]
        · rw [if_neg hc', testBit_nonzeroMask]
          simp [show k < mlen - 16 * n by omega]
      · by_cases hc' : mlen - 16 * n < 16
        · rw [if_pos hc', testBit_and_low]
          simp [show ¬ k < mlen - 16 * n by omega]
        · rw [if_neg hc', testBit_nonzeroMask]
          simp [show ¬ k < 16 by omega]
    refine ⟨d₂, if m ≠ 0 then 16 * n else lastc, if m ≠ 0 then m else lastm, ?_, hc.step hw, ?_⟩
    · simp only [chunkLast, he, ok_bind, hload, access_some, hs, pure_eq_ok, hm']
    · obtain ⟨hz, hnz⟩ := log2_mask_spec (f := fun k => dst.get (mat + (16 * n + k))) hbit
      by_cases hm0 : m = 0
      · have hchunk := hz hm0
        simp only [hm0, ne_eq, not_true_eq_false, if_false]
        refine ⟨fun h k hk => ?_, fun h => (hl.le h).trans (by omega), fun h k hk hk' => ?_⟩
        · by_cases hlow : k < 16 * n
          · exact hl.none h k (by omega)
          · have hck := hchunk (k - 16 * n) (by omega)
            rwa [show 16 * n + (k - 16 * n) = k by omega] at hck
        · by_cases hlow : k < 16 * n
          · exact hl.zeros h k hk (by omega)
          · have hck := hchunk (k - 16 * n) (by omega)
            rwa [show 16 * n + (k - 16 * n) = k by omega] at hck
      · obtain ⟨h₁, h₂⟩ := hnz hm0
        rw [if_pos hm0, if_pos hm0]
        refine ⟨fun h => absurd h hm0, fun _ => by omega, fun _ k hk hk' => ?_⟩
        have hck := h₂ (k - 16 * n) (by omega) (by omega)
        rwa [show 16 * n + (k - 16 * n) = k by omega] at hck

theorem copyPlain_spec (sse2 : Bool) {dst : Buffer Byte} {mat op mlen olim : Nat}
    (hsize : dst.size = olim) (hsep : mat + mlen ≤ op) (hmat : mat < op) (hfit : op + mlen ≤ olim) :
    ∃ dst' q, copyPlain sse2 dst mat op mlen olim = .ok (dst', q) ∧
      Copied dst dst' op mlen q (fun k => dst.get (mat + k)) := by
  unfold copyPlain
  by_cases h₁ : sse2 ∧ mlen ≤ 64 ∧ 64 ≤ olim - op
  · rw [if_pos h₁]
    obtain ⟨d, nz, he, hc, hlt, hbit⟩ := chunkMask_spec mat op dst ((mlen + 15) / 16)
      (by omega) (by omega)
    have hnz : ∀ k, (if mlen < 64 then nz &&& (2 ^ mlen - 1) else nz).testBit k =
        (decide (k < mlen) && dst.get (mat + k) != 0#8) := by
      intro k
      by_cases hk : k < mlen
      · have hb := hbit k (by omega)
        rw [show decide (k < 16 * ((mlen + 15) / 16)) = true by simp; omega] at hb
        by_cases h64 : mlen < 64
        · rw [if_pos h64, testBit_and_low, hb]
          simp
        · rw [if_neg h64, hb]
          simp [hk]
      · by_cases h64 : mlen < 64
        · rw [if_pos h64, testBit_and_low]
          simp [hk]
        · rw [if_neg h64, Nat.testBit_lt_two_pow (hlt.trans_le (Nat.pow_le_pow_right (by omega)
            (by omega)))]
          simp [hk]
    obtain ⟨hq₁, hq₂, hq₃⟩ := maskEnd_spec op hnz
    exact ⟨d, _, by simp only [he, ok_bind, pure_eq_ok],
      ⟨hc.size, hc.outside, fun k hk => hc.new k (by omega) (by omega), hq₁, hq₂, hq₃⟩⟩
  rw [if_neg h₁]
  by_cases h₂ : sse2 ∧ mlen + 16 ≤ olim - op
  · rw [if_pos h₂]
    obtain ⟨d, lastc, lastm, he, hc, hl⟩ := chunkLast_spec mat op mlen dst hsep ((mlen + 15) / 16)
      (by omega) (by omega)
    rw [Nat.min_eq_right (by omega)] at hl
    refine ⟨d, if lastm ≠ 0 then op + lastc + (lastm.log2 + 1) else op,
      by simp only [he, ok_bind, pure_eq_ok],
      ⟨hc.size, hc.outside, fun k hk => hc.new k (by omega) (by omega), ?_, ?_, ?_⟩⟩
    · split <;> omega
    · split
      · have h := hl.le ‹_›; omega
      · omega
    · intro k hk hq
      by_cases hm : lastm = 0
      · exact hl.none hm k hk
      · rw [if_pos hm] at hq
        exact hl.zeros hm k (by omega) hk
  rw [if_neg h₂]
  -- both remaining variants store first and then scan back over what they stored
  obtain ⟨d, n, hcopy, hn, hw⟩ : ∃ d n,
      (if mlen ≤ 64 ∧ 64 ≤ olim - op then do
        let t ← access (dst.loadRange mat 64)
        let dst ← access (dst.storeRange op 64 t)
        return (dst, ← scanBack dst op mlen)
      else do
        let dst ← access (dst.copyWithin op mat mlen)
        return (dst, ← scanBack dst op mlen)) =
        (do return (d, ← scanBack d op mlen) : Except Stop (Buffer Byte × Nat)) ∧ mlen ≤ n ∧
      Buffer.Wrote dst d op n (fun k => dst.get (mat + k)) := by
    by_cases h₃ : mlen ≤ 64 ∧ 64 ≤ olim - op
    · rw [if_pos h₃]
      obtain ⟨d, hs, hw⟩ := Buffer.storeRange_wrote (b := dst) (i := op) (n := 64)
        (fun k => dst.get (mat + k)) (by omega)
      refine ⟨d, 64, ?_, h₃.1, hw⟩
      rw [Buffer.loadRange_eq (by omega), access_some, ok_bind, hs, access_some, ok_bind]
    · rw [if_neg h₃]
      obtain ⟨d, hs, hw⟩ := Buffer.copyWithin_wrote (b := dst) (i := op) (j := mat) (n := mlen)
        (Or.inr hsep) (by omega) (by omega)
      exact ⟨d, mlen, by rw [hs, access_some, ok_bind], le_rfl, hw⟩
  obtain ⟨q, hq, hq₁, hq₂, hz, -⟩ := scanBack_spec d op mlen (by rw [hw.size]; omega)
  refine ⟨d, q, by rw [hcopy, hq, ok_bind, pure_eq_ok],
    ⟨hw.size, fun i hi => hw.outside i (Or.inl hi), fun k hk => hw.inside k (by omega), hq₁, hq₂,
      ?_⟩⟩
  intro k hk hqk
  rw [← hw.inside k (by omega)]
  exact hz (op + k) hqk (by omega)

/-- A match of distance `off` as far as `cur`: the doubling keeps `cur` a whole number of
periods behind `op` until the last copy. -/
structure Repeated (dst d : Buffer Byte) (mat op off cur fin : Nat) : Prop where
  size : d.size = dst.size
  old : ∀ i, i < op → d.get i = dst.get i
  new : ∀ k, op + k < cur → d.get (op + k) = dst.get (mat + k % off)
  op_le : op ≤ cur
  le_fin : cur ≤ fin
  period : cur < fin → off ∣ cur - op

theorem copyOverlap_spec {dst : Buffer Byte} {mat op off fin : Nat} (h0 : 0 < off)
    (hmat : mat + off = op) (hfin : fin ≤ dst.size) :
    ∀ (fuel : Nat) (d : Buffer Byte) (cur : Nat), fin < cur + fuel →
      Repeated dst d mat op off cur fin →
      ∃ d', copyOverlap mat fin fuel d cur = .ok d' ∧ Repeated dst d' mat op off fin fin := by
  intro fuel
  induction fuel with
  | zero =>
    intro d cur hf hr
    have h := hr.le_fin
    omega
  | succ fuel ih =>
    intro d cur hf hr
    have hop := hr.op_le
    have hle := hr.le_fin
    by_cases hlt : cur < fin
    · obtain ⟨n, hn⟩ : ∃ n, min (cur - mat) (fin - cur) = n := ⟨_, rfl⟩
      obtain ⟨d', hc, hw⟩ := Buffer.copyWithin_wrote (b := d) (i := cur) (j := mat) (n := n)
        (Or.inr (by omega)) (by rw [hr.size]; omega) (by rw [hr.size]; omega)
      have hstep : Repeated dst d' mat op off (cur + n) fin := by
        refine ⟨hw.size.trans hr.size, ?_, ?_, by omega, by omega, ?_⟩
        · intro i hi
          rw [hw.outside i (Or.inl (by omega)), hr.old i hi]
        · intro k hk
          by_cases hcur : op + k < cur
          · rw [hw.outside _ (Or.inl hcur), hr.new k hcur]
          · obtain ⟨t, rfl⟩ : ∃ t, k = cur - op + t := ⟨k - (cur - op), by omega⟩
            obtain ⟨c, hcp⟩ := hr.period hlt
            have hmod : (cur - op + t) % off = t % off := by rw [hcp, Nat.mul_add_mod]
            have hin := hw.inside t (by omega)
            rw [show op + (cur - op + t) = cur + t by omega, hin, hmod]
            by_cases ht : t < off
            · rw [Nat.mod_eq_of_lt ht, hr.old _ (by omega)]
            · have hold := hr.new (t - off) (by omega)
              rw [show op + (t - off) = mat + t by omega] at hold
              rw [hold, Nat.mod_eq_sub_mod (show t ≥ off by omega)]
        · intro hlt'
          have hn' : n = off + (cur - op) := by omega
          rw [show cur + n - op = (cur - op) + (off + (cur - op)) by omega]
          exact Nat.dvd_add (hr.period hlt) (Nat.dvd_add (Nat.dvd_refl off) (hr.period hlt))
      obtain ⟨d'', he, hr'⟩ := ih d' (cur + n) (by omega) hstep
      refine ⟨d'', ?_, hr'⟩
      simp only [copyOverlap, hlt, if_true, hn, hc, access_some, ok_bind, he]
    · have hcur : cur = fin := by omega
      refine ⟨d, by simp only [copyOverlap, hlt, if_false], ?_⟩
      rwa [hcur] at hr

/-- A residue is met by every `off` consecutive numbers. -/
theorem exists_mod_eq {off : Nat} (h0 : 0 < off) (a k : Nat) :
    ∃ r, r < off ∧ (a + r) % off = k % off := by
  refine ⟨(k + off * a - a) % off, Nat.mod_lt _ h0, ?_⟩
  have hle : a ≤ off * a := Nat.le_mul_of_pos_left a h0
  rw [Nat.add_mod_mod, show a + (k + off * a - a) = k + off * a by omega, Nat.add_mul_mod_self_left]

theorem copyPeriodic_spec {dst : Buffer Byte} {mat op off mlen : Nat} (h0 : 0 < off)
    (hmat : mat + off = op) (hover : off < mlen) (hfit : op + mlen ≤ dst.size) :
    ∃ dst' q, copyPeriodic dst mat op off mlen = .ok (dst', q) ∧
      Copied dst dst' op mlen q (fun k => dst.get (mat + k % off)) := by
  obtain ⟨d, he, hr⟩ := copyOverlap_spec h0 hmat hfit (mlen + 1) dst op (by omega)
    ⟨rfl, fun _ _ => rfl, by omega, le_rfl, by omega, fun _ => by simp⟩
  obtain ⟨q, hq, hq₁, hq₂, hz, -⟩ := scanBack_spec d (op + mlen - off) off (by rw [hr.size]; omega)
  have hlast : ∀ k, k < mlen → q ≤ op + k → dst.get (mat + k % off) = 0#8 := by
    intro k hk hqk
    rw [← hr.new k (by omega)]
    exact hz (op + k) hqk (by omega)
  refine ⟨d, if q = op + mlen - off then op else q, ?_, hr.size, hr.old,
    fun k hk => hr.new k (by omega), ?_, ?_, ?_⟩
  · simp only [copyPeriodic, he, ok_bind, hq, pure_eq_ok]
  · split <;> omega
  · split <;> omega
  · intro k hk hqk
    by_cases hstop : q = op + mlen - off
    · -- the last period is zero, and every byte repeats one of it
      obtain ⟨r, hr₁, hr₂⟩ := exists_mod_eq h0 (mlen - off) k
      have h := hlast (mlen - off + r) (by omega) (by omega)
      rwa [hr₂] at h
    · rw [if_neg hstop] at hqk
      exact hlast k hk hqk

/-- Either way of copying stores the match of distance `off`. -/
theorem copyBytes_spec (sse2 : Bool) {dst : Buffer Byte} {mat op off mlen olim : Nat} (h0 : 0 < off)
    (hmat : mat + off = op) (hsize : dst.size = olim) (hfit : op + mlen ≤ olim) :
    ∃ dst' q, copyBytes sse2 dst mat op off mlen olim = .ok (dst', q) ∧
      Copied dst dst' op mlen q (fun k => dst.get (mat + k % off)) := by
  unfold copyBytes
  by_cases hle : mlen ≤ off
  · rw [if_pos hle]
    obtain ⟨d, q, he, hc⟩ := copyPlain_spec sse2 hsize (show mat + mlen ≤ op by omega)
      (by omega) hfit
    have hf : ∀ k, k < mlen → dst.get (mat + k % off) = dst.get (mat + k) := by
      intro k hk
      rw [Nat.mod_eq_of_lt (by omega)]
    exact ⟨d, q, he, hc.size, hc.old, fun k hk => (hc.new k hk).trans (hf k hk).symm, hc.le_q,
      hc.q_le, fun k hk hq => (hf k hk).trans (hc.zeros k hk hq)⟩
  · rw [if_neg hle]
    exact copyPeriodic_spec h0 hmat (by omega) (by omega)

theorem copyMatch_eq_append (off n : Nat) (out : List Byte) :
    ∃ l, copyMatch off n out = out ++ l ∧ l.length = n := by
  induction n generalizing out with
  | zero => exact ⟨[], by simp [copyMatch], rfl⟩
  | succ n ih =>
    obtain ⟨l, hl, hn⟩ := ih (out ++ [out.getD (out.length - off) 0#8])
    exact ⟨out.getD (out.length - off) 0#8 :: l, by rw [copyMatch, hl, List.append_assoc]; rfl,
      by rw [List.length_cons, hn]⟩

theorem matchRun_spec (sse2 : Bool) {cap slack off mlen : Nat} {s : Cursor} {out : List Byte}
    (ht : Tracks cap slack s out) (h0 : 0 < off) (hoff : off ≤ s.op) (hfit : s.op + mlen ≤ cap) :
    ∃ s', matchRun sse2 (cap + slack) off mlen s = .ok s' ∧ s'.ip = s.ip ∧
      Tracks cap slack s' (copyMatch off mlen out) := by
  have hop := ht.op_eq
  obtain ⟨l, hl, hlen⟩ := copyMatch_eq_append off mlen out
  have hbyte : ∀ k, k < mlen → l.getD k 0#8 = out.getD (s.op - off + k % off) 0#8 := by
    intro k hk
    have h := copyMatch_getD_new off h0 mlen out k (by omega) hk
    rwa [hl, List.getD_append_right _ _ _ _ (by omega), Nat.add_sub_cancel_left, ← hop] at h
  rw [hl]
  by_cases hzero : s.zeroFrom ≤ s.op - off
  · refine ⟨{ s with op := s.op + mlen }, by simp only [matchRun, hzero, if_true, pure_eq_ok], rfl, ?_⟩
    have hz : ∀ k, l.getD k 0#8 = 0#8 := by
      intro k
      by_cases hk : k < mlen
      · rw [hbyte k hk]
        exact ht.zeros _ (by omega)
      · exact List.getD_eq_default _ _ (by omega)
    have hskip := ht.skip hz (by omega) s.ip
    rwa [hlen] at hskip
  · obtain ⟨d, hd, hdsize, hdold⟩ := flushZeros_spec ht
    obtain ⟨d', q, hc, hcopied⟩ := copyBytes_spec sse2 h0 (Nat.sub_add_cancel hoff) hdsize
      (show s.op + mlen ≤ cap + slack by omega)
    refine ⟨⟨s.ip, s.op + mlen, s.op + mlen, q, d'⟩, ?_, rfl, ?_⟩
    · simp only [matchRun, hzero, if_false, hd, ok_bind, hc, pure_eq_ok]
    · have hmod : ∀ k, k % off < off := fun k => Nat.mod_lt _ h0
      have hold : ∀ k, d.get (s.op - off + k % off) = out.getD (s.op - off + k % off) 0#8 :=
        fun k => hdold _ (by have h := hmod k; omega)
      have hres := Tracks.write s.ip (q := q) (hcopied.size.trans hdsize)
        (show out.length + l.length ≤ cap by omega)
        (by intro i hi; rw [hcopied.old i (by omega), hdold i (by omega)])
        (by intro k hk; rw [← hop, hcopied.new k (by omega), hold, hbyte k (by omega)])
        (by have h := hcopied.le_q; omega) (by have h := hcopied.q_le; omega)
        (by
          intro k hk
          by_cases hkn : k < mlen
          · rw [hbyte k hkn, ← hold]
            exact hcopied.zeros k hkn (by omega)
          · exact List.getD_eq_default _ _ (by omega))
      rwa [hlen, ← hop] at hres

end Bslz4ToSparse.Lz4
