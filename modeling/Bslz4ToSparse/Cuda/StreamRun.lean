import Bslz4ToSparse.Cuda.Stream

/-!
# The warp decodes

Between two barriers the lanes store the bytes of the output behind those that they read, each
lane its own, so they may run in any order. A whole run leaves the bytes of the plain decoder.
-/

namespace Bslz4ToSparse.Cuda

open Foundation Lz4

variable {cap : Nat} {src out planes : List Byte} {c : BufferControl} {mem mem₀ mem' : Cell → Byte}

/-! ## The plain decoder -/

theorem plainLiterals_some {bits : Nat} {inp inp' out' : List Byte}
    (h : plainLiterals cap inp out = some (bits, inp', out')) :
    ∃ token tail rest lit, inp = token :: tail ∧ plainRun tail (token.toNat / 16) = some (rest, lit) ∧
      lit ≤ rest.length ∧ out.length + lit ≤ cap ∧ bits = token.toNat % 16 ∧ inp' = rest.drop lit ∧
      out' = out ++ rest.take lit := by
  cases inp with
  | nil => cases h
  | cons token tail =>
    obtain ⟨⟨rest, lit⟩, hrun, h⟩ := Option.bind_eq_some_iff.mp h
    obtain ⟨_, hroom, h⟩ := Option.bind_eq_some_iff.mp h
    obtain ⟨-, -, h⟩ := Option.bind_eq_some_iff.mp h
    have hle := (Option.guard_eq_some' _).mp hroom
    cases h
    exact ⟨token, tail, rest, lit, rfl, hrun, hle.1, hle.2, rfl, rfl, rfl⟩

theorem plainMatch_some {bits : Nat} {inp inp' out' : List Byte}
    (h : plainMatch cap bits inp out = some (inp', out')) :
    ∃ lo hi tail mlen, inp = lo :: hi :: tail ∧ plainRun tail bits = some (inp', mlen) ∧
      lo.toNat + 256 * hi.toNat ≠ 0 ∧ lo.toNat + 256 * hi.toNat ≤ out.length ∧
      out.length + (mlen + 4) + 5 ≤ cap ∧ out' = Lz4.copyMatch (lo.toNat + 256 * hi.toNat) (mlen + 4) out := by
  rcases inp with _ | ⟨lo, _ | ⟨hi, tail⟩⟩
  · cases h
  · cases h
  · obtain ⟨⟨next, mlen⟩, hrun, h⟩ := Option.bind_eq_some_iff.mp h
    obtain ⟨_, hoff, h⟩ := Option.bind_eq_some_iff.mp h
    obtain ⟨_, hroom, h⟩ := Option.bind_eq_some_iff.mp h
    have hoff := (Option.guard_eq_some' _).mp hoff
    have hroom := (Option.guard_eq_some' _).mp hroom
    cases h
    exact ⟨lo, hi, tail, mlen, rfl, hrun, hoff.1, hoff.2, hroom, rfl⟩

theorem plainSequences_length {fuel : Nat} {inp : List Byte}
    (h : plainSequences cap fuel inp out = some planes) :
    out.length ≤ planes.length ∧ planes.length ≤ cap := by
  induction fuel generalizing inp out with
  | zero => cases h
  | succ fuel ih =>
    obtain ⟨⟨bits, inp₁, out₁⟩, hlit, h⟩ := Option.bind_eq_some_iff.mp h
    obtain ⟨token, tail, rest, lit, -, -, -, hcap, -, -, rfl⟩ := plainLiterals_some hlit
    have hle : out.length ≤ (out ++ rest.take lit).length := by
      rw [List.length_append]
      exact Nat.le_add_right _ _
    dsimp only at h
    split at h
    · obtain rfl := Option.some.inj h
      refine ⟨hle, ?_⟩
      rw [List.length_append, List.length_take]
      omega
    · obtain ⟨⟨inp₂, out₂⟩, hmatch, h⟩ := Option.bind_eq_some_iff.mp h
      obtain ⟨lo, hi, tail', mlen, -, -, -, -, -, rfl⟩ := plainMatch_some hmatch
      have hrest := ih h
      rw [copyMatch_length] at hrest
      exact ⟨by omega, hrest.2⟩

theorem plainRun_le {inp rest : List Byte} {bits n : Nat} (h : plainRun inp bits = some (rest, n)) :
    bits ≤ n ∧ rest.length ≤ inp.length := by
  unfold plainRun at h
  by_cases hbits : bits = 15
  · rw [if_pos hbits] at h
    obtain ⟨hlt, hle⟩ := plainLength_length h
    rw [hbits]
    exact ⟨hle, hlt.le⟩
  · rw [if_neg hbits] at h
    obtain ⟨hrest, hn⟩ := Prod.mk.inj (Option.some.inj h)
    exact ⟨hn.le, (congrArg List.length hrest).ge⟩

/-! ## A turn of the loop -/

/-- The output that is read between two barriers. -/
def Written (n : Nat) (cell : Cell) : Prop := ∃ k : Nat, cell = .decomp k ∧ k < n

/-- One turn of all lanes: the last literals, or literals and a match. -/
inductive Turn (mem : Cell → Byte) (src out planes : List Byte) (written : Nat) (rest : Nat → List Byte → Prop)
    (turn : Nat → Lane (Nat × Nat)) : Prop
  | last (lits : List Byte) (hplanes : planes = out ++ lits)
      (hphase : ∀ lane, Phase (Readable src.length written) mem (turn lane) (share lits out.length lane)
        (.done (planes.length, src.length)))
  | near (lits bytes : List Byte) (idx : Nat) (hrest : rest idx (out ++ lits ++ bytes))
      (hphase : ∀ lane, Phase (Readable src.length written) mem (turn lane)
        (share lits out.length lane ++ share bytes (out ++ lits).length lane)
        (.sync (.done ((out ++ lits ++ bytes).length, idx))))
  | far (lits bytes : List Byte) (idx : Nat) (hrest : rest idx (out ++ lits ++ bytes))
      (copy : Nat → Lane (Nat × Nat))
      (hphase : ∀ lane, Phase (Readable src.length written) mem (turn lane) (share lits out.length lane)
        (.sync (copy lane)))
      (hcopy : ∀ mem' : Cell → Byte, (∀ k : Nat, k < (out ++ lits).length →
          mem' (.decomp k) = (out ++ lits).getD k 0#8) → ∀ lane,
        Phase (Written (out ++ lits).length) mem' (copy lane) (share bytes (out ++ lits).length lane)
          (.done ((out ++ lits ++ bytes).length, idx)))

theorem sequence_turn (written : Nat) {fuel plainFuel idx : Nat} (h : View mem c src) (hsrc : src.length < 2 ^ 31)
    (hcap : cap < 2 ^ 32) (hle : c.offset ≤ idx) (hstop : idx < c.stop) (hidx : idx ≤ src.length)
    (hfuel : src.length - idx ≤ fuel)
    (hplain : plainSequences cap (plainFuel + 1) (src.drop idx) out = some planes) :
    Turn mem src out planes written (fun idx' out' => idx < idx' ∧ idx' ≤ src.length ∧
        plainSequences cap plainFuel (src.drop idx') out' = some planes)
      fun lane => c.sequence lane fuel out.length idx := by
  have hlength := plainSequences_length hplain
  obtain ⟨⟨bits, inp₁, out₁⟩, hlit, hplain⟩ := Option.bind_eq_some_iff.mp hplain
  obtain ⟨token, tail, rest, num, hinp, hrun, hnum, -, rfl, rfl, rfl⟩ := plainLiterals_some hlit
  obtain ⟨hlt, htoken, hdrop⟩ := drop_cons hinp
  -- the token and the literals
  obtain ⟨hbyte, hR⟩ := h.buffered written (k := 0) hsrc hle hlt hstop
  have hget := Phase.get mem hR
  rw [hbyte, Nat.add_zero, Nat.add_zero, htoken] at hget
  rw [← hdrop] at hrun
  obtain ⟨hbits, hrest⟩ := plainRun_le hrun
  rw [List.length_drop] at hrest
  have hnext : position ((idx : Int) + 1) = idx + 1 := position_eq (by omega) (by omega)
  obtain ⟨ls, hread, hls, hlsle, hlsdrop⟩ := readLength_spec written h hsrc fuel
    (token.toNat / 16) hrun (by omega) (by omega) (by omega) (by omega)
  rw [Nat.add_sub_cancel' hbits] at hread
  have hroom : ls + num ≤ src.length := by
    rw [← hlsdrop, List.length_drop] at hnum
    omega
  have hlits := fun lane => copyLiterals_spec written h hsrc lane out.length
    (show c.offset ≤ ls by omega) hroom
  have htake : rest.take num = literals src ls num := by rw [← hlsdrop]; rfl
  have hinp₁ : rest.drop num = src.drop (ls + num) := by rw [← hlsdrop, List.drop_drop]
  rw [htake, hinp₁] at hplain
  have hcomp : position ((ls : Int) + num) = ls + num := position_eq (by omega) (by omega)
  have hout₁ : (out ++ literals src ls num).length = out.length + num := by
    rw [List.length_append, length_literals hroom]
  dsimp only at hplain
  have hle₁ : (out ++ literals src ls num).length ≤ planes.length := by
    split at hplain
    · rw [Option.some.inj hplain]
    · obtain ⟨⟨inp₂, out₂⟩, hmatch, hplain⟩ := Option.bind_eq_some_iff.mp hplain
      obtain ⟨lo, hi, tail', mlen, -, -, -, -, -, rfl⟩ := plainMatch_some hmatch
      have hafter := (plainSequences_length hplain).1
      rw [copyMatch_length] at hafter
      omega
  have hdecomp : position ((out.length : Int) + num) = (out ++ literals src ls num).length :=
    position_eq (by omega) (by omega)
  have hphase : ∀ lane, Phase (Readable src.length written) mem (c.sequence lane fuel out.length idx)
      (share (literals src ls num) out.length lane)
      (c.matchOf lane fuel (token.toNat % 16) ls num (out ++ literals src ls num).length (ls + num)) := by
    intro lane
    unfold BufferControl.sequence
    refine hget.andThen_nil ?_
    rw [hnext]
    refine hread.andThen_nil ?_
    rw [← hdecomp, ← hcomp]
    exact (hlits lane).bind _
  by_cases hend : src.drop (ls + num) = []
  · -- the literals end the block
    rw [if_pos hend] at hplain
    have hall : ls + num = src.length := le_antisymm hroom (List.drop_eq_nil_iff.mp hend)
    have hplanes := (Option.some.inj hplain).symm
    refine .last (literals src ls num) hplanes fun lane => ?_
    have hlast : c.matchOf lane fuel (token.toNat % 16) ls num (out ++ literals src ls num).length (ls + num) =
        .done (planes.length, src.length) := by
      unfold BufferControl.matchOf
      rw [hall, if_neg (by rw [h.length]; exact lt_irrefl _), ← hplanes]
      rfl
    rw [← hlast]
    exact hphase lane
  · rw [if_neg hend] at hplain
    obtain ⟨⟨inp₂, out₂⟩, hmatch, hplain⟩ := Option.bind_eq_some_iff.mp hplain
    obtain ⟨lo, hi, tail', mlen, hinp₂, hrun₂, hoff, hoffle, hcap₂, rfl⟩ := plainMatch_some hmatch
    obtain ⟨hlt₀, hlo, hdrop₀⟩ := drop_cons hinp₂
    obtain ⟨hlt₁, hhi, hdrop₁⟩ := drop_cons hdrop₀
    rw [← hdrop₁] at hrun₂
    obtain ⟨hbits₂, -⟩ := plainRun_le hrun₂
    have hoffset := readOffset_spec written h hsrc (ls + num) (by omega) (by omega)
    rw [hlo, hhi] at hoffset
    have hpast : position (((ls + num : Nat) : Int) + 2) = ls + num + 2 := position_eq (by omega) (by omega)
    obtain ⟨idx', hread₂, hidx', hidxle, hdrop'⟩ := readLength_spec written h hsrc fuel
      (4 + token.toNat % 16) hrun₂ (by omega) (by omega) (by omega) (by omega)
    rw [show 4 + token.toNat % 16 + (mlen - token.toNat % 16) = mlen + 4 by omega] at hread₂
    rw [← hdrop', copyMatch_eq] at hplain
    set bytes := matched (out ++ literals src ls num) (lo.toNat + 256 * hi.toNat) (mlen + 4) with hbytes
    have hfinal : position (((out ++ literals src ls num).length : Int) + (mlen + 4 : Nat)) =
        (out ++ literals src ls num ++ bytes).length := by
      have hlen : (out ++ literals src ls num ++ bytes).length = (out ++ literals src ls num).length + (mlen + 4) := by
        rw [List.length_append, hbytes, length_matched]
      rw [hlen]
      exact position_eq (by omega) (by omega)
    have hmatchOf : ∀ lane, Phase (Readable src.length written) mem
        (c.matchOf lane fuel (token.toNat % 16) ls num (out ++ literals src ls num).length (ls + num)) []
        (c.copyMatch lane (out ++ literals src ls num).length ls num (lo.toNat + 256 * hi.toNat) (mlen + 4) >>=
          fun _ => pure ((out ++ literals src ls num ++ bytes).length, idx')) := by
      intro lane
      unfold BufferControl.matchOf
      rw [if_pos (by rw [h.length]; exact hlt₀), hpast, ← hfinal]
      exact hoffset.andThen_nil (hread₂.andThen_nil (.refl _))
    rcases copyMatch_spec written h hsrc (mlen + 4) (show c.offset ≤ ls by omega) hroom
      (Nat.pos_of_ne_zero hoff) hoffle with hnear | ⟨copy, hcopy, hfar⟩
    · refine .near (literals src ls num) bytes idx' ⟨by omega, hidxle, hplain⟩ fun lane => ?_
      exact (hphase lane).trans ((hmatchOf lane).trans ((hnear lane).bind _))
    · refine .far (literals src ls num) bytes idx' ⟨by omega, hidxle, hplain⟩
        (fun lane => copy lane >>= fun _ => pure ((out ++ literals src ls num ++ bytes).length, idx'))
        (fun lane => ?_) fun mem' hmem' lane => ?_
      · have hsync := hmatchOf lane
        rw [hcopy lane] at hsync
        have hall := (hphase lane).trans hsync
        rw [List.append_nil] at hall
        exact hall
      · exact (hfar mem' hmem' lane).bind _

/-! ## What the lanes have stored -/

/-- The output `out`: its first `settled` bytes are in memory, the others among the stores since the last
barrier. -/
structure Pending (mem₀ mem : Cell → Byte) (out : List Byte) (settled : Nat)
    (log : Fin 32 → List (Cell × Byte)) : Prop where
  comp : ∀ i, mem (.comp i) = mem₀ (.comp i)
  outside : ∀ i : Int, i < 0 ∨ out.length ≤ i → mem (.decomp i) = mem₀ (.decomp i)
  le : settled ≤ out.length
  bytes : ∀ k : Nat, k < settled → mem (.decomp k) = out.getD k 0#8
  stores : ∀ t, ∀ s ∈ log t, ∃ k : Nat, settled ≤ k ∧ k < out.length ∧ s = (.decomp k, out.getD k 0#8)
  covers : ∀ k : Nat, settled ≤ k → k < out.length → ∃ t, (Cell.decomp k, out.getD k 0#8) ∈ log t
  apart : ∀ t u, t ≠ u → ∀ s ∈ log t, ∀ s' ∈ log u, s.1 ≠ s'.1

theorem mem_share {bytes : List Byte} {written : Nat} {t : Fin 32} {s : Cell × Byte}
    (h : s ∈ share bytes written t) :
    ∃ i, i < bytes.length ∧ i % 32 = t ∧ s = (.decomp (written + i : Nat), bytes.getD i 0#8) := by
  obtain ⟨i, hi, rfl⟩ := List.mem_map.mp h
  obtain ⟨hle, hlt, hmod⟩ := (mem_strided (by decide)).mp hi
  unfold threadsPerChunk at hmod
  refine ⟨i, hlt, by omega, ?_⟩
  rw [Nat.cast_add]

namespace Pending

variable {settled total : Nat} {log : Fin 32 → List (Cell × Byte)}

/-- A copy of all lanes. -/
theorem share (h : Pending mem₀ mem out settled log) (bytes : List Byte) :
    Pending mem₀ mem (out ++ bytes) settled fun t => log t ++ share bytes out.length t where
  comp := h.comp
  outside := by
    intro i hi
    rw [List.length_append] at hi
    exact h.outside i (by omega)
  le := by
    rw [List.length_append]
    exact h.le.trans (Nat.le_add_right _ _)
  bytes := by
    intro k hk
    rw [h.bytes k hk, List.getD_append _ _ _ _ (hk.trans_le h.le)]
  stores := by
    intro t s hs
    rcases List.mem_append.mp hs with hold | hnew
    · obtain ⟨k, hle, hlt, rfl⟩ := h.stores t s hold
      refine ⟨k, hle, ?_, ?_⟩
      · rw [List.length_append]
        omega
      · rw [List.getD_append _ _ _ _ hlt]
    · obtain ⟨i, hi, -, rfl⟩ := mem_share hnew
      have hle := h.le
      refine ⟨out.length + i, by omega, ?_, ?_⟩
      · rw [List.length_append]
        omega
      · rw [List.getD_append_right _ _ _ _ (by omega), Nat.add_sub_cancel_left]
  covers := by
    intro k hle hlt
    by_cases hold : k < out.length
    · obtain ⟨t, ht⟩ := h.covers k hle hold
      rw [List.getD_append _ _ _ _ hold]
      exact ⟨t, List.mem_append_left _ ht⟩
    · rw [List.length_append] at hlt
      refine ⟨⟨(k - out.length) % 32, Nat.mod_lt _ (by decide)⟩, List.mem_append_right _ ?_⟩
      refine List.mem_map.mpr ⟨k - out.length, ?_, ?_⟩
      · refine (mem_strided (by decide)).mpr ⟨Nat.mod_le _ _, by omega, ?_⟩
        unfold threadsPerChunk
        dsimp only
        omega
      · rw [List.getD_append_right _ _ _ _ (by omega)]
        congr 2
        omega
  apart := by
    intro t u hne s hs s' hs' heq
    rcases List.mem_append.mp hs with hold | hnew <;> rcases List.mem_append.mp hs' with hold' | hnew'
    · exact h.apart t u hne s hold s' hold' heq
    · obtain ⟨k, -, hlt, rfl⟩ := h.stores t s hold
      obtain ⟨i, -, -, rfl⟩ := mem_share hnew'
      have hcell := Cell.decomp.inj heq
      omega
    · obtain ⟨k, -, hlt, rfl⟩ := h.stores u s' hold'
      obtain ⟨i, -, -, rfl⟩ := mem_share hnew
      have hcell := Cell.decomp.inj heq
      omega
    · obtain ⟨i, -, hi, rfl⟩ := mem_share hnew
      obtain ⟨j, -, hj, rfl⟩ := mem_share hnew'
      have hcell := Cell.decomp.inj heq
      exact hne (Fin.ext (by omega))

/-- The barrier: all of the output is in memory. -/
theorem settle (h : Pending mem₀ mem out settled log) (extra : Fin 32 → List (Cell × Byte))
    (hextra : ∀ t, ∀ s ∈ extra t, ∃ k, s.1 = .buffer k)
    (hstored : Stored mem (fun t => log t ++ extra t) mem') :
    Pending mem₀ mem' out out.length fun _ => [] where
  comp := by
    intro i
    rw [← h.comp i]
    refine hstored.old _ fun t s hs heq => ?_
    rcases List.mem_append.mp hs with hold | hnew
    · obtain ⟨k, -, -, rfl⟩ := h.stores t s hold
      cases heq
    · obtain ⟨k, hk⟩ := hextra t s hnew
      cases hk.symm.trans heq
  outside := by
    intro i hi
    rw [← h.outside i hi]
    refine hstored.old _ fun t s hs heq => ?_
    rcases List.mem_append.mp hs with hold | hnew
    · obtain ⟨k, -, hlt, rfl⟩ := h.stores t s hold
      have hcell := Cell.decomp.inj heq
      omega
    · obtain ⟨k, hk⟩ := hextra t s hnew
      cases hk.symm.trans heq
  le := le_rfl
  bytes := by
    intro k hk
    by_cases hold : k < settled
    · rw [← h.bytes k hold]
      refine hstored.old _ fun t s hs heq => ?_
      rcases List.mem_append.mp hs with hold' | hnew
      · obtain ⟨j, hle, -, rfl⟩ := h.stores t s hold'
        have hcell := Cell.decomp.inj heq
        omega
      · obtain ⟨j, hj⟩ := hextra t s hnew
        cases hj.symm.trans heq
    · obtain ⟨t, ht⟩ := h.covers k (Nat.le_of_not_lt hold) hk
      exact hstored.new t _ (List.mem_append_left _ ht)
  stores := fun _ _ hs => absurd hs List.not_mem_nil
  covers := fun k hle hlt => absurd hlt (Nat.not_lt.mpr hle)
  apart := fun _ _ _ _ hs => absurd hs List.not_mem_nil

/-- The stores of the copies do not race. -/
theorem raceFree (h : Pending mem₀ mem out settled log) (len : Nat) (htotal : out.length ≤ total) :
    RaceFree (Readable len total) (Readable len settled) log where
  reads := by
    intro cell hcell
    have hle := h.le
    cases cell with
    | comp i => exact hcell
    | buffer i => exact hcell
    | decomp i => exact ⟨hcell.1, by have := hcell.2; omega⟩
  stores := by
    intro t s hs
    obtain ⟨k, -, hlt, rfl⟩ := h.stores t s hs
    exact ⟨by omega, by omega⟩
  unread := by
    intro t s hs hread
    obtain ⟨k, hle, -, rfl⟩ := h.stores t s hs
    have hlt := hread.2
    omega
  apart := h.apart
  agree := by
    intro t s hs s' hs' heq
    obtain ⟨k, -, -, rfl⟩ := h.stores t s hs
    obtain ⟨j, -, -, rfl⟩ := h.stores t s' hs'
    have hcell : k = j := by
      have hcell := Cell.decomp.inj heq
      omega
    rw [hcell]

/-- Nor do they with those of a load, when the buffer is not read. -/
theorem raceFree_window (h : Pending mem₀ mem out settled log) (len : Nat) (htotal : out.length ≤ total)
    (view : Cell → Byte) (c : BufferControl) :
    RaceFree (Readable len total) (fun cell => Readable len settled cell ∧ ∀ k, cell ≠ .buffer k)
      fun t => log t ++ window view c t where
  reads := fun cell hcell => (h.raceFree len htotal).reads cell hcell.1
  stores := by
    intro t s hs
    rcases List.mem_append.mp hs with hold | hnew
    · exact (h.raceFree len htotal).stores t s hold
    · obtain ⟨k, hk, rfl, -⟩ := mem_window t.isLt hnew
      exact hk
  unread := by
    intro t s hs hread
    rcases List.mem_append.mp hs with hold | hnew
    · exact (h.raceFree len htotal).unread t s hold hread.1
    · obtain ⟨k, -, rfl, -⟩ := mem_window t.isLt hnew
      exact hread.2 k rfl
  apart := by
    intro t u hne s hs s' hs' heq
    rcases List.mem_append.mp hs with hold | hnew <;> rcases List.mem_append.mp hs' with hold' | hnew'
    · exact h.apart t u hne s hold s' hold' heq
    · obtain ⟨k, -, -, rfl⟩ := h.stores t s hold
      obtain ⟨j, -, rfl, -⟩ := mem_window u.isLt hnew'
      cases heq
    · obtain ⟨k, -, -, rfl⟩ := h.stores u s' hold'
      obtain ⟨j, -, rfl, -⟩ := mem_window t.isLt hnew
      cases heq
    · obtain ⟨k, -, rfl, hk⟩ := mem_window t.isLt hnew
      obtain ⟨j, -, rfl, hj⟩ := mem_window u.isLt hnew'
      obtain rfl := Cell.buffer.inj heq
      exact hne (Fin.ext (hk.trans hj.symm))
  agree := by
    intro t s hs s' hs' heq
    rcases List.mem_append.mp hs with hold | hnew <;> rcases List.mem_append.mp hs' with hold' | hnew'
    · exact (h.raceFree len htotal).agree t s hold s' hold' heq
    · obtain ⟨k, -, -, rfl⟩ := h.stores t s hold
      obtain ⟨j, -, rfl, -⟩ := mem_window t.isLt hnew'
      cases heq
    · obtain ⟨k, -, -, rfl⟩ := h.stores t s' hold'
      obtain ⟨j, -, rfl, -⟩ := mem_window t.isLt hnew
      cases heq
    · obtain ⟨k, -, rfl, -⟩ := mem_window t.isLt hnew
      obtain ⟨j, -, rfl, -⟩ := mem_window t.isLt hnew'
      obtain rfl := Cell.buffer.inj heq
      rfl

/-- The window stays where it is over a barrier. -/
theorem view (h : Pending mem₀ mem out settled log) (hview : View mem c src) (hstored : Stored mem log mem') :
    View mem' c src where
  length := hview.length
  low := hview.low
  comp := by
    intro i hi
    rw [← hview.comp i hi]
    refine hstored.old _ fun t s hs heq => ?_
    obtain ⟨k, -, -, rfl⟩ := h.stores t s hs
    cases heq
  staged := by
    intro i k hi hik hk
    rw [← hview.staged i k hi hik hk]
    refine hstored.old _ fun t s hs heq => ?_
    obtain ⟨k, -, -, rfl⟩ := h.stores t s hs
    cases heq

/-- A load moves it. -/
theorem view_window (h : Pending mem₀ mem out settled log)
    (hcomp : ∀ i : Nat, i < src.length → mem (.comp i) = src.getD i 0#8) (hlow : -8 < c.offset)
    (hlen : c.length = src.length) (hstored : Stored mem (fun t => log t ++ window mem c t) mem') :
    View mem' c src where
  length := hlen
  low := hlow
  comp := by
    intro i hi
    rw [← hcomp i hi]
    refine hstored.old _ fun t s hs heq => ?_
    rcases List.mem_append.mp hs with hold | hnew
    · obtain ⟨k, -, -, rfl⟩ := h.stores t s hold
      cases heq
    · obtain ⟨k, -, rfl, -⟩ := mem_window t.isLt hnew
      cases heq
  staged := by
    intro i k hi hik hk
    rw [← hcomp i hi, hik]
    have hcovers : ∃ lane, lane < 32 ∧ (Cell.buffer k, mem (.comp (c.offset + k))) ∈ window mem c lane :=
      window_covers hk (by omega)
    obtain ⟨lane, hlane, hmem⟩ := hcovers
    exact hstored.new ⟨lane, hlane⟩ _ (List.mem_append_right _ hmem)

end Pending

/-! ## The run -/

/-- The output of a run is in memory, and nothing else of the two arrays has changed. -/
structure Decompressed (mem₀ : Cell → Byte) (planes : List Byte) (mem : Cell → Byte) : Prop where
  bytes : ∀ k : Nat, k < planes.length → mem (.decomp k) = planes.getD k 0#8
  outside : ∀ i : Int, i < 0 ∨ planes.length ≤ i → mem (.decomp i) = mem₀ (.decomp i)
  comp : ∀ i, mem (.comp i) = mem₀ (.comp i)

section

variable {settled fuel idx : Nat} {log : Fin 32 → List (Cell × Byte)} {threads : Fin 32 → Lane Unit}

/-- The lanes are done. -/
theorem Pending.comes_done (h : Pending mem₀ mem planes settled log)
    (hphase : ∀ t, Phase (Readable src.length settled) mem (threads t) (log t) (.done ())) :
    Warp.Comes (Readable src.length planes.length) (Decompressed mem₀ planes) ⟨mem, threads⟩ := by
  refine Warp.Comes.superstep hphase (fun _ => rfl) (h.raceFree _ le_rfl) fun mem' hstored => ?_
  have hsettled := h.settle (fun _ => []) (fun _ _ hs => absurd hs List.not_mem_nil)
    (by simpa only [List.append_nil] using hstored)
  exact .done (fun _ => rfl) ⟨hsettled.bytes, hsettled.outside, hsettled.comp⟩

/-- The lanes come to a barrier. -/
theorem Pending.comes_sync (h : Pending mem₀ mem out settled log) (hview : View mem c src)
    (htotal : out.length ≤ planes.length) (next : Fin 32 → Lane Unit)
    (hphase : ∀ t, Phase (Readable src.length settled) mem (threads t) (log t) (.sync (next t)))
    (hnext : ∀ mem', View mem' c src → Pending mem₀ mem' out out.length (fun _ => []) →
      Warp.Comes (Readable src.length planes.length) (Decompressed mem₀ planes) ⟨mem', next⟩) :
    Warp.Comes (Readable src.length planes.length) (Decompressed mem₀ planes) ⟨mem, threads⟩ := by
  refine Warp.Comes.superstep hphase (fun _ => rfl) (h.raceFree _ htotal) fun mem' hstored => .pass ?_
  exact hnext mem' (h.view hview hstored) (h.settle (fun _ => [])
    (fun _ _ hs => absurd hs List.not_mem_nil) (by simpa only [List.append_nil] using hstored))

/-- The lanes load a window. -/
theorem Pending.comes_load (h : Pending mem₀ mem out settled log) (htotal : out.length ≤ planes.length)
    (hcomp : ∀ i : Nat, i < src.length → mem (.comp i) = src.getD i 0#8) (hlen : c.length = src.length)
    (idx : Nat) (next : Fin 32 → BufferControl → Lane Unit)
    (hphase : ∀ t : Fin 32, Phase (Written settled) mem (threads t) (log t) (c.loadAt t idx >>= next t))
    (hnext : ∀ mem', View mem' (c.setAndAlignOffset idx) src → Pending mem₀ mem' out out.length (fun _ => []) →
      Warp.Comes (Readable src.length planes.length) (Decompressed mem₀ planes)
        ⟨mem', fun t => next t (c.setAndAlignOffset idx)⟩) :
    Warp.Comes (Readable src.length planes.length) (Decompressed mem₀ planes) ⟨mem, threads⟩ := by
  obtain ⟨hlow, -, -⟩ := setAndAlignOffset_bounds c idx
  have hload : ∀ t : Fin 32, Phase (fun cell => Readable src.length settled cell ∧ ∀ k, cell ≠ .buffer k) mem
      (threads t) (log t ++ window mem (c.setAndAlignOffset idx) t) (.sync (next t (c.setAndAlignOffset idx))) := by
    intro t
    have hfirst : Phase (fun cell => Readable src.length settled cell ∧ ∀ k, cell ≠ .buffer k) mem (threads t)
        (log t) (c.loadAt t idx >>= next t) := by
      refine (hphase t).mono fun cell hcell => ?_
      obtain ⟨k, rfl, hk⟩ := hcell
      exact ⟨⟨by omega, by omega⟩, fun j hj => by cases hj⟩
    have hsecond : Phase (fun cell => Readable src.length settled cell ∧ ∀ k, cell ≠ .buffer k) mem
        ((c.setAndAlignOffset idx).load t) (window mem (c.setAndAlignOffset idx) t) (.done ()) := by
      refine (load_spec t.isLt hlow hlen).mono fun cell hcell => ?_
      obtain ⟨i, rfl, hi⟩ := hcell
      exact ⟨hi, fun j hj => by cases hj⟩
    exact hfirst.trans ((hsecond.bind _).bind _)
  refine Warp.Comes.superstep hload (fun _ => rfl) (h.raceFree_window _ htotal mem (c.setAndAlignOffset idx))
    fun mem' hstored => .pass ?_
  refine hnext mem' (h.view_window hcomp hlow hlen hstored) (h.settle _ (fun t s hs => ?_) hstored)
  obtain ⟨k, -, rfl, -⟩ := mem_window t.isLt hs
  exact ⟨k, rfl⟩

/-- A turn of the loop of all lanes, when those after it come through. -/
theorem Pending.comes_turn (h : Pending mem₀ mem out settled log) (hview : View mem c src)
    (hsrc : src.length < 2 ^ 31) (hcap : cap < 2 ^ 32) (hle : c.offset ≤ idx) (hstop : idx < c.stop)
    (hlt : idx < src.length) (hfuel : src.length - idx ≤ fuel) {plainFuel : Nat}
    (hplain : plainSequences cap (plainFuel + 1) (src.drop idx) out = some planes)
    (hphase : ∀ t : Fin 32, Phase (Readable src.length settled) mem (threads t) (log t)
      (c.sequence t fuel out.length idx >>= fun p => c.sequences t fuel p.1 p.2))
    (hnext : ∀ {idx' settled' : Nat} {out' : List Byte} {mem' : Cell → Byte} {log' : Fin 32 → List (Cell × Byte)}
      {threads' : Fin 32 → Lane Unit}, idx < idx' → idx' ≤ src.length →
      plainSequences cap plainFuel (src.drop idx') out' = some planes → View mem' c src →
      Pending mem₀ mem' out' settled' log' →
      (∀ t : Fin 32, Phase (Written settled') mem' (threads' t) (log' t) (c.sequences t fuel out'.length idx')) →
      Warp.Comes (Readable src.length planes.length) (Decompressed mem₀ planes) ⟨mem', threads'⟩) :
    Warp.Comes (Readable src.length planes.length) (Decompressed mem₀ planes) ⟨mem, threads⟩ := by
  have hturn := sequence_turn settled hview hsrc hcap hle hstop hlt.le hfuel hplain
  cases hturn with
  | last lits hplanes hlits =>
    have hpending := h.share lits
    rw [← hplanes] at hpending
    refine hpending.comes_done fun t => ?_
    have hall := (hphase t).trans ((hlits t).bind _)
    have hend : c.sequences t fuel planes.length src.length = .done () := by
      cases fuel with
      | zero => omega
      | succ fuel =>
        unfold BufferControl.sequences
        rw [hview.length, if_neg (lt_irrefl _)]
        rfl
    rw [← hend]
    exact hall
  | near lits bytes idx' hrest hsync =>
    obtain ⟨hlt', hle', hplain'⟩ := hrest
    have hpending := (h.share lits).share bytes
    refine hpending.comes_sync hview (plainSequences_length hplain').1
      (fun t => c.sequences t fuel (out ++ lits ++ bytes).length idx') (fun t => ?_)
      fun mem' hview' hpending' => hnext hlt' hle' hplain' hview' hpending' fun t => .refl _
    have hall := (hphase t).trans ((hsync t).bind _)
    rw [← List.append_assoc] at hall
    exact hall
  | far lits bytes idx' hrest copy hsync hcopy =>
    obtain ⟨hlt', hle', hplain'⟩ := hrest
    have htotal := (plainSequences_length hplain').1
    rw [List.length_append] at htotal
    refine (h.share lits).comes_sync hview (by omega)
      (fun t => copy t >>= fun p => c.sequences t fuel p.1 p.2) (fun t => ?_)
      fun mem' hview' hpending' => ?_
    · exact (hphase t).trans ((hsync t).bind _)
    · refine hnext hlt' hle' hplain' hview' (hpending'.share bytes) fun t => ?_
      exact (hcopy mem' hpending'.bytes t).bind _

/-- The loop of all lanes, from any turn of it. -/
theorem sequences_comes (hsrc : src.length < 2 ^ 31) (hcap : cap < 2 ^ 32) {plainFuel : Nat} :
    ∀ {fuel idx settled : Nat} {c : BufferControl} {out : List Byte} {mem : Cell → Byte}
      {log : Fin 32 → List (Cell × Byte)} {threads : Fin 32 → Lane Unit},
      plainSequences cap plainFuel (src.drop idx) out = some planes → idx ≤ src.length →
      src.length - idx < fuel → View mem c src → c.offset ≤ idx → Pending mem₀ mem out settled log →
      (∀ t : Fin 32, Phase (Written settled) mem (threads t) (log t) (c.sequences t fuel out.length idx)) →
      Warp.Comes (Readable src.length planes.length) (Decompressed mem₀ planes) ⟨mem, threads⟩ := by
  induction plainFuel with
  | zero => intro _ _ _ _ _ _ _ _ hplain; cases hplain
  | succ plainFuel ih =>
    intro fuel idx settled c out mem log threads hplain hidx hfuel hview hle hpending hphase
    have hlt : idx < src.length := by
      by_contra hge
      rw [List.drop_eq_nil_of_le (Nat.le_of_not_lt hge)] at hplain
      cases hplain
    cases fuel with
    | zero => exact absurd hfuel (Nat.not_lt_zero _)
    | succ fuel =>
    have hnext : ∀ {c : BufferControl}, c.offset ≤ idx → ∀ {idx' settled' : Nat} {out' : List Byte}
        {mem' : Cell → Byte} {log' : Fin 32 → List (Cell × Byte)} {threads' : Fin 32 → Lane Unit},
        idx < idx' → idx' ≤ src.length → plainSequences cap plainFuel (src.drop idx') out' = some planes →
        View mem' c src → Pending mem₀ mem' out' settled' log' →
        (∀ t : Fin 32, Phase (Written settled') mem' (threads' t) (log' t)
          (c.sequences t fuel out'.length idx')) →
        Warp.Comes (Readable src.length planes.length) (Decompressed mem₀ planes) ⟨mem', threads'⟩ := by
      intro c hle idx' settled' out' mem' log' threads' hlt' hle' hplain' hview' hpending' hphase'
      exact ih hplain' hle' (by omega) hview' (by omega) hpending' hphase'
    have hunfold : ∀ t : Fin 32, c.sequences t (fuel + 1) out.length idx = (c.prefetch t idx >>= fun c =>
        c.sequence t fuel out.length idx >>= fun p => c.sequences t fuel p.1 p.2) := by
      intro t
      rw [BufferControl.sequences, if_pos (by rw [hview.length]; exact hlt)]
    have hahead : position ((idx : Int) + prefetchDist) = idx + 128 := position_eq rfl (by omega)
    by_cases hload : c.stop < idx + 128
    · -- the window is moved to the sequence
      obtain ⟨hlow', hle', hnear⟩ := setAndAlignOffset_bounds c idx
      have hend := BufferControl.stop_eq hlow' hle' (show idx < 2 ^ 31 by omega)
      unfold inputBufferSize at hend
      refine hpending.comes_load (plainSequences_length hplain).1 hview.comp hview.length idx
        (fun t c => c.sequence t fuel out.length idx >>= fun p => c.sequences t fuel p.1 p.2)
        (fun t => ?_) fun mem' hview' hpending' => ?_
      · have hfirst := hphase t
        rw [hunfold t] at hfirst
        unfold BufferControl.prefetch at hfirst
        rw [hahead, if_pos hload] at hfirst
        exact hfirst
      · exact hpending'.comes_turn hview' hsrc hcap hle' (by omega) hlt (by omega) hplain (fun t => .refl _)
          (hnext hle')
    · refine hpending.comes_turn hview hsrc hcap hle (by omega) hlt (by omega) hplain (fun t => ?_) (hnext hle)
      have hfirst : Phase (Readable src.length settled) mem (threads t) (log t)
          (c.sequences t (fuel + 1) out.length idx) := by
        refine (hphase t).mono fun cell hcell => ?_
        obtain ⟨k, rfl, hk⟩ := hcell
        exact ⟨by omega, by omega⟩
      rw [hunfold t] at hfirst
      unfold BufferControl.prefetch at hfirst
      rw [hahead, if_neg hload] at hfirst
      exact hfirst

end

theorem streamWarp_comes (compData : Nat) {fuel : Nat} (h : plainDecode cap src = some planes)
    (hsrc : src.length < 2 ^ 31) (hcap : cap < 2 ^ 32) (hfuel : src.length < fuel)
    (hcomp : ∀ i : Nat, i < src.length → mem₀ (.comp i) = src.getD i 0#8) :
    Warp.Comes (Readable src.length planes.length) (Decompressed mem₀ planes)
      (streamWarp compData src.length fuel mem₀) := by
  have hstart : Pending mem₀ mem₀ [] 0 fun _ : Fin 32 => [] :=
    ⟨fun _ => rfl, fun _ _ => rfl, le_rfl, fun k hk => absurd hk (Nat.not_lt_zero k),
      fun _ _ hs => absurd hs List.not_mem_nil, fun k _ hk => absurd hk (Nat.not_lt_zero k),
      fun _ _ _ _ hs => absurd hs List.not_mem_nil⟩
  obtain ⟨-, hle, -⟩ := setAndAlignOffset_bounds ⟨compData, src.length, 0⟩ 0
  have hplain : plainSequences cap (src.length + 1) (src.drop 0) [] = some planes := h
  have hlen : (⟨compData, src.length, 0⟩ : BufferControl).length = src.length := rfl
  refine hstart.comes_load (Nat.zero_le _) hcomp hlen 0 (fun t c => c.sequences t fuel 0 0)
    (fun t => .refl _) fun mem' hview hpending => ?_
  exact sequences_comes hsrc hcap hplain (Nat.zero_le _) ((Nat.sub_le _ _).trans_lt hfuel) hview hle hpending
    fun t => .refl _

/-- A block that the plain decoder accepts, wherever it stands, whatever is in the buffer and in the output, and
in whatever order the lanes run: no lane touches a cell outside the block (and the 7 bytes before it), the buffer
and the output, no two of them race, the warp is never stuck before the end, where the output is that of the
plain decoder, and no run goes on for ever. -/
theorem decompressStream_exact (compData : Nat) {cap fuel : Nat} {src planes : List Byte}
    (h : plainDecode cap src = some planes) (hsrc : src.length < 2 ^ 31) (hcap : cap < 2 ^ 32)
    (hfuel : src.length < fuel) (mem₀ : Cell → Byte)
    (hcomp : ∀ i : Nat, i < src.length → mem₀ (.comp i) = src.getD i 0#8) :
    (∀ w, Relation.ReflTransGen Warp.Step (streamWarp compData src.length fuel mem₀) w →
      w.Safe (Readable src.length planes.length) ∧
        (w.Done ∧ Decompressed mem₀ planes w.mem ∨ ∃ w', Warp.Step w w')) ∧
      Acc (fun w₂ w₁ : Warp (Fin 32) Cell Byte => Warp.Step w₁ w₂)
        (streamWarp compData src.length fuel mem₀) :=
  have hcomes := streamWarp_comes compData h hsrc hcap hfuel hcomp
  ⟨fun _ hrun => hcomes.run hrun, hcomes.ends⟩

/-- A literal, a match that repeats it five times, and twelve literals. -/
def repeated : List Byte :=
  [0x11#8, 7#8, 1#8, 0#8, 0xC0#8, 1#8, 2#8, 3#8, 4#8, 5#8, 6#8, 7#8, 8#8, 9#8, 10#8, 11#8, 12#8]

def repeatedMemory : Cell → Byte
  | .comp i => repeated.getD i.toNat 0#8
  | _ => 0xAA#8

/-- At an odd address. -/
theorem decompressStream_exact_repeated :
    (∀ w, Relation.ReflTransGen Warp.Step (streamWarp 1 17 18 repeatedMemory) w →
      w.Safe (Readable 17 18) ∧
        (w.Done ∧ Decompressed repeatedMemory [7#8, 7#8, 7#8, 7#8, 7#8, 7#8, 1#8, 2#8, 3#8, 4#8, 5#8, 6#8, 7#8,
          8#8, 9#8, 10#8, 11#8, 12#8] w.mem ∨ ∃ w', Warp.Step w w')) ∧
      Acc (fun w₂ w₁ : Warp (Fin 32) Cell Byte => Warp.Step w₁ w₂) (streamWarp 1 17 18 repeatedMemory) :=
  have hplain : plainDecode 18 repeated = some [7#8, 7#8, 7#8, 7#8, 7#8, 7#8, 1#8, 2#8, 3#8, 4#8, 5#8, 6#8, 7#8,
      8#8, 9#8, 10#8, 11#8, 12#8] := by decide
  decompressStream_exact 1 hplain (by decide) (by decide) (by decide) repeatedMemory fun _ _ => rfl

end Bslz4ToSparse.Cuda
