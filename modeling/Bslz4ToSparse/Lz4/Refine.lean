import Bslz4ToSparse.Lz4.Tracks

/-!
# The zero-aware decoder refines the plain one

Each part of a turn of the loop reads what the plain decoder reads and stops where
it stops; `Tracks` carries the output from one turn to the next.
-/

namespace Bslz4ToSparse.Lz4

open Foundation

/-! ## Lengths -/

theorem plainLength_suffix :
    ∀ {inp : List Byte} {len : Nat} {r : List Byte × Nat},
      plainLength inp len = some r → r.1 <:+ inp := by
  intro inp
  induction inp with
  | nil => intro len r h; simp [plainLength] at h
  | cons b inp ih =>
    intro len r h
    by_cases hb : b.toNat = 255
    · simp only [plainLength, hb, if_true] at h
      exact (ih h).trans (List.suffix_cons b inp)
    · simp only [plainLength, hb, if_false, Option.some.injEq] at h
      subst h
      exact List.suffix_cons b inp

/-- The bounded loop reads the same length as the plain one, or refuses it for being
longer than the destination. -/
theorem lengthExt_eq (src : List Byte) (cap : Nat) :
    ∀ (fuel ip len : Nat), ip ≤ src.length → src.length < ip + fuel →
      lengthExt (.ofList src 0#8) cap fuel ip len =
        match plainLength (src.drop ip) len with
        | none => .error .malformed
        | some (rest, n) =>
            if cap < n then .error .malformed else .ok (src.length - rest.length, n) := by
  intro fuel
  induction fuel with
  | zero =>
    intro ip len hle h
    omega
  | succ fuel ih =>
    intro ip len hle h
    by_cases hip : src.length ≤ ip
    · rw [List.drop_eq_nil_of_le hip]
      simp only [lengthExt, plainLength, Buffer.size_ofList, hip, decide_true, refuse_true, error_bind]
    · have hlt : ip < src.length := by omega
      have hb : src.drop ip = src[ip] :: src.drop (ip + 1) := List.drop_eq_getElem_cons hlt
      have hload : (Buffer.ofList src 0#8).load ip = some src[ip] := by
        rw [Buffer.load_eq (by simpa using hlt)]
        simp [List.getD_eq_getElem?_getD, List.getElem?_eq_getElem hlt]
      simp only [lengthExt, Buffer.size_ofList, hip, decide_false, refuse_false, hload, access_some, ok_bind,
        pure_eq_ok]
      rw [hb, plainLength]
      by_cases h255 : src[ip].toNat = 255
      · simp only [h255, if_true]
        by_cases hcap : cap < len + 255
        · simp only [hcap, decide_true, refuse_true, error_bind]
          cases hp : plainLength (src.drop (ip + 1)) (len + 255) with
          | none => rfl
          | some r =>
            have hle := (plainLength_length hp).2
            simp only [if_pos (show cap < r.2 by omega)]
        · simp only [hcap, decide_false, refuse_false, ok_bind]
          exact ih (ip + 1) (len + 255) (by omega) (by omega)
      · simp only [h255, if_false]
        by_cases hcap : cap < len + src[ip].toNat
        · simp only [hcap, decide_true, refuse_true, error_bind, if_true]
        · simp only [hcap, decide_false, refuse_false, ok_bind, if_false, List.length_drop,
            show src.length - (src.length - (ip + 1)) = ip + 1 by omega]

/-! ## One sequence, and all of them -/

/-- A length is read as the plain decoder reads it, or refused for being longer than the
destination; either way the input left is what lies at the new position. -/
theorem runLength_eq (src : List Byte) (cap bits : Nat) {ip : Nat} (h0 : 0 < ip)
    (hip : ip ≤ src.length) :
    match plainRun (src.drop ip) bits with
    | none => runLength (.ofList src 0#8) cap ip bits = .error .malformed
    | some (rest, n) =>
        (runLength (.ofList src 0#8) cap ip bits = .error .malformed ∧ cap < n) ∨
        ∃ ip', runLength (.ofList src 0#8) cap ip bits = .ok (ip', n) ∧ rest = src.drop ip' ∧
          ip ≤ ip' ∧ ip' ≤ src.length := by
  unfold plainRun runLength
  by_cases h15 : bits = 15
  · rw [if_pos h15, if_pos h15, lengthExt_eq src cap _ ip 15 hip (by simp; omega)]
    cases hp : plainLength (src.drop ip) 15 with
    | none => rfl
    | some r =>
      obtain ⟨rest, n⟩ := r
      by_cases hcap : cap < n
      · exact Or.inl ⟨by simp only [if_pos hcap], hcap⟩
      · have hsuf : rest <:+ src := (plainLength_suffix hp).trans (List.drop_suffix ip src)
        have hlen : rest.length < (src.drop ip).length := (plainLength_length hp).1
        rw [List.length_drop] at hlen
        refine Or.inr ⟨src.length - rest.length, by simp only [if_neg hcap], ?_, by omega, by omega⟩
        exact List.suffix_iff_eq_drop.mp hsuf
  · rw [if_neg h15, if_neg h15]
    exact Or.inr ⟨ip, rfl, rfl, le_rfl, hip⟩

theorem load_ofList {src : List Byte} {i : Nat} (h : i < src.length) :
    (Buffer.ofList src 0#8).load i = some src[i] := by
  rw [Buffer.load_eq (by simpa using h)]
  simp [List.getD_eq_getElem?_getD, List.getElem?_eq_getElem h]

/-- The bounds on the literals are the plain decoder's end-of-block rule. -/
theorem mustEnd_iff {cap op inLen lit : Nat} (h : op ≤ cap) :
    (cap - op < 12 ∨ cap - op - 12 < lit ∨ inLen < 8 ∨ inLen - 8 < lit) ↔
      plainMustEnd cap op inLen lit = true := by
  simp only [plainMustEnd, Bool.or_eq_true, decide_eq_true_eq]
  omega

theorem literalPart_spec (src : List Byte) {cap slack : Nat} {s : Cursor} {out : List Byte}
    (ht : Tracks cap slack s out) :
    match plainLiterals cap (src.drop s.ip) out with
    | none => literalPart (.ofList src 0#8) cap (cap + slack) s = .error .malformed
    | some (bits, inp, out') => ∃ s',
        literalPart (.ofList src 0#8) cap (cap + slack) s = .ok (bits, s') ∧
        inp = src.drop s'.ip ∧ s.ip < s'.ip ∧ s'.ip ≤ src.length ∧ Tracks cap slack s' out' := by
  by_cases hend : src.length ≤ s.ip
  · rw [List.drop_eq_nil_of_le hend]
    simp only [plainLiterals, literalPart, Buffer.size_ofList, hend, decide_true, refuse_true, error_bind]
  have hlt : s.ip < src.length := by omega
  have hop := ht.op_eq
  have hople := ht.op_le
  rw [List.drop_eq_getElem_cons hlt]
  simp only [plainLiterals, literalPart, Buffer.size_ofList, hend, decide_false, refuse_false, ok_bind,
    load_ofList hlt, access_some]
  have hlit := runLength_eq src cap (src[s.ip].toNat / 16) (show 0 < s.ip + 1 by omega) (by omega)
  cases hp : plainRun (src.drop (s.ip + 1)) (src[s.ip].toNat / 16) with
  | none =>
    simp only [hp] at hlit
    simp [hlit]
  | some r =>
  obtain ⟨rest, lit⟩ := r
  simp only [hp] at hlit
  rcases hlit with ⟨he, hcap⟩ | ⟨ip, he, rfl, hip₁, hip₂⟩
  · simp [he, guard, show ¬ out.length + lit ≤ cap by omega]
  simp only [he, ok_bind, Option.bind_eq_bind, Option.bind_some, List.length_drop]
  by_cases hbad : src.length - ip < lit ∨ cap - s.op < lit
  · have hbad' : ¬ (lit ≤ src.length - ip ∧ out.length + lit ≤ cap) := by omega
    simp [hbad, decide_true, refuse_true, guard, hbad']
  have hgood : lit ≤ src.length - ip ∧ out.length + lit ≤ cap := by omega
  simp only [hbad, decide_false, refuse_false, ok_bind, guard, if_pos hgood, Option.pure_def, Option.bind_some]
  rw [← hop]
  by_cases hmust : plainMustEnd cap s.op (src.length - ip) lit = true ∧ ip + lit ≠ src.length
  · have hmust' : ¬ (plainMustEnd cap s.op (src.length - ip) lit = true →
        lit = src.length - ip) := fun h => hmust.2 (by have h' := h hmust.1; omega)
    rw [if_neg hmust']
    simp [mustEnd_iff hople, hmust]
  have hmust' : plainMustEnd cap s.op (src.length - ip) lit = true → lit = src.length - ip := by
    intro h
    by_contra hne
    exact hmust ⟨h, by omega⟩
  have href : ¬ ((cap - s.op < 12 ∨ cap - s.op - 12 < lit ∨ src.length - ip < 8 ∨
      src.length - ip - 8 < lit) ∧ ip + lit ≠ src.length) := by
    rw [mustEnd_iff hople]
    exact hmust
  obtain ⟨s', hs, hsip, ht'⟩ := literalRun_spec (ht.moveTo ip)
    (show ip + lit ≤ src.length by omega) (show s.op + lit ≤ cap by omega)
  simp only at hsip ht'
  simp only [href, decide_false, refuse_false, ok_bind, if_pos hmust', hs, pure_eq_ok]
  exact ⟨s', rfl, by rw [List.drop_drop, hsip], by omega, by omega, ht'⟩

theorem matchPart_spec (sse2 : Bool) (src : List Byte) (bits : Nat) {cap slack : Nat} {s : Cursor}
    {out : List Byte} (ht : Tracks cap slack s out) :
    match plainMatch cap bits (src.drop s.ip) out with
    | none => matchPart sse2 (.ofList src 0#8) cap (cap + slack) bits s = .error .malformed
    | some (inp, out') => ∃ s',
        matchPart sse2 (.ofList src 0#8) cap (cap + slack) bits s = .ok s' ∧
        inp = src.drop s'.ip ∧ s.ip < s'.ip ∧ s'.ip ≤ src.length ∧ Tracks cap slack s' out' := by
  have hop := ht.op_eq
  have hople := ht.op_le
  by_cases hshort : src.length - s.ip < 2
  · have hnone : plainMatch cap bits (src.drop s.ip) out = none := by
      have hlen : (src.drop s.ip).length < 2 := by rw [List.length_drop]; exact hshort
      match h : src.drop s.ip with
      | [] => rfl
      | [_] => rfl
      | _ :: _ :: _ => simp only [h, List.length_cons] at hlen; omega
    rw [hnone]
    simp [matchPart, hshort, decide_true, refuse_true]
  rw [List.drop_eq_getElem_cons (show s.ip < src.length by omega),
    List.drop_eq_getElem_cons (show s.ip + 1 < src.length by omega)]
  simp only [plainMatch, matchPart, Buffer.size_ofList, hshort, decide_false, refuse_false, ok_bind,
    load_ofList (show s.ip < src.length by omega),
    load_ofList (show s.ip + 1 < src.length by omega), access_some]
  set off := src[s.ip].toNat + 256 * src[s.ip + 1].toNat with hoff
  have hlen := runLength_eq src cap bits (show 0 < s.ip + 2 by omega) (by omega)
  cases hp : plainRun (src.drop (s.ip + 2)) bits with
  | none =>
    simp only [hp] at hlen
    simp [hlen]
  | some r =>
  obtain ⟨rest, mlen⟩ := r
  simp only [hp] at hlen
  rcases hlen with ⟨he, hcap⟩ | ⟨ip, he, rfl, hip₁, hip₂⟩
  · simp [he, guard, show ¬ out.length + (mlen + 4) + 5 ≤ cap by omega]
  simp only [he, ok_bind, Option.bind_eq_bind, Option.bind_some]
  by_cases hbad : off = 0 ∨ s.op < off
  · have hbad' : ¬ (off ≠ 0 ∧ off ≤ out.length) := by omega
    simp [hbad, decide_true, refuse_true, guard, hbad']
  have hgood : off ≠ 0 ∧ off ≤ out.length := by omega
  simp only [hbad, decide_false, refuse_false, ok_bind, guard, if_pos hgood, Option.pure_def, Option.bind_some]
  by_cases hlong : cap - s.op < mlen + 4 ∨ cap - s.op - (mlen + 4) < 5
  · have hlong' : ¬ out.length + (mlen + 4) + 5 ≤ cap := by omega
    simp [hlong, decide_true, refuse_true, hlong']
  have hfit : out.length + (mlen + 4) + 5 ≤ cap := by omega
  simp only [hlong, decide_false, refuse_false, ok_bind, if_pos hfit]
  obtain ⟨s', hs, hsip, ht'⟩ := matchRun_spec sse2 (ht.moveTo ip)
    (show 0 < off by omega) (show off ≤ s.op by omega) (show s.op + (mlen + 4) ≤ cap by omega)
  simp only at hsip
  exact ⟨s', hs, by rw [hsip], by omega, by omega, ht'⟩

/-- The loop of the zero-aware decoder and the plain one accept the same input, and the
final state stands for the plain output. -/
theorem sequences_spec (sse2 : Bool) (src : List Byte) (cap slack : Nat) :
    ∀ (fuel : Nat) (s : Cursor) (out : List Byte), s.ip ≤ src.length → src.length < s.ip + fuel →
      Tracks cap slack s out →
      match plainSequences cap fuel (src.drop s.ip) out with
      | none => sequences sse2 (.ofList src 0#8) cap (cap + slack) fuel s = .error .malformed
      | some res => ∃ s', sequences sse2 (.ofList src 0#8) cap (cap + slack) fuel s = .ok s' ∧
          Tracks cap slack s' res := by
  intro fuel
  induction fuel with
  | zero =>
    intro s out hip hf
    omega
  | succ fuel ih =>
    intro s out hip hf ht
    have hlit := literalPart_spec src ht
    simp only [plainSequences, sequences]
    cases hp : plainLiterals cap (src.drop s.ip) out with
    | none =>
      simp only [hp] at hlit
      simp [hlit]
    | some r =>
    obtain ⟨bits, inp, out₁⟩ := r
    simp only [hp] at hlit
    obtain ⟨s₁, hs₁, rfl, hlt₁, hle₁, ht₁⟩ := hlit
    simp only [hs₁, ok_bind, Option.bind_eq_bind, Option.bind_some, Buffer.size_ofList,
      List.drop_eq_nil_iff]
    by_cases hlast : s₁.ip = src.length
    · simp only [hlast, le_refl, if_true, pure_eq_ok, Option.pure_def]
      exact ⟨s₁, rfl, ht₁⟩
    have hlast' : ¬ src.length ≤ s₁.ip := by omega
    simp only [hlast, hlast', if_false]
    have hmatch := matchPart_spec sse2 src bits ht₁
    cases hm : plainMatch cap bits (src.drop s₁.ip) out₁ with
    | none =>
      simp only [hm] at hmatch
      simp [hmatch]
    | some r =>
    obtain ⟨inp, out₂⟩ := r
    simp only [hm] at hmatch
    obtain ⟨s₂, hs₂, rfl, hlt₂, hle₂, ht₂⟩ := hmatch
    simp only [hs₂, ok_bind, Option.bind_some]
    exact ih s₂ out₂ hle₂ (by omega) ht₂

/-- The destination `dst` holds the output `out` of `cap` bytes up to `nzEnd`, and the rest of
it is zero. -/
structure Decodes (cap : Nat) (out : List Byte) (dst : Buffer Byte) (nzEnd : Nat) : Prop where
  length : out.length = cap
  nzEnd_le : nzEnd ≤ cap
  stored : ∀ i, i < nzEnd → dst.get i = out.getD i 0#8
  zeros : ∀ i, nzEnd ≤ i → out.getD i 0#8 = 0#8

/-- The outcome of a block, from what the plain decoder makes of it. -/
theorem lz4DecodeZero_cases (sse2 : Bool) (src : List Byte) (cap slack : Nat) (dst : Buffer Byte)
    (hdst : dst.size = cap + slack) :
    (∃ out dst' nzEnd, plainDecode cap src = some out ∧
        lz4DecodeZero sse2 (.ofList src 0#8) dst cap slack =
          some (.decoded (BitVec.ofNat 32 cap).toInt dst' nzEnd) ∧
        dst'.size = cap + slack ∧ Decodes cap out dst' nzEnd) ∨
      ((∀ out, plainDecode cap src = some out → out.length ≠ cap) ∧
        lz4DecodeZero sse2 (.ofList src 0#8) dst cap slack = some (.rejected (-1))) := by
  have hseq := sequences_spec sse2 src cap slack (src.length + 1) ⟨0, 0, 0, 0, dst⟩ []
    (Nat.zero_le _) (by simp) (tracks_init cap slack dst hdst)
  simp only [List.drop_zero] at hseq
  cases hp : plainDecode cap src with
  | none =>
    rw [show plainSequences cap (src.length + 1) src [] = none from hp] at hseq
    simp only at hseq
    refine Or.inr ⟨by simp, ?_⟩
    simp only [lz4DecodeZero, Buffer.size_ofList, hseq]
  | some out =>
    rw [show plainSequences cap (src.length + 1) src [] = some out from hp] at hseq
    obtain ⟨s, hs, ht⟩ := hseq
    by_cases hop : s.op = cap
    · refine Or.inl ⟨out, s.dst, s.written, rfl, ?_, ht.size, ?_⟩
      · simp only [lz4DecodeZero, Buffer.size_ofList, hs, hop, ne_eq, not_true, if_false]
      · exact ⟨by rw [← ht.op_eq, hop], hop ▸ ht.written_le, ht.stored,
          fun i hi => ht.zeros i (ht.zeroFrom_le.trans hi)⟩
    · refine Or.inr ⟨?_, ?_⟩
      · intro out' hout'
        rw [← Option.some.inj hout', ← ht.op_eq]
        exact hop
      · simp only [lz4DecodeZero, Buffer.size_ofList, hs, ne_eq, hop, not_false_eq_true, if_true]

/-- The zero-aware decoder never leaves its buffers and always ends. It returns the capacity
on the blocks whose plain output fills it, and then holds that output up to a zero rest; it
returns a negative value on all others. -/
theorem lz4DecodeZero_refines (sse2 : Bool) (src : List Byte) (cap slack : Nat)
    (dst : Buffer Byte) (hcap : cap ≤ 2 ^ 31 - 1) (hdst : dst.size = cap + slack) :
    ∃ r, lz4DecodeZero sse2 (.ofList src 0#8) dst cap slack = some r ∧
      (r.ret = cap ↔ ∃ out, plainDecode cap src = some out ∧ out.length = cap) ∧
      (r.ret ≠ cap → r.ret < 0) ∧
      (r.ret = cap → ∃ ret dst' nzEnd out, r = .decoded ret dst' nzEnd ∧
        plainDecode cap src = some out ∧ Decodes cap out dst' nzEnd) := by
  have hret : (BitVec.ofNat 32 cap).toInt = cap := by
    rw [BitVec.toInt_ofNat', Int.bmod_eq_of_le] <;> omega
  rcases lz4DecodeZero_cases sse2 src cap slack dst hdst with
    ⟨out, dst', nzEnd, hp, hr, -, hd⟩ | ⟨hno, hr⟩
  · refine ⟨_, hr, ?_, fun h => absurd hret h, fun _ => ⟨_, dst', nzEnd, out, rfl, hp, hd⟩⟩
    exact ⟨fun _ => ⟨out, hp, hd.length⟩, fun _ => hret⟩
  · refine ⟨_, hr, ?_, fun _ => by simp [Outcome.ret], ?_⟩
    · constructor
      · intro h
        simp only [Outcome.ret] at h
        omega
      · rintro ⟨out, hp, hlen⟩
        exact absurd hlen (hno out hp)
    · intro h
      simp only [Outcome.ret] at h
      omega

/-- One literal, a match that repeats it, and twelve literals, in a buffer of junk. -/
theorem lz4DecodeZero_refines_overlap :
    ∃ r, lz4DecodeZero true
        (.ofList [0x11#8, 7#8, 1#8, 0#8, 0xC0#8, 0#8, 0#8, 0#8, 0#8, 0#8, 0#8, 0#8, 0#8, 0#8, 0#8,
          0#8, 3#8] 0#8) ⟨18, fun _ => 9#8⟩ 18 0 = some r ∧
      (r.ret = 18 ↔ ∃ out, plainDecode 18 [0x11#8, 7#8, 1#8, 0#8, 0xC0#8, 0#8, 0#8, 0#8, 0#8,
        0#8, 0#8, 0#8, 0#8, 0#8, 0#8, 0#8, 3#8] = some out ∧ out.length = 18) :=
  let ⟨r, hr, hiff, _⟩ := lz4DecodeZero_refines true
    [0x11#8, 7#8, 1#8, 0#8, 0xC0#8, 0#8, 0#8, 0#8, 0#8, 0#8, 0#8, 0#8, 0#8, 0#8, 0#8, 0#8, 3#8]
    18 0 ⟨18, fun _ => 9#8⟩ (by decide) rfl
  ⟨r, hr, hiff⟩

end Bslz4ToSparse.Lz4
