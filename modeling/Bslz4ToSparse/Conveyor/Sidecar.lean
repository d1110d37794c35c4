import Bslz4ToSparse.Foundation.LittleEndian

/-!
# The chunk index of a data file (src/conveyor/_index.py)

The sidecar is a magic, the length of a JSON header, the header, zero padding to a multiple
of 8, the offset of each frame's chunk as an int64 and its length as an int32. JSON is a
parameter: `dumps` and `loads` are `json.dumps` and `json.loads` with their UTF-8.
-/

namespace Bslz4ToSparse.Conveyor.Sidecar

open Foundation

/-- `MAGIC`. -/
def magic : List (BitVec 8) := [66, 83, 76, 90, 52, 73, 68, 88]

/-- `VERSION`. -/
def indexVersion : Nat := 1

/-- `st_size` and `st_mtime_ns` of a data file. -/
structure FileStat where
  size : Nat
  mtime_ns : Int
  deriving DecidableEq, Repr

/-- The header. -/
structure Meta where
  version : Nat
  dataset : String
  shape : List Nat
  dtype : String
  chunks : List Nat
  codec : Nat
  file_size : Nat
  file_mtime_ns : Int
  nframes : Nat
  declared_nframes : Nat
  deriving DecidableEq, Repr

/-- The data file as the header has it. -/
def Meta.stat (m : Meta) : FileStat := ⟨m.file_size, m.file_mtime_ns⟩

/-- An `Index`, as `harvest` and `read_index` build it: of this version, with an offset and a
length for each frame of the header. -/
structure Index where
  header : Meta
  offsets : List (BitVec 64)
  lengths : List (BitVec 32)
  version_eq : header.version = indexVersion
  length_offsets : offsets.length = header.nframes
  length_lengths : lengths.length = header.nframes

theorem Index.ext_arrays {a b : Index} (hheader : a.header = b.header) (hoff : a.offsets = b.offsets)
    (hlen : a.lengths = b.lengths) : a = b := by
  obtain ⟨_, _, _, _, _, _⟩ := a
  obtain ⟨_, _, _, _, _, _⟩ := b
  subst hheader hoff hlen
  rfl

/-- The zero bytes after a header of `n` bytes. -/
def headerPad (n : Nat) : Nat := (-(8 + 4 + n : Int) % 8).toNat

/-- `ndarray.tobytes` of a little endian array of items of `w` bytes. -/
def toBytes (w : Nat) (xs : List (BitVec (8 * w))) : List (BitVec 8) :=
  (xs.map BitVec.toNat).flatMap (toLe w)

/-- `np.frombuffer` of `n` items of `w` bytes. -/
def frombuffer (w n : Nat) (raw : List (BitVec 8)) (offset : Nat) : List (BitVec (8 * w)) :=
  (elements w n (raw.drop offset)).map (BitVec.ofNat (8 * w))

/-- What `write_index` leaves in the file; `none` where `struct.pack` refuses the length of the
header. -/
def writeIndex (dumps : Meta → List (BitVec 8)) (index : Index) : Option (List (BitVec 8)) :=
  let head := dumps index.header
  if head.length < 2 ^ 32 then
    some (magic ++ toLe 4 head.length ++ head ++ List.replicate (headerPad head.length) 0#8 ++
      toBytes 8 index.offsets ++ toBytes 4 index.lengths)
  else none

/-- Every index is written but one with a header of 2 ^ 32 bytes or more. -/
theorem writeIndex_some (dumps : Meta → List (BitVec 8)) (index : Index)
    (h : (dumps index.header).length < 2 ^ 32) : ∃ raw, writeIndex dumps index = some raw := by
  rw [writeIndex, if_pos h]
  exact ⟨_, rfl⟩

@[simp] theorem length_toBytes (w : Nat) (xs : List (BitVec (8 * w))) :
    (toBytes w xs).length = w * xs.length := by
  rw [toBytes, length_flatMap_toLe, List.length_map]

@[simp] theorem length_frombuffer (w n : Nat) (raw : List (BitVec 8)) (offset : Nat) :
    (frombuffer w n raw offset).length = n := by
  rw [frombuffer, List.length_map, length_elements]

/-- An array is read back at its offset, whatever follows it. -/
theorem frombuffer_toBytes {w : Nat} {xs : List (BitVec (8 * w))} {before : List (BitVec 8)}
    (after : List (BitVec 8)) {n offset : Nat} (hn : xs.length = n) (hoffset : before.length = offset) :
    frombuffer w n (before ++ (toBytes w xs ++ after)) offset = xs := by
  subst hn hoffset
  have hlt : ∀ v ∈ xs.map BitVec.toNat, v < 256 ^ w := by
    intro v hv
    obtain ⟨x, -, rfl⟩ := List.mem_map.mp hv
    have hx := x.isLt
    rwa [pow_mul] at hx
  have helements := elements_flatMap hlt after
  rw [List.length_map] at helements
  rw [frombuffer, List.drop_left, toBytes, helements, List.map_map]
  simp [Function.comp_def]

/-- What `read_index` raises. -/
inductive ReadError where
  | notAnIndex
  | unpack                        -- `struct.error`: not the four bytes of a length
  | json                          -- not JSON, or not a header
  | version (found : Nat)
  | truncated (bytes frames : Nat)
  | stale (written found : FileStat)
  deriving DecidableEq, Repr

/-- The index whose arrays start at `start`. -/
def readArrays (m : Meta) (hv : m.version = indexVersion) (raw : List (BitVec 8)) (start : Nat) :
    Index where
  header := m
  offsets := frombuffer 8 m.nframes raw start
  lengths := frombuffer 4 m.nframes raw (start + 8 * m.nframes)
  version_eq := hv
  length_offsets := length_frombuffer 8 m.nframes raw start
  length_lengths := length_frombuffer 4 m.nframes raw (start + 8 * m.nframes)

/-- `read_index` of a file's bytes. `check` is the data file's `os.stat` where it is asked for. -/
def readIndex (loads : List (BitVec 8) → Option Meta) (check : Option FileStat)
    (raw : List (BitVec 8)) : Except ReadError Index :=
  if raw.take 8 ≠ magic then .error .notAnIndex
  else if ((raw.drop 8).take 4).length ≠ 4 then .error .unpack
  else
    let hlen := ofLe ((raw.drop 8).take 4)
    match loads ((raw.drop 12).take hlen) with
    | none => .error .json
    | some m =>
      if hv : m.version = indexVersion then
        let start := (12 + hlen + 7) / 8 * 8
        if raw.length ≠ start + 12 * m.nframes then .error (.truncated raw.length m.nframes)
        else
          match check with
          | none => .ok (readArrays m hv raw start)
          | some st =>
            if st ≠ m.stat then .error (.stale m.stat st) else .ok (readArrays m hv raw start)
      else .error (.version m.version)

/-- The writer's padding ends where the reader's arrays start. -/
theorem headerPad_start (n : Nat) : (12 + n + 7) / 8 * 8 = 12 + n + headerPad n := by
  unfold headerPad
  omega

section Read

variable {loads : List (BitVec 8) → Option Meta} {check : Option FileStat} {ix : Index}
  {head tail : List (BitVec 8)}

/-- The bytes before the padding. -/
def headed (head : List (BitVec 8)) : List (BitVec 8) := magic ++ (toLe 4 head.length ++ head)

theorem length_magic : magic.length = 8 := rfl

theorem length_headed (head : List (BitVec 8)) : (headed head).length = 12 + head.length := by
  rw [headed, List.length_append, List.length_append, length_magic, length_toLe]
  omega

theorem take_magic (xs : List (BitVec 8)) : (magic ++ xs).take 8 = magic :=
  List.take_left' length_magic

theorem take_length (n : Nat) (xs : List (BitVec 8)) :
    ((magic ++ (toLe 4 n ++ xs)).drop 8).take 4 = toLe 4 n := by
  rw [List.drop_left' length_magic, List.take_left' (length_toLe 4 n)]

theorem drop_length (n : Nat) (xs : List (BitVec 8)) :
    (magic ++ (toLe 4 n ++ xs)).drop 12 = xs := by
  rw [← List.append_assoc, List.drop_left']
  rw [List.length_append, length_magic, length_toLe]

/-- Behind the magic and the length of the header, the reader parses the bytes of the header, as
many as are there. -/
theorem readIndex_unparsed {n : Nat} (hn : n < 2 ^ 32) {xs : List (BitVec 8)}
    (hload : loads (xs.take n) = none) :
    readIndex loads check (magic ++ (toLe 4 n ++ xs)) = .error .json := by
  have hlen : ofLe (toLe 4 n) = n := ofLe_toLe (by omega)
  simp only [readIndex, take_magic, take_length, drop_length, length_toLe, hlen, hload, ne_eq,
    not_true_eq_false, if_false]

/-- The bytes from the header on: what the reader has left once it has parsed the header. -/
theorem readIndex_headed (hhead : head.length < 2 ^ 32) (hload : loads head = some ix.header) :
    (tail.length ≠ headerPad head.length + 12 * ix.header.nframes →
      ∃ e, readIndex loads check (headed head ++ tail) = .error e) ∧
    (tail.length = headerPad head.length + 12 * ix.header.nframes →
      (∀ st, check = some st → st = ix.header.stat) →
      readIndex loads check (headed head ++ tail) = .ok (readArrays ix.header ix.version_eq
        (headed head ++ tail) (12 + head.length + headerPad head.length))) := by
  have hlen : ofLe (toLe 4 head.length) = head.length := ofLe_toLe (by omega)
  have htotal : (headed head ++ tail).length =
      12 + head.length + headerPad head.length + 12 * ix.header.nframes ↔
      tail.length = headerPad head.length + 12 * ix.header.nframes := by
    rw [List.length_append, length_headed]
    omega
  have hraw : headed head ++ tail = magic ++ (toLe 4 head.length ++ (head ++ tail)) := by
    simp only [headed, List.append_assoc]
  have hmagic : (headed head ++ tail).take 8 = magic := by rw [hraw, take_magic]
  have hlength : ((headed head ++ tail).drop 8).take 4 = toLe 4 head.length := by
    rw [hraw, take_length]
  have hheader : ((headed head ++ tail).drop 12).take head.length = head := by
    rw [hraw, drop_length, List.take_left]
  simp only [readIndex, hmagic, hlength, length_toLe, hlen, hheader, hload, ix.version_eq,
    headerPad_start, ne_eq, htotal, not_true_eq_false, if_false, dif_pos]
  constructor
  · intro hne
    exact ⟨_, if_pos hne⟩
  · intro heq hfresh
    rw [if_neg (not_not_intro heq)]
    cases check with
    | none => rfl
    | some st => exact if_neg (not_not_intro (hfresh st rfl))

/-- Up to a byte of the header, a file holds no index: it misses the magic, the length or a part
of the JSON. -/
theorem readIndex_cut (hhead : head.length < 2 ^ 32)
    (hstrict : ∀ p, p <+: head → p ≠ head → loads p = none) {k : Nat} (hk : k < 12 + head.length) :
    ∃ e, readIndex loads check ((headed head).take k) = .error e := by
  by_cases hmagic : k < 8
  · refine ⟨.notAnIndex, if_pos ?_⟩
    intro h
    have hlen := congrArg List.length h
    rw [List.length_take, List.length_take, length_headed, length_magic] at hlen
    omega
  · have h8 : (headed head).take k = magic ++ (toLe 4 head.length ++ head).take (k - 8) := by
      rw [headed, List.take_append, length_magic, List.take_of_length_le (by rw [length_magic]; omega)]
    by_cases hlength : k < 12
    · refine ⟨.unpack, ?_⟩
      rw [readIndex, h8, take_magic, if_neg (not_not_intro rfl), if_pos]
      intro hfour
      rw [List.drop_left' length_magic, List.length_take, List.length_take] at hfour
      omega
    · have h12 : (headed head).take k = magic ++ (toLe 4 head.length ++ head.take (k - 12)) := by
        rw [h8, List.take_append, length_toLe,
          List.take_of_length_le (by rw [length_toLe]; omega)]
        congr 3
      rw [h12]
      refine ⟨.json, readIndex_unparsed hhead (hstrict _ ?_ ?_)⟩
      · exact (List.take_prefix _ _).trans (List.take_prefix _ _)
      · intro h
        have hlen := congrArg List.length h
        rw [List.length_take, List.length_take] at hlen
        omega

end Read

/-- Reading what `write_index` wrote gives the index back, unless the data file is no longer the
one of the header; less than the whole file, or more, is refused. -/
theorem readIndex_exact (dumps : Meta → List (BitVec 8)) (loads : List (BitVec 8) → Option Meta)
    (ix : Index) (hround : loads (dumps ix.header) = some ix.header)
    (hstrict : ∀ p, p <+: dumps ix.header → p ≠ dumps ix.header → loads p = none)
    {raw : List (BitVec 8)} (hraw : writeIndex dumps ix = some raw) (check : Option FileStat) :
    ((∀ st, check = some st → st = ix.header.stat) → readIndex loads check raw = .ok ix) ∧
    (∀ cut, cut <+: raw → cut ≠ raw → ∃ e, readIndex loads check cut = .error e) ∧
    (∀ longer, raw <+: longer → longer ≠ raw → ∃ e, readIndex loads check longer = .error e) := by
  set head := dumps ix.header with hdumps
  have hhead : head.length < 2 ^ 32 := by
    by_contra hlong
    rw [writeIndex, ← hdumps, if_neg hlong] at hraw
    cases hraw
  set arrays := toBytes 8 ix.offsets ++ (toBytes 4 ix.lengths ++ []) with harrays
  set tail := List.replicate (headerPad head.length) 0#8 ++ arrays with htail
  have hfile : raw = headed head ++ tail := by
    rw [writeIndex, ← hdumps, if_pos hhead, Option.some_inj] at hraw
    rw [← hraw, htail, harrays, headed]
    simp only [List.append_assoc, List.append_nil]
  have hlen : tail.length = headerPad head.length + 12 * ix.header.nframes := by
    rw [htail, harrays, List.length_append, List.length_append, List.length_append,
      List.length_replicate, length_toBytes, length_toBytes, ix.length_offsets, ix.length_lengths,
      List.length_nil]
    omega
  refine ⟨fun hfresh => ?_, fun cut hcut hne => ?_, fun longer hlonger hne => ?_⟩
  · have hback : readArrays ix.header ix.version_eq raw
        (12 + head.length + headerPad head.length) = ix := by
      have hstart : (headed head ++ List.replicate (headerPad head.length) 0#8).length =
          12 + head.length + headerPad head.length := by
        rw [List.length_append, length_headed, List.length_replicate]
      refine Index.ext_arrays ?_ ?_ ?_
      · rfl
      · rw [hfile, htail, ← List.append_assoc]
        exact frombuffer_toBytes _ ix.length_offsets hstart
      · rw [hfile, htail, ← List.append_assoc, harrays, ← List.append_assoc]
        refine frombuffer_toBytes _ ix.length_lengths ?_
        rw [List.length_append, hstart, length_toBytes, ix.length_offsets]
    rw [hfile] at hback ⊢
    rw [(readIndex_headed hhead hround).2 hlen hfresh, hback]
  · obtain ⟨k, rfl⟩ : ∃ k, cut = raw.take k := ⟨cut.length, List.prefix_iff_eq_take.mp hcut⟩
    have hk : k < raw.length := by
      by_contra hlong
      exact hne (List.take_of_length_le (by omega))
    rw [hfile] at hk ⊢
    rw [List.length_append, length_headed] at hk
    by_cases hcutHead : k < 12 + head.length
    · rw [List.take_append_of_le_length (by rw [length_headed]; omega)]
      exact readIndex_cut hhead hstrict hcutHead
    · rw [List.take_append, length_headed, List.take_of_length_le (by rw [length_headed]; omega)]
      refine (readIndex_headed hhead hround).1 ?_
      rw [List.length_take]
      omega
  · obtain ⟨extra, rfl⟩ := hlonger
    have hextra : 0 < extra.length := by
      rw [List.length_pos_iff]
      intro hnil
      rw [hnil, List.append_nil] at hne
      exact hne rfl
    rw [hfile, List.append_assoc]
    refine (readIndex_headed hhead hround).1 ?_
    rw [List.length_append]
    omega

/-- The index of one frame of two pixels. -/
def oneFrameIndex : Index where
  header :=
    { version := 1, dataset := "/e/d", shape := [1, 1, 2], dtype := "<u2", chunks := [1, 1, 2],
      codec := 2, file_size := 64, file_mtime_ns := 7, nframes := 1, declared_nframes := 1 }
  offsets := [40]
  lengths := [24]
  version_eq := rfl
  length_offsets := rfl
  length_lengths := rfl

/-- Its header in JSON. -/
def oneFrameHeader : List (BitVec 8) :=
  ("\x7b\"chunks\": [1, 1, 2], \"codec\": 2, \"dataset\": \"/e/d\", \"declared_nframes\": 1, " ++
    "\"dtype\": \"<u2\", \"file_mtime_ns\": 7, \"file_size\": 64, \"nframes\": 1, " ++
    "\"shape\": [1, 1, 2], \"version\": 1\x7d").toList.map fun c => BitVec.ofNat 8 c.toNat

theorem oneFrameHeader_lt : oneFrameHeader.length < 2 ^ 32 := by decide +kernel

/-- `json.loads` on the prefixes of this header. -/
def oneFrameLoads (text : List (BitVec 8)) : Option Meta :=
  if text = oneFrameHeader then some oneFrameIndex.header else none

theorem readIndex_exact_oneFrame :
    ∃ raw, writeIndex (fun _ => oneFrameHeader) oneFrameIndex = some raw ∧
      readIndex oneFrameLoads (some ⟨64, 7⟩) raw = .ok oneFrameIndex ∧
      (∀ cut, cut <+: raw → cut ≠ raw →
        ∃ e, readIndex oneFrameLoads (some ⟨64, 7⟩) cut = .error e) ∧
      (∀ longer, raw <+: longer → longer ≠ raw →
        ∃ e, readIndex oneFrameLoads (some ⟨64, 7⟩) longer = .error e) := by
  obtain ⟨raw, hwrite⟩ := writeIndex_some (fun _ => oneFrameHeader) oneFrameIndex
    oneFrameHeader_lt
  obtain ⟨hback, hdamage⟩ := readIndex_exact (fun _ => oneFrameHeader) oneFrameLoads oneFrameIndex
    (if_pos rfl) (fun _ _ hne => if_neg hne) hwrite (some ⟨64, 7⟩)
  refine ⟨raw, hwrite, hback ?_, hdamage⟩
  intro st hst
  rw [← Option.some_inj.mp hst]
  rfl

end Bslz4ToSparse.Conveyor.Sidecar
