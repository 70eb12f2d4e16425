/-
# MxKeys.Wal.Format — the bytes of the write-ahead log.

A log file is the magic followed by records, and a record is a header of forty bytes (length,
CRC-32C, HMAC) followed by the JSON of an entry. `readAll` walks the file record by record and stops
at the first thing that is not one. Written records are read back in order, whatever stands behind
them (`readRecords_append`).

The command of an entry is the JSON document its `json.RawMessage` holds. A document whose numbers
are not JSON numbers, or one nested beyond the limit of the scanner, stands for bytes that
`json.Marshal` rejects.
-/
import MxKeys.Lib.Digest
import MxKeys.Lib.Json.Decode
import MxKeys.Lib.Json.Print
import MxKeys.Raft.Recovery

namespace MxKeys.Wal

open MxKeys.Lib MxKeys.Lib.Digest
open MxKeys.Raft (LogEntry WalStatus)
open List Option Json

/-- An entry of the log; its command is a JSON document. -/
abbrev Entry := LogEntry Json

/-! ## The payload of a record -/

/-- The JSON object of an entry. -/
def entryJson (e : Entry) : Json :=
  .obj [("index".toList, .num (Nat.toDigits 10 e.index)),
    ("term".toList, .num (Nat.toDigits 10 e.term)),
    ("command".toList, e.command)]

/-- `json.Marshal(entry)`. The command is checked and compacted by the scanner. -/
def marshalEntry (e : Entry) : Option Bytes :=
  if e.command.WellFormed ∧ e.command.depth ≤ maxNestingDepth then
    some (Utf8.encode (entryJson e).marshal)
  else none

/-- The fields of `LogEntry`. -/
def entryFields : List (Json.Field Entry) :=
  [⟨"index".toList, fun e j => (decodeUint e.index j).map fun n => { e with index := n }⟩,
   ⟨"term".toList, fun e j => (decodeUint e.term j).map fun n => { e with term := n }⟩,
   ⟨"command".toList, fun e j => some { e with command := j }⟩]

/-- `json.Unmarshal(payload, &entry)`. -/
def unmarshalEntry (payload : Bytes) : Option Entry := do
  let j ← parse (Utf8.decode payload)
  decodeStruct entryFields ⟨0, 0, .null⟩ j

/-- The counters of the entry are `uint64`. -/
def IsUint64 (e : Entry) : Prop :=
  e.index < 18446744073709551616 ∧ e.term < 18446744073709551616

instance (e : Entry) : Decidable (IsUint64 e) := inferInstanceAs (Decidable (_ ∧ _))

variable {e : Entry} {payload : Bytes}

theorem entryJson_wellFormed (h : e.command.WellFormed) : (entryJson e).WellFormed := by
  rw [entryJson, WellFormed, numbers_obj]
  simp only [forall_mem_cons, numbers_num, not_mem_nil, false_imp_iff, implies_true,
    and_true]
  exact ⟨isNumber_toDigits _, isNumber_toDigits _, h⟩

theorem depth_entryJson (e : Entry) : (entryJson e).depth = e.command.depth + 1 := by
  simp [entryJson, depth, Assoc.mapValues]

theorem decode_entryJson (h : IsUint64 e) :
    decodeStruct entryFields ⟨0, 0, .null⟩ (entryJson e) = some e := by
  have hindex : storeMember entryFields ⟨0, 0, .null⟩
      ("index".toList, .num (Nat.toDigits 10 e.index)) = some ⟨e.index, 0, .null⟩ := by
    show (parseUint _).map _ = _
    rw [parseUint_toDigits h.1]
    rfl
  have hterm : storeMember entryFields ⟨e.index, 0, .null⟩
      ("term".toList, .num (Nat.toDigits 10 e.term)) = some ⟨e.index, e.term, .null⟩ := by
    show (parseUint _).map _ = _
    rw [parseUint_toDigits h.2]
    rfl
  rw [entryJson, decodeStruct_obj, foldlM_cons, hindex, bind_eq_bind,
    bind_some, foldlM_cons, hterm]
  rfl

/-- **The JSON of an entry is read back**, unless the object around the command is one level too
deep for the decoder. -/
theorem unmarshal_marshal (h : IsUint64 e) (hdepth : e.command.depth < maxNestingDepth)
    (hp : marshalEntry e = some payload) :
    unmarshalEntry payload = some e := by
  unfold marshalEntry at hp
  split at hp
  · rename_i hcommand
    cases hp
    have hparse : parse (entryJson e).marshal = some (entryJson e) :=
      parse_text marshalEscape_escapes (entryJson_wellFormed hcommand.1)
        (by rw [depth_entryJson]; exact hdepth)
    simp [unmarshalEntry, hparse, decode_entryJson h]
  · cases hp

/-- An entry whose command is nested to the limit is written but cannot be decoded. -/
theorem unmarshal_marshal_deep (hdepth : ¬e.command.depth < maxNestingDepth)
    (hp : marshalEntry e = some payload) :
    unmarshalEntry payload = none := by
  unfold marshalEntry at hp
  split at hp
  · rename_i hcommand
    cases hp
    have hparse : parse (entryJson e).marshal = none :=
      parse_text_deep marshalEscape_escapes (entryJson_wellFormed hcommand.1)
        (by rw [depth_entryJson]; omega)
    simp [unmarshalEntry, hparse]
  · cases hp

/-! ## Records -/

/-- `walMagicV3`. -/
def walMagic : Bytes :=
  [0x4D, 0x58, 0x4B, 0x53, 0x5F, 0x57, 0x41, 0x4C, 0x5F, 0x76, 0x33, 0x00]

/-- `walHeaderSize`. -/
def walHeaderSize : Nat := 40

/-- `walMaxRecord`. -/
def walMaxRecord : Nat := 8 * 1024 * 1024

/-- The first eight bytes of a header: length and checksum of the payload. -/
def headerStart (payload : Bytes) : Bytes :=
  le32 payload.length ++ le32 (crc32c payload).toNat

/-- A record: the HMAC covers the start of the header and the payload. -/
def record (key payload : Bytes) : Bytes :=
  headerStart payload ++ hmacSHA256 key (headerStart payload ++ payload) ++ payload

/-- `appendLocked`: the bytes written for an entry, or nothing when it cannot be encoded or is too
long. -/
def appendLocked (key : Bytes) (e : Entry) : Option Bytes := do
  let payload ← marshalEntry e
  if payload.length ≤ walMaxRecord then some (record key payload) else none

/-- What one round of the reading loop finds. -/
inductive Found where
  | eof
  | stopped (status : WalStatus)
  | entry (e : Entry) (rest : Bytes)

/-- One round of the loop of `readAllLocked`. -/
def readRecord (key bytes : Bytes) : Found :=
  if bytes = [] then .eof
  else if bytes.length < walHeaderSize then .stopped .corrupt
  else
    let length := ofLe32 (bytes.take 4)
    let declaredCRC := ofLe32 ((bytes.drop 4).take 4)
    let declaredMAC := (bytes.drop 8).take 32
    let body := bytes.drop walHeaderSize
    if length = 0 ∨ walMaxRecord < length then .stopped .corrupt
    else if body.length < length then .stopped .corrupt
    else
      let payload := body.take length
      if (crc32c payload).toNat ≠ declaredCRC then .stopped .corrupt
      else if hmacSHA256 key (bytes.take 8 ++ payload) ≠ declaredMAC then .stopped .tampered
      else
        match unmarshalEntry payload with
        | none => .stopped .corrupt
        | some e => .entry e (body.drop length)

/-- The loop of `readAllLocked`, with fuel for its rounds. -/
def readLoop (key : Bytes) : Nat → Bytes → List Entry × WalStatus
  | 0, _ => ([], .clean)
  | fuel + 1, bytes =>
    match readRecord key bytes with
    | .eof => ([], .clean)
    | .stopped status => ([], status)
    | .entry e rest =>
      let (entries, status) := readLoop key fuel rest
      (e :: entries, status)

/-- The records after the magic. A round takes more than one byte, so one round a byte is enough. -/
def readRecords (key bytes : Bytes) : List Entry × WalStatus :=
  readLoop key (bytes.length + 1) bytes

/-- `ReadAll`. -/
def readAll (key file : Bytes) : List Entry × WalStatus :=
  if file = [] then ([], .clean)
  else if file.take walMagic.length ≠ walMagic then ([], .corrupt)
  else readRecords key (file.drop walMagic.length)

theorem record_length (key payload : Bytes) :
    (record key payload).length = walHeaderSize + payload.length := by
  simp [record, headerStart, walHeaderSize]
  omega

theorem marshalEntry_ne_nil (h : marshalEntry e = some payload) :
    payload ≠ [] := by
  unfold marshalEntry at h
  split at h
  · cases h
    refine Utf8.encode_ne_nil ?_
    rw [marshal, entryJson, text_obj]
    simp [listText]
  · cases h

/-- `bytes` start with a whole record around `payload`, and `rest` follows it. -/
structure Framed (key bytes payload rest : Bytes) : Prop where
  header : walHeaderSize ≤ bytes.length
  length_pos : ofLe32 (bytes.take 4) ≠ 0
  length_le : ofLe32 (bytes.take 4) ≤ walMaxRecord
  body : ofLe32 (bytes.take 4) ≤ (bytes.drop walHeaderSize).length
  payload_eq : (bytes.drop walHeaderSize).take (ofLe32 (bytes.take 4)) = payload
  crc : (crc32c payload).toNat = ofLe32 ((bytes.drop 4).take 4)
  mac : hmacSHA256 key (bytes.take 8 ++ payload) = (bytes.drop 8).take 32
  rest_eq : (bytes.drop walHeaderSize).drop (ofLe32 (bytes.take 4)) = rest

/-- `bytes` start with a record of `e` that the reader accepts, and `rest` follows it. -/
def RecordAt (key bytes : Bytes) (e : Entry) (rest : Bytes) : Prop :=
  ∃ payload, Framed key bytes payload rest ∧ unmarshalEntry payload = some e

variable {key bytes rest : Bytes}

/-- In a whole record all that is left to see is whether the payload can be decoded. -/
theorem Framed.readRecord (h : Framed key bytes payload rest) :
    readRecord key bytes =
      match unmarshalEntry payload with
      | none => .stopped .corrupt
      | some e => .entry e rest := by
  have hnil : bytes ≠ [] := by
    rintro rfl
    exact absurd h.header (by decide)
  have hlen : ¬(ofLe32 (bytes.take 4) = 0 ∨ walMaxRecord < ofLe32 (bytes.take 4)) := by
    rw [not_or, not_lt]
    exact ⟨h.length_pos, h.length_le⟩
  simp only [Wal.readRecord, if_neg hnil, if_neg (not_lt.2 h.header), if_neg hlen,
    if_neg (not_lt.2 h.body), h.payload_eq, if_neg (not_not.2 h.crc), if_neg (not_not.2 h.mac),
    h.rest_eq]

/-- **What a round of the reader finds**: the end, a record, or an error. -/
theorem readRecord_spec (key bytes : Bytes) :
    match readRecord key bytes with
    | .eof => bytes = []
    | .stopped status => status ≠ .clean
    | .entry e rest => RecordAt key bytes e rest := by
  by_cases hnil : bytes = []
  · simp [readRecord, hnil]
  by_cases hshort : bytes.length < walHeaderSize
  · simp [readRecord, hnil, hshort]
  by_cases hlen : ofLe32 (bytes.take 4) = 0 ∨ walMaxRecord < ofLe32 (bytes.take 4)
  · simp [readRecord, hnil, hshort, hlen]
  by_cases hbody : (bytes.drop walHeaderSize).length < ofLe32 (bytes.take 4)
  · simp only [readRecord, if_neg hnil, if_neg hshort, if_neg hlen, if_pos hbody]
    decide
  by_cases hcrc : (crc32c ((bytes.drop walHeaderSize).take (ofLe32 (bytes.take 4)))).toNat ≠
      ofLe32 ((bytes.drop 4).take 4)
  · simp only [readRecord, if_neg hnil, if_neg hshort, if_neg hlen, if_neg hbody, if_pos hcrc]
    decide
  by_cases hmac : hmacSHA256 key
      (bytes.take 8 ++ (bytes.drop walHeaderSize).take (ofLe32 (bytes.take 4))) ≠
      (bytes.drop 8).take 32
  · simp only [readRecord, if_neg hnil, if_neg hshort, if_neg hlen, if_neg hbody, if_neg hcrc,
      if_pos hmac]
    decide
  simp only [not_or, not_lt] at hshort hlen hbody
  have hframe : Framed key bytes ((bytes.drop walHeaderSize).take (ofLe32 (bytes.take 4)))
      ((bytes.drop walHeaderSize).drop (ofLe32 (bytes.take 4))) :=
    ⟨hshort, hlen.1, hlen.2, hbody, rfl, not_not.1 hcrc, not_not.1 hmac, rfl⟩
  rw [hframe.readRecord]
  cases hentry : unmarshalEntry ((bytes.drop walHeaderSize).take (ofLe32 (bytes.take 4))) with
  | none => exact (by decide : WalStatus.corrupt ≠ .clean)
  | some e => exact ⟨_, hframe, hentry⟩

theorem RecordAt.readRecord (h : RecordAt key bytes e rest) :
    readRecord key bytes = .entry e rest := by
  obtain ⟨payload, hframe, hentry⟩ := h
  rw [hframe.readRecord, hentry]

theorem recordAt_of_readRecord (h : readRecord key bytes = .entry e rest) :
    RecordAt key bytes e rest := by
  have hspec := readRecord_spec key bytes
  rw [h] at hspec
  exact hspec

theorem RecordAt.rest_lt (h : RecordAt key bytes e rest) : rest.length < bytes.length := by
  obtain ⟨payload, hframe, -⟩ := h
  have hheader : 40 ≤ bytes.length := hframe.header
  rw [← hframe.rest_eq, length_drop, length_drop, walHeaderSize]
  omega

/-- What is written is a whole record, whatever follows. -/
theorem framed_record (key rest : Bytes) (hpos : payload ≠ [])
    (hlen : payload.length ≤ walMaxRecord) :
    Framed key (record key payload ++ rest) payload rest := by
  have hpos : 0 < payload.length := length_pos_of_ne_nil hpos
  have hsmall : payload.length < 4294967296 := lt_of_le_of_lt hlen (by decide)
  have hcrc : (crc32c payload).toNat < 4294967296 := (crc32c payload).toNat_lt
  have hstart : (headerStart payload).length = 8 := rfl
  have hcode := length_hmacSHA256 key (headerStart payload ++ payload)
  have hparts : record key payload ++ rest = headerStart payload ++
      (hmacSHA256 key (headerStart payload ++ payload) ++ (payload ++ rest)) := by
    simp [record]
  -- the parts of the header, as the reader cuts them out
  have hlength : ofLe32 ((record key payload ++ rest).take 4) = payload.length :=
    ofLe32_le32 hsmall
  have hbody : (record key payload ++ rest).drop walHeaderSize = payload ++ rest := by
    rw [hparts, show walHeaderSize = 8 + 32 from rfl, ← drop_drop, drop_left' hstart,
      drop_left' hcode]
  constructor
  · rw [length_append, record_length]
    omega
  · rw [hlength]
    omega
  · rwa [hlength]
  · rw [hlength, hbody]
    simp
  · rw [hlength, hbody, take_left]
  · exact (ofLe32_le32 hcrc).symm
  · show hmacSHA256 key (headerStart payload ++ payload) = _
    rw [hparts, drop_left' hstart, take_left' hcode]
  · rw [hlength, hbody, drop_left]

variable {written : Bytes}

/-- `appendLocked` writes a record around the JSON of the entry. -/
theorem appendLocked_some (hw : appendLocked key e = some written) :
    ∃ payload, marshalEntry e = some payload ∧
      ∀ rest, Framed key (written ++ rest) payload rest := by
  simp only [appendLocked, bind, bind_eq_some_iff] at hw
  obtain ⟨payload, hp, hw⟩ := hw
  split at hw
  · rename_i hlen
    cases hw
    exact ⟨payload, hp, fun rest => framed_record key rest (marshalEntry_ne_nil hp) hlen⟩
  · cases hw

/-- What can be read back: an entry with `uint64` counters whose command is not nested to the
limit. -/
def Readable (e : Entry) : Prop :=
  IsUint64 e ∧ e.command.depth < maxNestingDepth

theorem readable_null {index term : Nat} (h : IsUint64 ⟨index, term, .null⟩) :
    Readable ⟨index, term, .null⟩ := by
  refine ⟨h, ?_⟩
  show (Json.null).depth < maxNestingDepth
  rw [Json.depth, Json.fold_null]
  decide

/-- What is written for an entry is a record of it, whatever follows. -/
theorem recordAt_append (h : Readable e) (hw : appendLocked key e = some written)
    (rest : Bytes) :
    RecordAt key (written ++ rest) e rest := by
  obtain ⟨payload, hp, hframe⟩ := appendLocked_some hw
  exact ⟨payload, hframe rest, unmarshal_marshal h.1 h.2 hp⟩

/-- Enough fuel is enough. -/
theorem readLoop_fuel (key : Bytes) : ∀ (fuel : Nat) (bytes : Bytes) (extra : Nat),
    bytes.length < fuel → readLoop key (fuel + extra) bytes = readLoop key fuel bytes := by
  intro fuel
  induction fuel with
  | zero => intro bytes extra h; omega
  | succ fuel ih =>
    intro bytes extra h
    rw [show fuel + 1 + extra = (fuel + extra) + 1 by omega]
    unfold readLoop
    split
    · rfl
    · rfl
    · rename_i e rest hfound
      have hrest := (recordAt_of_readRecord hfound).rest_lt
      rw [ih rest extra (by omega)]

theorem readRecords_nil (key : Bytes) : readRecords key [] = ([], .clean) := rfl

/-- The loop over one record. -/
theorem RecordAt.readRecords (h : RecordAt key bytes e rest) :
    readRecords key bytes = (e :: (readRecords key rest).1, (readRecords key rest).2) := by
  have hrest := h.rest_lt
  have hfuel : readLoop key bytes.length rest = Wal.readRecords key rest := by
    obtain ⟨extra, hextra⟩ := Nat.exists_eq_add_of_lt hrest
    rw [hextra, show rest.length + extra + 1 = (rest.length + 1) + extra by omega]
    exact readLoop_fuel key _ _ _ (by omega)
  rw [Wal.readRecords, readLoop, h.readRecord]
  simp only [hfuel]

/-! ## Longer files

What was read stays readable when bytes are added at the end, and after a file that was read to its
end the added bytes are read as they are alone. -/

theorem RecordAt.extend (h : RecordAt key bytes e rest) (more : Bytes) :
    RecordAt key (bytes ++ more) e (rest ++ more) := by
  obtain ⟨payload, h, hentry⟩ := h
  have hheader : 40 ≤ bytes.length := h.header
  -- the header and the payload lie inside `bytes`
  have h4 : (bytes ++ more).take 4 = bytes.take 4 := take_append_of_le_length (by omega)
  have h8 : (bytes ++ more).take 8 = bytes.take 8 := take_append_of_le_length (by omega)
  have hcrc : ((bytes ++ more).drop 4).take 4 = (bytes.drop 4).take 4 := by
    rw [drop_append_of_le_length (by omega), take_append_of_le_length (by simp; omega)]
  have hmac : ((bytes ++ more).drop 8).take 32 = (bytes.drop 8).take 32 := by
    rw [drop_append_of_le_length (by omega), take_append_of_le_length (by simp; omega)]
  have hdrop : (bytes ++ more).drop walHeaderSize = bytes.drop walHeaderSize ++ more :=
    drop_append_of_le_length h.header
  refine ⟨payload, ?_, hentry⟩
  constructor
  · exact le_trans h.header (by simp)
  · rw [h4]
    exact h.length_pos
  · rw [h4]
    exact h.length_le
  · rw [h4, hdrop]
    exact le_trans h.body (by simp)
  · rw [h4, hdrop, take_append_of_le_length h.body]
    exact h.payload_eq
  · rw [hcrc]
    exact h.crc
  · rw [h8, hmac]
    exact h.mac
  · rw [h4, hdrop, drop_append_of_le_length h.body, h.rest_eq]

/-- The rounds of the reader: it is at the end, it stops with an error, or it takes a record. -/
theorem readRecords_cases (key bytes : Bytes) :
    bytes = [] ∨ (∃ status, status ≠ .clean ∧ readRecords key bytes = ([], status)) ∨
      ∃ e rest, RecordAt key bytes e rest := by
  have hspec := readRecord_spec key bytes
  cases hfound : readRecord key bytes with
  | eof =>
    rw [hfound] at hspec
    exact .inl hspec
  | stopped status =>
    rw [hfound] at hspec
    exact .inr (.inl ⟨status, hspec, by rw [readRecords, readLoop, hfound]⟩)
  | entry e rest => exact .inr (.inr ⟨e, rest, recordAt_of_readRecord hfound⟩)

/-- Added bytes are read after what the file holds, if that is read to its end. -/
theorem readRecords_extend (more : Bytes) (h : (readRecords key bytes).2 = .clean) :
    readRecords key (bytes ++ more) =
      ((readRecords key bytes).1 ++ (readRecords key more).1, (readRecords key more).2) := by
  induction hn : bytes.length using Nat.strongRecOn generalizing bytes with
  | ind n ih =>
    rcases readRecords_cases key bytes with rfl | ⟨status, hstatus, hread⟩ | ⟨e, rest, hrec⟩
    · rfl
    · rw [hread] at h
      exact absurd h hstatus
    · have hrest : (readRecords key rest).2 = .clean := by
        rw [hrec.readRecords] at h
        exact h
      rw [(hrec.extend more).readRecords, hrec.readRecords, ih _ (hn ▸ hrec.rest_lt) hrest rfl]
      rfl

/-- Nothing that was read is lost by adding bytes. -/
theorem readRecords_sub (key bytes more : Bytes) :
    (readRecords key bytes).1 <+: (readRecords key (bytes ++ more)).1 := by
  induction hn : bytes.length using Nat.strongRecOn generalizing bytes with
  | ind n ih =>
    rcases readRecords_cases key bytes with rfl | ⟨status, -, hread⟩ | ⟨e, rest, hrec⟩
    · exact nil_prefix
    · rw [hread]
      exact nil_prefix
    · rw [(hrec.extend more).readRecords, hrec.readRecords]
      exact cons_prefix_cons.2 ⟨rfl, ih _ (hn ▸ hrec.rest_lt) rest rfl⟩

/-- The entries of payloads, up to the first that is not the JSON of an entry. -/
def entriesOf : List Bytes → List Entry
  | [] => []
  | payload :: payloads =>
    match unmarshalEntry payload with
    | none => []
    | some e => e :: entriesOf payloads

/-- What a record can hold. -/
def Recordable (payload : Bytes) : Prop := payload ≠ [] ∧ payload.length ≤ walMaxRecord

/-- **Records are read back up to the first one that holds no entry.** -/
theorem readRecords_payloads (key : Bytes) {payloads : List Bytes}
    (h : ∀ payload ∈ payloads, Recordable payload) :
    readRecords key (payloads.map (record key)).flatten =
      (entriesOf payloads,
        if payloads.all fun payload => (unmarshalEntry payload).isSome then .clean
        else .corrupt) := by
  induction payloads with
  | nil => rfl
  | cons payload payloads ih =>
    obtain ⟨⟨hne, hlen⟩, hrest⟩ := forall_mem_cons.1 h
    have hframe := framed_record key (payloads.map (record key)).flatten hne hlen
    rw [map_cons, flatten_cons, entriesOf]
    cases hentry : unmarshalEntry payload with
    | none =>
      have hstop := hframe.readRecord
      rw [hentry] at hstop
      rw [readRecords, readLoop, hstop]
      simp [hentry]
    | some e =>
      have hrec : RecordAt key (record key payload ++ (payloads.map (record key)).flatten) e _ :=
        ⟨payload, hframe, hentry⟩
      rw [hrec.readRecords, ih hrest]
      simp [hentry]

/-- The command can be decoded inside the record. -/
def shallow (e : Entry) : Bool :=
  decide (e.command.depth < maxNestingDepth)

/-- **Written records are read back up to the first one that is nested too deep.** -/
theorem readRecords_written {entries : List Entry} {written : List Bytes}
    (hw : List.Forall₂ (fun e w => appendLocked key e = some w) entries written)
    (hentries : ∀ e ∈ entries, IsUint64 e) :
    readRecords key written.flatten =
      (entries.takeWhile shallow, if entries.all shallow then .clean else .corrupt) := by
  induction hw with
  | nil => rfl
  | @cons e w entries written hw _ ih =>
    rw [flatten_cons]
    have ih := ih fun e' he' => hentries e' (mem_cons_of_mem _ he')
    by_cases hdepth : e.command.depth < maxNestingDepth
    · have he : shallow e = true := by simpa [shallow] using hdepth
      rw [(recordAt_append ⟨hentries e mem_cons_self, hdepth⟩ hw _).readRecords, ih]
      simp [he]
    · have he : shallow e = false := by simpa [shallow] using hdepth
      obtain ⟨payload, hp, hframe⟩ := appendLocked_some hw
      have hstop := (hframe written.flatten).readRecord
      rw [unmarshal_marshal_deep hdepth hp] at hstop
      rw [readRecords, readLoop, hstop]
      simp [he]

/-! ## Files -/

theorem readAll_magic (key bytes : Bytes) :
    readAll key (walMagic ++ bytes) = readRecords key bytes := by
  rw [readAll, if_neg (by simp [walMagic]), take_left, if_neg (by simp), drop_left]

/-- **A record added to a file that is read to its end is read after the others.** -/
theorem readAll_write (he : Readable e) (hw : appendLocked key e = some written)
    (hclean : (readAll key (walMagic ++ bytes)).2 = .clean) :
    readAll key (walMagic ++ bytes ++ written) =
      ((readAll key (walMagic ++ bytes)).1 ++ [e], .clean) := by
  rw [readAll_magic] at hclean
  rw [append_assoc, readAll_magic, readAll_magic, readRecords_extend written hclean]
  have hrec : RecordAt key written e [] := by
    simpa using recordAt_append he hw []
  rw [hrec.readRecords]
  rfl

/-- Nothing that was read is lost when a file grows. -/
theorem readAll_sub (key file more : Bytes) :
    (readAll key file).1 <+: (readAll key (file ++ more)).1 := by
  by_cases hnil : file = []
  · rw [readAll, if_pos hnil]
    exact nil_prefix
  by_cases hmagic : file.take walMagic.length = walMagic
  · have hfile : file = walMagic ++ file.drop walMagic.length := by
      nth_rewrite 1 [← take_append_drop walMagic.length file]
      rw [hmagic]
    rw [hfile, append_assoc, readAll_magic, readAll_magic]
    exact readRecords_sub _ _ _
  · rw [readAll, if_neg hnil, if_pos hmagic]
    exact nil_prefix

end MxKeys.Wal
