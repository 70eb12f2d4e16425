/-
# MxKeys.Wal.Torn — files that were cut off.

A crash in the middle of a write leaves the beginning of a file.  `read_torn`: when the beginning
contains the magic, the reader returns exactly the entries whose records lie inside it, and reports
corruption exactly when the cut is not the end of a record.
-/
import MxKeys.Wal.Format

namespace MxKeys.Wal

open MxKeys.Lib MxKeys.Lib.Digest
open MxKeys.Raft (WalStatus)
open List

/-- The offsets at which records end, when the first starts at `start`. -/
def recordEnds (start : Nat) : List Bytes → List Nat
  | [] => []
  | w :: written => (start + w.length) :: recordEnds (start + w.length) written

/-- The entries whose records end at `cut` or before. -/
def entriesWithin (cut : Nat) (entries : List Entry) (ends : List Nat) : List Entry :=
  ((entries.zip ends).filter fun p => p.2 ≤ cut).map Prod.fst

/-- The encoding of an entry: it fits into a record and is decoded to the entry. -/
def Encodes (e : Entry) (payload : Bytes) : Prop :=
  marshalEntry e = some payload ∧ payload.length ≤ walMaxRecord ∧ unmarshalEntry payload = some e

variable {payload : Bytes} {entries : List Entry} {payloads : List Bytes} {cut : Nat}

theorem Encodes.appendLocked {e : Entry} (h : Encodes e payload) (key : Bytes) :
    appendLocked key e = some (record key payload) := by
  simp only [Wal.appendLocked, h.1, bind, Option.bind_some, if_pos h.2.1]

theorem Encodes.recordAt {e : Entry} (h : Encodes e payload) (key rest : Bytes) :
    RecordAt key (record key payload ++ rest) e rest :=
  ⟨payload, framed_record key rest (marshalEntry_ne_nil h.1) h.2.1, h.2.2⟩

theorem records_of_encodes (key : Bytes) (h : Forall₂ Encodes entries payloads) :
    entries.mapM (appendLocked key) = some (payloads.map (record key)) := by
  induction h with
  | nil => rfl
  | cons he _ ih =>
    rw [mapM_cons, he.appendLocked key, ih]
    rfl

theorem exists_encodings (h : ∀ e ∈ entries, ∃ payload, Encodes e payload) :
    ∃ payloads, Forall₂ Encodes entries payloads := by
  induction entries with
  | nil => exact ⟨[], .nil⟩
  | cons e entries ih =>
    obtain ⟨payload, he⟩ := h e mem_cons_self
    obtain ⟨payloads, hrest⟩ := ih fun e' he' => h e' (mem_cons_of_mem _ he')
    exact ⟨payload :: payloads, .cons he hrest⟩

theorem readRecords_records (key : Bytes) (h : Forall₂ Encodes entries payloads) :
    readRecords key (payloads.map (record key)).flatten = (entries, .clean) := by
  induction h with
  | nil => rfl
  | cons he _ ih => rw [map_cons, flatten_cons, (he.recordAt key _).readRecords, ih]

/-! ## Cuts -/

/-- A record that was cut inside is no record: the header is incomplete, or the payload is shorter
than the header says. -/
theorem readRecord_torn (key : Bytes) (hlen : payload.length ≤ walMaxRecord) (hpos : 0 < cut)
    (hcut : cut < (record key payload).length) :
    readRecord key ((record key payload).take cut) = .stopped .corrupt := by
  have htake : ((record key payload).take cut).length = cut := length_take_of_le hcut.le
  have hnil : (record key payload).take cut ≠ [] := by
    intro h
    rw [h, length_nil] at htake
    omega
  rw [record_length] at hcut
  by_cases hheader : cut < walHeaderSize
  · simp only [readRecord, if_neg hnil, htake, if_pos hheader]
  · -- the length in the header is that of the whole payload
    have hsmall : payload.length < 4294967296 := lt_of_le_of_lt hlen (by decide)
    have hfirst : ((record key payload).take cut).take 4 = le32 payload.length := by
      rw [take_take, min_eq_left (le_trans (by decide) (not_lt.1 hheader))]
      rfl
    have hlength : ofLe32 (((record key payload).take cut).take 4) = payload.length := by
      rw [hfirst, ofLe32_le32 hsmall]
    have hbody : (((record key payload).take cut).drop walHeaderSize).length <
        ofLe32 (((record key payload).take cut).take 4) := by
      rw [hlength, length_drop, htake]
      omega
    unfold readRecord
    rw [if_neg hnil, htake, if_neg hheader]
    dsimp only
    split_ifs <;> rfl

theorem le_of_mem_recordEnds {start x : Nat} {written : List Bytes}
    (h : x ∈ recordEnds start written) : start ≤ x := by
  induction written generalizing start with
  | nil => cases h
  | cons w written ih =>
    rcases mem_cons.1 h with rfl | h
    · exact Nat.le_add_right _ _
    · exact (Nat.le_add_right _ _).trans (ih h)

theorem entriesWithin_eq_nil {ends : List Nat} (h : ∀ x ∈ ends, cut < x) :
    entriesWithin cut entries ends = [] := by
  rw [entriesWithin, map_eq_nil_iff, filter_eq_nil_iff]
  intro p hp
  simpa using h p.2 (of_mem_zip hp).2

theorem record_pos (key payload : Bytes) : 0 < (record key payload).length := by
  rw [record_length]
  exact Nat.add_pos_left (by decide) _

/-- Records up to a cut: those that end before it are read, and nothing else is. -/
theorem readRecords_torn (key : Bytes) (h : Forall₂ Encodes entries payloads)
    {start : Nat} (hstart : start ≤ cut)
    (hcut : cut ≤ start + (payloads.map (record key)).flatten.length) :
    readRecords key ((payloads.map (record key)).flatten.take (cut - start)) =
      (entriesWithin cut entries (recordEnds start (payloads.map (record key))),
        if cut ∈ start :: recordEnds start (payloads.map (record key)) then .clean
        else .corrupt) := by
  induction h generalizing start with
  | nil =>
    obtain rfl : cut = start := by
      simp at hcut
      omega
    simp [readRecords_nil, entriesWithin, recordEnds]
  | @cons e payload entries payloads he _ ih =>
    have hpos := record_pos key payload
    rw [map_cons, flatten_cons] at hcut ⊢
    rw [length_append] at hcut
    rw [recordEnds]
    by_cases hfit : start + (record key payload).length ≤ cut
    · -- the first record is read, and the cut is further on
      have htake :
          ((record key payload) ++ (payloads.map (record key)).flatten).take (cut - start) =
          record key payload ++ (payloads.map (record key)).flatten.take
            (cut - (start + (record key payload).length)) := by
        rw [take_append, take_of_length_le (by omega), Nat.sub_sub]
      have hne : cut ≠ start := by omega
      rw [htake, (he.recordAt key _).readRecords, ih hfit (by omega)]
      refine Prod.ext ?_ ?_
      · simp [entriesWithin, hfit]
      · simp [hne]
    · have hlater : ∀ x ∈ (start + (record key payload).length) ::
          recordEnds (start + (record key payload).length) (payloads.map (record key)),
          cut < x := by
        refine forall_mem_cons.2 ⟨not_le.1 hfit, fun x hx => ?_⟩
        exact (not_le.1 hfit).trans_le (le_of_mem_recordEnds hx)
      have hnot := fun hmem => lt_irrefl cut (hlater cut hmem)
      rw [entriesWithin_eq_nil hlater]
      rcases hstart.eq_or_lt with rfl | hlt
      · rw [Nat.sub_self, take_zero, readRecords_nil, if_pos mem_cons_self]
      · -- the cut is inside the first record
        have htake : ((record key payload) ++ (payloads.map (record key)).flatten).take
            (cut - start) = (record key payload).take (cut - start) :=
          take_append_of_le_length (by omega)
        have htorn := readRecord_torn key he.2.1 (Nat.sub_pos_of_lt hlt)
          (show cut - start < (record key payload).length by omega)
        rw [htake, readRecords, readLoop, htorn, if_neg]
        exact fun hmem => (mem_cons.1 hmem).elim hlt.ne' hnot

/-- **Torn tails**: the file that entries were appended to is read back, and of its beginning up to
a cut after the magic exactly the entries are read whose records lie inside.  The reader reports
corruption exactly when the cut is not the end of a record. -/
theorem read_torn (key : Bytes) {entries : List Entry}
    (h : ∀ e ∈ entries, ∃ payload, Encodes e payload) :
    ∃ written, entries.mapM (appendLocked key) = some written ∧
      readAll key (walMagic ++ written.flatten) = (entries, .clean) ∧
      ∀ cut, walMagic.length ≤ cut → cut ≤ (walMagic ++ written.flatten).length →
        readAll key ((walMagic ++ written.flatten).take cut) =
          (entriesWithin cut entries (recordEnds walMagic.length written),
            if cut ∈ walMagic.length :: recordEnds walMagic.length written then .clean
            else .corrupt) := by
  obtain ⟨payloads, hpayloads⟩ := exists_encodings h
  refine ⟨payloads.map (record key), records_of_encodes key hpayloads, ?_, ?_⟩
  · rw [readAll_magic, readRecords_records key hpayloads]
  · intro cut hmagic hcut
    rw [length_append] at hcut
    rw [take_append, take_of_length_le hmagic, readAll_magic,
      readRecords_torn key hpayloads hmagic hcut]

/-- An entry with the command `null`. -/
def nullEntry : Entry := ⟨1, 1, .null⟩

theorem nullEntry_encodes : ∃ payload, Encodes nullEntry payload := by
  have hwritten : (marshalEntry nullEntry).map length = some 35 := by decide +kernel
  obtain ⟨payload, hpayload, hlength⟩ := Option.map_eq_some_iff.1 hwritten
  refine ⟨payload, hpayload, hlength ▸ by decide, ?_⟩
  have hreadable : Readable nullEntry := readable_null ⟨by decide, by decide⟩
  exact unmarshal_marshal hreadable.1 hreadable.2 hpayload

/-- Two entries are read back, and the first one when the file is cut inside the second record. -/
theorem read_torn_null : ∃ written,
    [nullEntry, nullEntry].mapM (appendLocked [1]) = some written ∧
      readAll [1] (walMagic ++ written.flatten) = ([nullEntry, nullEntry], .clean) ∧
      readAll [1] ((walMagic ++ written.flatten).take 100) = ([nullEntry], .corrupt) := by
  have hentries : ∀ e ∈ [nullEntry, nullEntry], ∃ payload, Encodes e payload := by
    intro e he
    obtain rfl : e = nullEntry := by simpa using he
    exact nullEntry_encodes
  obtain ⟨written, hwritten, hread, hcut⟩ := read_torn [1] hentries
  have hlengths : written.map length = [75, 75] := by
    have hboth : ([nullEntry, nullEntry].mapM (appendLocked [1])).map (map length) =
        some [75, 75] := by decide +kernel
    rwa [hwritten, Option.map_some, Option.some.injEq] at hboth
  obtain ⟨first, rest, rfl, hfirst, hrest⟩ := map_eq_cons_iff.1 hlengths
  obtain ⟨second, rest, rfl, hsecond, hnil⟩ := map_eq_cons_iff.1 hrest
  obtain rfl := map_eq_nil_iff.1 hnil
  have hmagic : walMagic.length = 12 := rfl
  refine ⟨_, hwritten, hread, ?_⟩
  rw [hcut 100 (by decide) (by simp [hmagic, hfirst, hsecond])]
  simp [recordEnds, entriesWithin, hmagic, hfirst, hsecond]

end MxKeys.Wal
