/-
# MxKeys.Transparency.Chain — the hash chain of the transparency log.

Every entry of the log carries the hash of the entry before it and a hash of its own, over a text
that joins its columns with `|`.  The entries are rows of a PostgreSQL table; `VerifyChain` reads
them back in order and computes the hashes again.

`chain_binds_iff`: two tables that pass and end in the same hash have the same rows exactly when
corresponding columns contain equally many separators and are NULL together.  The text does not say
where a column ends, and `shifted_separator` moves a part of one column into the next.
-/
import MxKeys.Canonical.Normal
import MxKeys.Lib.Digest
import MxKeys.Lib.Hex
import MxKeys.Lib.Rfc3339
import MxKeys.Lib.Utf8
import Mathlib.Data.List.Forall2

namespace MxKeys.Transparency

open Lib
open List

/-! ## Entries and rows -/

/-- `time.Time`: nanoseconds since 1970, and the offset of its zone in minutes. -/
structure Time where
  instant : Int
  offset : Int
  deriving DecidableEq

/-- `TransparencyLogEntry`, without the number of the row. -/
structure Entry where
  timestamp : Time
  serverName : Text
  keyID : Text
  eventType : Text
  details : Text
  keyHash : Text
  validUntilTS : Int
  previousHash : Text
  entryHash : Text
  deriving DecidableEq

/-- A row of the table.  Columns without NOT NULL may be NULL. -/
structure Row where
  timestamp : Int
  serverName : Text
  keyID : Option Text
  eventType : Text
  details : Option Text
  keyHash : Option Text
  validUntilTS : Option Int
  previousHash : Option Text
  entryHash : Text
  deriving DecidableEq

/-- TIMESTAMPTZ holds whole microseconds. -/
def roundMicros (instant : Int) : Int := (instant + 500) / 1000 * 1000

/-- The row that `appendEntry` inserts for an entry. -/
def Entry.toRow (e : Entry) : Row where
  timestamp := roundMicros e.timestamp.instant
  serverName := e.serverName
  keyID := some e.keyID
  eventType := e.eventType
  details := some e.details
  keyHash := some e.keyHash
  validUntilTS := some e.validUntilTS
  previousHash := some e.previousHash
  entryHash := e.entryHash

/-- `rows.Scan`, in a session whose zone has the offset `zone t` at the instant `t`; NULL gives the
zero value. -/
def Row.scan (zone : Int → Int) (row : Row) : Entry where
  timestamp := ⟨row.timestamp, zone row.timestamp⟩
  serverName := row.serverName
  keyID := row.keyID.getD []
  eventType := row.eventType
  details := row.details.getD []
  keyHash := row.keyHash.getD []
  validUntilTS := row.validUntilTS.getD 0
  previousHash := row.previousHash.getD []
  entryHash := row.entryHash

/-! ## The chain -/

/-- What is hashed of an entry. -/
def hashedText (e : Entry) : Text :=
  Rfc3339.format e.timestamp.instant e.timestamp.offset ++ '|' :: (e.serverName ++ '|' ::
    (e.keyID ++ '|' :: (e.eventType ++ '|' :: (e.details ++ '|' :: (e.keyHash ++ '|' ::
      (Canonical.intText e.validUntilTS ++ '|' :: e.previousHash))))))

/-- The `previous_hash` of the first entry. -/
def genesis : Text := "genesis".toList

section Hash

variable (sha256 : Bytes → Bytes)

/-- `computeEntryHash`. -/
def computeEntryHash (e : Entry) : Text := Hex.encode (sha256 (Utf8.encode (hashedText e)))

/-- The loop of `VerifyChain`: whether the rows are valid, and how many were checked. -/
def verifyRows (zone : Int → Int) (expectedPrevHash : Text) (checked : Nat) :
    List Row → Bool × Nat
  | [] => (true, checked)
  | row :: rows =>
    if (row.scan zone).previousHash ≠ expectedPrevHash then (false, checked + 1)
    else if computeEntryHash sha256 (row.scan zone) ≠ row.entryHash then (false, checked + 1)
    else verifyRows zone row.entryHash (checked + 1) rows

/-- `VerifyChain`. -/
def verifyChain (zone : Int → Int) (limit : Nat) (table : List Row) : Bool × Nat :=
  verifyRows sha256 zone genesis 0 (table.take limit)

/-- Rows that continue a chain. -/
def Linked (zone : Int → Int) : Text → List Row → Prop
  | _, [] => True
  | previous, row :: rows => (row.scan zone).previousHash = previous ∧
      computeEntryHash sha256 (row.scan zone) = row.entryHash ∧ Linked zone row.entryHash rows

end Hash

variable {sha256 : Bytes → Bytes} {zone zone' : Int → Int} {rows table : List Row}
  {previous : Text}

theorem verifyRows_valid {checked : Nat} :
    (verifyRows sha256 zone previous checked rows).1 = true ↔ Linked sha256 zone previous rows := by
  induction rows generalizing previous checked with
  | nil => simp [verifyRows, Linked]
  | cons row rows ih =>
    unfold verifyRows Linked
    split_ifs with hprevious hhash
    · simp [hprevious]
    · simp [hhash]
    · rw [ih, not_not.1 hprevious, not_not.1 hhash]
      simp

theorem verifyChain_valid {limit : Nat} (hlimit : table.length ≤ limit) :
    (verifyChain sha256 zone limit table).1 = true ↔ Linked sha256 zone genesis table := by
  rw [verifyChain, take_of_length_le hlimit]
  exact verifyRows_valid

/-- An entry of whole microseconds in the zone of the session is read back as it was written. -/
theorem scan_toRow {e : Entry} (hmicros : e.timestamp.instant % 1000 = 0)
    (hzone : e.timestamp.offset = zone e.timestamp.instant) : e.toRow.scan zone = e := by
  have hround : roundMicros e.timestamp.instant = e.timestamp.instant := by
    unfold roundMicros
    omega
  obtain ⟨⟨instant, offset⟩, serverName, keyID, eventType, details, keyHash, validUntilTS,
    previousHash, entryHash⟩ := e
  unfold Row.scan Entry.toRow
  simp only [Option.getD_some, Entry.mk.injEq, Time.mk.injEq, and_true]
  exact ⟨hround, hround.symm ▸ hzone.symm⟩

/-! ## What the text tells apart -/

/-- A column can be split off when it is known how many separators it contains. -/
theorem append_separator_inj {c : Char} {a b s t : Text} (hcount : a.count c = b.count c)
    (h : a ++ c :: s = b ++ c :: t) : a = b ∧ s = t := by
  induction a generalizing b with
  | nil =>
    cases b with
    | nil => exact ⟨rfl, (cons.inj h).2⟩
    | cons d b =>
      rw [← (cons.inj h).1, count_nil, count_cons_self] at hcount
      cases hcount
  | cons d a ih =>
    cases b with
    | nil =>
      rw [(cons.inj h).1, count_nil, count_cons_self] at hcount
      cases hcount
    | cons e b =>
      obtain ⟨rfl, hrest⟩ := cons.inj h
      rw [count_cons, count_cons] at hcount
      obtain ⟨rfl, htail⟩ := ih (add_right_cancel hcount) hrest
      exact ⟨rfl, htail⟩

theorem count_format (instant offset : Int) :
    (Rfc3339.format instant offset).count '|' = 0 := by
  refine count_eq_zero.2 fun hmem => ?_
  rcases Rfc3339.format_chars hmem with hdigit | hother
  · exact absurd hdigit (by decide)
  · exact absurd hother (by decide)

theorem count_intText (n : Int) : (Canonical.intText n).count '|' = 0 := by
  have hdigits : '|' ∉ Nat.toDigits 10 n.natAbs := fun hmem =>
    absurd (Json.isDigit_toDigits hmem) (by decide)
  refine count_eq_zero.2 fun hmem => ?_
  unfold Canonical.intText at hmem
  split_ifs at hmem
  · exact (mem_cons.1 hmem).elim (fun h => absurd h (by decide)) hdigits
  · exact hdigits hmem

/-- The columns that are hashed are the same. -/
structure Row.Agree (r r' : Row) : Prop where
  timestamp : r.timestamp = r'.timestamp
  serverName : r.serverName = r'.serverName
  keyID : r.keyID = r'.keyID
  eventType : r.eventType = r'.eventType
  details : r.details = r'.details
  keyHash : r.keyHash = r'.keyHash
  validUntilTS : r.validUntilTS = r'.validUntilTS
  previousHash : r.previousHash = r'.previousHash

/-- The columns contain equally many separators, and are NULL together. -/
structure Row.SameShape (r r' : Row) : Prop where
  serverName : r.serverName.count '|' = r'.serverName.count '|'
  keyID : r.keyID.map (count '|') = r'.keyID.map (count '|')
  eventType : r.eventType.count '|' = r'.eventType.count '|'
  details : r.details.map (count '|') = r'.details.map (count '|')
  keyHash : r.keyHash.map (count '|') = r'.keyHash.map (count '|')
  validUntilTS : r.validUntilTS.isSome = r'.validUntilTS.isSome
  previousHash : r.previousHash.isSome = r'.previousHash.isSome

variable {r r' : Row}

theorem Row.Agree.sameShape (h : r.Agree r') : r.SameShape r' := by
  refine ⟨?_, ?_, ?_, ?_, ?_, ?_, ?_⟩
  · rw [h.serverName]
  · rw [h.keyID]
  · rw [h.eventType]
  · rw [h.details]
  · rw [h.keyHash]
  · rw [h.validUntilTS]
  · rw [h.previousHash]

/-- A column that may be NULL, from its value and whether it is NULL. -/
theorem eq_of_getD {α : Type} {a b : Option α} {z : α} (hsome : a.isSome = b.isSome)
    (h : a.getD z = b.getD z) : a = b := by
  cases a <;> cases b <;> simp_all

/-- **With equally many separators the text determines the columns.** -/
theorem agree_of_hashedText (hshape : r.SameShape r')
    (h : hashedText (r.scan zone) = hashedText (r'.scan zone')) : r.Agree r' := by
  have hcount : ∀ {a b : Option Text},
      a.map (count '|') = b.map (count '|') →
        (a.getD []).count '|' = (b.getD []).count '|' ∧ a.isSome = b.isSome := by
    intro a b hab
    cases a <;> cases b <;> simp_all
  obtain ⟨htime, h⟩ := append_separator_inj (by rw [count_format, count_format]) h
  obtain ⟨hserver, h⟩ := append_separator_inj hshape.serverName h
  obtain ⟨hkey, h⟩ := append_separator_inj (hcount hshape.keyID).1 h
  obtain ⟨hevent, h⟩ := append_separator_inj hshape.eventType h
  obtain ⟨hdetails, h⟩ := append_separator_inj (hcount hshape.details).1 h
  obtain ⟨hkeyHash, h⟩ := append_separator_inj (hcount hshape.keyHash).1 h
  obtain ⟨huntil, hprevious⟩ := append_separator_inj (by rw [count_intText, count_intText]) h
  have huntil' : (r.scan zone).validUntilTS = (r'.scan zone').validUntilTS := by
    have hint := congrArg Json.intOf huntil
    rw [Canonical.intOf_intText, Canonical.intOf_intText] at hint
    exact Option.some.inj hint
  exact ⟨(Rfc3339.format_injective htime).1, hserver, eq_of_getD (hcount hshape.keyID).2 hkey,
    hevent, eq_of_getD (hcount hshape.details).2 hdetails,
    eq_of_getD (hcount hshape.keyHash).2 hkeyHash, eq_of_getD hshape.validUntilTS huntil',
    eq_of_getD hshape.previousHash hprevious⟩

/-! ## Two tables -/

/-- The bytes that are hashed when a table is verified. -/
def hashedBytes (zone : Int → Int) (table : List Row) : List Bytes :=
  table.map fun row => Utf8.encode (hashedText (row.scan zone))

variable {previous' : Text}

/-- Rows with the same hash agree, when they have the same shape. -/
theorem agree_of_entryHash {rows' : List Row} (hr : Linked sha256 zone previous (r :: rows))
    (hr' : Linked sha256 zone' previous' (r' :: rows'))
    (hinj : sha256 (Utf8.encode (hashedText (r.scan zone))) =
      sha256 (Utf8.encode (hashedText (r'.scan zone'))) →
      Utf8.encode (hashedText (r.scan zone)) = Utf8.encode (hashedText (r'.scan zone')))
    (hshape : r.SameShape r') (hhash : r.entryHash = r'.entryHash) :
    r.Agree r' ∧ previous = previous' := by
  obtain ⟨hprevious, hcompute, -⟩ := hr
  obtain ⟨hprevious', hcompute', -⟩ := hr'
  rw [← hcompute, ← hcompute'] at hhash
  have hbytes := hinj (Hex.encode_injective hhash)
  have htext : hashedText (r.scan zone) = hashedText (r'.scan zone') := by
    have hdecode := congrArg Utf8.decode hbytes
    rwa [Utf8.decode_encode, Utf8.decode_encode] at hdecode
  have hagree := agree_of_hashedText hshape htext
  refine ⟨hagree, ?_⟩
  rw [← hprevious, ← hprevious']
  exact congrArg (Option.getD · []) hagree.previousHash

/-- The last hash binds all rows before it: from the end of the table each row hands the hash of the
one before to the next step. -/
theorem agree_of_last {table' : List Row} (hshape : Forall₂ Row.SameShape table table')
    (hlinked : Linked sha256 zone previous table) (hlinked' : Linked sha256 zone' previous' table')
    (hlast : table.getLast?.map Row.entryHash = table'.getLast?.map Row.entryHash)
    (hinj : ∀ a ∈ hashedBytes zone table, ∀ b ∈ hashedBytes zone' table',
      sha256 a = sha256 b → a = b) :
    Forall₂ Row.Agree table table' ∧ (table ≠ [] → previous = previous') := by
  induction hshape generalizing previous previous' with
  | nil => exact ⟨.nil, fun hne => absurd rfl hne⟩
  | @cons r r' rows rows' hr hrows ih =>
    have hrest : Forall₂ Row.Agree rows rows' ∧ r.entryHash = r'.entryHash := by
      have hinj' : ∀ a ∈ hashedBytes zone rows, ∀ b ∈ hashedBytes zone' rows',
          sha256 a = sha256 b → a = b := fun a ha b hb =>
        hinj a (mem_cons_of_mem _ ha) b (mem_cons_of_mem _ hb)
      cases hrows with
      | nil => exact ⟨.nil, Option.some.inj hlast⟩
      | cons _ _ =>
        rw [getLast?_cons_cons, getLast?_cons_cons] at hlast
        obtain ⟨hagree, hprevious⟩ := ih hlinked.2.2 hlinked'.2.2 hlast hinj'
        exact ⟨hagree, hprevious (cons_ne_nil _ _)⟩
    obtain ⟨hagree, hprevious⟩ := agree_of_entryHash hlinked hlinked'
      (hinj _ mem_cons_self _ mem_cons_self) hr hrest.2
    exact ⟨.cons hagree hrest.1, fun _ => hprevious⟩

/-- **What the hash chain binds.**  Two tables that pass `VerifyChain` and end in the same hash
agree in every column exactly when corresponding columns contain equally many separators and are
NULL together. The hash is asked to tell apart what is hashed of the two tables, and nothing else.
-/
theorem chain_binds_iff {limit limit' : Nat} {table table' : List Row}
    (hlimit : table.length ≤ limit) (hlimit' : table'.length ≤ limit')
    (hvalid : (verifyChain sha256 zone limit table).1 = true)
    (hvalid' : (verifyChain sha256 zone' limit' table').1 = true)
    (hlast : table.getLast?.map Row.entryHash = table'.getLast?.map Row.entryHash)
    (hinj : ∀ a ∈ hashedBytes zone table, ∀ b ∈ hashedBytes zone' table',
      sha256 a = sha256 b → a = b) :
    List.Forall₂ Row.Agree table table' ↔ List.Forall₂ Row.SameShape table table' := by
  constructor
  · exact fun h => h.imp fun _ _ hagree => hagree.sameShape
  · intro hshape
    exact (agree_of_last hshape ((verifyChain_valid hlimit).1 hvalid)
      ((verifyChain_valid hlimit').1 hvalid') hlast hinj).1

/-! ## A separator in a column -/

/-- An entry for a server and a key, at 2026-06-22T00:50:40Z. -/
def sampleEntry (sha256 : Bytes → Bytes) (previous serverName keyID : Text) : Entry :=
  let e : Entry := {
    timestamp := ⟨1782089440000000000, 0⟩
    serverName := serverName
    keyID := keyID
    eventType := "KEY_FIRST_SEEN".toList
    details := []
    keyHash := []
    validUntilTS := 10
    previousHash := previous
    entryHash := [] }
  { e with entryHash := computeEntryHash sha256 e }

theorem linked_sample {serverName keyID : Text} :
    Linked sha256 (fun _ => 0) previous
        ((sampleEntry sha256 previous serverName keyID).toRow :: rows) ↔
      Linked sha256 (fun _ => 0) (sampleEntry sha256 previous serverName keyID).entryHash rows := by
  have hread : (sampleEntry sha256 previous serverName keyID).toRow.scan (fun _ => 0) =
      sampleEntry sha256 previous serverName keyID :=
    scan_toRow (show (1782089440000000000 : Int) % 1000 = 0 by decide) rfl
  rw [Linked, hread]
  exact ⟨fun h => h.2.2, fun h => ⟨rfl, rfl, h⟩⟩

/-- The two ways to put `a|b|c` into the first two columns give the same text. -/
theorem shifted_hash : (sampleEntry Digest.sha256 genesis "a".toList "b|c".toList).entryHash =
    (sampleEntry Digest.sha256 genesis "a|b".toList "c".toList).entryHash :=
  congrArg (fun text => Hex.encode (Digest.sha256 (Utf8.encode text))) (by decide +kernel)

/-- A first entry for a server and a key, and one for `s` and `k` behind it. -/
def sampleTable (serverName keyID : Text) : List Row :=
  let first := sampleEntry Digest.sha256 genesis serverName keyID
  [first.toRow, (sampleEntry Digest.sha256 first.entryHash "s".toList "k".toList).toRow]

theorem sampleTable_valid (serverName keyID : Text) :
    (verifyChain Digest.sha256 (fun _ => 0) 2 (sampleTable serverName keyID)).1 = true :=
  (verifyChain_valid (show (sampleTable serverName keyID).length ≤ 2 from le_rfl)).2
    (linked_sample.2 (linked_sample.2 trivial))

/-- Two tables that end in the same hash and differ in their first rows: the columns do not agree,
and neither do the separators. -/
theorem chain_binds_shifted :
    (sampleTable "a".toList "b|c".toList).getLast?.map Row.entryHash =
        (sampleTable "a|b".toList "c".toList).getLast?.map Row.entryHash ∧
      ¬List.Forall₂ Row.Agree (sampleTable "a".toList "b|c".toList)
        (sampleTable "a|b".toList "c".toList) ∧
      ¬List.Forall₂ Row.SameShape (sampleTable "a".toList "b|c".toList)
        (sampleTable "a|b".toList "c".toList) := by
  have hlast : (sampleTable "a".toList "b|c".toList).getLast?.map Row.entryHash =
      (sampleTable "a|b".toList "c".toList).getLast?.map Row.entryHash :=
    congrArg (fun hash => some (sampleEntry Digest.sha256 hash "s".toList "k".toList).entryHash)
      shifted_hash
  have hiff := chain_binds_iff
    (show (sampleTable "a".toList "b|c".toList).length ≤ 2 from le_rfl)
    (show (sampleTable "a|b".toList "c".toList).length ≤ 2 from le_rfl)
    (sampleTable_valid _ _) (sampleTable_valid _ _) hlast (by decide +kernel)
  have hdiffer : ¬List.Forall₂ Row.Agree (sampleTable "a".toList "b|c".toList)
      (sampleTable "a|b".toList "c".toList) := by
    rintro (_ | ⟨hagree, -⟩)
    exact absurd hagree.serverName (by decide)
  exact ⟨hlast, hdiffer, fun hshape => hdiffer (hiff.2 hshape)⟩

/-- **A separator moves from one column to the next**: a key `b|c` of the server `a` and a key `c`
of the server `a|b` have the same hash, and both tables pass. -/
theorem shifted_separator : ∃ r r' : Row,
    (verifyChain Digest.sha256 (fun _ => 0) 1 [r]).1 = true ∧
      (verifyChain Digest.sha256 (fun _ => 0) 1 [r']).1 = true ∧
      r.entryHash = r'.entryHash ∧ r.serverName ≠ r'.serverName ∧ r.keyID ≠ r'.keyID := by
  have hvalid : ∀ serverName keyID, (verifyChain Digest.sha256 (fun _ => 0) 1
      [(sampleEntry Digest.sha256 genesis serverName keyID).toRow]).1 = true := fun _ _ =>
    (verifyChain_valid (show [_].length ≤ 1 from le_rfl)).2 (linked_sample.2 trivial)
  refine ⟨_, _, hvalid "a".toList "b|c".toList, hvalid "a|b".toList "c".toList,
    shifted_hash, ?_, ?_⟩
  · show "a".toList ≠ "a|b".toList
    decide
  · show some "b|c".toList ≠ some "c".toList
    decide

end MxKeys.Transparency
