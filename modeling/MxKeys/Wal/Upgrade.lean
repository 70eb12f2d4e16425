/-
# MxKeys.Wal.Upgrade — from the second format of the log to the third.

A log of the second format has no HMACs.  `Upgrade` reads its records, writes them with HMACs to
`raft.wal.upgrade`, takes the original away (it is renamed, or removed) and renames the new file
into place.  The operations on files may fail, reading also in the middle of the file, and a crash
may come between any two of them.

`upgrade_preserves_log`: after a successful upgrade the reader of the third format finds the entries
of the records that `readV2` extracted.  These are the records of what was read: an error while a
payload is read ends `readV2` without an error of its own.

`upgrade_crash_iff`: when reading met no error, a crash leaves the original or the complete new file
under `raft.wal`, except between the last two operations: then there is no `raft.wal`, and the next
`OpenWAL` creates an empty one (`upgrade_loses_log`).  A single rename over the original would have
no such moment.
-/
import MxKeys.Lib.Interaction
import MxKeys.Wal.Sessions
import MxKeys.Wal.Torn

namespace MxKeys.Wal

open MxKeys.Lib MxKeys.Lib.Digest
open MxKeys.Raft (WalStatus)
open List Option

/-! ## The second format -/

/-- `walMagicV2`. -/
def walMagicV2 : Bytes :=
  [0x4D, 0x58, 0x4B, 0x53, 0x5F, 0x57, 0x41, 0x4C, 0x5F, 0x76, 0x32, 0x00]

/-- `walV2HeaderSize`. -/
def walV2HeaderSize : Nat := 8

/-- A record of the second format: the header has length and checksum only. -/
def recordV2 (payload : Bytes) : Bytes := headerStart payload ++ payload

/-- One round of the loop of `readV2`: a payload and the bytes behind it, or nothing where the loop
ends (in a header or a payload that is not read whole, at a length that is zero or too large, at a
checksum that does not match). -/
def readV2Record (bytes : Bytes) : Option (Bytes × Bytes) :=
  if bytes.length < walV2HeaderSize then none
  else
    let length := ofLe32 (bytes.take 4)
    let declaredCRC := ofLe32 ((bytes.drop 4).take 4)
    let body := bytes.drop walV2HeaderSize
    if length = 0 ∨ walMaxRecord < length then none
    else if body.length < length then none
    else if (crc32c (body.take length)).toNat ≠ declaredCRC then none
    else some (body.take length, body.drop length)

/-- The loop of `readV2`, with fuel for its rounds: the payloads, and the bytes of the round that
ended it. -/
def readV2Loop : Nat → Bytes → List Bytes × Bytes
  | 0, bytes => ([], bytes)
  | fuel + 1, bytes =>
    match readV2Record bytes with
    | none => ([], bytes)
    | some (payload, rest) => (readV2Loop fuel rest).map (payload :: ·) id

/-- The errors of `Upgrade`. -/
inductive UpgradeError
  | keyRequired
  | openFile
  | readMagic
  | alreadyV3
  | notV2
  | readHeader
  | create
  | writeMagic
  | record (i : Nat)
  | fsync
  | close
  | backupRename
  | removeV2
  | renameV3
  deriving DecidableEq

/-- `readV2`, from the bytes that were read and whether an error ended them, and not the end of the
file.  The error is reported for a header; for a payload it is not.  A round takes more than one
byte, so one round a byte is enough. -/
def readV2 (failed : Bool) (bytes : Bytes) : Except UpgradeError (List Bytes) :=
  if bytes.length < walMagicV2.length then .error .readMagic
  else if bytes.take walMagicV2.length = walMagic then .error .alreadyV3
  else if bytes.take walMagicV2.length ≠ walMagicV2 then .error .notV2
  else
    let found := readV2Loop bytes.length (bytes.drop walMagicV2.length)
    if failed ∧ found.2.length < walV2HeaderSize then .error .readHeader else .ok found.1

theorem readV2Record_some {bytes payload rest : Bytes} :
    readV2Record bytes = some (payload, rest) ↔
      Recordable payload ∧ bytes = recordV2 payload ++ rest := by
  constructor
  · intro h
    unfold readV2Record at h
    dsimp only at h
    split_ifs at h with hshort hlength hbody hcrc
    cases h
    rw [not_lt, walV2HeaderSize] at hshort
    rw [not_or, not_lt] at hlength
    rw [not_lt] at hbody
    have hlen : ((bytes.drop walV2HeaderSize).take (ofLe32 (bytes.take 4))).length =
        ofLe32 (bytes.take 4) := length_take_of_le hbody
    refine ⟨⟨ne_nil_of_length_pos (by omega), by omega⟩, ?_⟩
    -- the four parts of the bytes are those of the record
    have hfirst : le32 (ofLe32 (bytes.take 4)) = bytes.take 4 :=
      le32_ofLe32 (length_take_of_le (by omega))
    have hsecond : le32 (ofLe32 ((bytes.drop 4).take 4)) = (bytes.drop 4).take 4 :=
      le32_ofLe32 (length_take_of_le (by rw [length_drop]; omega))
    have hlast : (bytes.drop 4).drop 4 = bytes.drop walV2HeaderSize := drop_drop
    rw [recordV2, headerStart, hlen, not_not.1 hcrc, hfirst, hsecond, append_assoc,
      take_append_drop, append_assoc, ← hlast, take_append_drop,
      take_append_drop]
  · rintro ⟨⟨hne, hlen⟩, rfl⟩
    have hsmall : payload.length < 4294967296 := lt_of_le_of_lt hlen (by decide)
    have hpos : 0 < payload.length := length_pos_of_ne_nil hne
    have hlength : ofLe32 ((recordV2 payload ++ rest).take 4) = payload.length := ofLe32_le32 hsmall
    have hcrc : ofLe32 (((recordV2 payload ++ rest).drop 4).take 4) = (crc32c payload).toNat :=
      ofLe32_le32 (crc32c payload).toNat_lt
    have hbody : (recordV2 payload ++ rest).drop walV2HeaderSize = payload ++ rest := rfl
    have hheader : ¬(recordV2 payload ++ rest).length < walV2HeaderSize := by
      simp only [recordV2, headerStart, walV2HeaderSize, length_append, length_le32]
      omega
    unfold readV2Record
    rw [if_neg hheader]
    rw [hlength, hcrc, hbody, if_neg (by omega), if_neg (by simp), take_left, drop_left,
      if_neg (not_not.2 rfl)]

/-- The bytes start with whole records of these payloads, and what follows is not a whole record. -/
structure Leading (bytes : Bytes) (payloads : List Bytes) (rest : Bytes) :
    Prop where
  eq : bytes = (payloads.map recordV2).flatten ++ rest
  whole : ∀ payload ∈ payloads, Recordable payload
  stop : ∀ payload more, Recordable payload → rest ≠ recordV2 payload ++ more

theorem leading_readV2Loop : ∀ (fuel : Nat) (bytes : Bytes), bytes.length < fuel →
    Leading bytes (readV2Loop fuel bytes).1 (readV2Loop fuel bytes).2 := by
  intro fuel
  induction fuel with
  | zero => intro bytes h; omega
  | succ fuel ih =>
    intro bytes h
    unfold readV2Loop
    cases hfound : readV2Record bytes with
    | none =>
      refine ⟨rfl, forall_mem_nil _, fun payload more hpayload heq => ?_⟩
      rw [readV2Record_some.2 ⟨hpayload, heq⟩] at hfound
      cases hfound
    | some found =>
      obtain ⟨payload, rest⟩ := found
      obtain ⟨hpayload, rfl⟩ := readV2Record_some.1 hfound
      have hrest : rest.length < fuel := by
        simp only [recordV2, headerStart, length_append, length_le32] at h
        omega
      have hlast := ih rest hrest
      refine ⟨?_, forall_mem_cons.2 ⟨hpayload, hlast.whole⟩, hlast.stop⟩
      show _ = (map recordV2 (payload :: (readV2Loop fuel rest).1)).flatten ++ _
      rw [map_cons, flatten_cons, append_assoc]
      exact congrArg (recordV2 payload ++ ·) hlast.eq

variable {file : Bytes}

/-- **What `readV2` extracts** from what was read: every whole record up to the first that is
malformed or torn. -/
theorem leading_readV2 {failed : Bool} {bytes : Bytes} {payloads : List Bytes}
    (h : readV2 failed bytes = .ok payloads) :
    ∃ rest, Leading (bytes.drop walMagicV2.length) payloads rest := by
  unfold readV2 at h
  dsimp only at h
  split_ifs at h with hlen
  obtain rfl := Except.ok.inj h
  have hpos : (bytes.drop walMagicV2.length).length < bytes.length := by
    rw [length_drop]
    have : walMagicV2.length = 12 := rfl
    omega
  exact ⟨_, leading_readV2Loop bytes.length _ hpos⟩

/-- A file of the second format that is read to its end is no error. -/
theorem readV2_whole (h : file.take walMagicV2.length = walMagicV2) :
    ∃ payloads, readV2 false file = .ok payloads := by
  have hlen : ¬file.length < walMagicV2.length := by
    intro hlt
    have := congrArg List.length h
    rw [length_take] at this
    omega
  refine ⟨(readV2Loop file.length (file.drop walMagicV2.length)).1, ?_⟩
  rw [readV2, if_neg hlen, h, if_neg (by decide), if_neg (not_not.2 rfl)]
  exact if_neg fun hfailed => Bool.false_ne_true hfailed.1

/-! ## The files -/

/-- A file.  What was not synced may be anything after a crash. -/
structure File where
  bytes : Bytes
  synced : Bool
  deriving DecidableEq

/-- What is not synced may be anything. -/
def File.crashed (lost : Bytes) (f : File) : File :=
  if f.synced then f else ⟨lost, true⟩

/-- The files of the state directory: `raft.wal`, `raft.wal.upgrade`, `raft.wal.v2-backup`. -/
structure Directory where
  wal : Option File
  upgrade : Option File
  backup : Option File
  deriving DecidableEq

/-- The directory after a crash. -/
def Directory.crashed (lost : Bytes) (d : Directory) : Directory :=
  ⟨d.wal.map (File.crashed lost), d.upgrade.map (File.crashed lost),
    d.backup.map (File.crashed lost)⟩

/-- `OpenWAL`: a file that is not there is created, and an empty one gets the magic. -/
def Directory.openWAL (d : Directory) : Option Bytes :=
  ensureMagic ((d.wal.map File.bytes).getD [])

variable {d : Directory}

/-- Without `raft.wal`, the log is empty. -/
theorem openWAL_missing (h : d.wal = none) : d.openWAL = some walMagic := by
  rw [Directory.openWAL, h]
  rfl

/-- An operation of `Upgrade` on files. -/
inductive UpgradeOp
  /-- Open `raft.wal` and read it. -/
  | readWal
  /-- Open `raft.wal.upgrade` with `O_CREATE|O_TRUNC`. -/
  | create
  | write (bytes : Bytes)
  | sync
  | close
  /-- `os.Remove(tmp)`. -/
  | removeTmp
  /-- `os.Rename(src, backupPath)`. -/
  | backupWal
  /-- `os.Remove(src)`. -/
  | removeWal
  /-- `os.Rename(tmp, src)`. -/
  | renameTmp

/-- Reading gives the bytes up to the end of the file or to an error, and whether it was an error,
unless the file cannot be opened; the other operations succeed or fail. -/
def UpgradeOp.Answer : UpgradeOp → Type
  | .readWal => Option (Bytes × Bool)
  | _ => Bool

/-- The operations on the new file alone. -/
def UpgradeOp.onTmp : UpgradeOp → Bool
  | .readWal | .backupWal | .removeWal | .renameTmp => false
  | _ => true

/-- What an operation does to the files.  Renaming and removing are atomic. -/
def Directory.apply (d : Directory) : (o : UpgradeOp) → o.Answer → Directory
  | .create, (true : Bool) => { d with upgrade := some ⟨[], false⟩ }
  | .write bytes, (true : Bool) =>
    { d with upgrade := d.upgrade.map fun f => ⟨f.bytes ++ bytes, false⟩ }
  | .write _, (false : Bool) => { d with upgrade := d.upgrade.map fun f => ⟨f.bytes, false⟩ }
  | .sync, (true : Bool) => { d with upgrade := d.upgrade.map fun f => ⟨f.bytes, true⟩ }
  | .removeTmp, (true : Bool) => { d with upgrade := none }
  | .backupWal, (true : Bool) => { d with backup := d.wal, wal := none }
  | .removeWal, (true : Bool) => { d with wal := none }
  | .renameTmp, (true : Bool) => { d with wal := d.upgrade, upgrade := none }
  | _, _ => d

/-! ## The program -/

/-- A program that works on files. -/
abbrev Tool := Prog UpgradeOp UpgradeOp.Answer

def askTool (o : UpgradeOp) : Tool o.Answer := Prog.op o

/-- The forty bytes before a payload. -/
def recordHeader (key payload : Bytes) : Bytes :=
  headerStart payload ++ hmacSHA256 key (headerStart payload ++ payload)

/-- The loop of `writeV3` over `writeV3Record`, from record `i` on. -/
def writeRecords (key : Bytes) (i : Nat) :
    List Bytes → Tool (Except UpgradeError Unit)
  | [] => pure (.ok ())
  | payload :: payloads =>
    if walMaxRecord < payload.length then pure (.error (.record i))
    else do
      let header : Bool ← askTool (.write (recordHeader key payload))
      if !header then pure (.error (.record i))
      else do
        let body : Bool ← askTool (.write payload)
        if !body then pure (.error (.record i)) else writeRecords key (i + 1) payloads

/-- The part of `writeV3` that has the file open. -/
def writeFile (key : Bytes) (payloads : List Bytes) :
    Tool (Except UpgradeError Unit) := do
  let magic : Bool ← askTool (.write walMagic)
  if !magic then pure (.error .writeMagic)
  else do
    match ← writeRecords key 0 payloads with
    | .error e => pure (.error e)
    | .ok () => do
      let synced : Bool ← askTool .sync
      if !synced then pure (.error .fsync) else pure (.ok ())

/-- `writeV3`.  Closing the file is an error only after everything else went well. -/
def writeV3 (key : Bytes) (payloads : List Bytes) :
    Tool (Except UpgradeError Unit) := do
  let created : Bool ← askTool .create
  if !created then pure (.error .create)
  else do
    match ← writeFile key payloads with
    | .error e => do
      let _closed : Bool ← askTool .close
      pure (.error e)
    | .ok () => do
      let closed : Bool ← askTool .close
      if !closed then pure (.error .close) else pure (.ok ())

/-- The original is taken away: renamed to the backup, or removed. -/
def displaceWal (keepV2 : Bool) : Tool (Except UpgradeError Unit) :=
  if keepV2 then do
    let renamed : Bool ← askTool .backupWal
    pure (if renamed then .ok () else .error .backupRename)
  else do
    let removed : Bool ← askTool .removeWal
    pure (if removed then .ok () else .error .removeV2)

/-- `Upgrade`; the number of records. -/
def upgrade (key : Bytes) (keepV2 : Bool) : Tool (Except UpgradeError Nat) :=
  if key = [] then pure (.error .keyRequired)
  else do
    let read : Option (Bytes × Bool) ← askTool .readWal
    match read with
    | none => pure (.error .openFile)
    | some (bytes, failed) =>
      match readV2 failed bytes with
      | .error e => pure (.error e)
      | .ok payloads => do
        match ← writeV3 key payloads with
        | .error e => do
          let _removed : Bool ← askTool .removeTmp
          pure (.error e)
        | .ok () => do
          match ← displaceWal keepV2 with
          | .error e => do
            let _removed : Bool ← askTool .removeTmp
            pure (.error e)
          | .ok () => do
            let renamed : Bool ← askTool .renameTmp
            pure (if renamed then .ok payloads.length else .error .renameV3)

/-! ## What every operation finds -/

/-- The files, and how far the run has come. -/
structure Progress where
  dir : Directory
  /-- What reading `raft.wal` gave. -/
  read : Option (Bytes × Bool)
  /-- The original was renamed or removed. -/
  displaced : Bool
  /-- The new file was renamed into place. -/
  installed : Bool
  deriving DecidableEq

/-- The effect of an answer. -/
def Progress.note (o : UpgradeOp) (answer : o.Answer) (k : Progress) : Progress where
  dir := k.dir.apply o answer
  read := match o, answer with
    | .readWal, (answer : Option (Bytes × Bool)) => answer
    | _, _ => k.read
  displaced := match o, answer with
    | .backupWal, (true : Bool) => true
    | .removeWal, (true : Bool) => true
    | _, _ => k.displaced
  installed := match o, answer with
    | .renameTmp, (true : Bool) => true
    | _, _ => k.installed

/-- What `writeV3` writes. -/
def fileV3 (key : Bytes) (payloads : List Bytes) : Bytes :=
  walMagic ++ (payloads.map (record key)).flatten

/-- The payloads that were found when `raft.wal`, with the bytes `file`, was read. -/
structure Extracted (file : Bytes) (payloads : List Bytes) (bytes : Bytes)
    (failed : Bool) : Prop where
  part : bytes <+: file
  whole : failed = false → bytes = file
  found : readV2 failed bytes = .ok payloads

/-- What is under `raft.wal`: the original, nothing, or the new file. -/
inductive Phase (file key : Bytes) (k : Progress) : Prop
  | original (hdisplaced : k.displaced = false) (hinstalled : k.installed = false)
      (hwal : k.dir.wal = some ⟨file, true⟩)
  | between (hdisplaced : k.displaced = true) (hinstalled : k.installed = false)
      (hwal : k.dir.wal = none)
  | upgraded (hdisplaced : k.displaced = true) (hinstalled : k.installed = true)
      {payloads : List Bytes} {bytes : Bytes} {failed : Bool}
      (hread : k.read = some (bytes, failed)) (hfound : Extracted file payloads bytes failed)
      (hwal : k.dir.wal = some ⟨fileV3 key payloads, true⟩)

/-- Reading gives what is there, or a part of it and an error. -/
def Progress.Answers (k : Progress) : (o : UpgradeOp) → o.Answer → Prop
  | .readWal, (some (bytes, failed) : Option (Bytes × Bool)) =>
    (k.dir.wal.any fun f => if failed then bytes.isPrefixOf f.bytes else bytes = f.bytes) = true
  | _, _ => True

instance (k : Progress) : (o : UpgradeOp) → (answer : o.Answer) → Decidable (k.Answers o answer)
  | .readWal, (some (_, _) : Option (Bytes × Bool)) => inferInstanceAs (Decidable (_ = true))
  | .readWal, (none : Option (Bytes × Bool)) => isTrue trivial
  | .create, _ | .write _, _ | .sync, _ | .close, _ | .removeTmp, _ | .backupWal, _
  | .removeWal, _ | .renameTmp, _ => isTrue trivial

/-- A run is always in one of the phases. -/
def upgrading (file key : Bytes) : Prog.Contract UpgradeOp UpgradeOp.Answer Progress where
  note := Progress.note
  asks k _ := Phase file key k
  answers := Progress.Answers

open Prog

section Runs

variable {file key : Bytes} {payloads : List Bytes} {k : Progress}
  {read : Option (Bytes × Bool)}

/-- The original is in place, and `read` is what was read of it. -/
structure Untouched (file : Bytes) (read : Option (Bytes × Bool)) (k : Progress) :
    Prop where
  displaced : k.displaced = false
  installed : k.installed = false
  wal : k.dir.wal = some ⟨file, true⟩
  read : k.read = read

theorem Untouched.phase (h : Untouched file read k) : Phase file key k :=
  .original h.displaced h.installed h.wal

variable {o : UpgradeOp}

/-- Operations on the new file alone leave the original in place. -/
theorem Untouched.note (h : Untouched file read k) (ho : o.onTmp = true) (answer : o.Answer) :
    Untouched file read (Progress.note o answer k) := by
  obtain ⟨hdisplaced, hinstalled, hwal, hread⟩ := h
  cases o with
  | readWal | backupWal | removeWal | renameTmp => cases ho
  | close => exact ⟨hdisplaced, hinstalled, hwal, hread⟩
  | _ => cases (answer : Bool) <;> exact ⟨hdisplaced, hinstalled, hwal, hread⟩

/-- An operation on the new file alone. -/
theorem ensures_tmp {α : Type} {post : α → Progress → Prop} {f : o.Answer → Tool α}
    (ho : o.onTmp = true) (hk : Untouched file read k)
    (hf : ∀ answer, Untouched file read (Progress.note o answer k) →
      Ensures (upgrading file key) post (f answer) (Progress.note o answer k)) :
    Ensures (upgrading file key) post (askTool o >>= f) k :=
  ensures_ask hk.phase fun answer _ => hf answer (hk.note ho answer)

theorem ensures_writeRecords {written : Bytes} (i : Nat) (hk : Untouched file read k)
    (htmp : k.dir.upgrade = some ⟨written, false⟩) :
    Ensures (upgrading file key) (fun r k => Untouched file read k ∧ (r = .ok () →
      k.dir.upgrade = some ⟨written ++ (payloads.map (record key)).flatten, false⟩))
      (writeRecords key i payloads) k := by
  induction payloads generalizing i k written with
  | nil => exact ⟨hk, fun _ => by rw [htmp, map_nil, flatten_nil, append_nil]⟩
  | cons payload payloads ih =>
    unfold writeRecords
    split
    · exact ⟨hk, nofun⟩
    · refine ensures_tmp rfl hk fun header hk₁ => ?_
      cases (header : Bool) with
      | false => exact ⟨hk₁, nofun⟩
      | true =>
        refine ensures_tmp rfl hk₁ fun body hk₂ => ?_
        cases (body : Bool) with
        | false => exact ⟨hk₂, nofun⟩
        | true =>
          have htmp₂ : (Progress.note (.write payload) (true : Bool) (Progress.note
              (.write (recordHeader key payload)) (true : Bool) k)).dir.upgrade =
                some ⟨written ++ record key payload, false⟩ := by
            show (k.dir.upgrade.map _).map _ = _
            rw [htmp]
            exact congrArg (fun bytes => some (File.mk bytes false)) (append_assoc _ _ _)
          refine (ih (i + 1) hk₂ htmp₂).mono fun r k' h => ⟨h.1, fun hr => ?_⟩
          rw [h.2 hr, map_cons, flatten_cons, append_assoc]

theorem ensures_writeFile (hk : Untouched file read k) (htmp : k.dir.upgrade = some ⟨[], false⟩) :
    Ensures (upgrading file key) (fun r k => Untouched file read k ∧ (r = .ok () →
      k.dir.upgrade = some ⟨fileV3 key payloads, true⟩)) (writeFile key payloads) k := by
  refine ensures_tmp rfl hk fun magic hk₁ => ?_
  cases (magic : Bool) with
  | false => exact ⟨hk₁, nofun⟩
  | true =>
    have htmp₁ : (Progress.note (.write walMagic) (true : Bool) k).dir.upgrade =
        some ⟨walMagic, false⟩ := by
      show k.dir.upgrade.map _ = _
      rw [htmp]
      rfl
    refine ensures_bind (ensures_writeRecords 0 hk₁ htmp₁) fun r k₂ hk₂ => ?_
    cases r with
    | error e => exact ⟨hk₂.1, nofun⟩
    | ok u =>
      refine ensures_tmp rfl hk₂.1 fun synced hk₃ => ?_
      cases (synced : Bool) with
      | false => exact ⟨hk₃, nofun⟩
      | true =>
        refine ⟨hk₃, fun _ => ?_⟩
        show k₂.dir.upgrade.map _ = _
        rw [hk₂.2 rfl]
        rfl

theorem ensures_writeV3 (hk : Untouched file read k) :
    Ensures (upgrading file key) (fun r k => Untouched file read k ∧ (r = .ok () →
      k.dir.upgrade = some ⟨fileV3 key payloads, true⟩)) (writeV3 key payloads) k := by
  refine ensures_tmp rfl hk fun created hk₁ => ?_
  cases (created : Bool) with
  | false => exact ⟨hk₁, nofun⟩
  | true =>
    refine ensures_bind (ensures_writeFile hk₁ rfl) fun r k₂ hk₂ => ?_
    cases r with
    | error e => exact ensures_tmp rfl hk₂.1 fun _ hk₃ => ⟨hk₃, nofun⟩
    | ok u =>
      refine ensures_tmp rfl hk₂.1 fun closed hk₃ => ?_
      cases (closed : Bool) with
      | false => exact ⟨hk₃, nofun⟩
      | true => exact ⟨hk₃, fun _ => hk₂.2 rfl⟩

/-- Between the two renames there is no `raft.wal`. -/
structure Displaced (key : Bytes) (payloads : List Bytes)
    (read : Option (Bytes × Bool)) (k : Progress) : Prop where
  displaced : k.displaced = true
  installed : k.installed = false
  wal : k.dir.wal = none
  read : k.read = read
  upgrade : k.dir.upgrade = some ⟨fileV3 key payloads, true⟩

theorem ensures_displaceWal (keepV2 : Bool) (hk : Untouched file read k)
    (htmp : k.dir.upgrade = some ⟨fileV3 key payloads, true⟩) :
    Ensures (upgrading file key) (fun r k => (r = .ok () → Displaced key payloads read k) ∧
      (r ≠ .ok () → Untouched file read k)) (displaceWal keepV2) k := by
  obtain ⟨hdisplaced, hinstalled, hwal, hread⟩ := id hk
  unfold displaceWal
  cases keepV2 with
  | true =>
    refine ensures_ask hk.phase fun renamed _ => ?_
    cases (renamed : Bool) with
    | false => exact ⟨nofun, fun _ => ⟨hdisplaced, hinstalled, hwal, hread⟩⟩
    | true => exact ⟨fun _ => ⟨rfl, hinstalled, rfl, hread, htmp⟩, fun h => absurd rfl h⟩
  | false =>
    refine ensures_ask hk.phase fun removed _ => ?_
    cases (removed : Bool) with
    | false => exact ⟨nofun, fun _ => ⟨hdisplaced, hinstalled, hwal, hread⟩⟩
    | true => exact ⟨fun _ => ⟨rfl, hinstalled, rfl, hread, htmp⟩, fun h => absurd rfl h⟩

/-- What is found in a file that is in place. -/
theorem extracted_of_answers {bytes : Bytes} {failed : Bool}
    (hwal : k.dir.wal = some ⟨file, true⟩)
    (hanswer : k.Answers .readWal (some (bytes, failed) : Option (Bytes × Bool)))
    (hfound : readV2 failed bytes = .ok payloads) : Extracted file payloads bytes failed := by
  have hread : (k.dir.wal.any fun f =>
    if failed then bytes.isPrefixOf f.bytes else bytes = f.bytes) = true := hanswer
  rw [hwal] at hread
  cases failed with
  | true =>
    have hstart := isPrefixOf_iff_prefix.1 hread
    exact ⟨hstart, nofun, hfound⟩
  | false =>
    obtain rfl : bytes = file := of_decide_eq_true hread
    exact ⟨prefix_rfl, fun _ => rfl, hfound⟩

/-- **`Upgrade` is in one of the phases throughout**, and in the last one when it succeeds. -/
theorem ensures_upgrade (key : Bytes) (keepV2 : Bool) (hk : Untouched file read k) :
    Ensures (upgrading file key) (fun r k => Phase file key k ∧
      ∀ n, r = .ok n → ∃ payloads bytes failed, k.read = some (bytes, failed) ∧
        Extracted file payloads bytes failed ∧ n = payloads.length ∧
        k.dir.wal = some ⟨fileV3 key payloads, true⟩)
      (upgrade key keepV2) k := by
  unfold upgrade
  split
  · exact ⟨hk.phase, nofun⟩
  refine ensures_ask hk.phase fun answer hanswer => ?_
  have hk₁ : Untouched file answer (Progress.note .readWal answer k) :=
    ⟨hk.displaced, hk.installed, hk.wal, rfl⟩
  cases (answer : Option (Bytes × Bool)) with
  | none => exact ⟨hk₁.phase, nofun⟩
  | some bytes =>
    obtain ⟨bytes, failed⟩ := bytes
    dsimp only
    cases hfound : readV2 failed bytes with
    | error e => exact ⟨hk₁.phase, nofun⟩
    | ok payloads =>
      have hextracted := extracted_of_answers hk.wal hanswer hfound
      refine ensures_bind (ensures_writeV3 hk₁) fun r k₂ hk₂ => ?_
      cases r with
      | error e => exact ensures_tmp rfl hk₂.1 fun _ hk₃ => ⟨hk₃.phase, nofun⟩
      | ok u =>
        refine ensures_bind (ensures_displaceWal keepV2 hk₂.1 (hk₂.2 rfl)) fun r k₃ hk₃ => ?_
        cases r with
        | error e =>
          exact ensures_tmp rfl (hk₃.2 nofun) fun _ hk₄ => ⟨hk₄.phase, nofun⟩
        | ok u =>
          obtain ⟨hdisplaced, hinstalled, hwal, hread, htmp⟩ := hk₃.1 rfl
          refine ensures_ask (.between hdisplaced hinstalled hwal) fun renamed _ => ?_
          cases (renamed : Bool) with
          | false => exact ⟨.between hdisplaced hinstalled hwal, nofun⟩
          | true =>
            refine ⟨.upgraded hdisplaced rfl hread hextracted htmp, fun n hn => ?_⟩
            exact ⟨payloads, bytes, failed, hread, hextracted, (Except.ok.inj hn).symm, htmp⟩

end Runs

/-! ## Whole runs and crashes -/

/-- Before the upgrade. -/
def Progress.start (d : Directory) : Progress := ⟨d, none, false, false⟩

/-- The operations of a run, with answers that the files can give. -/
def Possible (d : Directory) (run : List ((o : UpgradeOp) × o.Answer)) : Prop :=
  Allowed Progress.note Progress.Answers (.start d) run

/-- The files after a run, and how far it has come. -/
def Progress.after (d : Directory) (run : List ((o : UpgradeOp) × o.Answer)) : Progress :=
  notes Progress.note (.start d) run

variable {payloads : List Bytes}

/-- The upgraded file is read as the entries of its payloads. -/
theorem readAll_fileV3 (key : Bytes) (h : ∀ payload ∈ payloads, Recordable payload) :
    readAll key (fileV3 key payloads) = (entriesOf payloads,
      if payloads.all fun payload => (unmarshalEntry payload).isSome then .clean
      else .corrupt) := by
  rw [fileV3, readAll_magic, readRecords_payloads key h]

/-- **The upgrade preserves the log**: when it succeeds, the reader finds in the new file the
entries of the payloads that `readV2` extracted, which are those of the whole records up to the
first that is malformed or torn in what was read: the file, or a part of it if reading met an error.
The reader stops at the first payload that is no entry, and only there. -/
theorem upgrade_preserves_log {key file : Bytes} {keepV2 : Bool} {d : Directory}
    (hwal : d.wal = some ⟨file, true⟩) {run : List ((o : UpgradeOp) × o.Answer)}
    (hpossible : Possible d run) {n : Nat}
    (hrun : Steps (upgrade key keepV2) run (.ret (.ok n))) :
    ∃ payloads bytes failed rest new, (Progress.after d run).read = some (bytes, failed) ∧
      Extracted file payloads bytes failed ∧
      Leading (bytes.drop walMagicV2.length) payloads rest ∧ n = payloads.length ∧
      (Progress.after d run).dir.wal = some ⟨new, true⟩ ∧
      readAll key new = (entriesOf payloads,
        if payloads.all fun payload => (unmarshalEntry payload).isSome then .clean
        else .corrupt) := by
  have hstart : Untouched file none (.start d) := ⟨rfl, rfl, hwal, rfl⟩
  have hend := (ensures_upgrade key keepV2 hstart).steps hrun hpossible
  obtain ⟨payloads, bytes, failed, hread, hextracted, hn, hnew⟩ := hend.2 n rfl
  obtain ⟨rest, hleading⟩ := leading_readV2 hextracted.found
  exact ⟨payloads, bytes, failed, rest, _, hread, hextracted, hleading, hn, hnew,
    readAll_fileV3 key hleading.whole⟩

/-- A file of the second format with one entry. -/
def sampleV2 : Bytes :=
  walMagicV2 ++ recordV2 (Utf8.encode (entryJson nullEntry).marshal)

def sampleDirectory : Directory := ⟨some ⟨sampleV2, true⟩, none, none⟩

/-- Everything succeeds. -/
def obliging : (o : UpgradeOp) → o.Answer
  | .readWal => (some (sampleV2, false) : Option (Bytes × Bool))
  | .create | .write _ | .sync | .close | .removeTmp | .backupWal | .removeWal | .renameTmp =>
    (true : Bool)

/-- The run in which everything succeeds. -/
def sampleRun : List ((o : UpgradeOp) × o.Answer) := (play obliging (upgrade [1] true)).1

/-- The entry of the sample is found in the new file. -/
theorem upgrade_preserves_sample : Possible sampleDirectory sampleRun ∧
    Steps (upgrade [1] true) sampleRun (.ret (.ok 1)) ∧
    ∃ new, (Progress.after sampleDirectory sampleRun).dir.wal = some ⟨new, true⟩ ∧
      (readAll [1] new).2 = .clean ∧ (readAll [1] new).1.length = 1 := by
  have hpossible : Possible sampleDirectory sampleRun := by
    unfold Possible
    decide +kernel
  have hsteps : Steps (upgrade [1] true) sampleRun (.ret (.ok 1)) := by
    have hplay := steps_play obliging (upgrade [1] true)
    rwa [show (play obliging (upgrade [1] true)).2 = .ok 1 by decide +kernel] at hplay
  obtain ⟨payloads, bytes, failed, rest, new, hread, hextracted, -, -, hnew, hall⟩ :=
    upgrade_preserves_log (show sampleDirectory.wal = some ⟨sampleV2, true⟩ from rfl) hpossible
      hsteps
  have hwhole : (Progress.after sampleDirectory sampleRun).read = some (sampleV2, false) := by
    decide +kernel
  obtain ⟨rfl, rfl⟩ := Prod.mk.inj (some.inj (hwhole.symm.trans hread))
  have hpayloads : readV2 false sampleV2 = .ok [Utf8.encode (entryJson nullEntry).marshal] := by
    decide +kernel
  obtain rfl := Except.ok.inj (hpayloads.symm.trans hextracted.found)
  refine ⟨hpossible, hsteps, new, hnew, ?_, ?_⟩
  · rw [hall]
    decide +kernel
  · rw [hall]
    decide +kernel

/-- What a crash should leave under `raft.wal`: the original, or the complete new file; and
`OpenWAL` opens nothing else. -/
def Survived (key file : Bytes) (d : Directory) : Prop :=
  ∃ payloads f, readV2 false file = .ok payloads ∧ d.wal = some f ∧
    (f.bytes = file ∨ f.bytes = fileV3 key payloads) ∧
    ∀ log, d.openWAL = some log → log = fileV3 key payloads

/-- The original was taken away, and the new file is not in place yet. -/
def Progress.Unnamed (k : Progress) : Prop := k.displaced = true ∧ k.installed = false

theorem phase_of_run {key : Bytes} {keepV2 : Bool} (hwal : d.wal = some ⟨file, true⟩)
    {run : List ((o : UpgradeOp) × o.Answer)} (hpossible : Possible d run)
    {q : Tool (Except UpgradeError Nat)} (hrun : Steps (upgrade key keepV2) run q) :
    Phase file key (Progress.after d run) := by
  have hstart : Untouched file none (.start d) := ⟨rfl, rfl, hwal, rfl⟩
  have hq := (ensures_upgrade key keepV2 hstart).steps hrun hpossible
  cases q with
  | ret r => exact hq.1
  | ask o next => exact hq.1

theorem ensureMagic_v2 (h : file.take walMagicV2.length = walMagicV2) :
    ensureMagic file = none := by
  have hnil : file ≠ [] := by
    rintro rfl
    cases h
  have hmagic : file.take walMagic.length ≠ walMagic := by
    rw [show walMagic.length = walMagicV2.length from rfl, h]
    decide
  unfold ensureMagic
  rw [if_neg hnil, if_neg hmagic]
  split <;> rfl

theorem ensureMagic_fileV3 (key : Bytes) (payloads : List Bytes) :
    ensureMagic (fileV3 key payloads) = some (fileV3 key payloads) := by
  have hlen : ¬(fileV3 key payloads).length < walMagic.length := by
    rw [fileV3, length_append]
    omega
  have hnil : fileV3 key payloads ≠ [] := cons_ne_nil _ _
  unfold ensureMagic
  rw [if_neg hnil, if_neg hlen, fileV3, take_left, if_pos rfl]

/-- **Crash safety of the upgrade**: when the original was read without an error, whatever else
fails and wherever the crash comes, `raft.wal` is the original or the complete new file, and
`OpenWAL` opens nothing else, exactly when the crash does not come after the original was taken away
and before the new file is in place. -/
theorem upgrade_crash_iff {key file : Bytes} {keepV2 : Bool} {d : Directory}
    (hwal : d.wal = some ⟨file, true⟩) (hmagic : file.take walMagicV2.length = walMagicV2)
    {run : List ((o : UpgradeOp) × o.Answer)} (hpossible : Possible d run)
    {q : Tool (Except UpgradeError Nat)} (hrun : Steps (upgrade key keepV2) run q)
    (hread : ∀ bytes, (Progress.after d run).read ≠ some (bytes, true)) (lost : Bytes) :
    Survived key file ((Progress.after d run).dir.crashed lost) ↔
      ¬(Progress.after d run).Unnamed := by
  cases phase_of_run hwal hpossible hrun with
  | original hdisplaced hinstalled hfile =>
    obtain ⟨payloads, hfound⟩ := readV2_whole hmagic
    have hcrashed : ((Progress.after d run).dir.crashed lost).wal = some ⟨file, true⟩ := by
      rw [Directory.crashed, hfile]
      rfl
    refine iff_of_true ⟨payloads, _, hfound, hcrashed, .inl rfl, fun log hlog => ?_⟩ ?_
    · rw [Directory.openWAL, hcrashed] at hlog
      exact absurd hlog (by rw [map_some, getD_some, ensureMagic_v2 hmagic]; nofun)
    · rw [Progress.Unnamed, hdisplaced]
      exact fun h => absurd h.1 (by decide)
  | between hdisplaced hinstalled hfile =>
    refine iff_of_false ?_ (not_not.2 ⟨hdisplaced, hinstalled⟩)
    rintro ⟨_, f, -, hf, -⟩
    rw [Directory.crashed, hfile] at hf
    cases hf
  | @upgraded _ hinstalled payloads bytes failed hanswer hextracted hfile =>
    have hfound : readV2 false file = .ok payloads := by
      cases failed with
      | true => exact absurd hanswer (hread bytes)
      | false => exact hextracted.whole rfl ▸ hextracted.found
    have hcrashed : ((Progress.after d run).dir.crashed lost).wal =
        some ⟨fileV3 key payloads, true⟩ := by
      rw [Directory.crashed, hfile]
      rfl
    refine iff_of_true ⟨payloads, _, hfound, hcrashed, .inr rfl, fun log hlog => ?_⟩ ?_
    · rw [Directory.openWAL, hcrashed, map_some, getD_some,
        ensureMagic_fileV3] at hlog
      exact (some.inj hlog).symm
    · rw [Progress.Unnamed, hinstalled]
      exact fun h => absurd h.2 (by decide)

/-- A crash while the new file is written leaves the original. -/
theorem upgrade_crash_writing : ∃ run q, Steps (upgrade [1] true) run q ∧
    Possible sampleDirectory run ∧
    Survived [1] sampleV2 ((Progress.after sampleDirectory run).dir.crashed []) := by
  obtain ⟨q, hq⟩ := (steps_play obliging (upgrade [1] true)).take 4
  have hpossible : Possible sampleDirectory (sampleRun.take 4) := by
    unfold Possible
    decide +kernel
  have hread : (Progress.after sampleDirectory (sampleRun.take 4)).read =
    some (sampleV2, false) := by
    decide +kernel
  refine ⟨_, q, hq, hpossible, (upgrade_crash_iff rfl (by decide +kernel) hpossible hq ?_ []).2 ?_⟩
  · rw [hread]
    exact fun _ h => Bool.false_ne_true (Prod.mk.inj (some.inj h)).2
  rw [Progress.Unnamed]
  decide +kernel

/-- **A log that is lost**: the crash comes between the two renames.  There is no `raft.wal`, and
`OpenWAL` starts from a log without records. -/
theorem upgrade_loses_log : ∃ run q, Steps (upgrade [1] true) run q ∧
    Possible sampleDirectory run ∧
    (Progress.after sampleDirectory run).read = some (sampleV2, false) ∧
    readV2 false sampleV2 = .ok [Utf8.encode (entryJson nullEntry).marshal] ∧
    ((Progress.after sampleDirectory run).dir.crashed []).wal = none ∧
    ((Progress.after sampleDirectory run).dir.crashed []).openWAL = some walMagic ∧
    readAll [1] walMagic = ([], .clean) ∧
    ¬Survived [1] sampleV2 ((Progress.after sampleDirectory run).dir.crashed []) := by
  obtain ⟨q, hq⟩ := (steps_play obliging (upgrade [1] true)).take 8
  have hpossible : Possible sampleDirectory (sampleRun.take 8) := by
    unfold Possible
    decide +kernel
  have hwal : ((Progress.after sampleDirectory (sampleRun.take 8)).dir.crashed []).wal = none := by
    decide +kernel
  refine ⟨_, q, hq, hpossible, by decide +kernel, by decide +kernel, hwal, openWAL_missing hwal,
    ?_, ?_⟩
  · exact (readAll_magic [1] []).trans (readRecords_nil [1])
  · rintro ⟨_, f, -, hf, -⟩
    exact absurd (hwal.symm.trans hf) nofun

end MxKeys.Wal
