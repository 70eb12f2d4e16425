/-
# MxKeys.Keys.KeyProvider — the file-backed signing key and what crashes can do to it.

`LoadOrGenerate` keeps the signing key in one of two files: in the clear, or sealed under a
passphrase.  With a passphrase it prefers the sealed file, seals a key that it finds in the clear
and removes the clear file, or else makes a new key; without one it refuses to run beside a sealed
file.

The system is one storage directory and a sequence of calls with encryption on or off, each cut into
its file operations, with crashes anywhere between them.  A file that is put in place has been
synced, but the directory is not synced, so a crash may lose renames and removals
(`MxKeys.Lib.Disk`).  The identity of a directory is the key that a call would read from it; every
directory that a crash could leave has the identity of the directory in use, unless it has no key
file at all.
-/
import MxKeys.Lib.Digest
import MxKeys.Lib.Durable
import MxKeys.Lib.Run

namespace MxKeys.KeyProvider

open MxKeys.Lib
open List Option Digest

/-! ## Keys and envelopes -/

/-- Ed25519's public keys, PBKDF2 and AES-256-GCM.  All that is known is that what was sealed can be
opened. -/
structure Primitives where
  publicKey : Bytes → Bytes
  publicKey_length : ∀ seed, (publicKey seed).length = 32
  pbkdf2SHA256 : (passphrase salt : Bytes) → (iterations : Nat) → Bytes
  aeadSeal : (kek nonce plaintext header : Bytes) → Bytes
  aeadOpen : (kek nonce ciphertext header : Bytes) → Option Bytes
  aeadOpen_aeadSeal : ∀ kek nonce plaintext header,
    aeadOpen kek nonce (aeadSeal kek nonce plaintext header) header = some plaintext

/-- Why no key was loaded. -/
inductive KeyError
  | invalidLength (n : Nat)
  | badMagic
  | noPassphrase
  | lowIterations (n : Nat)
  | decryptFailed
  /-- "encrypted key file exists but no passphrase configured". -/
  | encryptedExists
  /-- An operation of the file system failed, or the random source. -/
  | io
  deriving DecidableEq

def privateKeySize : Nat := 64

def seedSize : Nat := 32

/-- `"MXKENC01"`. -/
def encMagic : Bytes := [0x4d, 0x58, 0x4b, 0x45, 0x4e, 0x43, 0x30, 0x31]

/-- Iterations for new files. -/
def pbkdf2Iterations : Nat := 600000

/-- Fewer iterations are refused. -/
def minPBKDF2Iterations : Nat := 10000

/-- The header of an envelope: magic, iterations, salt, nonce. -/
def envelopeHeader (salt nonce : Bytes) : Bytes :=
  encMagic ++ be32 (UInt32.ofNat pbkdf2Iterations) ++ salt ++ nonce

section Envelope

variable (p : Primitives)

/-- `ed25519.NewKeyFromSeed`. -/
def newKeyFromSeed (seed : Bytes) : Bytes := seed ++ p.publicKey seed

/-- `parsePrivateKey`: a key, or the seed of one. -/
def parsePrivateKey (data : Bytes) : Except KeyError Bytes :=
  if data.length = privateKeySize then .ok data
  else if data.length = seedSize then .ok (newKeyFromSeed p data)
  else .error (.invalidLength data.length)

/-- `encryptKey`, with the salt and the nonce that the random source gave. -/
def encryptKey (plaintext passphrase salt nonce : Bytes) : Except KeyError Bytes :=
  if passphrase = [] then .error .noPassphrase
  else
    let kek := p.pbkdf2SHA256 passphrase salt pbkdf2Iterations
    let header := envelopeHeader salt nonce
    .ok (header ++ p.aeadSeal kek nonce plaintext header)

/-- `decryptKey`. -/
def decryptKey (blob passphrase : Bytes) : Except KeyError Bytes :=
  if blob.length < 40 then .error .badMagic
  else if blob.take 8 ≠ encMagic then .error .badMagic
  else if passphrase = [] then .error .noPassphrase
  else
    let iterations := (ofBe32 ((blob.take 12).drop 8)).toNat
    if iterations < minPBKDF2Iterations then .error (.lowIterations iterations)
    else
      let salt := (blob.take 28).drop 12
      let nonce := (blob.take 40).drop 28
      let kek := p.pbkdf2SHA256 passphrase salt iterations
      match p.aeadOpen kek nonce (blob.drop 40) (blob.take 40) with
      | some plaintext => .ok plaintext
      | none => .error .decryptFailed

/-- `loadEncrypted`, given what the file holds. -/
def openEncrypted (passphrase blob : Bytes) : Except KeyError Bytes :=
  decryptKey p blob passphrase >>= parsePrivateKey p

/-- What `writeEncrypted` seals of a key. -/
def payload (priv : Bytes) : Bytes :=
  if priv.length = privateKeySize then priv.take seedSize else priv

variable {p} {salt nonce seed priv : Bytes}

theorem length_envelopeHeader (hs : salt.length = 16) (hn : nonce.length = 12) :
    (envelopeHeader salt nonce).length = 40 := by
  simp [envelopeHeader, encMagic, be32, hs, hn]

/-- **An envelope opens to what was sealed.** -/
theorem decryptKey_encryptKey {plaintext passphrase blob : Bytes} (hs : salt.length = 16)
    (hn : nonce.length = 12) (h : encryptKey p plaintext passphrase salt nonce = .ok blob) :
    decryptKey p blob passphrase = .ok plaintext := by
  unfold encryptKey at h
  split_ifs at h with hpass
  obtain rfl := Except.ok.inj h
  have hlen := length_envelopeHeader hs hn
  generalize hct : p.aeadSeal (p.pbkdf2SHA256 passphrase salt pbkdf2Iterations) nonce plaintext
    (envelopeHeader salt nonce) = ciphertext
  have htake : (envelopeHeader salt nonce ++ ciphertext).take 40 = envelopeHeader salt nonce := by
    rw [← hlen, take_left]
  have hdrop : (envelopeHeader salt nonce ++ ciphertext).drop 40 = ciphertext := by
    rw [← hlen, drop_left]
  have hmagic : (envelopeHeader salt nonce ++ ciphertext).take 8 = encMagic := by
    simp [envelopeHeader, encMagic]
  have hiter : ((envelopeHeader salt nonce ++ ciphertext).take 12).drop 8 =
      be32 (UInt32.ofNat pbkdf2Iterations) := by
    simp [envelopeHeader, encMagic, be32]
  have hsalt : ((envelopeHeader salt nonce ++ ciphertext).take 28).drop 12 = salt := by
    have h28 : (encMagic ++ be32 (UInt32.ofNat pbkdf2Iterations) ++ salt).length = 28 := by
      simp [encMagic, be32, hs]
    rw [envelopeHeader, append_assoc, ← h28, take_left]
    exact (drop_left : (encMagic ++ be32 (UInt32.ofNat pbkdf2Iterations) ++ salt).drop
      (encMagic ++ be32 (UInt32.ofNat pbkdf2Iterations)).length = salt)
  have hnonce : ((envelopeHeader salt nonce ++ ciphertext).take 40).drop 28 = nonce := by
    have h28 : (encMagic ++ be32 (UInt32.ofNat pbkdf2Iterations) ++ salt).length = 28 := by
      simp [encMagic, be32, hs]
    rw [htake, envelopeHeader, ← h28, drop_left]
  have hcount : (ofBe32 (be32 (UInt32.ofNat pbkdf2Iterations))).toNat =
      pbkdf2Iterations := by decide
  unfold decryptKey
  rw [if_neg (by rw [length_append, hlen]; omega), if_neg (not_not_intro hmagic), if_neg hpass]
  dsimp only
  rw [hiter, hcount, if_neg (by decide), hsalt, hnonce, hdrop, htake, ← hct, p.aeadOpen_aeadSeal]

theorem length_newKeyFromSeed (h : seed.length = seedSize) :
    (newKeyFromSeed p seed).length = privateKeySize := by
  rw [newKeyFromSeed, length_append, h, p.publicKey_length]
  rfl

theorem length_of_parsePrivateKey {data : Bytes} (h : parsePrivateKey p data = .ok priv) :
    priv.length = privateKeySize := by
  unfold parsePrivateKey at h
  split_ifs at h with hfull hseed
  · obtain rfl := Except.ok.inj h
    exact hfull
  · obtain rfl := Except.ok.inj h
    exact length_newKeyFromSeed hseed

theorem parsePrivateKey_full (h : priv.length = privateKeySize) :
    parsePrivateKey p priv = .ok priv := if_pos h

/-- The second half of the key is the public key of its first half. -/
def Consistent (p : Primitives) (priv : Bytes) : Prop :=
  priv = newKeyFromSeed p (priv.take seedSize)

instance (priv : Bytes) : Decidable (Consistent p priv) := inferInstanceAs (Decidable (_ = _))

theorem consistent_newKeyFromSeed (h : seed.length = seedSize) :
    Consistent p (newKeyFromSeed p seed) := by
  have htake : (newKeyFromSeed p seed).take seedSize = seed := by
    rw [newKeyFromSeed, ← h, take_left]
  rw [Consistent, htake]

/-- A key is read back from the seed, if it is the key of that seed. -/
theorem parsePrivateKey_payload (hlen : priv.length = privateKeySize) (h : Consistent p priv) :
    parsePrivateKey p (payload priv) = .ok priv := by
  have hseed : (priv.take seedSize).length = seedSize := by
    rw [length_take, hlen]
    rfl
  rw [payload, if_pos hlen, parsePrivateKey, if_neg (by rw [hseed]; decide), if_pos hseed]
  exact congrArg Except.ok h.symm

end Envelope

/-! ## The directory -/

/-- What a name of the directory stands for. -/
inductive Entry
  | file (data : Bytes)
  /-- It exists and cannot be read as a file: a directory, or a file without permission. -/
  | other

/-- The plaintext file and the encrypted one. -/
inductive FileName
  | plain
  | enc
  deriving DecidableEq

/-- The storage directory: `mxkeys_ed25519.key` and `mxkeys_ed25519.key.enc`. -/
structure Directory where
  plain : Option Entry
  enc : Option Entry

/-- Sets or removes a file. -/
def Directory.set (d : Directory) : FileName → Option Entry → Directory
  | .plain, e => { d with plain := e }
  | .enc, e => { d with enc := e }

/-- A file that is being written. -/
structure TempFile where
  data : Bytes
  synced : Bool

/-- A change of the directory. -/
inductive DirOp
  /-- A temporary file takes the name. -/
  | rename (name : FileName) (tmp : TempFile)
  | remove (name : FileName)

/-- What a change does to the directory. -/
def DirOp.apply : DirOp → Directory → Directory
  | .rename name tmp, d => d.set name (some (.file tmp.data))
  | .remove name, d => d.set name none

/-- A crash leaves anything of a file that has not been synced. -/
def DirOp.settle (garbage : Bytes) : DirOp → DirOp
  | .rename name tmp => .rename name (if tmp.synced then tmp else ⟨garbage, true⟩)
  | .remove name => .remove name

/-- The name stands for a file. -/
def isFile : Option Entry → Bool
  | some (.file _) => true
  | _ => false

/-- One of the files is there. -/
def Directory.hasKeyFile (d : Directory) : Bool := isFile d.plain || isFile d.enc

/-! ## The calls -/

/-- Where a call of `LoadOrGenerate` is; `encrypted` says whether it has a passphrase. -/
inductive Phase
  | idle
  | entered (encrypted : Bool)
  /-- There is no encrypted file. -/
  | noEncrypted (encrypted : Bool)
  /-- There is no file at all. -/
  | noKey (encrypted : Bool)
  /-- `writeAtomic(name, data)` for the key `priv`; `legacy` if the key was read in the clear. -/
  | writing (name : FileName) (data priv : Bytes) (legacy : Bool) (tmp : Option TempFile)
  /-- The legacy key has been sealed. -/
  | upgraded (priv : Bytes)

/-- The directory, the call in progress, and the results so far. -/
structure Storage where
  disk : Disk Directory DirOp
  phase : Phase
  /-- What the calls so far returned. -/
  results : List (Except KeyError Bytes)

/-- The directory as a call sees it. -/
def Storage.dir (s : Storage) : Directory := s.disk.view DirOp.apply

def Storage.at (s : Storage) (phase : Phase) : Storage := { s with phase := phase }

/-- The call returns. -/
def Storage.ret (s : Storage) (result : Except KeyError Bytes) : Storage :=
  { s with phase := .idle, results := s.results ++ [result] }

/-- What a crash leaves of the disk. -/
def Storage.crashed (s : Storage) (keep : List Bool) (garbage : Bytes) : Disk Directory DirOp :=
  Disk.crash DirOp.apply ⟨s.disk.durable, s.disk.pending.map (DirOp.settle garbage)⟩ keep

/-- The next operation of a call, with what the system answers; or a crash. -/
inductive Action
  | start (encrypted : Bool)
  | loadEncrypted
  /-- `os.Stat(encPath)`; `err` if it fails on something that is there. -/
  | statEncrypted (err : Bool)
  | readPlain (salt nonce : Bytes)
  | generate (seed salt nonce : Bytes)
  | createTemp
  | writeTemp
  | syncTemp
  | rename
  | removePlain (ok : Bool)
  /-- An operation fails and the call returns its error, or the process dies. -/
  | fail
  /-- A crash that keeps some of the changes to the directory. -/
  | crash (keep : List Bool) (garbage : Bytes)

section System

variable (p : Primitives) (passphrase : Bytes)

/-- Write the key: sealed, or as it is. -/
def Storage.write (s : Storage) (encrypted : Bool) (priv salt nonce : Bytes) (legacy : Bool) :
    Storage :=
  if encrypted then
    match encryptKey p (payload priv) passphrase salt nonce with
    | .ok blob => s.at (.writing .enc blob priv legacy none)
    | .error e => s.ret (.error e)
  else s.at (.writing .plain priv priv legacy none)

/-- `os.ReadFile(encPath)` and what follows. -/
def Storage.loadEncrypted (s : Storage) : Storage :=
  match s.dir.enc with
  | some (.file blob) => s.ret (openEncrypted p passphrase blob)
  | some .other => s.ret (.error .io)
  | none => s.at (.noEncrypted true)

/-- Without a passphrase: any error of `os.Stat` is taken for "there is no such file". -/
def Storage.statEncrypted (s : Storage) (err : Bool) : Storage :=
  if s.dir.enc.isSome ∧ ¬err then s.ret (.error .encryptedExists) else s.at (.noEncrypted false)

/-- `os.ReadFile(plainPath)` and what follows. -/
def Storage.readPlain (s : Storage) (encrypted : Bool) (salt nonce : Bytes) : Storage :=
  match s.dir.plain with
  | some (.file data) =>
    match parsePrivateKey p data with
    | .ok priv =>
      if encrypted then s.write p passphrase true priv salt nonce true else s.ret (.ok priv)
    | .error e => s.ret (.error e)
  | some .other => s.ret (.error .io)
  | none => s.at (.noKey encrypted)

/-- One file operation of the call in progress, or a crash. -/
def Storage.step (s : Storage) (a : Action) : Option Storage :=
  match a, s.phase with
  | .start encrypted, .idle =>
    if encrypted ∧ passphrase = [] then none else s.at (.entered encrypted)
  | .loadEncrypted, .entered true => s.loadEncrypted p passphrase
  | .statEncrypted err, .entered false => s.statEncrypted err
  | .readPlain salt nonce, .noEncrypted encrypted =>
    if salt.length = 16 ∧ nonce.length = 12 then s.readPlain p passphrase encrypted salt nonce
    else none
  | .generate seed salt nonce, .noKey encrypted =>
    if seed.length = seedSize ∧ salt.length = 16 ∧ nonce.length = 12 then
      s.write p passphrase encrypted (newKeyFromSeed p seed) salt nonce false
    else none
  | .createTemp, .writing name data priv legacy none =>
    s.at (.writing name data priv legacy (some ⟨[], false⟩))
  | .writeTemp, .writing name data priv legacy (some ⟨[], false⟩) =>
    s.at (.writing name data priv legacy (some ⟨data, false⟩))
  | .syncTemp, .writing name data priv legacy (some ⟨written, false⟩) =>
    if written = data then s.at (.writing name data priv legacy (some ⟨data, true⟩)) else none
  | .rename, .writing name _ priv legacy (some ⟨written, true⟩) =>
    let s := { s with disk := s.disk.perform (.rename name ⟨written, true⟩) }
    if legacy then s.at (.upgraded priv) else s.ret (.ok priv)
  | .removePlain ok, .upgraded priv =>
    -- the result of `os.Remove` is ignored
    let s := if ok then { s with disk := s.disk.perform (.remove .plain) } else s
    s.ret (.ok priv)
  | .fail, .idle => none
  | .fail, _ => s.ret (.error .io)
  | .crash keep garbage, _ => some { s with disk := s.crashed keep garbage, phase := .idle }
  | _, _ => none

end System

/-- The process starts on a directory as it is on disk. -/
def newStorage (d : Directory) : Storage := ⟨⟨d, []⟩, .idle, []⟩

/-! ## The identity of a directory -/

section Identity

variable (p : Primitives) (passphrase : Bytes)

/-- The key that a call reads from the directory: the sealed one if there is one. -/
def identity (d : Directory) : Option Bytes :=
  match d.enc, d.plain with
  | some (.file blob), _ => (openEncrypted p passphrase blob).toOption
  | _, some (.file data) => (parsePrivateKey p data).toOption
  | _, _ => none

/-- The file `name` with this content holds the key. -/
def Holds (name : FileName) (data priv : Bytes) : Prop :=
  match name with
  | .enc => openEncrypted p passphrase data = .ok priv
  | .plain => data = priv

variable {p passphrase} {d : Directory} {data priv : Bytes}

theorem identity_enc (h : d.enc = some (.file data)) :
    identity p passphrase d = (openEncrypted p passphrase data).toOption := by
  unfold identity
  rw [h]

theorem identity_plain (henc : isFile d.enc = false) (h : d.plain = some (.file data)) :
    identity p passphrase d = (parsePrivateKey p data).toOption := by
  obtain ⟨plain, enc⟩ := d
  obtain rfl : plain = some (.file data) := h
  rcases enc with _ | _ | _
  · rfl
  · cases henc
  · rfl

theorem isFile_iff {e : Option Entry} : isFile e = true ↔ ∃ data, e = some (.file data) := by
  unfold isFile
  split <;> simp_all

variable {name : FileName}

theorem hasKeyFile_set {data : Bytes} :
    (d.set name (some (.file data))).hasKeyFile = true := by
  cases name <;> simp [Directory.set, Directory.hasKeyFile, isFile]

/-- **A file that is put in place gives the directory its key**: the sealed file always, the clear
one where there is no sealed file. -/
theorem identity_set (hpriv : priv.length = privateKeySize)
    (hholds : Holds p passphrase name data priv) (henc : name = .enc ∨ isFile d.enc = false) :
    identity p passphrase (d.set name (some (.file data))) = some priv := by
  cases name with
  | enc =>
    rw [identity_enc rfl, show openEncrypted p passphrase data = .ok priv from hholds]
    rfl
  | plain =>
    obtain rfl : data = priv := hholds
    have henc' : isFile d.enc = false := henc.resolve_left (by simp)
    rw [identity_plain (d := d.set .plain (some (.file data))) henc' rfl,
      parsePrivateKey_full hpriv]
    rfl

/-- Beside the sealed file the clear one does not matter. -/
theorem identity_remove (h : isFile d.enc = true) :
    identity p passphrase (d.set .plain none) = identity p passphrase d := by
  obtain ⟨data, hdata⟩ := isFile_iff.1 h
  rw [identity_enc hdata]
  exact identity_enc hdata

end Identity

/-! ## Runs -/

section Runs

variable (p : Primitives) (passphrase : Bytes)

/-- `os.Stat` does not fail on an encrypted file; a legacy key of 64 bytes that is to be sealed is
the key of its seed; and once a key has been returned a crash leaves one of the two files in place.
-/
def Careful (s : Storage) : Action → Prop
  | .statEncrypted err => err = true → isFile s.dir.enc = false
  | .readPlain _ _ => s.phase = .noEncrypted true → ∀ data, s.dir.plain = some (.file data) →
      data.length = privateKeySize → Consistent p data
  | .crash keep garbage => (∃ k, .ok k ∈ s.results) →
      (s.crashed keep garbage).durable.hasKeyFile = true
  | _ => True

/-- What a call knows of the directory. -/
def PhaseInv (d : Directory) : Phase → Prop
  | .idle | .entered _ => True
  | .noEncrypted _ => isFile d.enc = false
  | .noKey _ => d.hasKeyFile = false
  | .writing name data priv legacy tmp =>
    priv.length = privateKeySize ∧ Holds p passphrase name data priv ∧
    (∀ written, tmp = some ⟨written, true⟩ → written = data) ∧
    if legacy then name = .enc ∧ d.hasKeyFile = true ∧ identity p passphrase d = some priv
    else d.hasKeyFile = false
  | .upgraded priv => priv.length = privateKeySize ∧ isFile d.enc = true ∧
      identity p passphrase d = some priv

/-- **The invariant.**  All directories that a crash could leave with a key file in them have the
identity of the directory in use, and it is the key that was returned. -/
structure StorageInv (s : Storage) : Prop where
  synced : ∀ op ∈ s.disk.pending, ∀ garbage, op.settle garbage = op
  same : ∀ d, s.disk.MayHold DirOp.apply d → d.hasKeyFile = true →
    s.dir.hasKeyFile = true ∧ identity p passphrase d = identity p passphrase s.dir
  phase : PhaseInv p passphrase s.dir s.phase
  results : ∀ k, .ok k ∈ s.results → k.length = privateKeySize ∧ s.dir.hasKeyFile = true ∧
    identity p passphrase s.dir = some k

variable {p passphrase} {s s' : Storage}

theorem StorageInv.at (h : StorageInv p passphrase s) (phase : Phase)
    (hphase : PhaseInv p passphrase s.dir phase) : StorageInv p passphrase (s.at phase) :=
  ⟨h.synced, h.same, hphase, h.results⟩

theorem StorageInv.error (h : StorageInv p passphrase s) (e : KeyError) :
    StorageInv p passphrase (s.ret (.error e)) := by
  refine ⟨h.synced, h.same, trivial, fun k hk => h.results k ?_⟩
  simpa [Storage.ret] using hk

variable {priv salt nonce : Bytes} {encrypted legacy : Bool}

/-- A call may return the identity of the directory. -/
theorem StorageInv.ok (h : StorageInv p passphrase s) (hpriv : priv.length = privateKeySize)
    (hfile : s.dir.hasKeyFile = true) (hid : identity p passphrase s.dir = some priv) :
    StorageInv p passphrase (s.ret (.ok priv)) := by
  refine ⟨h.synced, h.same, trivial, fun k hk => ?_⟩
  rcases mem_append.1 hk with hk | hk
  · exact h.results k hk
  · obtain rfl : k = priv := by simpa using hk
    exact ⟨hpriv, hfile, hid⟩

theorem hasKeyFile_of_enc {d : Directory} (h : isFile d.enc = true) : d.hasKeyFile = true := by
  simp [Directory.hasKeyFile, h]

section Kept

variable (h : StorageInv p passphrase s)
include h

theorem StorageInv.loadEncrypted : StorageInv p passphrase (s.loadEncrypted p passphrase) := by
  unfold Storage.loadEncrypted
  split
  · rename_i blob henc
    cases hopen : openEncrypted p passphrase blob with
    | error e => exact h.error e
    | ok priv =>
      obtain ⟨plaintext, -, hparse⟩ : ∃ plaintext, decryptKey p blob passphrase = .ok plaintext ∧
          parsePrivateKey p plaintext = .ok priv := by
        unfold openEncrypted at hopen
        cases hdec : decryptKey p blob passphrase with
        | error e =>
          rw [hdec] at hopen
          cases hopen
        | ok plaintext =>
          rw [hdec] at hopen
          exact ⟨plaintext, rfl, hopen⟩
      refine h.ok (length_of_parsePrivateKey hparse)
        (hasKeyFile_of_enc (isFile_iff.2 ⟨blob, henc⟩)) ?_
      rw [identity_enc henc, hopen]
      rfl
  · exact h.error .io
  · rename_i henc
    refine h.at (.noEncrypted true) ?_
    show isFile s.dir.enc = false
    rw [henc]
    rfl

theorem StorageInv.statEncrypted {err : Bool} (herr : err = true → isFile s.dir.enc = false) :
    StorageInv p passphrase (s.statEncrypted err) := by
  unfold Storage.statEncrypted
  split_ifs with hstat
  · exact h.error .encryptedExists
  · refine h.at (.noEncrypted false) ?_
    show isFile s.dir.enc = false
    cases henc : s.dir.enc with
    | none => rfl
    | some e =>
      rw [← henc]
      refine herr ?_
      simpa [henc] using hstat

/-- The key is written where it will be the identity of the directory. -/
theorem StorageInv.write (hs : salt.length = 16)
    (hn : nonce.length = 12) (hpriv : priv.length = privateKeySize)
    (hcons : encrypted = true → Consistent p priv)
    (hdir : if legacy then encrypted = true ∧ s.dir.hasKeyFile = true ∧
        identity p passphrase s.dir = some priv
      else s.dir.hasKeyFile = false) :
    StorageInv p passphrase (s.write p passphrase encrypted priv salt nonce legacy) := by
  unfold Storage.write
  split_ifs with henc
  · cases hseal : encryptKey p (payload priv) passphrase salt nonce with
    | error e => exact h.error e
    | ok blob =>
      refine h.at (.writing .enc blob priv legacy none) ⟨hpriv, ?_, nofun, ?_⟩
      · show decryptKey p blob passphrase >>= parsePrivateKey p = .ok priv
        rw [decryptKey_encryptKey hs hn hseal]
        exact parsePrivateKey_payload hpriv (hcons henc)
      · cases legacy with
        | true => exact ⟨rfl, hdir.2⟩
        | false => exact hdir
  · refine h.at (.writing .plain priv priv legacy none) ⟨hpriv, rfl, nofun, ?_⟩
    cases legacy with
    | true => exact absurd hdir.1 henc
    | false => exact hdir

theorem StorageInv.readPlain (hs : salt.length = 16)
    (hn : nonce.length = 12) (henc : isFile s.dir.enc = false)
    (hcons : encrypted = true → ∀ data, s.dir.plain = some (.file data) →
      data.length = privateKeySize → Consistent p data) :
    StorageInv p passphrase (s.readPlain p passphrase encrypted salt nonce) := by
  unfold Storage.readPlain
  split
  · rename_i data hplain
    have hfile : s.dir.hasKeyFile = true := by
      simp [Directory.hasKeyFile, hplain, isFile]
    cases hparse : parsePrivateKey p data with
    | error e => exact h.error e
    | ok priv =>
      have hpriv := length_of_parsePrivateKey hparse
      have hid : identity p passphrase s.dir = some priv := by
        rw [identity_plain henc hplain, hparse]
        rfl
      split_ifs with hmode
      · refine h.write hs hn hpriv (fun _ => ?_) ⟨rfl, hfile, hid⟩
        -- a seed gives the key of that seed
        unfold parsePrivateKey at hparse
        split_ifs at hparse with hfull hseed
        · obtain rfl := Except.ok.inj hparse
          exact hcons hmode data hplain hfull
        · obtain rfl := Except.ok.inj hparse
          exact consistent_newKeyFromSeed hseed
      · exact h.ok hpriv hfile hid
  · exact h.error .io
  · rename_i hplain
    refine h.at (.noKey encrypted) ?_
    show s.dir.hasKeyFile = false
    rw [Directory.hasKeyFile, hplain, henc]
    rfl

/-- **A change of the directory.**  If the key is the identity before it and after it, in whatever
directory there is a key file, then it does not matter whether the change is kept or lost. -/
theorem StorageInv.perform {op : DirOp} (hsynced : ∀ garbage, op.settle garbage = op)
    (hbefore : ∀ d, s.disk.MayHold DirOp.apply d → d.hasKeyFile = true →
      identity p passphrase d = some priv)
    (hafter : ∀ d, s.disk.MayHold DirOp.apply d → (op.apply d).hasKeyFile = true →
      identity p passphrase (op.apply d) = some priv) (hfile : (op.apply s.dir).hasKeyFile = true) :
    let t := { s with disk := s.disk.perform op, phase := .idle }
    StorageInv p passphrase t ∧ t.dir.hasKeyFile = true ∧
      identity p passphrase t.dir = some priv := by
  intro t
  have hview : t.dir = op.apply s.dir := Disk.view_perform _
  have hid : identity p passphrase t.dir = some priv := by
    rw [hview]
    exact hafter s.dir Disk.mayHold_view hfile
  rw [← hview] at hfile
  refine ⟨⟨?_, fun d hd hdfile => ⟨hfile, ?_⟩, trivial, fun k hk => ?_⟩, hfile, hid⟩
  · intro op' hop garbage
    rcases mem_append.1 hop with hop | hop
    · exact h.synced op' hop garbage
    · rw [mem_singleton.1 hop]
      exact hsynced garbage
  · rw [hid]
    rcases Disk.mayHold_perform.1 hd with hd | ⟨y, hy, rfl⟩
    · exact hbefore d hd hdfile
    · exact hafter y hy hdfile
  · obtain ⟨hlen, hsfile, hsid⟩ := h.results k hk
    refine ⟨hlen, hfile, hid.trans ?_⟩
    rw [← hsid]
    exact (hbefore s.dir Disk.mayHold_view hsfile).symm

/-- A file takes its name: a sealed key beside the same key in the clear, or the first file. -/
theorem StorageInv.rename {name : FileName} {data : Bytes}
    (hpriv : priv.length = privateKeySize) (hholds : Holds p passphrase name data priv)
    (hdir : if legacy then name = .enc ∧ s.dir.hasKeyFile = true ∧
        identity p passphrase s.dir = some priv
      else s.dir.hasKeyFile = false) :
    let t := { s with disk := s.disk.perform (.rename name ⟨data, true⟩), phase := .idle }
    StorageInv p passphrase t ∧ t.dir.hasKeyFile = true ∧
      identity p passphrase t.dir = some priv := by
  have hbefore : ∀ d, s.disk.MayHold DirOp.apply d → d.hasKeyFile = true →
      name = .enc ∧ identity p passphrase d = some priv := by
    intro d hd hfile
    obtain ⟨hsfile, hsame⟩ := h.same d hd hfile
    cases legacy with
    | true => exact ⟨hdir.1, hsame.trans hdir.2.2⟩
    | false => exact absurd hsfile (Bool.eq_false_iff.1 hdir)
  refine h.perform (fun _ => rfl) (fun d hd hfile => (hbefore d hd hfile).2) (fun d hd _ => ?_)
    hasKeyFile_set
  refine identity_set hpriv hholds ?_
  by_cases hfile : d.hasKeyFile = true
  · exact .inl (hbefore d hd hfile).1
  · refine .inr (Bool.eq_false_iff.2 fun henc => ?_)
    exact hfile (hasKeyFile_of_enc henc)

theorem StorageInv.removePlain (henc : isFile s.dir.enc = true)
    (hid : identity p passphrase s.dir = some priv) :
    let t := { s with disk := s.disk.perform (.remove .plain), phase := .idle }
    StorageInv p passphrase t ∧ t.dir.hasKeyFile = true ∧
      identity p passphrase t.dir = some priv := by
  refine h.perform (fun _ => rfl) (fun d hd hfile => (h.same d hd hfile).2.trans hid)
    (fun d hd hfile => ?_) (hasKeyFile_of_enc henc)
  -- only the sealed file can be left
  have hdenc : isFile d.enc = true := by
    simpa [DirOp.apply, Directory.set, Directory.hasKeyFile, isFile] using hfile
  exact (identity_remove hdenc).trans ((h.same d hd (hasKeyFile_of_enc hdenc)).2.trans hid)

theorem StorageInv.crash {keep : List Bool} {garbage : Bytes}
    (hkeep : (∃ k, .ok k ∈ s.results) → (s.crashed keep garbage).durable.hasKeyFile = true) :
    StorageInv p passphrase { s with disk := s.crashed keep garbage, phase := .idle } := by
  have hsettle : s.disk.pending.map (DirOp.settle garbage) = s.disk.pending := by
    refine (map_congr_left fun op hop => ?_).trans (map_id _)
    exact h.synced op hop garbage
  have hmay : s.disk.MayHold DirOp.apply (s.crashed keep garbage).durable := by
    rw [Storage.crashed, hsettle]
    exact Disk.mayHold_crash keep
  refine ⟨nofun, fun d hd hfile => ?_, trivial, fun k hk => ?_⟩
  · obtain rfl := Disk.mayHold_mk.1 hd
    exact ⟨hfile, rfl⟩
  · have hfile := hkeep ⟨k, hk⟩
    obtain ⟨hlen, -, hsid⟩ := h.results k hk
    exact ⟨hlen, hfile, (h.same _ hmay hfile).2.trans hsid⟩

theorem StorageInv.step {a : Action} (ha : Careful p s a)
    (hstep : s.step p passphrase a = some s') : StorageInv p passphrase s' := by
  have hphase := h.phase
  unfold Storage.step at hstep
  split at hstep
  · rename_i hidle
    split_ifs at hstep
    cases hstep
    exact h.at _ trivial
  · cases hstep
    exact h.loadEncrypted
  · cases hstep
    exact h.statEncrypted ha
  · rename_i salt nonce encrypted hs
    rw [hs] at hphase
    split_ifs at hstep with hlen
    cases hstep
    refine h.readPlain hlen.1 hlen.2 hphase ?_
    rintro rfl
    exact ha hs
  · rename_i seed salt nonce encrypted hs
    rw [hs] at hphase
    split_ifs at hstep with hlen
    cases hstep
    exact h.write hlen.2.1 hlen.2.2 (length_newKeyFromSeed hlen.1)
      (fun _ => consistent_newKeyFromSeed hlen.1) hphase
  · rename_i name data priv legacy hs
    rw [hs] at hphase
    cases hstep
    exact h.at _ ⟨hphase.1, hphase.2.1, fun _ htmp => by simp at htmp, hphase.2.2.2⟩
  · rename_i name data priv legacy hs
    rw [hs] at hphase
    cases hstep
    exact h.at _ ⟨hphase.1, hphase.2.1, fun _ htmp => by simp at htmp, hphase.2.2.2⟩
  · rename_i name data priv legacy written hs
    rw [hs] at hphase
    split_ifs at hstep
    cases hstep
    refine h.at _ ⟨hphase.1, hphase.2.1, fun written' htmp => ?_, hphase.2.2.2⟩
    cases htmp
    rfl
  · rename_i name data priv legacy written hs
    rw [hs] at hphase
    obtain ⟨hpriv, hholds, hwritten, hdir⟩ := hphase
    obtain rfl := hwritten written rfl
    obtain ⟨hinv, hfile, hid⟩ := h.rename hpriv hholds hdir
    split_ifs at hstep with hlegacy
    · cases hstep
      subst hlegacy
      obtain rfl : name = .enc := hdir.1
      refine hinv.at (.upgraded priv) ⟨hpriv, ?_, hid⟩
      show isFile (Disk.view DirOp.apply (s.disk.perform _)).enc = true
      rw [Disk.view_perform]
      rfl
    · cases hstep
      exact hinv.ok hpriv hfile hid
  · rename_i ok priv hs
    rw [hs] at hphase
    obtain ⟨hpriv, henc, hid⟩ := hphase
    cases hstep
    cases ok with
    | true =>
      obtain ⟨hinv, hfile, hid'⟩ := h.removePlain henc hid
      exact hinv.ok hpriv hfile hid'
    | false => exact h.ok hpriv (hasKeyFile_of_enc henc) hid
  · cases hstep
  · cases hstep
    exact h.error .io
  · cases hstep
    exact h.crash ha
  · cases hstep

end Kept

/-- **One signing identity.**  From every directory, in every run of calls with encryption on or off
and crashes between their file operations in which each step is careful, all calls that return a key
return the same key of 64 bytes. -/
theorem one_identity {d : Directory}
    (h : Reach (Storage.step p passphrase) (Careful p) (newStorage d) s) {k k' : Bytes}
    (hk : .ok k ∈ s.results) (hk' : .ok k' ∈ s.results) : k = k' ∧ k.length = privateKeySize := by
  have hstart : StorageInv p passphrase (newStorage d) := by
    refine ⟨nofun, fun d' hd' hfile => ?_, trivial, nofun⟩
    obtain rfl := Disk.mayHold_mk.1 hd'
    exact ⟨hfile, rfl⟩
  have hinv : StorageInv p passphrase s :=
    h.invariant hstart fun _ _ _ ht ha hstep => ht.step ha hstep
  obtain ⟨hlen, -, hid⟩ := hinv.results k hk
  obtain ⟨-, -, hid'⟩ := hinv.results k' hk'
  exact ⟨some.inj (hid.symm.trans hid'), hlen⟩

end Runs

/-! ## Runs on a sample -/

section Samples

/-- Primitives that can be evaluated: nothing is hidden, and all seeds have the same public key. -/
def samplePrimitives : Primitives where
  publicKey _ := replicate 32 0
  publicKey_length _ := rfl
  pbkdf2SHA256 _ _ _ := []
  aeadSeal _ _ plaintext _ := plaintext
  aeadOpen _ _ ciphertext _ := some ciphertext
  aeadOpen_aeadSeal _ _ _ _ := rfl

def sampleSeed (b : UInt8) : Bytes := replicate 32 b

def sampleSalt : Bytes := replicate 16 0

def sampleNonce : Bytes := replicate 12 0

def samplePassphrase : Bytes := [0x70]

/-- The operations of `writeAtomic`. -/
def writeActions : List Action := [.createTemp, .writeTemp, .syncTemp, .rename]

/-- A call without a passphrase that makes a key. -/
def generateCall (b : UInt8) : List Action :=
  [.start false, .statEncrypted false, .readPlain sampleSalt sampleNonce,
    .generate (sampleSeed b) sampleSalt sampleNonce] ++ writeActions

/-- A call with a passphrase that finds a key in the clear. -/
def upgradeCall : List Action :=
  [.start true, .loadEncrypted, .readPlain sampleSalt sampleNonce] ++ writeActions ++
    [.removePlain true]

/-- A call that finds the encrypted file. -/
def loadCall : List Action := [.start true, .loadEncrypted]

/-- `Careful`, as a test. -/
def carefulTest (s : Storage) : Action → Bool
  | .statEncrypted err => !err
  | .readPlain _ _ =>
    match s.dir.plain with
    | some (.file data) => decide (Consistent samplePrimitives data)
    | _ => true
  | .crash keep garbage => (s.crashed keep garbage).durable.hasKeyFile
  | _ => true

theorem careful_of_test {s : Storage} {a : Action} (h : carefulTest s a = true) :
    Careful samplePrimitives s a := by
  cases a with
  | statEncrypted err =>
    rintro rfl
    cases h
  | readPlain salt nonce =>
    intro _ data hplain _
    unfold carefulTest at h
    rw [hplain] at h
    exact of_decide_eq_true h
  | crash keep garbage => exact fun _ => h
  | _ => trivial

/-- A key is made, sealed, and read again after a crash that has lost the removal of the clear file.
-/
theorem one_identity_upgraded :
    ∃ s, Reach (Storage.step samplePrimitives samplePassphrase) (Careful samplePrimitives)
        (newStorage ⟨none, none⟩) s ∧
      s.results.length = 3 ∧ .ok (newKeyFromSeed samplePrimitives (sampleSeed 1)) ∈ s.results ∧
      ∀ k, .ok k ∈ s.results → k = newKeyFromSeed samplePrimitives (sampleSeed 1) ∧
        k.length = privateKeySize := by
  have hrun : (execute (Storage.step samplePrimitives samplePassphrase) carefulTest
      (newStorage ⟨none, none⟩)
      (generateCall 1 ++ upgradeCall ++ [.crash [true, true, false] []] ++ loadCall)).map
      (fun s => decide (s.results.length = 3 ∧
        .ok (newKeyFromSeed samplePrimitives (sampleSeed 1)) ∈ s.results)) = some true := by
    decide +kernel
  obtain ⟨s, hreach, hobs⟩ := reach_observe (P := fun _ => True) (fun _ _ => trivial)
    (fun _ _ _ h => careful_of_test h) hrun
  obtain ⟨hlen, hk⟩ := of_decide_eq_true hobs
  exact ⟨s, hreach, hlen, hk, fun k hk' => one_identity hreach hk' hk⟩

/-- **Two identities.**  A key is made and returned, a crash loses the rename of its file, and the
next call makes another key.  And without any crash: a legacy file whose second half is not the
public key of its first half gives one key when it is sealed and another when it is opened. -/
theorem identity_changes :
    (∃ s, Reach (Storage.step samplePrimitives samplePassphrase) anyAction
        (newStorage ⟨none, none⟩) s ∧
      .ok (newKeyFromSeed samplePrimitives (sampleSeed 1)) ∈ s.results ∧
      .ok (newKeyFromSeed samplePrimitives (sampleSeed 2)) ∈ s.results ∧
      newKeyFromSeed samplePrimitives (sampleSeed 1) ≠
        newKeyFromSeed samplePrimitives (sampleSeed 2)) ∧
    ∃ s, Reach (Storage.step samplePrimitives samplePassphrase) anyAction
        (newStorage ⟨some (.file (sampleSeed 1 ++ sampleSeed 1)), none⟩) s ∧
      .ok (sampleSeed 1 ++ sampleSeed 1) ∈ s.results ∧
      .ok (newKeyFromSeed samplePrimitives (sampleSeed 1)) ∈ s.results ∧
      sampleSeed 1 ++ sampleSeed 1 ≠ newKeyFromSeed samplePrimitives (sampleSeed 1) := by
  have hlost : (execute (Storage.step samplePrimitives samplePassphrase) (fun _ _ => true)
      (newStorage ⟨none, none⟩) (generateCall 1 ++ [.crash [false] []] ++ generateCall 2)).map
      (fun s => decide (.ok (newKeyFromSeed samplePrimitives (sampleSeed 1)) ∈ s.results ∧
        .ok (newKeyFromSeed samplePrimitives (sampleSeed 2)) ∈ s.results)) = some true := by
    decide +kernel
  have hsealed : (execute (Storage.step samplePrimitives samplePassphrase) (fun _ _ => true)
      (newStorage ⟨some (.file (sampleSeed 1 ++ sampleSeed 1)), none⟩)
      (upgradeCall ++ loadCall)).map
      (fun s => decide (.ok (sampleSeed 1 ++ sampleSeed 1) ∈ s.results ∧
        .ok (newKeyFromSeed samplePrimitives (sampleSeed 1)) ∈ s.results)) = some true := by
    decide +kernel
  obtain ⟨s, hs, hsobs⟩ := reach_observe_any hlost
  obtain ⟨t, ht, htobs⟩ := reach_observe_any hsealed
  obtain ⟨h₁, h₂⟩ := of_decide_eq_true hsobs
  obtain ⟨h₃, h₄⟩ := of_decide_eq_true htobs
  exact ⟨⟨s, hs, h₁, h₂, by decide⟩, t, ht, h₃, h₄, by decide⟩

end Samples

end MxKeys.KeyProvider
