/-
# MxKeys.Transparency.Verifier — the offline verifier `mxkeys-verify`.

The program fetches the public key of a notary and its signed tree head, verifies the signature of
the head, compares the fingerprint of the key with a pinned one, and compares the head with an
earlier one.  All it reads comes from the server under audit, so what it reports is worth as much as
what ties it to the check of the signature: the text under the signature is the one that the server
sends along as `sign_payload`, and the fingerprint is the one that the server sends along as
`fingerprint`.

`main` is cut at its `os.Exit` calls: each part returns, or ends the program with a code and the
result so far.
-/
import MxKeys.Transparency.Log

namespace MxKeys.Verifier

open MxKeys.Lib
open Option Json Utf8 Base64

/-! ## Documents -/

/-- `SignedTreeHead`, as the verifier reads it. -/
structure SignedTreeHead where
  treeSize : Int
  rootHash : Text
  timestamp : Text
  timestampMS : Int
  signer : Text
  keyID : Text
  signature : Text
  signPayload : Text
  deriving DecidableEq

/-- `NotaryKey`: the public key of the notary with what it says of it. -/
structure NotaryKey where
  serverName : Text
  keyID : Text
  algorithm : Text
  publicKey : Text
  fingerprint : Text
  selfSignature : Text
  signPayload : Text
  deriving DecidableEq

def signedTreeHeadFields : List (Json.Field SignedTreeHead) :=
  [.of "tree_size".toList (·.treeSize) (fun h n => { h with treeSize := n }) decodeInt,
    .of "root_hash".toList (·.rootHash) (fun h s => { h with rootHash := s }) decodeString,
    .of "timestamp".toList (·.timestamp) (fun h s => { h with timestamp := s }) decodeString,
    .of "timestamp_ms".toList (·.timestampMS) (fun h n => { h with timestampMS := n })
      decodeInt,
    .of "signer".toList (·.signer) (fun h s => { h with signer := s }) decodeString,
    .of "key_id".toList (·.keyID) (fun h s => { h with keyID := s }) decodeString,
    .of "signature".toList (·.signature) (fun h s => { h with signature := s }) decodeString,
    .of "sign_payload".toList (·.signPayload) (fun h s => { h with signPayload := s })
      decodeString]

def notaryKeyFields : List (Json.Field NotaryKey) :=
  [.of "server_name".toList (·.serverName) (fun k s => { k with serverName := s })
      decodeString,
    .of "key_id".toList (·.keyID) (fun k s => { k with keyID := s }) decodeString,
    .of "algorithm".toList (·.algorithm) (fun k s => { k with algorithm := s }) decodeString,
    .of "public_key".toList (·.publicKey) (fun k s => { k with publicKey := s }) decodeString,
    .of "fingerprint".toList (·.fingerprint) (fun k s => { k with fingerprint := s })
      decodeString,
    .of "self_signature".toList (·.selfSignature) (fun k s => { k with selfSignature := s })
      decodeString,
    .of "sign_payload".toList (·.signPayload) (fun k s => { k with signPayload := s })
      decodeString]

/-- `json.Unmarshal` into a `SignedTreeHead`. -/
def decodeSignedTreeHead : Json → Option SignedTreeHead :=
  decodeStruct signedTreeHeadFields ⟨0, [], [], 0, [], [], [], []⟩

/-- `json.Unmarshal` into a `NotaryKey`. -/
def decodeNotaryKey : Json → Option NotaryKey :=
  decodeStruct notaryKeyFields ⟨[], [], [], [], [], [], []⟩

/-- The status and the body of an HTTP response; `none` is a failed request. -/
abbrev Reply := Option (Nat × Bytes)

/-- `fetchJSON`: the first value of the body of a response with status 200. -/
def fetchJSON {σ : Type} (decode : Json → Option σ) (reply : Reply) : Option σ :=
  match reply with
  | some (200, body) => (parseFirst (Utf8.decode body)).bind fun first => decode first.1
  | _ => none

/-! ## The program -/

def exitOK : Nat := 0

/-- The other exits. -/
inductive Failure
  | usageError
  | fetchError
  | signatureInvalid
  | consistencyFailed
  | ioError
  deriving DecidableEq

/-- The exit code of a failure. -/
def Failure.exitCode : Failure → Nat
  | .usageError => 1
  | .fetchError => 2
  | .signatureInvalid => 3
  | .consistencyFailed => 4
  | .ioError => 5

theorem Failure.exitCode_ne (f : Failure) : f.exitCode ≠ exitOK := by
  cases f <;> decide

/-- The texts of `Error`. -/
inductive VerifyError
  | urlRequired
  | fetchPublicKey
  | publicKeyEncoding
  | fingerprintMismatch (got expected : Text)
  | fetchSTH
  | signatureEncoding
  | signatureFailed
  | readPrevious
  | parsePrevious
  | sizeDecreased
  | rootChanged
  | timestampBackwards
  | saveSTH
  deriving DecidableEq

/-- `VerifyResult`: what is printed at the end. -/
structure VerifyResult where
  ok : Bool := false
  server : Text := []
  keyFingerprint : Text := []
  treeSize : Int := 0
  rootHash : Text := []
  timestamp : Text := []
  signatureValid : Bool := false
  consistencyValid : Option Bool := none
  prevTreeSize : Option Int := none
  trustLevel : Nat
  trustLevelName : Text := []
  error : Option VerifyError := none
  deriving DecidableEq

/-- The flags that matter for the result. -/
structure Flags where
  url : Text
  prev : Text
  out : Text
  expectedFP : Text

/-- What the program meets: the two responses, the files, and whether the snapshot can be saved. -/
structure World where
  keyReply : Reply
  headReply : Reply
  readFile : Text → Option Bytes
  writeOk : Bool

/-- The names of the trust levels. -/
def trustLevelName : Nat → Text
  | 1 => "transport_retrieval".toList
  | 2 => "self_consistency".toList
  | 3 => "origin_trust".toList
  | _ => "unknown".toList

/-- The rest of the program, unless it has ended. -/
abbrev Part (α : Type) := Except (Failure × VerifyResult) α

/-- `result.Error = …; finish(…)`. -/
def finish {α : Type} (result : VerifyResult) (error : VerifyError) (failure : Failure) :
    Part α :=
  .error (failure, { result with
    error := some error, trustLevelName := trustLevelName result.trustLevel })

section

variable (verify : Bytes → Bytes → Bytes → Bool)

/-- Level 1: the public key. -/
def loadKey (world : World) (result : VerifyResult) :
    Part (NotaryKey × Bytes × VerifyResult) :=
  match fetchJSON decodeNotaryKey world.keyReply with
  | none => finish result .fetchPublicKey .fetchError
  | some key =>
    let result := { result with server := key.serverName, keyFingerprint := key.fingerprint }
    match rawStdDecode key.publicKey with
    | none => finish result .publicKeyEncoding .fetchError
    | some pubKeyBytes =>
      if pubKeyBytes.length ≠ Keys.publicKeySize then
        finish result .publicKeyEncoding .fetchError
      else .ok (key, pubKeyBytes, result)

/-- Level 2: the key signs the payload it comes with. -/
def checkSelfSignature (key : NotaryKey) (pubKeyBytes : Bytes) (result : VerifyResult) :
    VerifyResult :=
  if key.selfSignature ≠ [] ∧ key.signPayload ≠ [] then
    match rawStdDecode key.selfSignature with
    | none => result
    | some selfSig =>
      if verify pubKeyBytes (encode key.signPayload) selfSig then
        { result with trustLevel := 2 }
      else result
  else result

/-- Level 3: the pinned fingerprint. -/
def checkPin (flags : Flags) (key : NotaryKey) (result : VerifyResult) : Part VerifyResult :=
  if flags.expectedFP ≠ [] then
    if key.fingerprint ≠ flags.expectedFP then
      finish result (.fingerprintMismatch key.fingerprint flags.expectedFP) .signatureInvalid
    else .ok { result with trustLevel := 3 }
  else .ok result

/-- The tree head and its signature. -/
def checkHead (world : World) (pubKeyBytes : Bytes) (result : VerifyResult) :
    Part (SignedTreeHead × VerifyResult) :=
  match fetchJSON decodeSignedTreeHead world.headReply with
  | none => finish result .fetchSTH .fetchError
  | some sth =>
    let result := { result with
      treeSize := sth.treeSize, rootHash := sth.rootHash, timestamp := sth.timestamp }
    match rawStdDecode sth.signature with
    | none => finish result .signatureEncoding .signatureInvalid
    | some sigBytes =>
      if verify pubKeyBytes (encode sth.signPayload) sigBytes then
        .ok (sth, { result with signatureValid := true })
      else finish result .signatureFailed .signatureInvalid

/-- What is wrong with a head after an earlier one. -/
def inconsistency (prev sth : SignedTreeHead) : Option VerifyError :=
  if sth.treeSize < prev.treeSize then some .sizeDecreased
  else if sth.treeSize = prev.treeSize ∧ sth.rootHash ≠ prev.rootHash then some .rootChanged
  else if sth.timestampMS < prev.timestampMS then some .timestampBackwards
  else none

/-- The comparison with the head that was saved before. -/
def checkConsistency (flags : Flags) (world : World) (sth : SignedTreeHead)
    (result : VerifyResult) : Part VerifyResult :=
  if flags.prev = [] then .ok result
  else match world.readFile flags.prev with
  | none => finish result .readPrevious .ioError
  | some prevData =>
    match (parse (Utf8.decode prevData)).bind decodeSignedTreeHead with
    | none => finish result .parsePrevious .ioError
    | some prev =>
      let result := { result with prevTreeSize := some prev.treeSize }
      match inconsistency prev sth with
      | some error =>
        finish { result with consistencyValid := some false } error .consistencyFailed
      | none => .ok { result with consistencyValid := some true }

/-- The head is written to the file. -/
def save (flags : Flags) (world : World) (result : VerifyResult) : Part VerifyResult :=
  if flags.out ≠ [] ∧ ¬world.writeOk then finish result .saveSTH .ioError else .ok result

/-- The checks, one after another. -/
def checks (flags : Flags) (world : World) : Part VerifyResult := do
  if flags.url = [] then
    throw (.usageError, { trustLevel := 0, error := some .urlRequired })
  let (key, pubKeyBytes, result) ← loadKey world { trustLevel := 1 }
  let result ← checkPin flags key (checkSelfSignature verify key pubKeyBytes result)
  let (sth, result) ← checkHead verify world pubKeyBytes result
  let result ← checkConsistency flags world sth result
  save flags world result

/-- The exit code, and the result that is reported. -/
def main (flags : Flags) (world : World) : Nat × VerifyResult :=
  match checks verify flags world with
  | .error (failure, result) => (failure.exitCode, result)
  | .ok result =>
    (exitOK, { result with ok := true, trustLevelName := trustLevelName result.trustLevel })

end

/-! ## What each part has seen when it returns -/

section Parts

variable {verify : Bytes → Bytes → Bytes → Bool} {flags : Flags} {world : World}
  {key : NotaryKey} {sth : SignedTreeHead} {pubKeyBytes : Bytes}
  {result result' : VerifyResult}

theorem loadKey_ok (h : loadKey world result = .ok (key, pubKeyBytes, result')) :
    fetchJSON decodeNotaryKey world.keyReply = some key ∧
      rawStdDecode key.publicKey = some pubKeyBytes ∧
      result'.trustLevel = result.trustLevel := by
  unfold loadKey at h
  split at h
  · cases h
  · rename_i key' hkey
    split at h
    · cases h
    · rename_i pub hpub
      split_ifs at h
      · cases h
      · cases h
        exact ⟨hkey, hpub, rfl⟩

theorem checkSelfSignature_trustLevel (verify : Bytes → Bytes → Bytes → Bool)
    (key : NotaryKey) (pubKeyBytes : Bytes) (result : VerifyResult) :
    (checkSelfSignature verify key pubKeyBytes result).trustLevel = result.trustLevel ∨
      (checkSelfSignature verify key pubKeyBytes result).trustLevel = 2 := by
  unfold checkSelfSignature
  split_ifs
  · split
    · exact .inl rfl
    · split_ifs
      · exact .inr rfl
      · exact .inl rfl
  · exact .inl rfl

theorem checkPin_ok (h : checkPin flags key result = .ok result') :
    flags.expectedFP = [] ∧ result'.trustLevel = result.trustLevel ∨
      flags.expectedFP ≠ [] ∧ key.fingerprint = flags.expectedFP ∧ result'.trustLevel = 3 := by
  unfold checkPin at h
  split_ifs at h with hpin hmatch
  · cases h
  · obtain rfl := Except.ok.inj h
    exact .inr ⟨hpin, not_not.1 hmatch, rfl⟩
  · obtain rfl := Except.ok.inj h
    exact .inl ⟨not_not.1 hpin, rfl⟩

theorem checkHead_ok (h : checkHead verify world pubKeyBytes result = .ok (sth, result')) :
    fetchJSON decodeSignedTreeHead world.headReply = some sth ∧
      (∃ sigBytes, rawStdDecode sth.signature = some sigBytes ∧
        verify pubKeyBytes (encode sth.signPayload) sigBytes = true) ∧
      result'.treeSize = sth.treeSize ∧ result'.rootHash = sth.rootHash ∧
      result'.trustLevel = result.trustLevel := by
  unfold checkHead at h
  split at h
  · cases h
  · rename_i sth' hsth
    split at h
    · cases h
    · rename_i sig hsig
      split_ifs at h with hver
      · cases h
        exact ⟨hsth, ⟨sig, hsig, hver⟩, rfl, rfl, rfl⟩
      · cases h

theorem checkConsistency_ok (h : checkConsistency flags world sth result = .ok result') :
    result'.treeSize = result.treeSize ∧ result'.rootHash = result.rootHash ∧
      result'.trustLevel = result.trustLevel := by
  unfold checkConsistency at h
  split_ifs at h
  · obtain rfl := Except.ok.inj h
    exact ⟨rfl, rfl, rfl⟩
  · split at h
    · cases h
    · split at h
      · cases h
      · dsimp only at h
        split at h
        · cases h
        · obtain rfl := Except.ok.inj h
          exact ⟨rfl, rfl, rfl⟩

theorem save_ok (h : save flags world result = .ok result') : result' = result := by
  unfold save at h
  split_ifs at h
  · cases h
  · exact (Except.ok.inj h).symm

theorem bind_ok {ε α β : Type} {x : Except ε α} {f : α → Except ε β} {b : β}
    (h : x >>= f = .ok b) : ∃ a, x = .ok a ∧ f a = .ok b := by
  cases x with
  | error e => cases h
  | ok a => exact ⟨a, rfl, h⟩

/-- The parts of a run that gets through all checks. -/
theorem checks_ok (h : checks verify flags world = .ok result') :
    ∃ key pubKeyBytes r₁ r₂ sth r₃,
      loadKey world { trustLevel := 1 } = .ok (key, pubKeyBytes, r₁) ∧
      checkPin flags key (checkSelfSignature verify key pubKeyBytes r₁) = .ok r₂ ∧
      checkHead verify world pubKeyBytes r₂ = .ok (sth, r₃) ∧
      result'.treeSize = r₃.treeSize ∧ result'.rootHash = r₃.rootHash ∧
      result'.trustLevel = r₃.trustLevel := by
  unfold checks at h
  split_ifs at h
  · cases h
  · obtain ⟨⟨key, pub, r₁⟩, hkey, h⟩ := bind_ok h
    obtain ⟨r₂, hpin, h⟩ := bind_ok h
    obtain ⟨⟨sth, r₃⟩, hhead, h⟩ := bind_ok h
    obtain ⟨r₄, hcons, h⟩ := bind_ok h
    obtain rfl := save_ok h
    exact ⟨key, pub, r₁, r₂, sth, r₃, hkey, hpin, hhead, checkConsistency_ok hcons⟩

end Parts

/-! ## Soundness -/

/-- The text of a tree head that a notary signs. -/
def headText (treeSize : Int) (rootHash : Text) (timestampMS : Int) : Text :=
  Canonical.intText treeSize ++ '|' :: (rootHash ++ '|' :: Canonical.intText timestampMS)

/-- What the server has sent: a key with its bytes, and a tree head with the bytes of its
signature. -/
structure Sent (world : World) (key : NotaryKey) (pubKeyBytes : Bytes) (sth : SignedTreeHead)
    (sigBytes : Bytes) : Prop where
  keyRead : fetchJSON decodeNotaryKey world.keyReply = some key
  pubRead : rawStdDecode key.publicKey = some pubKeyBytes
  headRead : fetchJSON decodeSignedTreeHead world.headReply = some sth
  sigRead : rawStdDecode sth.signature = some sigBytes

/-- What a result is meant to say: the signature is over the text of the reported head, and at trust
level 3 the key that was used has the pinned fingerprint. -/
def Sound (verify : Bytes → Bytes → Bytes → Bool) (sha256 : Bytes → Bytes)
    (flags : Flags) (world : World) (result : VerifyResult) : Prop :=
  ∀ key pubKeyBytes sth sigBytes, Sent world key pubKeyBytes sth sigBytes →
    verify pubKeyBytes
      (encode (headText result.treeSize result.rootHash sth.timestampMS)) sigBytes = true ∧
    (result.trustLevel = 3 → Hex.encode (sha256 pubKeyBytes) = flags.expectedFP)

/-- The documents describe themselves: `sign_payload` is the text of the head's own fields, and,
when a fingerprint is pinned, `fingerprint` is that of the key's own bytes. -/
def SelfDescribing (sha256 : Bytes → Bytes) (flags : Flags) (world : World) : Prop :=
  ∀ key pubKeyBytes sth sigBytes, Sent world key pubKeyBytes sth sigBytes →
    sth.signPayload = headText sth.treeSize sth.rootHash sth.timestampMS ∧
    (flags.expectedFP ≠ [] → key.fingerprint = Hex.encode (sha256 pubKeyBytes))

section

variable {verify : Bytes → Bytes → Bytes → Bool} {sha256 : Bytes → Bytes}
  {flags : Flags} {world : World} {result : VerifyResult}

/-- **What a successful run has seen.** -/
theorem main_ok (h : main verify flags world = (exitOK, result)) :
    ∃ key pubKeyBytes sth sigBytes, Sent world key pubKeyBytes sth sigBytes ∧
      verify pubKeyBytes (encode sth.signPayload) sigBytes = true ∧
      result.treeSize = sth.treeSize ∧ result.rootHash = sth.rootHash ∧
      (result.trustLevel = 3 ↔ flags.expectedFP ≠ []) ∧
      (flags.expectedFP ≠ [] → key.fingerprint = flags.expectedFP) := by
  unfold main at h
  cases hchecks : checks verify flags world with
  | error ended =>
    rw [hchecks] at h
    exact absurd (Prod.mk.inj h).1 ended.1.exitCode_ne
  | ok r =>
    rw [hchecks] at h
    cases h
    obtain ⟨key, pub, r₁, r₂, sth, r₃, hkey, hpin, hhead, hrest⟩ := checks_ok hchecks
    obtain ⟨hfetch, hpub, hlevel₁⟩ := loadKey_ok hkey
    obtain ⟨hsth, ⟨sig, hsig, hver⟩, hsize, hroot, hlevel₃⟩ := checkHead_ok hhead
    obtain ⟨hsize', hroot', hlevel'⟩ := hrest
    refine ⟨key, pub, sth, sig, ⟨hfetch, hpub, hsth, hsig⟩, hver, hsize'.trans hsize,
      hroot'.trans hroot, ?_⟩
    have hlevel : r.trustLevel = r₂.trustLevel := hlevel'.trans hlevel₃
    show (r.trustLevel = 3 ↔ _) ∧ _
    rw [hlevel]
    rcases checkPin_ok hpin with ⟨hnone, hsame⟩ | ⟨hsome, hmatch, hthree⟩
    · -- without a pin the level is 1 or 2
      refine ⟨⟨fun hthree => ?_, fun hne => absurd hnone hne⟩, fun hne => absurd hnone hne⟩
      rcases checkSelfSignature_trustLevel verify key pub r₁ with h₂ | h₂ <;>
        rw [hsame, h₂] at hthree
      · rw [hlevel₁] at hthree
        cases hthree
      · cases hthree
    · exact ⟨⟨fun _ => hsome, fun _ => hthree⟩, fun _ => hmatch⟩

theorem Sent.unique {key key' : NotaryKey} {pub pub' : Bytes} {sth sth' : SignedTreeHead}
    {sig sig' : Bytes} (h : Sent world key pub sth sig) (h' : Sent world key' pub' sth' sig') :
    key = key' ∧ pub = pub' ∧ sth = sth' ∧ sig = sig' := by
  cases h.keyRead.symm.trans h'.keyRead
  cases h.headRead.symm.trans h'.headRead
  exact ⟨rfl, some.inj (h.pubRead.symm.trans h'.pubRead), rfl,
    some.inj (h.sigRead.symm.trans h'.sigRead)⟩

/-- **When the verifier is sound.**  A successful run means what it reports if the documents of the
server describe themselves.  The converse holds when the signature of the head, if it verifies over
`sign_payload` and over the text of the head, is over one text. -/
theorem main_sound (h : main verify flags world = (exitOK, result)) :
    (SelfDescribing sha256 flags world → Sound verify sha256 flags world result) ∧
      ((∀ key pub sth sig, Sent world key pub sth sig →
          verify pub (encode sth.signPayload) sig = true →
          verify pub (encode (headText sth.treeSize sth.rootHash sth.timestampMS)) sig = true →
          sth.signPayload = headText sth.treeSize sth.rootHash sth.timestampMS) →
        Sound verify sha256 flags world result → SelfDescribing sha256 flags world) := by
  obtain ⟨key, pub, sth, sig, hsent, hver, hsize, hroot, hlevel, hpin⟩ := main_ok h
  have hall : ∀ {P : NotaryKey → Bytes → SignedTreeHead → Bytes → Prop},
      (∀ key pub sth sig, Sent world key pub sth sig → P key pub sth sig) ↔ P key pub sth sig := by
    intro P
    refine ⟨fun hP => hP _ _ _ _ hsent, fun hP key' pub' sth' sig' hsent' => ?_⟩
    obtain ⟨rfl, rfl, rfl, rfl⟩ := hsent.unique hsent'
    exact hP
  unfold Sound SelfDescribing
  rw [hall, hall, hall, hsize, hroot, hlevel]
  constructor
  · rintro ⟨htext, hfp⟩
    rw [← htext]
    exact ⟨hver, fun hne => (hfp hne).symm.trans (hpin hne)⟩
  · rintro hbind ⟨htext, hfp⟩
    exact ⟨hbind hver htext, fun hne => (hpin hne).trans (hfp hne).symm⟩

end

/-! ## The server's own documents -/

/-- `GetPublicKeyInfo`. -/
def getPublicKeyInfo {scheme : Keys.Scheme} (sha256 : Bytes → Bytes)
    (n : Keys.Notary scheme) : NotaryKey :=
  let pubB64 := rawStdEncode n.serverKeyPair.pub
  let fpHex := Hex.encode (sha256 n.serverKeyPair.pub)
  let payload := n.serverName ++ '|' :: (n.serverKeyID ++ '|' :: (pubB64 ++ '|' :: fpHex))
  { serverName := n.serverName
    keyID := n.serverKeyID
    algorithm := "ed25519".toList
    publicKey := pubB64
    fingerprint := fpHex
    selfSignature := rawStdEncode (scheme.sign n.serverKeyPair.priv (encode payload))
    signPayload := payload }

/-- A head as the notary returns it, in the verifier's type. -/
def ofHead (head : Transparency.SignedTreeHead) : SignedTreeHead where
  treeSize := head.treeSize
  rootHash := head.rootHash
  timestamp := head.timestamp
  timestampMS := head.timestampMs
  signer := head.signer
  keyID := head.keyID
  signature := head.signature
  signPayload := head.signPayload

open Transparency (signedTreeHead)

/-! ## An honest notary -/

section Honest

variable {scheme : Keys.Scheme} {sha256 : Bytes → Bytes} {n : Keys.Notary scheme}
  {tree earlier : Merkle.Tree sha256} {now before : Int} {flags : Flags} {world : World}

/-- A head over more leaves, signed later, is consistent with an earlier one. -/
theorem inconsistency_ofHead (hleaves : earlier.leaves <+: tree.leaves) (hnow : before ≤ now) :
    inconsistency (ofHead (signedTreeHead n earlier before))
      (ofHead (signedTreeHead n tree now)) = none := by
  have hle : ((earlier.size : Nat) : Int) ≤ tree.size := Int.ofNat_le.2 hleaves.length_le
  have hroot : ((tree.size : Nat) : Int) = earlier.size → tree.rootHex = earlier.rootHex := by
    intro hsize
    have hsame := hleaves.eq_of_length (Int.ofNat_inj.1 hsize).symm
    rw [tree.eq_newFromHashes, earlier.eq_newFromHashes, hsame]
  refine (if_neg (not_lt.2 hle)).trans ((if_neg fun h => h.2 (hroot h.1)).trans (if_neg ?_))
  exact not_lt.2 (Int.ediv_le_ediv (by decide) hnow)

section Run

variable (hkey : fetchJSON decodeNotaryKey world.keyReply = some (getPublicKeyInfo sha256 n))
  (hhead : fetchJSON decodeSignedTreeHead world.headReply =
    some (ofHead (signedTreeHead n tree now)))
  (hurl : flags.url ≠ [])
  (hpin : flags.expectedFP = [] ∨ flags.expectedFP = Hex.encode (sha256 n.serverKeyPair.pub))
  (hprev : flags.prev ≠ [] → ∃ file earlier before, world.readFile flags.prev = some file ∧
    (parse (Utf8.decode file)).bind decodeSignedTreeHead =
      some (ofHead (signedTreeHead n earlier before)) ∧
    (earlier : Merkle.Tree sha256).leaves <+: tree.leaves ∧ before ≤ now)
  (hout : flags.out = [] ∨ world.writeOk = true)

include hkey hhead hurl hpin hprev hout

/-- The run on the documents of an honest notary. -/
theorem main_honest : ∃ result, main scheme.verify flags world = (exitOK, result) ∧
    result.trustLevel = if flags.expectedFP = [] then 2 else 3 := by
  have hencoded : ∀ m, rawStdEncode (scheme.sign n.serverKeyPair.priv m) ≠ [] := by
    intro m hnil
    have hdecode := rawStdDecode_encode (scheme.sign n.serverKeyPair.priv m)
    rw [hnil] at hdecode
    have hlen := n.serverKeyPair.sign_length m
    rw [← some.inj hdecode] at hlen
    cases hlen
  obtain ⟨r₁, h₁⟩ : ∃ r, loadKey world { trustLevel := 1 } =
      .ok (getPublicKeyInfo sha256 n, n.serverKeyPair.pub, r) := by
    simp [loadKey, hkey, getPublicKeyInfo, rawStdDecode_encode, n.serverKeyPair.pub_length]
  have hself : (checkSelfSignature scheme.verify (getPublicKeyInfo sha256 n)
      n.serverKeyPair.pub r₁).trustLevel = 2 := by
    simp [checkSelfSignature, getPublicKeyInfo, hencoded, rawStdDecode_encode,
      n.serverKeyPair.verifies]
  obtain ⟨r₂, h₂, hlevel₂⟩ : ∃ r, checkPin flags (getPublicKeyInfo sha256 n)
      (checkSelfSignature scheme.verify (getPublicKeyInfo sha256 n) n.serverKeyPair.pub r₁) =
        .ok r ∧ r.trustLevel = if flags.expectedFP = [] then 2 else 3 := by
    by_cases hnil : flags.expectedFP = []
    · simp [checkPin, hnil, hself]
    · simp [checkPin, hnil, (hpin.resolve_left hnil).symm, getPublicKeyInfo]
  obtain ⟨r₃, h₃⟩ : ∃ r, checkHead scheme.verify world n.serverKeyPair.pub r₂ =
      .ok (ofHead (signedTreeHead n tree now), r) := by
    simp [checkHead, hhead, ofHead, signedTreeHead, rawStdDecode_encode,
      n.serverKeyPair.verifies]
  obtain ⟨r, h₄⟩ : ∃ r, checkConsistency flags world
      (ofHead (signedTreeHead n tree now)) r₃ = .ok r := by
    unfold checkConsistency
    split_ifs with hnone
    · exact ⟨r₃, rfl⟩
    · obtain ⟨file, earlier, before, hfile, hparse, hleaves, hnow⟩ := hprev hnone
      simp [hfile, hparse, inconsistency_ofHead hleaves hnow]
  have h₅ : save flags world r = .ok r := if_neg fun h => hout.elim h.1 h.2
  have hmain : main scheme.verify flags world = (exitOK, { r with
      ok := true, trustLevelName := trustLevelName r.trustLevel }) := by
    rw [main, checks, if_neg hurl]
    simp [h₁, h₂, h₃, h₄, h₅, bind, Except.bind]
  exact ⟨_, hmain, (checkConsistency_ok h₄).2.2.trans ((checkHead_ok h₃).2.2.2.2.trans hlevel₂)⟩

/-- **The verifier accepts an honest notary.**  The documents are those of a notary that answers as
the code does, the pin is its fingerprint, and the saved head is one of its earlier heads: then the
program ends with success, at trust level 3 if the key is pinned and at level 2 if not, and what it
reports is so. -/
theorem honest_notary_passes : ∃ result, main scheme.verify flags world = (exitOK, result) ∧
    Sound scheme.verify sha256 flags world result ∧
    result.trustLevel = if flags.expectedFP = [] then 2 else 3 := by
  obtain ⟨result, hmain, hlevel⟩ := main_honest hkey hhead hurl hpin hprev hout
  obtain ⟨key, pub, sth, sig, hsent, hver, hsize, hroot, hthree, hfp⟩ := main_ok hmain
  refine ⟨result, hmain, fun key' pub' sth' sig' hsent' => ?_, hlevel⟩
  obtain ⟨rfl, rfl, rfl, rfl⟩ := hsent.unique hsent'
  cases hhead.symm.trans hsent.headRead
  cases hkey.symm.trans hsent.keyRead
  have hpub := (rawStdDecode_encode _).symm.trans hsent.pubRead
  rw [hsize, hroot, ← some.inj hpub]
  exact ⟨some.inj hpub ▸ hver, fun h => hfp (hthree.1 h)⟩

end Run

end Honest

/-! ## Documents as they are written -/

/-- A body that is one document is decoded from it. -/
theorem fetchJSON_of_parse {σ : Type} {decode : Json → Option σ} {body : Bytes} {j : Json}
    (h : parse (Utf8.decode body) = some j) : fetchJSON decode (some (200, body)) = decode j := by
  obtain ⟨rest, hfirst⟩ := parseFirst_of_parse h
  simp [fetchJSON, hfirst]

/-- A key as the server writes it. -/
def keyDocument (key : NotaryKey) : Bytes :=
  Keys.bytesOf [("server_name".toList, .str key.serverName), ("key_id".toList, .str key.keyID),
    ("algorithm".toList, .str key.algorithm), ("public_key".toList, .str key.publicKey),
    ("fingerprint".toList, .str key.fingerprint),
    ("self_signature".toList, .str key.selfSignature),
    ("sign_payload".toList, .str key.signPayload)]

theorem fetch_keyDocument (key : NotaryKey) :
    fetchJSON decodeNotaryKey (some (200, keyDocument key)) = some key :=
  (fetchJSON_of_parse (Keys.parse_bytesOf rfl (Nat.le_of_ble_eq_true rfl))).trans rfl

/-- A tree head as the server writes it. -/
def headMembers (head : SignedTreeHead) : List (Text × Json) :=
  [("tree_size".toList, .num (Canonical.intText head.treeSize)),
    ("root_hash".toList, .str head.rootHash), ("timestamp".toList, .str head.timestamp),
    ("timestamp_ms".toList, .num (Canonical.intText head.timestampMS)),
    ("signer".toList, .str head.signer), ("key_id".toList, .str head.keyID),
    ("signature".toList, .str head.signature), ("sign_payload".toList, .str head.signPayload)]

theorem parse_headMembers (head : SignedTreeHead) :
    parse (Utf8.decode (Keys.bytesOf (headMembers head))) = some (.obj (headMembers head)) := by
  refine Keys.parse_bytesOf ?_ (Nat.le_of_ble_eq_true rfl)
  show (decide (IsNumber _) && (true && (true && (decide (IsNumber _) && true)))) = true
  simp [Canonical.isNumber_intText]

section Head

variable {head : SignedTreeHead} (hsize : Canonical.Safe (Canonical.intText head.treeSize))
  (hms : Canonical.Safe (Canonical.intText head.timestampMS))

include hsize hms

theorem decode_headMembers : decodeSignedTreeHead (.obj (headMembers head)) = some head := by
  show ((decodeInt 0 (.num (Canonical.intText head.treeSize))).map fun n =>
    (⟨n, [], [], 0, [], [], [], []⟩ : SignedTreeHead)).bind _ = _
  rw [Keys.decodeInt_intText hsize]
  show ((decodeInt 0 (.num (Canonical.intText head.timestampMS))).map fun n =>
    (⟨head.treeSize, head.rootHash, head.timestamp, n, [], [], [], []⟩ : SignedTreeHead)).bind _ = _
  rw [Keys.decodeInt_intText hms]
  rfl

theorem fetch_headMembers : fetchJSON decodeSignedTreeHead
    (some (200, Keys.bytesOf (headMembers head))) = some head :=
  (fetchJSON_of_parse (parse_headMembers head)).trans (decode_headMembers hsize hms)

end Head

/-! ## Runs -/

/-- A log with one entry. -/
def firstTree : Merkle.Tree Digest.sha256 := (Merkle.new Digest.sha256).add [1]

/-- The same log with a second entry. -/
def sampleTree : Merkle.Tree Digest.sha256 := firstTree.add [2]

/-- Its head, signed at 2026-06-22T00:50:40Z. -/
def sampleHead : SignedTreeHead :=
  ofHead (signedTreeHead Keys.sampleNotary sampleTree 1782089440000000000)

/-- The head that was saved an hour before. -/
def savedHead : SignedTreeHead :=
  ofHead (signedTreeHead Keys.sampleNotary firstTree 1782085840000000000)

def sampleKey : NotaryKey := getPublicKeyInfo Digest.sha256 Keys.sampleNotary

/-- A server with these documents. -/
def worldOf (key : NotaryKey) (head : SignedTreeHead) : World where
  keyReply := some (200, keyDocument key)
  headReply := some (200, Keys.bytesOf (headMembers head))
  readFile path := if path = "p".toList then some (Keys.bytesOf (headMembers savedHead)) else none
  writeOk := true

def pinned (fingerprint : Text) : Flags := ⟨"u".toList, "p".toList, "o".toList, fingerprint⟩

theorem fetch_sampleKey : fetchJSON decodeNotaryKey (worldOf sampleKey sampleHead).keyReply =
    some (getPublicKeyInfo Digest.sha256 Keys.sampleNotary) :=
  fetch_keyDocument sampleKey

theorem fetch_sampleHead :
    fetchJSON decodeSignedTreeHead (worldOf sampleKey sampleHead).headReply =
      some (ofHead (signedTreeHead Keys.sampleNotary sampleTree 1782089440000000000)) :=
  fetch_headMembers
    (show Canonical.Safe (Canonical.intText sampleHead.treeSize) by decide +kernel)
    (by decide +kernel)

/-- The saved head is that of an earlier log. -/
theorem saved_earlier : ∃ file earlier before,
    (worldOf sampleKey sampleHead).readFile "p".toList = some file ∧
      (parse (Utf8.decode file)).bind decodeSignedTreeHead =
        some (ofHead (signedTreeHead Keys.sampleNotary earlier before)) ∧
      (earlier : Merkle.Tree Digest.sha256).leaves <+: sampleTree.leaves ∧
      before ≤ (1782089440000000000 : Int) := by
  refine ⟨Keys.bytesOf (headMembers savedHead), firstTree, 1782085840000000000, rfl, ?_, ⟨_, rfl⟩,
    by decide⟩
  rw [parse_headMembers, bind_some]
  exact decode_headMembers (by decide +kernel) (by decide +kernel)

/-- The documents of the sample notary, with its own fingerprint pinned. -/
theorem main_sound_honest :
    ∃ result, main Keys.sampleScheme.verify (pinned sampleKey.fingerprint)
        (worldOf sampleKey sampleHead) = (exitOK, result) ∧ result.trustLevel = 3 ∧
      Sound Keys.sampleScheme.verify Digest.sha256 (pinned sampleKey.fingerprint)
        (worldOf sampleKey sampleHead) result := by
  obtain ⟨result, hmain, hlevel⟩ := main_honest fetch_sampleKey fetch_sampleHead
    (show (pinned sampleKey.fingerprint).url ≠ [] by decide) (.inr rfl) (fun _ => saved_earlier)
    (.inr rfl)
  refine ⟨result, hmain, hlevel, (main_sound hmain).1 fun key pub sth sig hsent => ?_⟩
  obtain rfl := some.inj (fetch_sampleKey.symm.trans hsent.keyRead)
  obtain rfl := some.inj (fetch_sampleHead.symm.trans hsent.headRead)
  have hpub : Keys.sampleNotary.serverKeyPair.pub = pub :=
    some.inj ((rawStdDecode_encode _).symm.trans hsent.pubRead)
  rw [← hpub]
  exact ⟨rfl, fun _ => rfl⟩

/-- The key of the sample notary with the fingerprint of another. -/
def maskedKey : NotaryKey := { sampleKey with fingerprint := "pin".toList }

/-- The head of the sample notary with another root. -/
def alteredHead : SignedTreeHead := { sampleHead with rootHash := "ff".toList }

/-- **A report that nothing vouches for.**  The head shows another root than the one under the
signature, and the key shows the pinned fingerprint, which is not its own.  The verifier ends with
success at trust level 3. -/
theorem unchecked_report :
    ∃ result key pub sth sig,
      main Keys.sampleScheme.verify (pinned "pin".toList) (worldOf maskedKey alteredHead) =
        (exitOK, result) ∧
      Sent (worldOf maskedKey alteredHead) key pub sth sig ∧
      Keys.sampleScheme.verify pub
        (Utf8.encode (headText result.treeSize result.rootHash sth.timestampMS)) sig = false ∧
      result.trustLevel = 3 ∧
      Hex.encode (Digest.sha256 pub) ≠ (pinned "pin".toList).expectedFP := by
  have hrun : (main Keys.sampleScheme.verify (pinned "pin".toList)
        (worldOf maskedKey alteredHead)).1 = exitOK ∧
      (main Keys.sampleScheme.verify (pinned "pin".toList)
        (worldOf maskedKey alteredHead)).2.trustLevel = 3 := by
    decide +kernel
  rcases hmain : main Keys.sampleScheme.verify (pinned "pin".toList)
    (worldOf maskedKey alteredHead) with ⟨code, result⟩
  rw [hmain] at hrun
  obtain ⟨rfl, hlevel⟩ := hrun
  obtain ⟨key, pub, sth, sig, hsent, -, hsize, hroot, -, -⟩ := main_ok hmain
  obtain rfl := some.inj ((fetch_keyDocument maskedKey).symm.trans hsent.keyRead)
  have hhead := fetch_headMembers
    (show Canonical.Safe (Canonical.intText alteredHead.treeSize) by decide +kernel)
    (by decide +kernel)
  obtain rfl := some.inj (hhead.symm.trans hsent.headRead)
  have hpub : Keys.samplePub = pub :=
    some.inj ((rawStdDecode_encode _).symm.trans hsent.pubRead)
  have hsig := some.inj ((rawStdDecode_encode _).symm.trans hsent.sigRead)
  refine ⟨result, _, pub, _, sig, rfl, hsent, ?_, hlevel, ?_⟩
  · rw [hsize, hroot, ← hpub, ← hsig]
    decide +kernel
  · rw [← hpub]
    decide +kernel

/-- The log has grown since the saved head, and the key is pinned. -/
theorem honest_notary_passes_grown :
    ∃ result, main Keys.sampleScheme.verify (pinned sampleKey.fingerprint)
        (worldOf sampleKey sampleHead) = (exitOK, result) ∧
      Sound Keys.sampleScheme.verify Digest.sha256 (pinned sampleKey.fingerprint)
        (worldOf sampleKey sampleHead) result ∧ result.trustLevel = 3 :=
  honest_notary_passes fetch_sampleKey fetch_sampleHead (by decide) (.inr rfl)
    (fun _ => saved_earlier) (.inr rfl)

end MxKeys.Verifier
