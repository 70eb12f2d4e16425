/-
# MxKeys.Keys.SelfSignature — the signature of a server over its own keys.

`verifySelfSignature` gets a response twice: as the struct that is cached and served, and as the
bytes it was decoded from.  The signature is checked over the bytes, which are read once more, into
a generic map, stripped of `signatures` and `unsigned`, written by `json.Marshal` and made
canonical; the keys it is checked with come from the struct.

`signed_fields_used`: when the names of the signed fields are unambiguous in the bytes, the struct
and the object that was signed hold the same fields.  Without that they need not:
`merged_keys_accepted` is a response with two `verify_keys`, whose struct has the keys of both and
whose signature covers the second.
-/
import MxKeys.Canonical.Json
import MxKeys.Keys.Response
import MxKeys.Lib.Base64

namespace MxKeys.Keys

open MxKeys.Lib
open Option Json Assoc Canonical Utf8

/-! ## The bytes that are signed -/

/-- The generic map that `Decode` makes of the first value; `null` gives the nil map. -/
def decodeObject (raw : Bytes) : Option Json :=
  (parseFirst (decode raw)).bind fun p =>
    match p.1 with
    | .obj members => some (Json.obj members).generic
    | .null => some .null
    | _ => none

/-- Without `signatures` and `unsigned`. -/
def strip : Json → Json
  | .obj members => .obj (erase "unsigned".toList (erase "signatures".toList members))
  | j => j

/-- The object whose canonical form is signed: the stripped map is written by `json.Marshal` and
read by `canonical.JSON`. -/
def signedObject (raw : Bytes) : Option Json :=
  (decodeObject raw).bind fun parsed => input (encode (strip parsed).marshal)

/-! ## The check -/

/-- `ed25519.PublicKeySize`. -/
def publicKeySize : Nat := 32

/-- `ed25519.SignatureSize`. -/
def signatureSize : Nat := 64

section Verify

-- `ed25519.Verify`: the public key, the message and the signature
variable (verify : Bytes → Bytes → Bytes → Bool)

/-- One signature under one key, both in base64. -/
def checkSignature (message : Bytes) (key sig : Text) : Bool :=
  match Base64.rawStdDecode key with
  | none => false
  | some pubKey =>
    if pubKey.length ≠ publicKeySize then false
    else
      match Base64.rawStdDecode sig with
      | none => false
      | some sig => if sig.length ≠ signatureSize then false else verify pubKey message sig

/-- The key of a response under an identifier: a current one, or else an old one. -/
def ServerKeysResponse.keyFor (r : ServerKeysResponse) (keyID : Text) : Option Text :=
  match get keyID r.verifyKeys with
  | some k => some k.key
  | none => (get keyID r.oldVerifyKeys).map (·.key)

/-- Whether a signature of the server verifies. -/
def ServerKeysResponse.accepts (r : ServerKeysResponse) (message : Bytes)
    (s : Text × Text) : Bool :=
  match r.keyFor s.1 with
  | some key => checkSignature verify message key s.2
  | none => false

/-- What `verifySelfSignature` reports. -/
inductive SelfSignatureError
  /-- server_name is empty -/
  | serverNameEmpty
  /-- verify_keys is empty -/
  | verifyKeysEmpty
  /-- valid_until_ts is in the past -/
  | expired
  /-- no signatures in response -/
  | noSignatures
  /-- no self-signature found -/
  | noSelfSignature
  /-- too many signatures -/
  | tooManySignatures
  /-- failed to parse JSON for verification -/
  | parse
  /-- failed to canonicalize JSON -/
  | canonicalize
  /-- no valid self-signature -/
  | noValidSignature
  deriving DecidableEq

/-- `verifySelfSignature`; `now` is the clock in milliseconds.  The signatures are tried in the
order of a Go map, and one that verifies is enough. -/
def verifySelfSignature (maxSignatures now : Int) (r : ServerKeysResponse) (raw : Bytes) :
    Except SelfSignatureError Unit :=
  if r.serverName = [] then .error .serverNameEmpty
  else if r.verifyKeys = [] then .error .verifyKeysEmpty
  else if r.validUntilTS ≤ now then .error .expired
  else
    match r.signatures with
    | none => .error .noSignatures
    | some signatures =>
      match get r.serverName signatures with
      | none => .error .noSelfSignature
      | some serverSigs =>
        if maxSignatures < serverSigs.length then .error .tooManySignatures
        else
          match decodeObject raw with
          | none => .error .parse
          | some parsed =>
            match json (encode (strip parsed).marshal) with
            | none => .error .canonicalize
            | some message =>
              if serverSigs.any (r.accepts verify message) then .ok ()
              else .error .noValidSignature

end Verify

/-- What an accepted response has. -/
structure SelfSigned (verify : Bytes → Bytes → Bytes → Bool) (now : Int)
    (r : ServerKeysResponse) (raw : Bytes) : Prop where
  named : r.serverName ≠ []
  current : now < r.validUntilTS
  signed : ∃ signatures serverSigs obj message s, r.signatures = some signatures ∧
    get r.serverName signatures = some serverSigs ∧ signedObject raw = some obj ∧
    Canonical.marshal obj = some message ∧ s ∈ serverSigs ∧ r.accepts verify message s = true

variable {raw : Bytes} {members : List (Text × Json)}

theorem verifySelfSignature_ok {verify : Bytes → Bytes → Bytes → Bool}
    {maxSignatures now : Int} {r : ServerKeysResponse}
    (h : verifySelfSignature verify maxSignatures now r raw = .ok ()) :
    SelfSigned verify now r raw := by
  unfold verifySelfSignature at h
  split_ifs at h with hname hkeys hexpired
  cases hsigs : r.signatures with
  | none => simp [hsigs] at h
  | some signatures =>
    simp only [hsigs] at h
    cases hserver : get r.serverName signatures with
    | none => simp [hserver] at h
    | some serverSigs =>
      simp only [hserver] at h
      split_ifs at h with hmany
      cases hparsed : decodeObject raw with
      | none => simp [hparsed] at h
      | some parsed =>
        simp only [hparsed] at h
        cases hmessage : json (encode (strip parsed).marshal) with
        | none => simp [hmessage] at h
        | some message =>
          simp only [hmessage] at h
          split_ifs at h with hany
          obtain ⟨s, hs, haccepts⟩ := List.any_eq_true.1 hany
          obtain ⟨obj, hobj, hmarshal⟩ := bind_eq_some_iff.1 hmessage
          have hsigned : signedObject raw = some obj := by
            rw [signedObject, hparsed]
            exact hobj
          exact ⟨hname, not_le.1 hexpired, signatures, serverSigs, obj, message, s, hsigs,
            hserver, hsigned, hmarshal, hs, haccepts⟩

/-! ## The object that was signed -/

/-- What is left of a generic map is still one, and no deeper. -/
theorem strip_generic (hwf : (Json.obj members).WellFormed) :
    (strip (Json.obj members).generic).Normal ∧ (strip (Json.obj members).generic).WellFormed ∧
      (strip (Json.obj members).generic).depth ≤ (Json.obj members).depth := by
  have hnormal := normal_generic (.obj members)
  have hnumbers := numbers_generic hwf
  have hdepth := depth_generic_le (.obj members)
  rw [generic_obj] at hnormal hnumbers hdepth ⊢
  rw [normal_obj] at hnormal
  rw [numbers_obj] at hnumbers
  generalize ofEntries (mapValues generic members) = g at hnormal hnumbers hdepth ⊢
  have hsub : ∀ m ∈ erase "unsigned".toList (erase "signatures".toList g), m ∈ g :=
    fun m hm => List.mem_of_mem_filter (List.mem_of_mem_filter hm)
  refine ⟨normal_obj _ |>.2 ⟨?_, fun m hm => hnormal.2 m (hsub m hm)⟩,
    numbers_obj _ |>.2 fun m hm => hnumbers m (hsub m hm), ?_⟩
  · exact sorted_erase _ (sorted_erase _ hnormal.1)
  · exact le_trans (depth_obj_le (fun m hm => depth_lt_of_mem (hsub m hm))
      (depth_obj_pos g)) hdepth

theorem decodeObject_eq (h : parse (decode raw) = some (.obj members)) :
    decodeObject raw = some (Json.obj members).generic := by
  obtain ⟨rest, hfirst⟩ := parseFirst_of_parse h
  rw [decodeObject, hfirst]
  rfl

/-- What `canonical.JSON` reads is the stripped generic value of the document. -/
theorem input_strip (h : parse (decode raw) = some (.obj members)) :
    input (encode (strip (Json.obj members).generic).marshal) =
      some (strip (Json.obj members).generic) := by
  obtain ⟨hwf, hdepth⟩ := parse_wellFormed h
  obtain ⟨hnormal, hwf', hdepth'⟩ := strip_generic hwf
  exact input_marshal hnormal hwf' (hdepth'.trans hdepth)

/-- The object that is signed is the stripped generic value of the document. -/
theorem signedObject_eq (h : parse (decode raw) = some (.obj members)) :
    signedObject raw = some (strip (Json.obj members).generic) := by
  rw [signedObject, decodeObject_eq h]
  exact input_strip h

theorem lookup_erase {name key : Text} (hne : name ≠ key) (members : List (Text × Json)) :
    lookup name (erase key members) = lookup name members := by
  rw [lookup, get_erase, if_neg hne]
  rfl

theorem readFields_strip (j : Json) : readFields (strip j) = readFields j := by
  cases j with
  | obj members =>
    have hkeep : ∀ n ∈ signedNames, lookup n
        (erase "unsigned".toList (erase "signatures".toList members)) =
        lookup n members := by
      intro n hn
      rw [lookup_erase, lookup_erase] <;> rintro rfl <;> exact absurd hn (by decide)
    simp only [signedNames, List.forall_mem_cons] at hkeep
    obtain ⟨h₁, h₂, h₃, h₄, -⟩ := hkeep
    simp only [strip, readFields, h₁, h₂, h₃, h₄]
  | _ => rfl

/-- The names of the signed fields are unambiguous in the bytes of a response. -/
def Clear (raw : Bytes) : Prop := ∀ j, parse (decode raw) = some j → ClearFields j

/-- **Signed fields are the used fields**: the struct that is cached and served holds the fields of
the object whose canonical form was signed. -/
theorem signed_fields_used {verify : Bytes → Bytes → Bytes → Bool}
    {maxSignatures now : Int} {raw : Bytes} {r : ServerKeysResponse}
    (hdecode : unmarshalResponse raw = some r)
    (hverify : verifySelfSignature verify maxSignatures now r raw = .ok ()) (hclear : Clear raw) :
    ∃ obj message, signedObject raw = some obj ∧ Canonical.marshal obj = some message ∧
      (∃ signatures serverSigs s, r.signatures = some signatures ∧
        Assoc.get r.serverName signatures = some serverSigs ∧ s ∈ serverSigs ∧
        r.accepts verify message s = true) ∧
      readFields obj = some r.signedFields := by
  have hsigned := verifySelfSignature_ok hverify
  obtain ⟨signatures, serverSigs, obj, message, s, hsigs, hserver, hobj, hmessage, hs, haccepts⟩ :=
    hsigned.signed
  refine ⟨obj, message, hobj, hmessage, ⟨signatures, serverSigs, s, hsigs, hserver, hs, haccepts⟩,
    ?_⟩
  obtain ⟨j, hj, hr⟩ := bind_eq_some_iff.1 hdecode
  have hfields := readFields_generic (hclear j hj) hr hsigned.named
  cases j with
  | obj members =>
    rw [signedObject_eq hj] at hobj
    cases hobj
    rw [readFields_strip, hfields]
  | null =>
    cases hr
    exact absurd rfl hsigned.named
  | _ => cases hr

/-! ## A response with two key maps -/

/-- A key of 32 bytes in base64. -/
def sampleKey (c : Char) : Text := List.replicate 43 c

/-- `verify_keys` with one key. -/
def oneKey (keyID : Text) (c : Char) : Text × Json :=
  ("verify_keys".toList, .obj [(keyID, .obj [("key".toList, .str (sampleKey c))])])

/-- A response of the server `s`, signed with its key `b`. -/
def honestMembers : List (Text × Json) :=
  [oneKey "b".toList 'B', ("server_name".toList, .str "s".toList),
    ("valid_until_ts".toList, .num "10".toList),
    ("signatures".toList,
      .obj [("s".toList, .obj [("b".toList, .str (List.replicate 86 'C'))])])]

/-- The bytes of a document. -/
def bytesOf (members : List (Text × Json)) : Bytes :=
  encode (Json.obj members).marshal

theorem parse_bytesOf (hwf : wellFormed (.obj members) = true)
    (hdepth : (Json.obj members).depth ≤ maxNestingDepth) :
    parse (decode (bytesOf members)) = some (.obj members) := by
  rw [bytesOf, decode_encode]
  exact parse_text marshalEscape_escapes ((wellFormed_iff _).1 hwf) hdepth

/-- A signature scheme in which only one message was signed. -/
def signedOnly (message : Option Bytes) (_ m _ : Bytes) : Bool := message == some m

/-- The bytes that the server has signed. -/
def honestMessage : Option Bytes := (signedObject (bytesOf honestMembers)).bind Canonical.marshal

/-- Somebody else puts a key map of their own in front. -/
def mergedMembers : List (Text × Json) := oneKey "a".toList 'A' :: honestMembers

/-- The keys of a map with the given identifiers. -/
def sampleKeys (keys : List (Text × Char)) : Map VerifyKeyResponse :=
  keys.map fun k => (k.1, ⟨sampleKey k.2⟩)

/-- The response of `s` with the given keys. -/
def sampleResponse (keys : List (Text × Char)) : ServerKeysResponse where
  serverName := "s".toList
  verifyKeys := sampleKeys keys
  oldVerifyKeys := []
  validUntilTS := 10
  signatures := some [("s".toList, [("b".toList, List.replicate 86 'C')])]
  raw := []

theorem honest_parse :
    parse (decode (bytesOf honestMembers)) = some (.obj honestMembers) :=
  parse_bytesOf (by decide +kernel) (by decide +kernel)

theorem merged_parse :
    parse (decode (bytesOf mergedMembers)) = some (.obj mergedMembers) :=
  parse_bytesOf (by decide +kernel) (by decide +kernel)

theorem honestMessage_eq :
    honestMessage = Canonical.marshal (strip (Json.obj honestMembers).generic) := by
  rw [honestMessage, signedObject_eq honest_parse, bind_some]

/-- A response without ambiguous names. -/
theorem signed_fields_used_honest :
    Clear (bytesOf honestMembers) ∧ ∃ obj message,
      signedObject (bytesOf honestMembers) = some obj ∧ Canonical.marshal obj = some message ∧
      readFields obj = some (sampleResponse [("b".toList, 'B')]).signedFields := by
  have hclear : Clear (bytesOf honestMembers) := by
    intro j hj
    cases honest_parse.symm.trans hj
    exact ⟨by decide +kernel, by decide +kernel, by decide +kernel⟩
  have hdecode : unmarshalResponse (bytesOf honestMembers) =
      some (sampleResponse [("b".toList, 'B')]) := by
    rw [unmarshalResponse, honest_parse]
    decide +kernel
  have hverify : verifySelfSignature (signedOnly honestMessage) 10 0
      (sampleResponse [("b".toList, 'B')]) (bytesOf honestMembers) = .ok () := by
    simp only [verifySelfSignature, decodeObject_eq honest_parse, json,
      input_strip honest_parse, honestMessage_eq, bind_some]
    decide +kernel
  obtain ⟨obj, message, hobj, hmessage, -, hfields⟩ := signed_fields_used hdecode hverify hclear
  exact ⟨hclear, obj, message, hobj, hmessage, hfields⟩

/-- **The signature of the server covers its own key map, the struct has both**: the key `a`, which
the server never signed, is accepted with it. -/
theorem merged_keys_accepted :
    unmarshalResponse (bytesOf mergedMembers) =
        some (sampleResponse [("a".toList, 'A'), ("b".toList, 'B')]) ∧
      verifySelfSignature (signedOnly honestMessage) 10 0
        (sampleResponse [("a".toList, 'A'), ("b".toList, 'B')]) (bytesOf mergedMembers) = .ok () ∧
      ∃ obj, signedObject (bytesOf mergedMembers) = some obj ∧
        readFields obj = some (sampleResponse [("b".toList, 'B')]).signedFields ∧
        readFields obj ≠
          some (sampleResponse [("a".toList, 'A'), ("b".toList, 'B')]).signedFields := by
  refine ⟨?_, ?_, _, signedObject_eq merged_parse, ?_⟩
  · rw [unmarshalResponse, merged_parse]
    decide +kernel
  · simp only [verifySelfSignature, decodeObject_eq merged_parse, json,
      input_strip merged_parse, honestMessage_eq, bind_some]
    decide +kernel
  · decide +kernel

end MxKeys.Keys
