/-
# MxKeys.Keys.NotaryVerification — a second instance checks the notary's signature.

An instance that falls back to a notary decodes what it gets into the struct and, when it has pinned
the key of the notary, checks the signature over the four fields of the struct and the signatures of
others.  The notary makes its signature over the same payload when it delivers the struct, but over
the whole object of the origin when it delivers that.

`second_instance_accepts_iff`: the two agree on the struct, and on an object of the origin that has
the four fields and nothing else; on any other object they do not.  `missing_field_rejected` is a
response without `old_verify_keys`, which the notary signs without the field and the second instance
checks with it.
-/
import MxKeys.Keys.Delivery

namespace MxKeys.Keys

open MxKeys.Lib
open List Option Assoc Json Canonical

/-! ## The check of the second instance -/

/-- A notary whose key is pinned. -/
structure TrustedNotary where
  keyID : Text
  publicKey : Bytes

/-- What `verifyNotarySignature` reports. -/
inductive NotaryError
  /-- notary did not sign the response -/
  | notSigned
  /-- notary did not sign with pinned key -/
  | pinnedKeyMissing
  /-- failed to decode notary signature -/
  | decodeSignature
  /-- invalid notary signature length -/
  | signatureLength
  /-- invalid pinned public key length -/
  | publicKeyLength
  /-- failed to canonicalize notary payload -/
  | canonicalize
  /-- notary key mismatch -/
  | keyMismatch
  deriving DecidableEq

/-- `verifyNotarySignature`; without a pinned key the notary is trusted on its TLS certificate. -/
def verifyNotarySignature (verify : Bytes → Bytes → Bytes → Bool)
    (trustedNotaries : Map TrustedNotary) (notary : Text) (resp : ServerKeysResponse) :
    Except NotaryError Unit :=
  match get notary trustedNotaries with
  | none => .ok ()
  | some trusted =>
    match get notary (resp.signatures.getD []) with
    | none => .error .notSigned
    | some notarySigs =>
      match get trusted.keyID notarySigs with
      | none => .error .pinnedKeyMissing
      | some sig =>
        match Base64.rawStdDecode sig with
        | none => .error .decodeSignature
        | some sigBytes =>
          if sigBytes.length ≠ signatureSize then .error .signatureLength
          else if trusted.publicKey.length ≠ publicKeySize then .error .publicKeyLength
          else
            match Canonical.marshal (perspective notary resp) with
            | none => .error .canonicalize
            | some message =>
              if verify trusted.publicKey message sigBytes then .ok () else .error .keyMismatch

/-- What an accepted response has. -/
theorem verifyNotarySignature_ok {verify : Bytes → Bytes → Bytes → Bool}
    {trustedNotaries : Map TrustedNotary} {notary : Text} {resp : ServerKeysResponse}
    {trusted : TrustedNotary} (hpin : get notary trustedNotaries = some trusted) :
    verifyNotarySignature verify trustedNotaries notary resp = .ok () ↔
      ∃ notarySigs sig sigBytes message, get notary (resp.signatures.getD []) =
        some notarySigs ∧ get trusted.keyID notarySigs = some sig ∧
        Base64.rawStdDecode sig = some sigBytes ∧ sigBytes.length = signatureSize ∧
        trusted.publicKey.length = publicKeySize ∧
        Canonical.marshal (perspective notary resp) = some message ∧
        verify trusted.publicKey message sigBytes = true := by
  unfold verifyNotarySignature
  rw [hpin]
  constructor
  · intro h
    dsimp only at h
    split at h
    · cases h
    · rename_i notarySigs hsigs
      split at h
      · cases h
      · rename_i sig hsig
        split at h
        · cases h
        · rename_i sigBytes hbytes
          split_ifs at h with hlen hpub
          split at h
          · cases h
          · rename_i message hmessage
            split_ifs at h with hverify
            exact ⟨notarySigs, sig, sigBytes, message, hsigs, hsig, hbytes, not_not.1 hlen,
              not_not.1 hpub, hmessage, hverify⟩
  · rintro ⟨notarySigs, sig, sigBytes, message, hsigs, hsig, hbytes, hlen, hpub, hmessage, hverify⟩
    simp only [hsigs, hsig, hbytes, hmessage]
    rw [if_neg (not_not.2 hlen), if_neg (not_not.2 hpub), if_pos hverify]

/-- A second instance decodes the bytes and accepts the notary's signature on them. -/
def AcceptedBy (verify : Bytes → Bytes → Bytes → Bool)
    (trustedNotaries : Map TrustedNotary) (notary : Text) (bytes : Bytes) : Prop :=
  ∃ r, unmarshalResponse bytes = some r ∧
    verifyNotarySignature verify trustedNotaries notary r = .ok ()

/-! ## The four fields and nothing else -/

/-- The payload of the origin, without `signatures` and `unsigned`, is one of the four fields. -/
def Exact (obj : Map Json) : Prop :=
  ∃ f : SignedFields, Canonical.normalize (.obj (stripMembers obj)) = some (.obj f.toSign)

/-- The maps of the four fields are in order and the timestamps in range. -/
structure SignedFields.Regular (f : SignedFields) : Prop where
  verifyKeys : Sorted f.verifyKeys
  oldVerifyKeys : Sorted f.oldVerifyKeys
  inRange : f.InRange

variable {f : SignedFields}

theorem regular_of_normalForm (h : NormalForm (.obj f.toSign)) :
    f.Regular := by
  have hnormal := ((normal_obj _).1 h.normal).2
  simp only [SignedFields.toSign, forall_mem_cons] at hnormal
  obtain ⟨hold, -, -, hkeys, -⟩ := hnormal
  have hsafe := (normalize_isSome h.normal).1 (isSome_of_eq_some h.fixed)
  obtain ⟨huntil, hexpired⟩ := numbers_toSign.1 hsafe
  exact ⟨sorted_mapValues.1 ((normal_obj _).1 hkeys).1,
    sorted_mapValues.1 ((normal_obj _).1 hold).1, huntil, hexpired⟩

theorem normalForm_toSign (h : f.Regular) :
    NormalForm (.obj f.toSign) := by
  refine normalForm_obj (payload_toSign h.verifyKeys h.oldVerifyKeys).sorted ?_
  simp only [SignedFields.toSign, forall_mem_cons]
  refine ⟨?_, normalForm_str _, normalForm_intText h.inRange.validUntilTS, ?_,
    forall_mem_nil _⟩
  · refine normalForm_obj (sorted_mapValues.2 h.oldVerifyKeys) ?_
    refine forall_mem_map.2 fun e he => ?_
    have hlt : "expired_ts".toList < "key".toList := by decide
    refine normalForm_obj (pairwise_pair.2 hlt) ?_
    simp only [forall_mem_cons]
    exact ⟨normalForm_intText (h.inRange.expiredTS e he), normalForm_str _,
      forall_mem_nil _⟩
  · refine normalForm_obj (sorted_mapValues.2 h.verifyKeys) ?_
    refine forall_mem_map.2 fun e _ => ?_
    exact normalForm_obj (pairwise_singleton _ _)
      (forall_mem_singleton.2 (normalForm_str _))

theorem decodeOldKey_toMap {k : OldKeyResponse}
    (h : Safe (intText k.expiredTS)) : decodeOldKey k.toMap = some k := by
  show ((decodeInt 0 (.num (intText k.expiredTS))).map fun n =>
    OldKeyResponse.mk [] n).bind _ = _
  rw [decodeInt_intText h]
  rfl

/-- A map with the four fields, `signatures` and perhaps `unsigned`. -/
theorem eq_of_strip {ks : Map Json} (hks : Sorted ks) {s : Json}
    (htoSign : Sorted f.toSign) (hstrip : stripMembers ks = f.toSign)
    (hs : get "signatures".toList ks = some s) :
    ks = insert "signatures".toList s f.toSign ∨
      ∃ u, ks = insert "signatures".toList s
        (insert "unsigned".toList u f.toSign) := by
  have hother : ∀ name, name ≠ "signatures".toList → name ≠ "unsigned".toList →
      get name ks = get name f.toSign := by
    intro name hne hne'
    rw [← hstrip, stripMembers, get_erase, if_neg hne', get_erase, if_neg hne]
  cases hu : get "unsigned".toList ks with
  | none =>
    refine .inl (ext_get hks (sorted_insert _ _ htoSign) fun name => ?_)
    rw [get_insert]
    split_ifs with hname
    · rw [hname, hs]
    · by_cases hname' : name = "unsigned".toList
      · rw [hname', hu]
        rfl
      · exact hother name hname hname'
  | some u =>
    refine .inr ⟨u, ext_get hks
      (sorted_insert _ _ (sorted_insert _ _ htoSign)) fun name => ?_⟩
    rw [get_insert, get_insert]
    split_ifs with hname hname'
    · rw [hname, hs]
    · rw [hname', hu]
    · exact hother name hname hname'

theorem store_unsigned (r : ServerKeysResponse) (j : Json) :
    storeMember responseFields r ("unsigned".toList, j) = some r := rfl

/-- **The struct has the four fields of an object that has nothing else.** -/
theorem decodeResponse_exact {ks : Map Json} (hks : Sorted ks) (hf : f.Regular)
    (hstrip : stripMembers ks = f.toSign) {signatures : Map (Map Text)}
    (hordered : Ordered signatures)
    (hsigs : get "signatures".toList ks = some (signaturesJson signatures)) :
    decodeResponse (.obj ks) = some ⟨f.serverName, f.verifyKeys, f.oldVerifyKeys, f.validUntilTS,
      some signatures, []⟩ := by
  have hkeys : decodeMap decodeVerifyKey []
      (.obj (mapValues VerifyKeyResponse.json f.verifyKeys)) = some f.verifyKeys :=
    decodeMap_mapValues hf.verifyKeys fun e _ => decodeVerifyKey_json e.2
  have hold : decodeMap decodeOldKey []
      (.obj (mapValues OldKeyResponse.toMap f.oldVerifyKeys)) = some f.oldVerifyKeys :=
    decodeMap_mapValues hf.oldVerifyKeys fun e he =>
      decodeOldKey_toMap (hf.inRange.expiredTS e he)
  have huntil := decodeInt_intText hf.inRange.validUntilTS 0
  have hdecode := decodeSignatures_json hordered none rfl
  have htoSign := (payload_toSign hf.verifyKeys hf.oldVerifyKeys).sorted
  rw [decodeResponse, decodeStruct_obj]
  rcases eq_of_strip hks htoSign hstrip hsigs with heq | ⟨u, heq⟩
  · have hlist : ks = [("old_verify_keys".toList, .obj (mapValues OldKeyResponse.toMap
        f.oldVerifyKeys)), ("server_name".toList, .str f.serverName),
        ("signatures".toList, signaturesJson signatures),
        ("valid_until_ts".toList, .num (intText f.validUntilTS)),
        ("verify_keys".toList, .obj (mapValues VerifyKeyResponse.json f.verifyKeys))] := heq
    rw [hlist]
    simp only [foldlM_cons, foldlM_nil, store_oldVerifyKeys, store_serverName,
      store_signatures, store_validUntilTS, store_verifyKeys, ServerKeysResponse.zero,
      decodeString, hkeys, hold, huntil, hdecode, map_some, bind, bind_some, pure]
  · have hlist : ks = [("old_verify_keys".toList, .obj (mapValues OldKeyResponse.toMap
        f.oldVerifyKeys)), ("server_name".toList, .str f.serverName),
        ("signatures".toList, signaturesJson signatures), ("unsigned".toList, u),
        ("valid_until_ts".toList, .num (intText f.validUntilTS)),
        ("verify_keys".toList, .obj (mapValues VerifyKeyResponse.json f.verifyKeys))] := heq
    rw [hlist]
    simp only [foldlM_cons, foldlM_nil, store_oldVerifyKeys, store_serverName,
      store_signatures, store_unsigned, store_validUntilTS, store_verifyKeys,
      ServerKeysResponse.zero, decodeString, hkeys, hold, huntil, hdecode, map_some,
      bind, bind_some, pure]

/-! ## The payload that is signed and the payload that is checked -/

section Payloads

variable {fields fields' : Map Json} {others : Map (Map Text)}

theorem withOthers_fixed (hsorted : Sorted fields)
    (hfixed : Canonical.normalize (.obj fields) = some (.obj fields)) (hothers : Ordered others) :
    Canonical.normalize (withOthers fields others) = some (withOthers fields others) := by
  have hrel := related_of_fixed hsorted hfixed
  unfold withOthers
  split_ifs
  · exact hfixed
  · exact normalize_of_sorted (sorted_insert _ _ hsorted)
      (hrel.insert _ (normalForm_signaturesJson hothers).fixed)

theorem withOthers_depth (hfields : Payload fields) (hothers : Ordered others) :
    (withOthers fields others).depth ≤ maxNestingDepth := by
  unfold withOthers
  split_ifs
  · exact hfields.depth
  · exact (hfields.insertSignatures hothers).depth

/-- The fields can be told from the payload. -/
theorem eq_of_withOthers (hsorted : Sorted fields) (hsorted' : Sorted fields')
    (hget : get "signatures".toList fields = none)
    (hget' : get "signatures".toList fields' = none)
    (h : withOthers fields others = withOthers fields' others) : fields = fields' := by
  unfold withOthers at h
  split_ifs at h
  · exact Json.obj.inj h
  · rw [← erase_of_get hget, ← erase_of_get hget',
      ← erase_insert hsorted "signatures".toList (signaturesJson others), Json.obj.inj h,
      erase_insert hsorted']

end Payloads

/-- A signature over `m` does not verify over the message `m'` unless it is the same. -/
def KeyPair.Binds {scheme : Scheme} (key : KeyPair scheme) (m m' : Bytes) : Prop :=
  scheme.verify key.pub m' (scheme.sign key.priv m) = true → m' = m

/-- No other member is taken for `signatures` by a decoder that ignores case. -/
def PlainSignatures (obj : Map Json) : Prop :=
  ∀ m ∈ obj, foldName m.1 = foldName "signatures".toList → m.1 = "signatures".toList

instance (obj : Map Json) : Decidable (PlainSignatures obj) :=
  inferInstanceAs (Decidable (∀ m ∈ obj, _ → _))

section Agreement

variable {scheme : Scheme} {n : Notary scheme} {trustedNotaries : Map TrustedNotary}
  {violation : ServerKeysResponse → Bool} {keys d r : ServerKeysResponse} {obj ks : Map Json}

/-- A response with the notary's signature on the payload that is checked is accepted. -/
theorem accepted_of_signed {message bytes : Bytes} {existing : Map (Map Text)}
    (hpin : get n.serverName trustedNotaries =
      some ⟨n.serverKeyID, n.serverKeyPair.pub⟩)
    (hread : unmarshalResponse bytes = some r)
    (hsigs : r.signatures = some (mergeNotarySig existing n.serverName n.serverKeyID
      (Base64.rawStdEncode (scheme.sign n.serverKeyPair.priv message))))
    (hmessage : Canonical.marshal (perspective n.serverName r) = some message) :
    AcceptedBy scheme.verify trustedNotaries n.serverName bytes := by
  obtain ⟨own, hown, hsig⟩ := exists_own_signature existing n.serverName n.serverKeyID
    (Base64.rawStdEncode (scheme.sign n.serverKeyPair.priv message))
  rw [← getD_some (a := mergeNotarySig _ _ _ _) (b := []), ← hsigs] at hown
  exact ⟨r, hread, (verifyNotarySignature_ok hpin).2 ⟨own, _, _, message, hown, hsig,
    Base64.rawStdDecode_encode _, n.serverKeyPair.sign_length message,
    n.serverKeyPair.pub_length, hmessage, n.serverKeyPair.verifies message⟩⟩

/-- The signatures that the second instance reads. -/
theorem signatures_of_decode {signatures : Map (Map Text)} (hplain : PlainSignatures ks)
    (hks : Sorted ks) (hordered : Ordered signatures)
    (hget : get "signatures".toList ks = some (signaturesJson signatures))
    (h : decodeResponse (.obj ks) = some r) : r.signatures = some signatures := by
  have hpart : decodeSignatures none (Json.lookup "signatures".toList ks) = some r.signatures :=
    signatures_part h ⟨hplain, once_of_perm hks (.refl ks) _⟩
  rw [Json.lookup, hget, getD_some, decodeSignatures_json hordered none rfl] at hpart
  exact (some.inj hpart).symm

variable {sigB64 : Text}

/-- An object with the four fields and nothing else is accepted. -/
theorem accepted_of_exact {out : Bytes}
    (hpin : get n.serverName trustedNotaries = some ⟨n.serverKeyID, n.serverKeyPair.pub⟩)
    (hobj : Payload obj) (hparse : parse (Utf8.decode out) = some (.obj ks))
    (hattached : Attached n.serverName n.serverKeyID sigB64 obj ks)
    (hsig : signPayload scheme n.serverKeyPair.priv
      (buildSignable obj (extractSignatures obj) n.serverName) = some sigB64) (hexact : Exact obj) :
    AcceptedBy scheme.verify trustedNotaries n.serverName out := by
  obtain ⟨f, hf⟩ := hexact
  obtain ⟨message, hmessage, rfl⟩ := map_eq_some_iff.1 hsig
  have hstrip : stripMembers ks = f.toSign := by
    rw [normalize_of_sorted hobj.strip.sorted hattached.fields] at hf
    exact Json.obj.inj (some.inj hf)
  have hregular := regular_of_normalForm (normalForm_of_normalize hf).1
  have hmerge := hattached.ordered.merge n.serverName n.serverKeyID
    (Base64.rawStdEncode (scheme.sign n.serverKeyPair.priv message))
  have hdecode := decodeResponse_exact hattached.payload.sorted hregular hstrip hmerge
    hattached.signatures
  have hread : unmarshalResponse out = decodeResponse (.obj ks) := by
    rw [unmarshalResponse, hparse, bind_some]
  refine accepted_of_signed hpin (hread.trans hdecode) rfl ?_
  -- the fields of the struct and the others are those of the object
  have hsame := (hattached.marshal_signable hobj).trans hmessage
  rw [hattached.extract] at hsame
  show Canonical.marshal (withOthers f.toSign _) = _
  rw [← hstrip]
  exact hsame

/-- What the second instance accepts has the four fields and nothing else. -/
theorem exact_of_accepted {out : Bytes}
    (hpin : get n.serverName trustedNotaries = some ⟨n.serverKeyID, n.serverKeyPair.pub⟩)
    (hobj : Payload obj) (hparse : parse (Utf8.decode out) = some (.obj ks))
    (hattached : Attached n.serverName n.serverKeyID sigB64 obj ks)
    (hsig : signPayload scheme n.serverKeyPair.priv
      (buildSignable obj (extractSignatures obj) n.serverName) = some sigB64)
    (hplain : PlainSignatures ks) (hbinds : ∀ r m m', unmarshalResponse out = some r →
      Canonical.marshal (buildSignable obj (extractSignatures obj) n.serverName) = some m →
      Canonical.marshal (perspective n.serverName r) = some m' → n.serverKeyPair.Binds m m')
    (haccepted : AcceptedBy scheme.verify trustedNotaries n.serverName out) : Exact obj := by
  obtain ⟨r, hread, hverify⟩ := haccepted
  obtain ⟨message, hmessage, rfl⟩ := map_eq_some_iff.1 hsig
  obtain ⟨own, sig, sigBytes, message', hown, hget, hbytes, -, -, hmessage', hverified⟩ :=
    (verifyNotarySignature_ok hpin).1 hverify
  have hdecode : decodeResponse (.obj ks) = some r := by
    rwa [unmarshalResponse, hparse, bind_some] at hread
  have hmerge := hattached.ordered.merge n.serverName n.serverKeyID
    (Base64.rawStdEncode (scheme.sign n.serverKeyPair.priv message))
  have hsigs := signatures_of_decode hplain hattached.payload.sorted hmerge hattached.signatures
    hdecode
  -- the signature that was checked is the one that was attached
  have hsame : message' = message := by
    rw [hsigs, getD_some, get_mergeNotarySig, if_pos rfl] at hown
    cases hown
    rw [get_insert, if_pos rfl] at hget
    cases hget
    rw [Base64.rawStdDecode_encode] at hbytes
    cases hbytes
    exact hbinds r message message' hread hmessage hmessage' hverified
  subst hsame
  have hproper := proper_of_decode hdecode
  have hpayload : Payload r.signedFields.toSign :=
    payload_toSign hproper.verifyKeys hproper.oldVerifyKeys
  have hregular : r.signedFields.Regular := ⟨hproper.verifyKeys, hproper.oldVerifyKeys,
    inRange_of_perspective hproper hmessage'⟩
  have hnormal := normalize_of_sorted hobj.strip.sorted hattached.fields
  have hothers := hattached.ordered.erase n.serverName
  have hstrip := hattached.payload.strip
  have hsignable : Canonical.marshal (withOthers (stripMembers ks)
      (erase n.serverName (extractSignatures obj))) = some message' := by
    have hks := (hattached.marshal_signable hobj).trans hmessage
    rw [hattached.extract] at hks
    rw [← hks, buildSignable, erase_mergeNotarySig hattached.ordered]
    rfl
  have hchecked : Canonical.marshal (withOthers r.signedFields.toSign
      (erase n.serverName (extractSignatures obj))) = some message' := by
    rw [← hmessage', perspective, hsigs, getD_some, erase_mergeNotarySig hattached.ordered]
  have heq := normalize_eq_of_marshal hsignable hchecked
    (withOthers_depth hstrip hothers) (withOthers_depth hpayload hothers)
  rw [withOthers_fixed hstrip.sorted (normalForm_of_normalize hnormal).1.fixed hothers,
    withOthers_fixed hpayload.sorted (normalForm_toSign hregular).fixed hothers] at heq
  refine ⟨r.signedFields, ?_⟩
  rw [hnormal, eq_of_withOthers hstrip.sorted hpayload.sorted (get_stripMembers ks)
    (get_toSign _) (some.inj heq)]

theorem plainSignatures_attached (hattached : Attached n.serverName n.serverKeyID sigB64 obj ks)
    (hplain : PlainSignatures obj) :
    PlainSignatures ks := by
  intro m hm hfold
  by_contra hne
  have hne' : m.1 ≠ "unsigned".toList := by
    intro heq
    rw [heq] at hfold
    exact absurd hfold (by decide)
  have hstrip : m ∈ stripMembers ks := mem_erase.2 ⟨mem_erase.2 ⟨hm, hne⟩, hne'⟩
  obtain ⟨e, he, hname, -⟩ := hattached.fields.exists_of_mem hstrip
  have hmem : e ∈ obj := mem_of_mem_filter (mem_of_mem_filter he)
  exact hne (hname ▸ hplain e hmem (hname ▸ hfold))

/-- **The second instance accepts exactly what has the four fields and nothing else**, when it is
delivered as the bytes of the origin, and everything that is delivered as a struct.  That nothing
else is accepted is for a signature that binds its message, and a payload without a second spelling
of `signatures`. -/
theorem second_instance_accepts_iff
    (hpin : Assoc.get n.serverName trustedNotaries = some ⟨n.serverKeyID, n.serverKeyPair.pub⟩)
    (hkeys : keys.Proper) (hdeliver : n.deliver violation keys = some d)
    (hsigned : keys.raw = [] ∨ ∃ out, n.attach keys.raw = .ok out) :
    ((keys.raw = [] ∨ ∃ obj, decodeOriginObject keys.raw = some obj ∧ Exact obj) →
      AcceptedBy scheme.verify trustedNotaries n.serverName (marshalJSON d)) ∧
    ((∀ obj, decodeOriginObject keys.raw = some obj → PlainSignatures obj ∧
        ∀ r m m', unmarshalResponse (marshalJSON d) = some r →
          Canonical.marshal (buildSignable obj (extractSignatures obj) n.serverName) = some m →
          Canonical.marshal (perspective n.serverName r) = some m' → n.serverKeyPair.Binds m m') →
      AcceptedBy scheme.verify trustedNotaries n.serverName (marshalJSON d) →
      keys.raw = [] ∨ ∃ obj, decodeOriginObject keys.raw = some obj ∧ Exact obj) := by
  obtain ⟨message, hd⟩ := delivered_of_deliver hdeliver
  rcases hsigned with hraw | ⟨out, hout⟩
  · refine ⟨fun _ => ?_, fun _ _ => .inl hraw⟩
    have hsigs := hd.signatures
    rw [setSignature_eq hkeys.ordered] at hsigs
    refine accepted_of_signed hpin (hd.signed_struct hkeys hraw).1 hsigs ?_
    rw [hd.perspective_eq hkeys, hd.signed]
  · obtain ⟨hbytes, obj, ks, sigB64, hdecode, hobj, hsig, hparse, -, hattached⟩ :=
      hd.marshalJSON_attached hout
    rw [hbytes]
    refine ⟨?_, fun hassume haccepted => .inr ⟨obj, hdecode, ?_⟩⟩
    · rintro (hraw | ⟨obj', hobj', hexact⟩)
      · exact absurd hraw (ne_nil_of_decode hdecode)
      · cases hdecode.symm.trans hobj'
        exact accepted_of_exact hpin hobj hparse hattached hsig hexact
    · obtain ⟨hplain, hbinds⟩ := hassume obj hdecode
      exact exact_of_accepted hpin hobj hparse hattached hsig
        (plainSignatures_attached hattached hplain) hbinds haccepted

end Agreement

/-! ## Two responses of one server -/

/-- The key of the notary, pinned. -/
def pinned : Map TrustedNotary :=
  [("n".toList, ⟨"k".toList, samplePub⟩)]

/-- The honest response with an empty `old_verify_keys`. -/
def fullMembers : List (Text × Json) := ("old_verify_keys".toList, .obj []) :: honestMembers

theorem full_parse : parse (Utf8.decode (bytesOf fullMembers)) = some (.obj fullMembers) :=
  parse_bytesOf (by decide +kernel) (by decide +kernel)

/-- The response with all four fields is accepted. -/
theorem second_instance_accepts_full : ∃ d,
    sampleNotary.deliver (fun _ => false) (received fullMembers) = some d ∧
      AcceptedBy sampleScheme.verify pinned sampleNotary.serverName (marshalJSON d) := by
  have hdecode : decodeOriginObject (bytesOf fullMembers) =
      some (ofEntries (mapValues generic fullMembers)) := by
    rw [decodeOriginObject, decodeObject_eq full_parse, generic_obj]
    rfl
  obtain ⟨d, hdeliver⟩ := deliver_received (n := sampleNotary) rfl fullMembers
  have hattach := (attach_isOk_iff sampleNotary.serverKeyPair).2
    (show sampleNotary.CanAttach (bytesOf fullMembers) from
      ⟨by decide, by decide, attachable_of_isSome hdecode (by decide +kernel)⟩)
  have hexact : Exact (ofEntries (mapValues generic fullMembers)) :=
    ⟨(sampleResponse [("b".toList, 'B')]).signedFields, by rfl⟩
  exact ⟨d, hdeliver, (second_instance_accepts_iff rfl (received_proper fullMembers) hdeliver
    (.inr hattach)).1 (.inr ⟨_, hdecode, hexact⟩)⟩

/-- The signature of the notary on the honest response. -/
def honestSignature : Text := Base64.rawStdEncode (stamp ((Canonical.marshal
  (buildSignable honestObject (extractSignatures honestObject) "n".toList)).getD []))

/-- The honest response with that signature, in the order of its canonical form. -/
def signedMembers : List (Text × Json) :=
  [("server_name".toList, .str "s".toList),
    ("signatures".toList, .obj [("n".toList, .obj [("k".toList, .str honestSignature)]),
      ("s".toList, .obj [("b".toList, .str (replicate 86 'C'))])]),
    ("valid_until_ts".toList, .num "10".toList), oneKey "b".toList 'B']

/-- **A response without `old_verify_keys` is signed without the field and checked with it.** -/
theorem missing_field_rejected :
    unmarshalResponse (bytesOf honestMembers) = some (sampleResponse [("b".toList, 'B')]) ∧
      verifySelfSignature sampleScheme.verify 10 0 (sampleResponse [("b".toList, 'B')])
        (bytesOf honestMembers) = .ok () ∧
      ∃ d out, sampleNotary.deliver (fun _ => false) (received honestMembers) = some d ∧
        sampleNotary.attach (bytesOf honestMembers) = .ok out ∧ marshalJSON d = out ∧
        ¬AcceptedBy sampleScheme.verify pinned sampleNotary.serverName out := by
  refine ⟨?_, ?_, ?_⟩
  · rw [unmarshalResponse, honest_parse]
    decide +kernel
  · simp only [verifySelfSignature, decodeObject_eq honest_parse, json,
      input_strip honest_parse, sampleScheme, honestMessage_eq, bind_some]
    decide +kernel
  · obtain ⟨d, hdeliver⟩ := deliver_received (n := sampleNotary) rfl honestMembers
    have hout : sampleNotary.attach (bytesOf honestMembers) = .ok (bytesOf signedMembers) :=
      attachNotarySignature_ok.2 ⟨by decide, by decide, sampleKeyPair.priv_length, honestObject,
        honestSignature, honest_decode, by decide +kernel, by decide +kernel⟩
    obtain ⟨message, hd⟩ := delivered_of_deliver hdeliver
    refine ⟨d, _, hdeliver, hout, (hd.marshalJSON_attached hout).1, ?_⟩
    rintro ⟨r, hread, hverify⟩
    have hparse : parse (Utf8.decode (bytesOf signedMembers)) = some (.obj signedMembers) :=
      parse_bytesOf (by decide +kernel) (by decide +kernel)
    rw [unmarshalResponse, hparse, bind_some] at hread
    have hchecked : ((decodeResponse (.obj signedMembers)).map fun r =>
        (verifyNotarySignature sampleScheme.verify pinned sampleNotary.serverName r).isOk) =
          some false := by
      decide +kernel
    rw [hread, map_some, hverify] at hchecked
    cases hchecked

end MxKeys.Keys
