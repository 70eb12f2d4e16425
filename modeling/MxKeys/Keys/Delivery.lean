/-
# MxKeys.Keys.Delivery — what `QueryKeys` delivers for one server.

A response is held twice, as a struct and as the bytes of its origin.  `QueryKeys` signs both: the
struct by `addNotarySignature`, over the four fields and the signatures of others, and the bytes by
`AttachNotarySignature`.  `MarshalJSON` writes the bytes when there are any, and the struct
otherwise.

When `AttachNotarySignature` fails, the bytes stay as the origin sent them, and it is they that are
written, not the struct that was signed.  `delivered_signed_iff` says when the notary's signature is
on what is delivered: there are no bytes of the origin, or they can be written canonically as a
whole. The signature of the origin asks for less, since it does not cover `unsigned`:
`unsigned_delivery` is a response that passes `verifySelfSignature` and is delivered without the
notary's signature.
-/
import MxKeys.Keys.NotarySignature

namespace MxKeys.Keys

open MxKeys.Lib
open List Option Assoc Json Canonical

/-! ## The struct -/

/-- A `VerifyKeyResponse` as JSON, and as the map that `structToMap` makes of it. -/
def VerifyKeyResponse.json (k : VerifyKeyResponse) : Json := .obj [("key".toList, .str k.key)]

/-- An `OldKeyResponse` as JSON. -/
def OldKeyResponse.json (k : OldKeyResponse) : Json :=
  .obj [("key".toList, .str k.key), ("expired_ts".toList, .num (intText k.expiredTS))]

/-- The map that `structToMap` makes of an `OldKeyResponse`. -/
def OldKeyResponse.toMap (k : OldKeyResponse) : Json :=
  .obj [("expired_ts".toList, .num (intText k.expiredTS)), ("key".toList, .str k.key)]

/-- The map of the four fields that is signed. -/
def SignedFields.toSign (f : SignedFields) : Map Json :=
  [("old_verify_keys".toList, .obj (mapValues OldKeyResponse.toMap f.oldVerifyKeys)),
    ("server_name".toList, .str f.serverName),
    ("valid_until_ts".toList, .num (intText f.validUntilTS)),
    ("verify_keys".toList, .obj (mapValues VerifyKeyResponse.json f.verifyKeys))]

/-- With the signatures of others, if there are any. -/
def withOthers (fields : Map Json) (others : Map (Map Text)) : Json :=
  if others = [] then .obj fields
  else .obj (insert "signatures".toList (signaturesJson others) fields)

/-- What a notary signs of a response: the four fields, and the signatures of others. -/
def perspective (notaryName : Text) (r : ServerKeysResponse) : Json :=
  withOthers r.signedFields.toSign (erase notaryName (r.signatures.getD []))

/-- The alias struct of `MarshalJSON`: `old_verify_keys` and `signatures` are left out when empty.
-/
def structMembers (r : ServerKeysResponse) : Map Json :=
  [("server_name".toList, .str r.serverName),
    ("verify_keys".toList, .obj (mapValues VerifyKeyResponse.json r.verifyKeys))] ++
  (if r.oldVerifyKeys = [] then []
    else [("old_verify_keys".toList, .obj (mapValues OldKeyResponse.json r.oldVerifyKeys))]) ++
  [("valid_until_ts".toList, .num (intText r.validUntilTS))] ++
  (if r.signatures.getD [] = [] then []
    else [("signatures".toList, signaturesJson (r.signatures.getD []))])

/-- `MarshalJSON`. -/
def marshalJSON (r : ServerKeysResponse) : Bytes :=
  if r.raw ≠ [] then r.raw else Utf8.encode (Json.obj (structMembers r)).marshal

/-- `cloneServerKeysResponse`: empty `signatures` become the nil map. -/
def cloneServerKeysResponse (src : ServerKeysResponse) : ServerKeysResponse :=
  { src with signatures := if src.signatures.getD [] = [] then none else src.signatures }

/-! ## One element of a query -/

/-- What a notary signs with. -/
structure Notary (scheme : Scheme) where
  serverName : Text
  serverKeyID : Text
  serverKeyPair : KeyPair scheme

/-- Set one signature of one signer. -/
def setSignature (signatures : Map (Map Text)) (signer keyID sigB64 : Text) :
    Map (Map Text) :=
  let own := (get signer signatures).getD []
  insert signer (insert keyID sigB64 own) signatures

/-- `addNotarySignature`; it fails when the payload has no canonical form. -/
def Notary.addNotarySignature {scheme : Scheme} (n : Notary scheme)
    (response : ServerKeysResponse) : Option ServerKeysResponse :=
  (signPayload scheme n.serverKeyPair.priv (perspective n.serverName response)).map fun sigB64 =>
    let signatures := response.signatures.getD []
    { response with
      signatures := some (setSignature signatures n.serverName n.serverKeyID sigB64) }

/-- `AttachNotarySignature` with the notary's key. -/
def Notary.attach {scheme : Scheme} (n : Notary scheme) (raw : Bytes) :
    Except AttachError Bytes :=
  attachNotarySignature scheme raw n.serverName n.serverKeyID n.serverKeyPair.priv

/-- The bytes of the origin with the notary's signature; as they were when that fails. -/
def Notary.finalRaw {scheme : Scheme} (n : Notary scheme) (raw : Bytes) : Bytes :=
  if raw = [] then []
  else
    match n.attach raw with
    | .ok out => out
    | .error _ => raw

/-- What `QueryKeys` appends to `server_keys` for the keys of one server; `violation` is what
`checkResponsePolicy` says of the signed response. -/
def Notary.deliver {scheme : Scheme} (n : Notary scheme) (violation : ServerKeysResponse → Bool)
    (keys : ServerKeysResponse) : Option ServerKeysResponse :=
  (n.addNotarySignature (cloneServerKeysResponse keys)).bind fun signed =>
    let keysForResponse := { signed with raw := n.finalRaw signed.raw }
    if violation keysForResponse then none else some keysForResponse

/-! ## Reading the struct back -/

/-- The maps of a response by increasing key, as every Go map is given here. -/
structure ServerKeysResponse.Proper (r : ServerKeysResponse) : Prop where
  verifyKeys : Sorted r.verifyKeys
  oldVerifyKeys : Sorted r.oldVerifyKeys
  signatures : ∀ signatures, r.signatures = some signatures → Ordered signatures

variable {r : ServerKeysResponse} {j : Json} {signatures : Map (Map Text)}

theorem ServerKeysResponse.Proper.ordered (h : r.Proper) :
    Ordered (r.signatures.getD []) := by
  cases hsigs : r.signatures with
  | none => exact ⟨Pairwise.nil, nofun⟩
  | some signatures => exact h.signatures signatures hsigs

theorem sorted_decodeMap {α : Type} {element : Json → Option α} {old m : Map α}
    (h : decodeMap element old j = some m) (hold : Sorted old) : Sorted m := by
  cases j with
  | null =>
    cases h
    exact Pairwise.nil
  | obj members =>
    rw [decodeMap_obj] at h
    obtain ⟨entries, -, rfl⟩ := map_eq_some_iff.1 h
    exact sorted_insertAll entries hold
  | _ => cases h

theorem ordered_decodeSignatures {old m : Option (Map (Map Text))}
    (h : decodeSignatures old j = some m) (hold : ∀ s, old = some s → Ordered s) :
    ∀ s, m = some s → Ordered s := by
  rintro s rfl
  have hgetD : Ordered (old.getD []) := by
    cases old with
    | none => exact ⟨Pairwise.nil, nofun⟩
    | some s => exact hold s rfl
  cases j with
  | null => cases h
  | obj members =>
    obtain ⟨s', hs', hsome⟩ := map_eq_some_iff.1 h
    cases hsome
    refine ⟨sorted_decodeMap hs' hgetD.1, fun e he => ?_⟩
    rw [decodeMap_obj] at hs'
    obtain ⟨entries, hentries, rfl⟩ := map_eq_some_iff.1 hs'
    rcases mem_insertAll he with he | he
    · exact hgetD.2 e he
    · obtain ⟨v, -, -, hv⟩ := (related_of_mapM hentries).exists_of_mem he
      exact sorted_decodeMap hv Pairwise.nil
  | _ => cases h

/-- **What is decoded from JSON has its maps in order**, if what it is decoded over has. -/
theorem proper_decodeStruct {old : ServerKeysResponse} (hold : old.Proper)
    (h : decodeStruct responseFields old j = some r) : r.Proper := by
  refine decodeStruct_invariant (fun f hf s j s' hs hstore => ?_) hold h
  simp only [responseFields, mem_cons, not_mem_nil, or_false] at hf
  rcases hf with rfl | rfl | rfl | rfl | rfl <;>
    obtain ⟨v, hv, rfl⟩ := map_eq_some_iff.1 hstore
  · exact ⟨hs.verifyKeys, hs.oldVerifyKeys, hs.signatures⟩
  · exact ⟨sorted_decodeMap hv hs.verifyKeys, hs.oldVerifyKeys, hs.signatures⟩
  · exact ⟨hs.verifyKeys, sorted_decodeMap hv hs.oldVerifyKeys, hs.signatures⟩
  · exact ⟨hs.verifyKeys, hs.oldVerifyKeys, hs.signatures⟩
  · exact ⟨hs.verifyKeys, hs.oldVerifyKeys, ordered_decodeSignatures hv hs.signatures⟩

theorem proper_zero : ServerKeysResponse.zero.Proper :=
  ⟨Pairwise.nil, Pairwise.nil, fun _ hs => nomatch hs⟩

theorem proper_of_decode (h : decodeResponse j = some r) :
    r.Proper := proper_decodeStruct proper_zero h

/-- The timestamps of the four fields can be written canonically. -/
structure SignedFields.InRange (f : SignedFields) : Prop where
  validUntilTS : Safe (intText f.validUntilTS)
  expiredTS : ∀ e ∈ f.oldVerifyKeys, Safe (intText e.2.expiredTS)

theorem decodeInt_intText {n : Int} (h : Safe (intText n)) (old : Int) :
    decodeInt old (.num (intText n)) = some n := by
  obtain ⟨t, ht⟩ := isSome_iff_exists.1 h
  obtain ⟨m, hm, -, hrange⟩ := writeJSONNumber_some ht
  rw [intOf_intText] at hm
  cases hm
  show parseInt _ = _
  have hmax : maxSafeInteger = 9007199254740991 := rfl
  rw [parseInt, intOf_intText, filter_some, if_pos]
  exact decide_eq_true (by omega)

theorem decodeVerifyKey_json (k : VerifyKeyResponse) : decodeVerifyKey k.json = some k := rfl

theorem decodeOldKey_json {k : OldKeyResponse}
    (h : Safe (intText k.expiredTS)) : decodeOldKey k.json = some k := by
  show ((decodeInt 0 (.num (intText k.expiredTS))).map fun n =>
    OldKeyResponse.mk k.key n).bind _ = _
  rw [decodeInt_intText h]
  rfl

theorem decodeSignatures_json (h : Ordered signatures) (old : Option (Map (Map Text)))
    (hold : old.getD [] = []) :
    decodeSignatures old (signaturesJson signatures) = some (some signatures) := by
  have hsigner : ∀ e ∈ signatures, decodeSigner (.obj (mapValues .str e.2)) = some e.2 :=
    fun e he => decodeMap_mapValues (h.2 e he) fun _ _ => rfl
  show (decodeMap decodeSigner (old.getD []) (.obj _)).map some = _
  rw [hold, decodeMap_mapValues h.1 hsigner]
  rfl

section Store

variable (r : ServerKeysResponse) (j : Json)

theorem store_serverName : storeMember responseFields r ("server_name".toList, j) =
    (decodeString r.serverName j).map fun s => { r with serverName := s } := rfl

theorem store_verifyKeys : storeMember responseFields r ("verify_keys".toList, j) =
    (decodeMap decodeVerifyKey r.verifyKeys j).map fun m => { r with verifyKeys := m } := rfl

theorem store_oldVerifyKeys : storeMember responseFields r ("old_verify_keys".toList, j) =
    (decodeMap decodeOldKey r.oldVerifyKeys j).map fun m => { r with oldVerifyKeys := m } := rfl

theorem store_validUntilTS : storeMember responseFields r ("valid_until_ts".toList, j) =
    (decodeInt r.validUntilTS j).map fun n => { r with validUntilTS := n } := rfl

theorem store_signatures : storeMember responseFields r ("signatures".toList, j) =
    (decodeSignatures r.signatures j).map fun m => { r with signatures := m } := rfl

end Store

/-- **The struct that `MarshalJSON` writes is read back.** -/
theorem decodeResponse_structMembers (hr : r.Proper) (hrange : r.signedFields.InRange)
    (hsigs : r.signatures = some signatures) (hne : signatures ≠ []) :
    decodeResponse (.obj (structMembers r)) = some { r with raw := [] } := by
  obtain ⟨serverName, verifyKeys, oldVerifyKeys, validUntilTS, _, raw⟩ := r
  cases hsigs
  have hkeys : decodeMap decodeVerifyKey []
      (.obj (mapValues VerifyKeyResponse.json verifyKeys)) = some verifyKeys :=
    decodeMap_mapValues hr.verifyKeys fun e _ => decodeVerifyKey_json e.2
  have hold : decodeMap decodeOldKey []
      (.obj (mapValues OldKeyResponse.json oldVerifyKeys)) = some oldVerifyKeys :=
    decodeMap_mapValues hr.oldVerifyKeys fun e he => decodeOldKey_json (hrange.expiredTS e he)
  have huntil : decodeInt 0 (.num (intText validUntilTS)) = some validUntilTS :=
    decodeInt_intText hrange.validUntilTS 0
  have hsigs := decodeSignatures_json (hr.signatures signatures rfl) none rfl
  show (structMembers _).foldlM (storeMember responseFields) .zero = _
  by_cases hempty : oldVerifyKeys = []
  · subst hempty
    simp only [structMembers, getD_some, if_pos, if_neg hne, append_nil,
      cons_append, nil_append, foldlM_cons, foldlM_nil,
      store_serverName, store_verifyKeys, store_validUntilTS, store_signatures,
      ServerKeysResponse.zero, decodeString, hkeys, huntil, hsigs, map_some, bind,
      bind_some, pure]
  · simp only [structMembers, getD_some, if_neg hempty, if_neg hne,
      cons_append, nil_append, foldlM_cons, foldlM_nil,
      store_serverName, store_verifyKeys, store_oldVerifyKeys, store_validUntilTS,
      store_signatures, ServerKeysResponse.zero, decodeString, hkeys, hold, huntil, hsigs,
      map_some, bind, bind_some, pure]

theorem VerifyKeyResponse.readable (k : VerifyKeyResponse) :
    k.json.WellFormed ∧ k.json.depth ≤ 1 :=
  ⟨by simp [VerifyKeyResponse.json, WellFormed],
    by simp [VerifyKeyResponse.json, depth, mapValues]⟩

theorem OldKeyResponse.readable (k : OldKeyResponse) : k.json.WellFormed ∧ k.json.depth ≤ 1 :=
  ⟨by simp [OldKeyResponse.json, WellFormed, isNumber_intText],
    by simp [OldKeyResponse.json, depth, mapValues]⟩

theorem OldKeyResponse.readable_toMap (k : OldKeyResponse) :
    k.toMap.WellFormed ∧ k.toMap.depth ≤ 1 :=
  ⟨by simp [OldKeyResponse.toMap, WellFormed, isNumber_intText],
    by simp [OldKeyResponse.toMap, depth, mapValues]⟩

/-- The values of the alias struct can be written and read. -/
theorem structMembers_readable (r : ServerKeysResponse) :
    ∀ m ∈ structMembers r, m.2.WellFormed ∧ m.2.depth ≤ 2 := by
  intro m hm
  simp only [structMembers, mem_append, mem_cons, not_mem_nil, or_false] at hm
  rcases hm with ((((rfl | rfl) | hm) | rfl) | hm)
  · exact ⟨numbers_str _, by simp [depth]⟩
  · exact readable_mapValues VerifyKeyResponse.readable _
  · split_ifs at hm
    · cases hm
    · cases mem_singleton.1 hm
      exact readable_mapValues OldKeyResponse.readable _
  · exact ⟨(numbers_num _).2 (isNumber_intText _), by simp [depth]⟩
  · split_ifs at hm
    · cases hm
    · cases mem_singleton.1 hm
      exact readable_signaturesJson _ _

theorem parse_structMembers (r : ServerKeysResponse) :
    parse (Utf8.decode (Utf8.encode (Json.obj (structMembers r)).marshal)) =
      some (.obj (structMembers r)) := by
  have hread := structMembers_readable r
  have hdepth : (Json.obj (structMembers r)).depth ≤ 3 :=
    depth_obj_le (fun m hm => Nat.lt_succ_of_le (hread m hm).2) (by decide)
  rw [Utf8.decode_encode]
  exact parse_text marshalEscape_escapes
    ((numbers_obj _).2 fun m hm => (hread m hm).1) (hdepth.trans (by decide))

/-- What a delivered struct holds for its readers: the same fields, and its signatures. -/
theorem marshalJSON_struct (hr : r.Proper) (hrange : r.signedFields.InRange)
    (hsigs : r.signatures = some signatures) (hne : signatures ≠ []) (hraw : r.raw = []) :
    unmarshalResponse (marshalJSON r) = some r ∧
      ∃ obj, decodeOriginObject (marshalJSON r) = some obj ∧
        extractSignatures obj = signatures := by
  have hparse := parse_structMembers r
  rw [marshalJSON, if_neg (not_not.2 hraw)]
  constructor
  · rw [unmarshalResponse, hparse, bind_some,
      decodeResponse_structMembers hr hrange hsigs hne, ← hraw]
  · refine ⟨ofEntries (mapValues generic (structMembers r)), ?_, ?_⟩
    · rw [decodeOriginObject, decodeObject_eq hparse, generic_obj]
      rfl
    · have hordered := hr.signatures signatures hsigs
      refine extractSignatures_of_get ?_
      rw [structMembers, hsigs, getD_some, if_neg hne, mapValues, map_append]
      refine (get_ofEntries_append _ _ _).trans (congrArg some ?_)
      exact generic_of_normal (normalForm_signaturesJson hordered).normal

/-! ## The bytes of the origin -/

/-- Everything but `signatures` can be written canonically. -/
def Attachable (raw : Bytes) : Prop :=
  ∃ obj, decodeOriginObject raw = some obj ∧
    (Json.obj (erase "signatures".toList obj)).Numbers Safe

section Attachable

variable {scheme : Scheme} {rawOrigin : Bytes} {notaryName notaryKeyID : Text} {obj : Map Json}
  {p : Text → Prop} {fields : Map Json}

/-- The numbers of the result are those of the payload. -/
theorem numbers_insert_signatures (hobj : Payload obj) (signatures : Map (Map Text)) :
    (Json.obj (insert "signatures".toList (signaturesJson signatures) obj)).Numbers p ↔
      (Json.obj (erase "signatures".toList obj)).Numbers p := by
  rw [numbers_obj, numbers_obj, forall_mem_iff (sorted_insert _ _ hobj.sorted),
    forall_mem_iff (sorted_erase _ hobj.sorted)]
  refine forall₂_congr fun name v => ?_
  rw [get_insert, get_erase]
  split_ifs
  · constructor
    · exact fun _ h => nomatch h
    · rintro - ⟨⟩
      exact (readable_signaturesJson p signatures).1
  · exact Iff.rfl

theorem withOthers_normal (hfields : Payload fields) {others : Map (Map Text)}
    (hothers : Ordered others) :
    (withOthers fields others).Normal := by
  unfold withOthers
  split_ifs
  · exact hfields.normal
  · exact (hfields.insertSignatures hothers).normal

theorem numbers_withOthers (hfields : Payload fields)
    (hget : get "signatures".toList fields = none) (others : Map (Map Text)) :
    (withOthers fields others).Numbers p ↔ (Json.obj fields).Numbers p := by
  unfold withOthers
  split_ifs
  · exact Iff.rfl
  · rw [numbers_insert_signatures hfields, erase_of_get hget]

theorem get_stripMembers (obj : Map Json) :
    get "signatures".toList (stripMembers obj) = none := by
  rw [stripMembers, get_erase, if_neg (by decide), get_erase, if_pos rfl]

/-- **`AttachNotarySignature` succeeds exactly when everything but `signatures` can be written.** -/
theorem attach_isOk_iff (key : KeyPair scheme) :
    (∃ out, attachNotarySignature scheme rawOrigin notaryName notaryKeyID key.priv = .ok out) ↔
      notaryName ≠ [] ∧ notaryKeyID ≠ [] ∧ Attachable rawOrigin := by
  constructor
  · rintro ⟨out, h⟩
    obtain ⟨hname, hkeyID, -, obj, sigB64, hdecode, -, hout⟩ := attachNotarySignature_ok.1 h
    have hobj := (decodeOriginObject_some hdecode).2
    have hpayload := hobj.insertSignatures
      ((ordered_extract hobj).merge notaryName notaryKeyID sigB64)
    have hsafe := (marshal_isSome hpayload.normal).1 (isSome_of_eq_some hout)
    exact ⟨hname, hkeyID, obj, hdecode, (numbers_insert_signatures hobj _).1 hsafe⟩
  · rintro ⟨hname, hkeyID, obj, hdecode, hsafe⟩
    have hobj := (decodeOriginObject_some hdecode).2
    have hordered := ordered_extract hobj
    have hstrip : (Json.obj (stripMembers obj)).Numbers Safe :=
      (numbers_obj _).2 fun m hm =>
        (numbers_obj _).1 hsafe m (mem_of_mem_filter hm)
    obtain ⟨message, hmessage⟩ := isSome_iff_exists.1
      ((marshal_isSome (withOthers_normal hobj.strip (hordered.erase notaryName))).2
        ((numbers_withOthers hobj.strip (get_stripMembers obj) _).2 hstrip))
    have hsig : signPayload scheme key.priv (buildSignable obj (extractSignatures obj) notaryName) =
        some (Base64.rawStdEncode (scheme.sign key.priv message)) := by
      show (Canonical.marshal (withOthers (stripMembers obj) _)).map _ = _
      rw [hmessage]
      rfl
    have hfinal := hobj.insertSignatures (hordered.merge notaryName notaryKeyID
      (Base64.rawStdEncode (scheme.sign key.priv message)))
    obtain ⟨out, hout⟩ := isSome_iff_exists.1 ((marshal_isSome hfinal.normal).2
      ((numbers_insert_signatures hobj _).2 hsafe))
    exact ⟨out, attachNotarySignature_ok.2
      ⟨hname, hkeyID, key.priv_length, obj, _, hdecode, hsig, hout⟩⟩

end Attachable

/-! ## The struct that is signed -/

variable {f : SignedFields}

theorem numbers_toSign {p : Text → Prop} :
    (Json.obj f.toSign).Numbers p ↔ p (intText f.validUntilTS) ∧
      ∀ e ∈ f.oldVerifyKeys, p (intText e.2.expiredTS) := by
  have hold : (Json.obj (mapValues OldKeyResponse.toMap f.oldVerifyKeys)).Numbers p ↔
      ∀ e ∈ f.oldVerifyKeys, p (intText e.2.expiredTS) := by
    rw [numbers_mapValues]
    simp [OldKeyResponse.toMap]
  have hkeys : (Json.obj (mapValues VerifyKeyResponse.json f.verifyKeys)).Numbers p := by
    rw [numbers_mapValues]
    simp [VerifyKeyResponse.json]
  rw [SignedFields.toSign, numbers_obj, forall_mem_cons, forall_mem_cons,
    forall_mem_cons, forall_mem_singleton, hold]
  simp [hkeys, and_comm]

theorem payload_toSign (hkeys : Sorted f.verifyKeys) (hold : Sorted f.oldVerifyKeys) :
    Payload f.toSign := by
  have hverify : ∀ k : VerifyKeyResponse, k.json.Normal := fun k => by
    simp [VerifyKeyResponse.json, Sorted]
  have hlt : "expired_ts".toList < "key".toList := by decide
  have hentry : ∀ k : OldKeyResponse, k.toMap.Normal := fun k => by
    refine (normal_obj _).2 ⟨pairwise_pair.2 hlt, ?_⟩
    simp
  have hsorted : (f.toSign.map Prod.fst).Pairwise (· < ·) :=
    show ["old_verify_keys".toList, "server_name".toList, "valid_until_ts".toList,
      "verify_keys".toList].Pairwise (· < ·) by decide
  have hread : ∀ m ∈ f.toSign, m.2.WellFormed ∧ m.2.depth ≤ 2 := by
    simp only [SignedFields.toSign, forall_mem_cons]
    exact ⟨readable_mapValues OldKeyResponse.readable_toMap _,
      ⟨numbers_str _, by simp [depth]⟩,
      ⟨(numbers_num _).2 (isNumber_intText _), by simp [depth]⟩,
      readable_mapValues VerifyKeyResponse.readable _, forall_mem_nil _⟩
  have hdepth : (Json.obj f.toSign).depth ≤ 3 :=
    depth_obj_le (fun m hm => Nat.lt_succ_of_le (hread m hm).2) (by decide)
  refine ⟨(normal_obj _).2 ⟨pairwise_map.1 hsorted, ?_⟩,
    (numbers_obj _).2 fun m hm => (hread m hm).1, hdepth.trans (by decide)⟩
  simp only [SignedFields.toSign, forall_mem_cons]
  exact ⟨normal_mapValues hold hentry, normal_str _, normal_num _,
    normal_mapValues hkeys hverify, forall_mem_nil _⟩

theorem get_toSign (f : SignedFields) : get "signatures".toList f.toSign = none := rfl

/-- A payload that was signed has its timestamps in range. -/
theorem inRange_of_perspective (hr : r.Proper) {notaryName : Text} {message : Bytes}
    (h : Canonical.marshal (perspective notaryName r) = some message) :
    r.signedFields.InRange := by
  have hpayload : Payload r.signedFields.toSign := payload_toSign hr.verifyKeys hr.oldVerifyKeys
  have hnormal := withOthers_normal hpayload (hr.ordered.erase notaryName)
  have hsafe := (marshal_isSome hnormal).1 (isSome_of_eq_some h)
  obtain ⟨huntil, hexpired⟩ := numbers_toSign.1
    ((numbers_withOthers hpayload (get_toSign _) _).1 hsafe)
  exact ⟨huntil, hexpired⟩

/-! ## What is delivered -/

section Deliver

variable {scheme : Scheme} {n : Notary scheme} {violation : ServerKeysResponse → Bool}
  {keys d : ServerKeysResponse}

/-- What is delivered for a response: its fields, signed as a struct and as bytes. -/
structure Delivered (n : Notary scheme) (keys d : ServerKeysResponse) (message : Bytes) :
    Prop where
  fields : d.signedFields = keys.signedFields
  signed : Canonical.marshal (perspective n.serverName keys) = some message
  signatures : d.signatures = some (setSignature (keys.signatures.getD []) n.serverName
    n.serverKeyID (Base64.rawStdEncode (scheme.sign n.serverKeyPair.priv message)))
  raw : d.raw = n.finalRaw keys.raw

theorem signatures_clone (keys : ServerKeysResponse) :
    (cloneServerKeysResponse keys).signatures.getD [] = keys.signatures.getD [] := by
  unfold cloneServerKeysResponse
  split_ifs with hempty
  · exact hempty.symm
  · rfl

theorem perspective_clone (notaryName : Text) (keys : ServerKeysResponse) :
    perspective notaryName (cloneServerKeysResponse keys) = perspective notaryName keys := by
  rw [perspective, signatures_clone]
  rfl

theorem delivered_of_deliver (h : n.deliver violation keys = some d) :
    ∃ message, Delivered n keys d message := by
  obtain ⟨signed, hsigned, h⟩ := bind_eq_some_iff.1 h
  obtain ⟨sigB64, hsig, rfl⟩ := map_eq_some_iff.1 hsigned
  obtain ⟨message, hmessage, rfl⟩ := map_eq_some_iff.1 hsig
  dsimp only at h
  split_ifs at h
  cases h
  refine ⟨message, rfl, perspective_clone _ _ ▸ hmessage, ?_, rfl⟩
  show some (setSignature _ _ _ _) = _
  rw [signatures_clone]

/-- The policy only decides whether there is something to deliver. -/
theorem deliver_iff : n.deliver violation keys = some d ↔
    n.deliver (fun _ => false) keys = some d ∧ violation d = false := by
  unfold Notary.deliver
  cases n.addNotarySignature (cloneServerKeysResponse keys) with
  | none => simp
  | some signed =>
    simp only [bind_some, Bool.false_eq_true, if_false, ite_none_left_eq_some,
      some.injEq]
    constructor
    · rintro ⟨hok, rfl⟩
      exact ⟨rfl, Bool.eq_false_iff.2 hok⟩
    · rintro ⟨rfl, hok⟩
      exact ⟨Bool.eq_false_iff.1 hok, rfl⟩

/-- Setting a signature in the struct is what `mergeNotarySig` does with the bytes. -/
theorem setSignature_eq {signatures : Map (Map Text)} (h : Ordered signatures)
    (signer keyID sigB64 : Text) :
    setSignature signatures signer keyID sigB64 =
      mergeNotarySig signatures signer keyID sigB64 := by
  refine ext_get (sorted_insert _ _ h.1) (h.merge _ _ _).1 fun signer' => ?_
  rw [get_mergeNotarySig, setSignature, get_insert]
  split_ifs <;> rfl

theorem setSignature_ne_nil (signatures : Map (Map Text)) (signer keyID sigB64 : Text) :
    setSignature signatures signer keyID sigB64 ≠ [] := by
  intro hnil
  have hget := get_insert signer signer
    (insert keyID sigB64 ((get signer signatures).getD [])) signatures
  rw [if_pos rfl, show insert signer _ signatures = [] from hnil] at hget
  cases hget

/-- The notary's signature is on an object: it is there, and made over the fields of the object as
`buildSignable` or `addNotarySignature` takes them. -/
def Notary.Signed (n : Notary scheme) (bytes : Bytes) : Prop :=
  ∃ obj message, decodeOriginObject bytes = some obj ∧
    signatureIn obj n.serverName n.serverKeyID =
      some (Base64.rawStdEncode (scheme.sign n.serverKeyPair.priv message)) ∧
    (Canonical.marshal (buildSignable obj (extractSignatures obj) n.serverName) = some message ∨
      ∃ r, unmarshalResponse bytes = some r ∧
        Canonical.marshal (perspective n.serverName r) = some message)

/-- The notary can put its signature on the bytes of the origin. -/
def Notary.CanAttach (n : Notary scheme) (raw : Bytes) : Prop :=
  n.serverName ≠ [] ∧ n.serverKeyID ≠ [] ∧ Attachable raw

variable {message : Bytes}

theorem Delivered.proper (h : Delivered n keys d message) (hkeys : keys.Proper) : d.Proper := by
  have hverify : d.verifyKeys = keys.verifyKeys := congrArg SignedFields.verifyKeys h.fields
  have hold : d.oldVerifyKeys = keys.oldVerifyKeys := congrArg SignedFields.oldVerifyKeys h.fields
  refine ⟨hverify ▸ hkeys.verifyKeys, hold ▸ hkeys.oldVerifyKeys, fun signatures hsigs => ?_⟩
  rw [h.signatures, setSignature_eq hkeys.ordered] at hsigs
  cases hsigs
  exact hkeys.ordered.merge _ _ _

/-- What the notary has signed of the response is what its readers see. -/
theorem Delivered.perspective_eq (h : Delivered n keys d message) (hkeys : keys.Proper) :
    perspective n.serverName d = perspective n.serverName keys := by
  rw [perspective, perspective, h.fields, h.signatures, getD_some,
    setSignature_eq hkeys.ordered, erase_mergeNotarySig hkeys.ordered]

theorem exists_deliver (h : (Canonical.marshal
    (perspective n.serverName (cloneServerKeysResponse keys))).isSome = true) :
    ∃ d, n.deliver (fun _ => false) keys = some d := by
  obtain ⟨message, hmessage⟩ := isSome_iff_exists.1 h
  simp [Notary.deliver, Notary.addNotarySignature, signPayload, hmessage]

/-- The bytes that are delivered when there are bytes of the origin. -/
theorem Delivered.marshalJSON_attached {out : Bytes} (h : Delivered n keys d message)
    (hout : n.attach keys.raw = .ok out) : marshalJSON d = out ∧
      ∃ obj ks sigB64, decodeOriginObject keys.raw = some obj ∧ Payload obj ∧
        signPayload scheme n.serverKeyPair.priv
          (buildSignable obj (extractSignatures obj) n.serverName) = some sigB64 ∧
        parse (Utf8.decode out) = some (.obj ks) ∧ decodeOriginObject out = some ks ∧
        Attached n.serverName n.serverKeyID sigB64 obj ks := by
  obtain ⟨-, -, -, obj, sigB64, hdecode, hsig, hmarshal⟩ := attachNotarySignature_ok.1 hout
  have hobj := (decodeOriginObject_some hdecode).2
  obtain ⟨ks, hparse, hks, -, hattached⟩ := attached_of_marshal hobj hmarshal
  refine ⟨?_, obj, ks, sigB64, hdecode, hobj, hsig, hparse, hks, hattached⟩
  have hraw : d.raw = out := by
    rw [h.raw, Notary.finalRaw, if_neg (ne_nil_of_decode hdecode), hout]
  rw [marshalJSON, if_pos (hraw ▸ ne_nil_of_decode hks), hraw]

/-- Bytes that the notary cannot put its signature on are delivered as they are. -/
theorem Delivered.marshalJSON_refused (h : Delivered n keys d message) (hraw : keys.raw ≠ [])
    (hattach : ¬n.CanAttach keys.raw) : marshalJSON d = keys.raw := by
  have hfinal : d.raw = keys.raw := by
    rw [h.raw, Notary.finalRaw, if_neg hraw]
    cases hout : n.attach keys.raw with
    | ok out => exact absurd ((attach_isOk_iff n.serverKeyPair).1 ⟨out, hout⟩) hattach
    | error e => rfl
  rw [marshalJSON, if_pos (hfinal ▸ hraw), hfinal]

theorem Delivered.signed_struct (h : Delivered n keys d message) (hkeys : keys.Proper)
    (hraw : keys.raw = []) :
    unmarshalResponse (marshalJSON d) = some d ∧ n.Signed (marshalJSON d) := by
  have hrange := inRange_of_perspective hkeys h.signed
  have hempty : d.raw = [] := by rw [h.raw, hraw, Notary.finalRaw, if_pos rfl]
  obtain ⟨own, hown, hsig⟩ := exists_own_signature (keys.signatures.getD []) n.serverName
    n.serverKeyID (Base64.rawStdEncode (scheme.sign n.serverKeyPair.priv message))
  rw [← setSignature_eq hkeys.ordered] at hown
  obtain ⟨hread, obj, hobj, hextract⟩ := marshalJSON_struct (h.proper hkeys) (h.fields ▸ hrange)
    h.signatures (setSignature_ne_nil _ _ _ _) hempty
  refine ⟨hread, obj, message, hobj, ?_, .inr ⟨d, hread, ?_⟩⟩
  · rw [signatureIn_eq (decodeOriginObject_some hobj).2, hextract, hown, bind_some, hsig]
  · rw [h.perspective_eq hkeys, h.signed]

/-- **When the notary's signature is on what is delivered**: there are no bytes of the origin, or
all of them but `signatures` can be written canonically.  Without that it is there only when the
origin has sent it. -/
theorem delivered_signed_iff (hkeys : keys.Proper) (hdeliver : n.deliver violation keys = some d) :
    (keys.raw = [] ∨ n.CanAttach keys.raw → n.Signed (marshalJSON d)) ∧
      ((∀ obj, decodeOriginObject keys.raw = some obj →
          signatureIn obj n.serverName n.serverKeyID = none) →
        n.Signed (marshalJSON d) → keys.raw = [] ∨ n.CanAttach keys.raw) := by
  obtain ⟨message, hd⟩ := delivered_of_deliver hdeliver
  refine ⟨?_, fun hnone hsigned => ?_⟩
  · rintro (hraw | hattach)
    · exact (hd.signed_struct hkeys hraw).2
    · obtain ⟨out, hout⟩ := (attach_isOk_iff n.serverKeyPair).2 hattach
      obtain ⟨hbytes, obj, ks, sigB64, -, hobj, hsig, -, hks, hattached⟩ :=
        hd.marshalJSON_attached hout
      obtain ⟨m, hm, rfl⟩ := map_eq_some_iff.1 hsig
      rw [hbytes]
      exact ⟨ks, m, hks, hattached.signatureIn_notary,
        .inl ((hattached.marshal_signable hobj).trans hm)⟩
  · by_contra hcond
    obtain ⟨hraw, hattach⟩ := not_or.1 hcond
    obtain ⟨obj, m, hobj, hget, -⟩ := hsigned
    rw [hd.marshalJSON_refused hraw hattach] at hobj
    cases (hnone obj hobj).symm.trans hget

end Deliver

/-! ## Two responses of one server -/

def sampleNotary : Notary sampleScheme := ⟨"n".toList, "k".toList, sampleKeyPair⟩

/-- The response of `s` as it was received. -/
def received (members : List (Text × Json)) : ServerKeysResponse :=
  { sampleResponse [("b".toList, 'B')] with raw := bytesOf members }

theorem received_proper (members : List (Text × Json)) : (received members).Proper := by
  refine ⟨pairwise_singleton _ _, Pairwise.nil, ?_⟩
  rintro _ ⟨⟩
  exact ⟨pairwise_singleton _ _, forall_mem_singleton.2 (pairwise_singleton _ _)⟩

theorem deliver_received {scheme : Scheme} {n : Notary scheme} (hn : n.serverName = "n".toList)
    (members : List (Text × Json)) :
    ∃ d, n.deliver (fun _ => false) (received members) = some d := by
  refine exists_deliver ?_
  rw [hn]
  show (Canonical.marshal (perspective "n".toList (cloneServerKeysResponse
    (sampleResponse [("b".toList, 'B')])))).isSome = true
  decide +kernel

theorem attachable_of_isSome {members : List (Text × Json)} {obj : Map Json}
    (hdecode : decodeOriginObject (bytesOf members) = some obj)
    (h : (Canonical.normalize (.obj (erase "signatures".toList obj))).isSome = true) :
    Attachable (bytesOf members) := by
  have hobj := (decodeOriginObject_some hdecode).2
  have hnormal := (normal_obj obj).1 hobj.normal
  refine ⟨obj, hdecode, (normalize_isSome ((normal_obj _).2 ?_)).1 h⟩
  exact ⟨sorted_erase _ hnormal.1, fun m hm => hnormal.2 m (mem_of_mem_filter hm)⟩

theorem honest_attachable : Attachable (bytesOf honestMembers) :=
  attachable_of_isSome honest_decode (by decide +kernel)

/-- The honest response is delivered with the notary's signature. -/
theorem delivered_signed_honest : ∃ d,
    sampleNotary.deliver (fun _ => false) (received honestMembers) = some d ∧
      sampleNotary.Signed (marshalJSON d) := by
  obtain ⟨d, hd⟩ := deliver_received (n := sampleNotary) rfl honestMembers
  exact ⟨d, hd, (delivered_signed_iff (received_proper honestMembers) hd).1
    (.inr ⟨by decide, by decide, honest_attachable⟩)⟩

/-- The server adds something under `unsigned` that is no integer. -/
def agedMembers : List (Text × Json) :=
  honestMembers ++ [("unsigned".toList, .obj [("age".toList, .num "1.5".toList)])]

theorem aged_parse : parse (Utf8.decode (bytesOf agedMembers)) = some (.obj agedMembers) :=
  parse_bytesOf (by decide +kernel) (by decide +kernel)

/-- **Accepted from the origin and delivered without the notary's signature**: what is under
`unsigned` is not covered by the signature of the origin, and still keeps the notary from signing.
-/
theorem unsigned_delivery :
    unmarshalResponse (bytesOf agedMembers) = some (sampleResponse [("b".toList, 'B')]) ∧
      verifySelfSignature sampleScheme.verify 10 0 (sampleResponse [("b".toList, 'B')])
        (bytesOf agedMembers) = .ok () ∧
      ∃ d, sampleNotary.deliver (fun _ => false) (received agedMembers) = some d ∧
        marshalJSON d = bytesOf agedMembers ∧ ¬sampleNotary.Signed (marshalJSON d) := by
  have hdecode : decodeOriginObject (bytesOf agedMembers) =
      some (ofEntries (mapValues generic agedMembers)) := by
    rw [decodeOriginObject, decodeObject_eq aged_parse, generic_obj]
    rfl
  have hrefused : ¬Attachable (bytesOf agedMembers) := by
    rintro ⟨obj, hobj, hsafe⟩
    cases hdecode.symm.trans hobj
    have hmem := mem_of_get (show get "unsigned".toList (erase "signatures".toList
      (ofEntries (mapValues generic agedMembers))) =
        some (.obj [("age".toList, .num "1.5".toList)]) by rfl)
    have hage := (numbers_obj _).1 hsafe _ hmem
    rw [numbers_obj, forall_mem_singleton, numbers_num] at hage
    exact absurd hage (by decide)
  refine ⟨?_, ?_, ?_⟩
  · rw [unmarshalResponse, aged_parse]
    decide +kernel
  · simp only [verifySelfSignature, decodeObject_eq aged_parse, json,
      input_strip aged_parse, sampleScheme, honestMessage_eq, bind_some]
    decide +kernel
  · obtain ⟨d, hd⟩ := deliver_received (n := sampleNotary) rfl agedMembers
    obtain ⟨message, hdelivered⟩ := delivered_of_deliver hd
    have hbytes : marshalJSON d = bytesOf agedMembers :=
      hdelivered.marshalJSON_refused (ne_nil_of_decode hdecode) fun h => hrefused h.2.2
    refine ⟨d, hd, hbytes, ?_⟩
    rintro ⟨obj, m, hobj, hget, -⟩
    rw [hbytes] at hobj
    cases hdecode.symm.trans hobj
    have hnone : signatureIn (ofEntries (mapValues generic agedMembers))
        "n".toList "k".toList = none := by decide +kernel
    cases hnone.symm.trans hget

end MxKeys.Keys
