/-
# MxKeys.Keys.Origin — the signature of the origin on what is delivered.

`OriginSigned` is what a reader of the delivered bytes can check without trusting the notary: the
object has the fields of the response, and a signature of the server itself verifies over its
canonical form without `signatures` and `unsigned`, under a key that the object lists.

A response that passes `verifySelfSignature` has it over the bytes that were checked, when these are
unambiguous (`originSigned_of_verify`): the struct and the generic map then read the same fields and
the same signatures.  Delivery keeps it for every name but the notary's own
(`originSigned_deliver`), whether the notary's signature is attached to the bytes, or they are left
as they are, or the struct is written.
-/
import MxKeys.Keys.NotaryVerification

namespace MxKeys.Keys

open MxKeys.Lib
open List Option Assoc Json Canonical

/-! ## Normal forms have the same fields -/

section Normal

variable {j k : Json}

theorem decodeString_normalize (h : Canonical.normalize j = some k) {old s : Text}
    (hs : decodeString old j = some s) : decodeString old k = some s := by
  cases j with
  | null | str t =>
    cases h
    exact hs
  | _ => cases hs

theorem decodeInt_normalize (h : Canonical.normalize j = some k) {old n : Int}
    (hn : decodeInt old j = some n) : decodeInt old k = some n := by
  cases j with
  | null =>
    cases h
    exact hn
  | num literal =>
    obtain ⟨t, ht, rfl⟩ := map_eq_some_iff.1 h
    obtain ⟨m, hm, rfl, hrange⟩ := writeJSONNumber_some ht
    have hsame : some n = some m := (eq_some_of_filter_eq_some hn).symm.trans hm
    cases hsame
    exact decodeInt_intText (isSome_of_eq_some (writeJSONNumber_intText hrange)) old
  | _ => cases hn

variable {members ks : Map Json}

/-- What a name has in the normal form of an object in order. -/
theorem lookup_normalize (h : Related (fun v w => Canonical.normalize v = some w) members ks)
    (name : Text) :
    Canonical.normalize (Json.lookup name members) = some (Json.lookup name ks) := by
  have hrel := h.get name
  unfold Json.lookup
  generalize get name members = o at hrel ⊢
  generalize get name ks = o' at hrel ⊢
  cases hrel with
  | none => exact normalize_null
  | some hvw => exact hvw

theorem related_members (hsorted : Sorted members)
    (h : Canonical.normalize (.obj members) = some k) : ∃ ks, k = .obj ks ∧
      Related (fun v w => Canonical.normalize v = some w) members ks := by
  obtain ⟨ks, rfl, hrel⟩ := related_of_normalize h
  rw [ofEntries_of_sorted hsorted] at hrel
  exact ⟨ks, rfl, hrel⟩

theorem readVerifyKey_normalize (hj : j.Normal) (h : Canonical.normalize j = some k)
    {key : VerifyKeyResponse} (hkey : readVerifyKey j = some key) : readVerifyKey k = some key := by
  cases j with
  | null =>
    cases h
    exact hkey
  | obj members =>
    obtain ⟨ks, rfl, hrel⟩ := related_members ((normal_obj members).1 hj).1 h
    obtain ⟨s, hs, rfl⟩ := map_eq_some_iff.1 hkey
    simp only [readVerifyKey, decodeString_normalize (lookup_normalize hrel _) hs, map_some]
  | _ => cases hkey

theorem readOldKey_normalize (hj : j.Normal) (h : Canonical.normalize j = some k)
    {key : OldKeyResponse} (hkey : readOldKey j = some key) : readOldKey k = some key := by
  cases j with
  | null =>
    cases h
    exact hkey
  | obj members =>
    obtain ⟨ks, rfl, hrel⟩ := related_members ((normal_obj members).1 hj).1 h
    simp only [readOldKey, bind, bind_eq_some_iff] at hkey
    obtain ⟨s, hs, n, hn, hkey⟩ := hkey
    simp only [readOldKey, decodeString_normalize (lookup_normalize hrel _) hs,
      decodeInt_normalize (lookup_normalize hrel _) hn, bind, bind_some]
    exact hkey
  | _ => cases hkey

/-- A map is the same in the normal form when its entries are. -/
theorem decodeMap_normalize {α : Type} {element : Json → Option α} (hj : j.Normal)
    (h : Canonical.normalize j = some k)
    (hel : ∀ v w a, v.Normal → Canonical.normalize v = some w → element v = some a →
      element w = some a) {m : Map α} (hm : decodeMap element [] j = some m) :
    decodeMap element [] k = some m := by
  cases j with
  | null =>
    cases h
    exact hm
  | obj members =>
    obtain ⟨hsorted, hnormal⟩ := (normal_obj members).1 hj
    obtain ⟨ks, rfl, hrel⟩ := related_members hsorted h
    have hread := related_of_decodeMap hsorted hm
    have hread' : Related (fun w a => element w = some a) ks m := by
      clear hm h hj hsorted
      induction hrel generalizing m with
      | nil =>
        cases hread
        exact .nil
      | cons he _ ih =>
        cases hread with
        | cons hv hrest =>
          refine .cons ⟨he.1.symm.trans hv.1, ?_⟩
            (ih (fun e he' => hnormal e (mem_cons_of_mem _ he')) hrest)
          exact hel _ _ _ (hnormal _ mem_cons_self) he.2 hv.2
    rw [decodeMap_obj, mapM_of_related hread']
    exact congrArg some (ofEntries_of_sorted (hread.sorted hsorted))
  | _ => cases hm

theorem readFields_normalize {obj : Map Json} (hobj : (Json.obj obj).Normal)
    (hrel : Related (fun v w => Canonical.normalize v = some w) obj ks) {f : SignedFields}
    (h : readFields (.obj obj) = some f) : readFields (.obj ks) = some f := by
  have hnormal : ∀ name, (Json.lookup name obj).Normal := by
    intro name
    unfold Json.lookup
    cases hget : get name obj with
    | none => simp [Json.Normal]
    | some v => exact ((normal_obj obj).1 hobj).2 _ (mem_of_get hget)
  have hlookup := lookup_normalize hrel
  simp only [readFields, bind, bind_eq_some_iff] at h
  obtain ⟨serverName, hserver, verifyKeys, hkeys, oldVerifyKeys, hold, validUntilTS, huntil, h⟩ := h
  have hkeys' := decodeMap_normalize (hnormal _) (hlookup _)
    (fun _ _ _ hv hw => readVerifyKey_normalize hv hw) hkeys
  have hold' := decodeMap_normalize (hnormal _) (hlookup _)
    (fun _ _ _ hv hw => readOldKey_normalize hv hw) hold
  simp only [readFields, bind, decodeString_normalize (hlookup _) hserver, hkeys', hold',
    decodeInt_normalize (hlookup _) huntil, bind_some]
  exact h

end Normal

/-! ## The signature of the origin -/

/-- The names of the signed fields and of `signatures` are unambiguous in the bytes of a response.
-/
structure Unambiguous (raw : Bytes) : Prop where
  fields : Clear raw
  signatures : ∀ j, parse (Utf8.decode raw) = some j →
    Plain j.members "signatures".toList

/-- The bytes have the fields of a response, and a signature of the server itself under a key that
is listed among them. -/
def OriginSigned (verify : Bytes → Bytes → Bytes → Bool) (r : ServerKeysResponse)
    (bytes : Bytes) : Prop :=
  ∃ obj keyID key sig message, decodeOriginObject bytes = some obj ∧
    readFields (.obj obj) = some r.signedFields ∧
    signatureIn obj r.serverName keyID = some sig ∧ r.keyFor keyID = some key ∧
    Canonical.marshal (.obj (stripMembers obj)) = some message ∧
    checkSignature verify message key sig = true

variable {block : Map Text} {members : List (Text × Json)} {r : ServerKeysResponse}
  {verify : Bytes → Bytes → Bytes → Bool} {v : Json} {s : Text × Text} {raw : Bytes}

/-- A map of signatures, read from the object of a signer. -/
theorem signer_of_decode (hv : v.Normal) (h : decodeSigner v = some block) (hs : s ∈ block)
    (hne : s.2 ≠ []) :
    ∃ inner, v = .obj inner ∧ get s.1 inner = some (.str s.2) := by
  cases v with
  | null =>
    cases h
    cases hs
  | obj inner =>
    have hsorted := ((normal_obj inner).1 hv).1
    have hrel := related_of_decodeMap hsorted h
    obtain ⟨w, hw, hstring⟩ := hrel.some_get (get_of_mem (hrel.sorted hsorted) hs)
    cases w with
    | str t =>
      cases hstring
      exact ⟨inner, rfl, hw⟩
    | null => exact absurd (some.inj hstring).symm hne
    | _ => cases hstring
  | _ => cases h

theorem decodeSigner_generic (h : decodeSigner v = some block) :
    decodeSigner v.generic = some block := by
  cases v with
  | null =>
    cases h
    simp [decodeSigner, decodeMap]
  | obj inner =>
    exact decodeMap_generic (fun e _ s hs => (decodeString_generic [] e.2).trans hs) h
  | _ => cases h

/-- A signature of the struct is in the generic map, when `signatures` is unambiguous. -/
theorem signatureIn_of_decode (hplain : Plain members "signatures".toList)
    (h : decodeResponse (.obj members) = some r) {signatures : Map (Map Text)}
    (hsigs : r.signatures = some signatures) {signer : Text}
    (hblock : get signer signatures = some block) (hs : s ∈ block) (hne : s.2 ≠ []) :
    signatureIn (ofEntries (mapValues generic members)) signer s.1 = some s.2 := by
  have hpart : decodeSignatures none (Json.lookup "signatures".toList members) =
      some r.signatures := signatures_part h hplain
  have hlookup := lookup_generic hplain.2
  rw [hsigs] at hpart
  cases hvalue : Json.lookup "signatures".toList members with
  | obj signers =>
    rw [hvalue] at hpart hlookup
    obtain ⟨read, hread, hsome⟩ := map_eq_some_iff.1 hpart
    cases hsome
    have hread := decodeMap_generic (fun e _ v hv => decodeSigner_generic hv) hread
    have hnormal := normal_generic (.obj signers)
    rw [generic_obj] at hread hlookup hnormal
    obtain ⟨hsorted, hentries⟩ := (normal_obj _).1 hnormal
    obtain ⟨v, hv, hsigner⟩ := (related_of_decodeMap hsorted hread).some_get hblock
    obtain ⟨inner, rfl, hinner⟩ :=
      signer_of_decode (hentries _ (mem_of_get hv)) hsigner hs hne
    have hget : get "signatures".toList (ofEntries (mapValues generic members)) =
        some (.obj (ofEntries (mapValues generic signers))) := by
      unfold Json.lookup at hlookup
      cases hget : get "signatures".toList
          (ofEntries (mapValues generic members)) with
      | none =>
        rw [hget] at hlookup
        cases hlookup
      | some w =>
        rw [hget] at hlookup
        exact congrArg some hlookup
    simp only [signatureIn, hget, hv, hinner, bind_some, stringOf]
  | _ =>
    rw [hvalue] at hpart
    cases hpart

theorem checkSignature_ne_nil {message : Bytes} {key sig : Text}
    (h : checkSignature verify message key sig = true) :
    sig ≠ [] := by
  rintro rfl
  have hempty : Base64.rawStdDecode [] = some [] := by decide
  unfold checkSignature at h
  split at h
  · cases h
  · split at h
    · cases h
    · rw [hempty] at h
      simp [signatureSize] at h

theorem decodeOriginObject_eq (h : parse (Utf8.decode raw) = some (.obj members)) :
    decodeOriginObject raw = some (ofEntries (mapValues generic members)) := by
  rw [decodeOriginObject, decodeObject_eq h, generic_obj]
  rfl

/-- **A response that passes `verifySelfSignature` has the signature of its origin** over the bytes
that were checked. -/
theorem originSigned_of_verify {maxSignatures now : Int} (hdecode : unmarshalResponse raw = some r)
    (hverify : verifySelfSignature verify maxSignatures now r raw = .ok ())
    (hclear : Unambiguous raw) : OriginSigned verify r raw ∧ r.signatures.getD [] ≠ [] := by
  obtain ⟨obj, message, hobj, hmessage, ⟨signatures, serverSigs, s, hsigs, hserver, hs, haccepts⟩,
    hfields⟩ := signed_fields_used hdecode hverify hclear.fields
  obtain ⟨j, hparse, hr⟩ := bind_eq_some_iff.1 hdecode
  cases j with
  | obj members =>
    rw [signedObject_eq hparse, generic_obj] at hobj
    cases hobj
    unfold ServerKeysResponse.accepts at haccepts
    cases hkey : r.keyFor s.1 with
    | none =>
      rw [hkey] at haccepts
      cases haccepts
    | some key =>
      rw [hkey] at haccepts
      have hsig := signatureIn_of_decode (hclear.signatures _ hparse) hr hsigs hserver hs
        (checkSignature_ne_nil haccepts)
      refine ⟨⟨_, s.1, key, s.2, message, decodeOriginObject_eq hparse, ?_, hsig, hkey, hmessage,
        haccepts⟩, ?_⟩
      · rw [← readFields_strip]
        exact hfields
      · rw [hsigs, getD_some]
        rintro rfl
        cases hserver
  | null =>
    cases hr
    cases hsigs
  | _ => cases hr

/-! ## Delivery -/

/-- The parts of a response that a signature of the origin speaks of. -/
theorem OriginSigned.congr {d : ServerKeysResponse} {bytes : Bytes}
    (h : OriginSigned verify r bytes) (hfields : d.signedFields = r.signedFields) :
    OriginSigned verify d bytes := by
  obtain ⟨_, _, _, _, _, _⟩ := r
  obtain ⟨_, _, _, _, _, _⟩ := d
  obtain ⟨rfl, rfl, rfl, rfl⟩ := SignedFields.mk.inj hfields
  exact h

/-- The members of a struct, but for its signatures. -/
def fieldMembers (f : SignedFields) : Map Json :=
  [("server_name".toList, .str f.serverName),
    ("verify_keys".toList, .obj (mapValues VerifyKeyResponse.json f.verifyKeys))] ++
  (if f.oldVerifyKeys = [] then []
    else [("old_verify_keys".toList, .obj (mapValues OldKeyResponse.json f.oldVerifyKeys))]) ++
  [("valid_until_ts".toList, .num (intText f.validUntilTS))]

theorem structMembers_eq (r : ServerKeysResponse) : structMembers r = fieldMembers r.signedFields ++
    (if r.signatures.getD [] = [] then []
      else [("signatures".toList, signaturesJson (r.signatures.getD []))]) := rfl

theorem strip_structMembers (r : ServerKeysResponse) :
    stripMembers (ofEntries (mapValues generic (structMembers r))) =
      stripMembers (ofEntries (mapValues generic (fieldMembers r.signedFields))) := by
  rw [structMembers_eq]
  split
  · rw [append_nil]
  · rw [mapValues, map_append, map_singleton, ofEntries_append, stripMembers,
      erase_insert (sorted_ofEntries _)]
    rfl

theorem plain_of_keys {name : Text}
    (hspelled : ∀ k ∈ members.map Prod.fst, foldName k = foldName name → k = name)
    (honce : (members.map Prod.fst).Nodup) : Plain members name := by
  refine ⟨fun m hm => hspelled m.1 (List.mem_map_of_mem hm), ?_⟩
  refine (pairwise_map.1 honce).imp ?_
  rintro a b hne ⟨rfl, hb⟩
  exact hne hb.symm

/-- The names of a struct that is written, with and without what may be left out. -/
def structNames : List (List Text) :=
  [["server_name".toList, "verify_keys".toList, "valid_until_ts".toList],
    ["server_name".toList, "verify_keys".toList, "old_verify_keys".toList, "valid_until_ts".toList],
    ["server_name".toList, "verify_keys".toList, "valid_until_ts".toList, "signatures".toList],
    ["server_name".toList, "verify_keys".toList, "old_verify_keys".toList, "valid_until_ts".toList,
      "signatures".toList]]

theorem keys_structMembers (r : ServerKeysResponse) :
    (structMembers r).map Prod.fst ∈ structNames := by
  unfold structMembers
  split
  · split
    · exact mem_cons_self
    · exact mem_cons_of_mem _ (mem_cons_of_mem _ mem_cons_self)
  · split
    · exact mem_cons_of_mem _ mem_cons_self
    · exact mem_cons_of_mem _ (mem_cons_of_mem _ (mem_cons_of_mem _ mem_cons_self))

theorem plain_structMembers (r : ServerKeysResponse) :
    ∀ name ∈ "signatures".toList :: signedNames, Plain (structMembers r) name := by
  have hkeys : ∀ keys ∈ structNames, (∀ name ∈ "signatures".toList :: signedNames, ∀ k ∈ keys,
      foldName k = foldName name → k = name) ∧ keys.Nodup := by decide +kernel
  obtain ⟨hspelled, hnodup⟩ := hkeys _ (keys_structMembers r)
  exact fun name hname => plain_of_keys (hspelled name hname) hnodup

theorem lookup_verifyKeys (r : ServerKeysResponse) :
    Json.lookup "verify_keys".toList (structMembers r) =
      .obj (mapValues VerifyKeyResponse.json r.verifyKeys) := rfl

theorem lookup_oldVerifyKeys (r : ServerKeysResponse) :
    Json.lookup "old_verify_keys".toList (structMembers r) = if r.oldVerifyKeys = [] then .null
      else .obj (mapValues OldKeyResponse.json r.oldVerifyKeys) := by
  unfold structMembers
  split
  · split <;> rfl
  · rfl

/-- A struct that is written is unambiguous. -/
theorem unambiguous_struct (hraw : r.raw = []) :
    Unambiguous (marshalJSON r) := by
  have hparse : parse (Utf8.decode (marshalJSON r)) = some (.obj (structMembers r)) := by
    rw [marshalJSON, if_neg (not_not.2 hraw)]
    exact parse_structMembers r
  have hplain := plain_structMembers r
  refine ⟨fun j hj => ?_, fun j hj => ?_⟩ <;> cases hparse.symm.trans hj
  · refine ⟨fun name hname => hplain name (mem_cons_of_mem _ hname), ?_, ?_⟩
    · show ClearEntries _ (Json.lookup _ (structMembers r))
      rw [lookup_verifyKeys]
      refine List.forall_mem_map.2 fun e _ => forall_mem_singleton.2 ?_
      exact plain_of_keys (show ∀ k ∈ ["key".toList], _ from forall_mem_singleton.2 fun _ => rfl)
        (pairwise_singleton _ _)
    · show ClearEntries _ (Json.lookup _ (structMembers r))
      rw [lookup_oldVerifyKeys]
      split
      · exact forall_mem_nil _
      · refine List.forall_mem_map.2 fun e _ name hname => ?_
        have hspelled : ∀ name ∈ ["key".toList, "expired_ts".toList],
            ∀ k ∈ ["key".toList, "expired_ts".toList],
              foldName k = foldName name → k = name := by decide +kernel
        exact plain_of_keys (hspelled name hname)
          (show ["key".toList, "expired_ts".toList].Nodup by decide)
  · exact hplain _ mem_cons_self

/-- What is read from a struct that is written. -/
theorem decodeOriginObject_struct (hraw : r.raw = []) :
    decodeOriginObject (marshalJSON r) =
      some (ofEntries (mapValues generic (structMembers r))) := by
  rw [marshalJSON, if_neg (not_not.2 hraw)]
  exact decodeOriginObject_eq (parse_structMembers r)

section Deliver

variable {scheme : Scheme} {n : Notary scheme} {violation : ServerKeysResponse → Bool}
  {verify : Bytes → Bytes → Bytes → Bool} {keys d : ServerKeysResponse}

/-- With the notary's signature attached to the bytes of the origin. -/
theorem originSigned_attached {notaryKeyID sigB64 : Text} {obj ks : Map Json}
    {bytes out : Bytes} (hsigned : OriginSigned verify keys bytes)
    (hobj : decodeOriginObject bytes = some obj) (hks : decodeOriginObject out = some ks)
    (hattached : Attached n.serverName notaryKeyID sigB64 obj ks)
    (hname : keys.serverName ≠ n.serverName) : OriginSigned verify keys out := by
  obtain ⟨obj', keyID, key, sig, message, hobj', hfields, hsig, hkey, hmessage, hcheck⟩ := hsigned
  cases hobj.symm.trans hobj'
  have hpayload := (decodeOriginObject_some hobj).2
  refine ⟨ks, keyID, key, sig, message, hks, ?_, ?_, hkey, ?_, hcheck⟩
  · rw [← readFields_strip] at hfields ⊢
    exact readFields_normalize hpayload.strip.normal hattached.fields hfields
  · rw [hattached.signatureIn_other hpayload hname, hsig]
  · rw [hattached.marshal_strip hpayload, hmessage]

/-- Written from the struct. -/
theorem originSigned_struct {message : Bytes} (hd : Delivered n keys d message)
    (hproper : keys.Proper) (hne : keys.signatures.getD [] ≠ []) (hraw : keys.raw = [])
    (hsigned : OriginSigned verify keys (marshalJSON keys))
    (hname : keys.serverName ≠ n.serverName) :
    OriginSigned verify keys (marshalJSON d) := by
  obtain ⟨obj, keyID, key, sig, message, hobj, hfields, hsig, hkey, hmessage, hcheck⟩ := hsigned
  have hrange := inRange_of_perspective hproper hd.signed
  have hempty : d.raw = [] := by rw [hd.raw, hraw, Notary.finalRaw, if_pos rfl]
  have hsome : keys.signatures = some (keys.signatures.getD []) := by
    cases hsigs : keys.signatures with
    | none =>
      rw [hsigs] at hne
      exact absurd rfl hne
    | some signatures => rfl
  obtain ⟨-, obj₀, hobj₀, hextract₀⟩ := marshalJSON_struct hproper hrange hsome hne hraw
  cases hobj.symm.trans hobj₀
  obtain ⟨-, ks, hks, hextract⟩ := marshalJSON_struct (hd.proper hproper) (hd.fields ▸ hrange)
    hd.signatures (setSignature_ne_nil _ _ _ _) hempty
  -- both objects are the fields of the struct and its signatures
  have hstrip : stripMembers ks = stripMembers obj := by
    rw [some.inj (hks.symm.trans (decodeOriginObject_struct hempty)),
      some.inj (hobj.symm.trans (decodeOriginObject_struct hraw)), strip_structMembers,
      strip_structMembers, hd.fields]
  refine ⟨ks, keyID, key, sig, message, hks, ?_, ?_, hkey, hstrip ▸ hmessage, hcheck⟩
  · rw [← readFields_strip] at hfields ⊢
    show readFields (.obj (stripMembers ks)) = _
    rw [hstrip]
    exact hfields
  · rw [signatureIn_eq (decodeOriginObject_some hobj).2, hextract₀] at hsig
    rw [signatureIn_eq (decodeOriginObject_some hks).2, hextract, setSignature_eq hproper.ordered,
      get_mergeNotarySig, if_neg hname, hsig]

/-- **Delivery keeps the signature of the origin**, for every name but the notary's own. -/
theorem originSigned_deliver (hproper : keys.Proper) (hne : keys.signatures.getD [] ≠ [])
    (hsigned : OriginSigned verify keys (marshalJSON keys))
    (hdeliver : n.deliver violation keys = some d) (hname : keys.serverName ≠ n.serverName) :
    OriginSigned verify d (marshalJSON d) := by
  obtain ⟨message, hd⟩ := delivered_of_deliver hdeliver
  refine OriginSigned.congr ?_ hd.fields
  by_cases hraw : keys.raw = []
  · exact originSigned_struct hd hproper hne hraw hsigned hname
  · rw [show marshalJSON keys = keys.raw from if_pos hraw] at hsigned
    by_cases hattach : n.CanAttach keys.raw
    · obtain ⟨out, hout⟩ := (attach_isOk_iff n.serverKeyPair).2 hattach
      obtain ⟨hbytes, obj, ks, sigB64, hobj, -, -, -, hks, hattached⟩ :=
        hd.marshalJSON_attached hout
      rw [hbytes]
      exact originSigned_attached hsigned hobj hks hattached hname
    · rw [hd.marshalJSON_refused hraw hattach]
      exact hsigned

end Deliver

end MxKeys.Keys
