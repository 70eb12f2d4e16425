/-
# MxKeys.Keys.NotarySignature — a notary adds its signature to the payload of an origin.

`AttachNotarySignature` works on the bytes of the origin: it reads them into a generic map, signs
the canonical form of everything but `signatures` and `unsigned` together with the signatures of the
other signers, and writes the map again with its own signature in it.

`attach_preserves_origin`: the fields that the origin has signed keep their canonical form, the
signatures of others stay, the new signature verifies over what the result says it covers, and a
second call changes nothing.  All four follow from one description of the result (`Attached`): it is
read back as the normal form of the map with the new `signatures`.
-/
import MxKeys.Canonical.Normal
import MxKeys.Keys.SelfSignature
import MxKeys.Lib.Digest

namespace MxKeys.Keys

open MxKeys.Lib
open List Option Assoc Canonical

/-! ## Signing -/

/-- `crypto/ed25519`: signing with a private key, and verifying with a public key. -/
structure Scheme where
  sign : Bytes → Bytes → Bytes
  verify : Bytes → Bytes → Bytes → Bool

/-- `ed25519.PrivateKeySize`. -/
def privateKeySize : Nat := 64

/-- A private key with its public key. -/
structure KeyPair (scheme : Scheme) where
  priv : Bytes
  pub : Bytes
  priv_length : priv.length = privateKeySize
  pub_length : pub.length = publicKeySize
  sign_length : ∀ m, (scheme.sign priv m).length = signatureSize
  verifies : ∀ m, scheme.verify pub m (scheme.sign priv m) = true

/-! ## The signatures of a payload -/

/-- A string, or nothing. -/
def stringOf : Json → Option Text
  | .str s => some s
  | _ => none

/-- The signatures of one signer: values that are no strings are dropped. -/
def signerBlock : Json → Option (Map Text)
  | .obj inner => some (filterValues stringOf inner)
  | _ => none

/-- `extractSignatures`. -/
def extractSignatures (obj : Map Json) : Map (Map Text) :=
  match get "signatures".toList obj with
  | some (.obj signers) => filterValues signerBlock signers
  | _ => []

/-- The value under `signatures`, a signer and a key, if it is a string. -/
def signatureIn (obj : Map Json) (signer keyID : Text) : Option Text :=
  match get "signatures".toList obj with
  | some (.obj signers) =>
    match get signer signers with
    | some (.obj inner) => (get keyID inner).bind stringOf
    | _ => none
  | _ => none

/-- Signatures as a generic value. -/
def signaturesJson (signatures : Map (Map Text)) : Json :=
  .obj (mapValues (fun block => .obj (mapValues .str block)) signatures)

/-- The members without `signatures` and `unsigned`. -/
def stripMembers (obj : Map Json) : Map Json :=
  erase "unsigned".toList (erase "signatures".toList obj)

/-- `buildSignable`. -/
def buildSignable (obj : Map Json) (existing : Map (Map Text)) (notaryName : Text) :
    Json :=
  let others := erase notaryName existing
  if others = [] then .obj (stripMembers obj)
  else .obj (Assoc.insert "signatures".toList (signaturesJson others) (stripMembers obj))

/-- `mergeNotarySig`. -/
def mergeNotarySig (existing : Map (Map Text)) (notaryName notaryKeyID sigB64 : Text) :
    Map (Map Text) :=
  let notaryBlock := (get notaryName existing).getD []
  Assoc.insert notaryName (Assoc.insert notaryKeyID sigB64 notaryBlock)
    (erase notaryName existing)

/-! ## Attaching a signature -/

/-- Why no signature is attached. -/
inductive AttachError
  /-- notary raw: decode origin payload -/
  | decode
  /-- notary raw: notary name and key id are required -/
  | nameRequired
  /-- notary raw: invalid notary private key length -/
  | privateKeyLength
  /-- notary raw: canonicalize signable -/
  | canonicalizeSignable
  /-- notary raw: canonicalize final -/
  | canonicalizeFinal
  deriving DecidableEq

/-- `decodeOriginObject`. -/
def decodeOriginObject (raw : Bytes) : Option (Map Json) :=
  (decodeObject raw).bind fun j =>
    match j with
    | .obj members => some members
    | _ => none

/-- The signature over a payload, in base64. -/
def signPayload (scheme : Scheme) (priv : Bytes) (payload : Json) : Option Text :=
  (marshal payload).map fun m => Base64.rawStdEncode (scheme.sign priv m)

/-- `AttachNotarySignature`. -/
def attachNotarySignature (scheme : Scheme) (rawOrigin : Bytes)
    (notaryName notaryKeyID : Text) (notaryPriv : Bytes) :
    Except AttachError Bytes :=
  if rawOrigin = [] then .error .decode
  else if notaryName = [] ∨ notaryKeyID = [] then .error .nameRequired
  else if notaryPriv.length ≠ privateKeySize then .error .privateKeyLength
  else
    match decodeOriginObject rawOrigin with
    | none => .error .decode
    | some obj =>
      let existingSigs := extractSignatures obj
      match signPayload scheme notaryPriv (buildSignable obj existingSigs notaryName) with
      | none => .error .canonicalizeSignable
      | some sigB64 =>
        let finalSigs := mergeNotarySig existingSigs notaryName notaryKeyID sigB64
        match marshal
          (.obj (Assoc.insert "signatures".toList (signaturesJson finalSigs) obj)) with
        | none => .error .canonicalizeFinal
        | some out => .ok out

/-! ## Generic maps -/

/-- A generic map as it is read from bytes. -/
structure Payload (obj : Map Json) : Prop where
  normal : (Json.obj obj).Normal
  wellFormed : (Json.obj obj).WellFormed
  depth : (Json.obj obj).depth ≤ Json.maxNestingDepth

variable {obj : Map Json}

theorem Payload.sorted (h : Payload obj) : Sorted obj :=
  ((Json.normal_obj obj).1 h.normal).1

theorem decodeOriginObject_some {raw : Bytes} (h : decodeOriginObject raw = some obj) :
    decodeObject raw = some (.obj obj) ∧ Payload obj := by
  obtain ⟨j, hj, hobj⟩ := bind_eq_some_iff.1 h
  obtain ⟨⟨v, rest⟩, hfirst, hv⟩ := bind_eq_some_iff.1 hj
  obtain ⟨hwf, hdepth⟩ := Json.parseFirst_wellFormed hfirst
  cases v with
  | obj members =>
    obtain rfl : (Json.obj members).generic = j := some.inj hv
    have hnormal := Json.normal_generic (.obj members)
    have hnumbers := Json.numbers_generic hwf
    have hle := Json.depth_generic_le (.obj members)
    rw [Json.generic_obj] at hj hobj hnormal hnumbers hle
    cases hobj
    exact ⟨hj, hnormal, hnumbers, hle.trans hdepth⟩
  | null =>
    cases hv
    cases hobj
  | _ => cases hv

theorem ne_nil_of_decode {raw : Bytes} (h : decodeOriginObject raw = some obj) : raw ≠ [] := by
  have hempty : decodeOriginObject [] = none := by decide
  rintro rfl
  cases hempty.symm.trans h

/-- Canonical bytes of an object are read back as its normal form. -/
theorem decodeOriginObject_marshal (hobj : Payload obj) {out : Bytes}
    (h : marshal (.obj obj) = some out) :
    ∃ ks, Json.parse (Utf8.decode out) = some (.obj ks) ∧ decodeOriginObject out = some ks ∧
      Payload ks ∧ Related (fun v w => Canonical.normalize v = some w) obj ks := by
  obtain ⟨k, hk, hform, hle, hparse⟩ := exists_of_marshal h hobj.depth
  obtain ⟨ks, rfl, hrel⟩ := related_of_normalize hk
  rw [ofEntries_of_sorted hobj.sorted] at hrel
  refine ⟨ks, hparse, ?_, ⟨hform.normal, hform.wellFormed, hle.trans hobj.depth⟩, hrel⟩
  rw [decodeOriginObject, decodeObject_eq hparse, Json.generic_of_normal hform.normal]
  rfl

theorem Payload.strip (h : Payload obj) : Payload (stripMembers obj) := by
  have hnormal := (Json.normal_obj obj).1 h.normal
  have hnumbers := (Json.numbers_obj obj).1 h.wellFormed
  have hsub : ∀ m ∈ stripMembers obj, m ∈ obj := fun m hm =>
    mem_of_mem_filter (mem_of_mem_filter hm)
  refine ⟨(Json.normal_obj _).2 ⟨?_, fun m hm => hnormal.2 m (hsub m hm)⟩,
    (Json.numbers_obj _).2 fun m hm => hnumbers m (hsub m hm), ?_⟩
  · exact sorted_erase _ (sorted_erase _ hnormal.1)
  · exact (Json.depth_obj_le (fun m hm => Json.depth_lt_of_mem (hsub m hm))
      (Json.depth_obj_pos obj)).trans h.depth

theorem Payload.insert (h : Payload obj) (name : Text) {v : Json} (hnormal : v.Normal)
    (hwf : v.WellFormed) (hdepth : v.depth < Json.maxNestingDepth) :
    Payload (Assoc.insert name v obj) := by
  have hobj := (Json.normal_obj obj).1 h.normal
  have hnumbers := (Json.numbers_obj obj).1 h.wellFormed
  refine ⟨(Json.normal_obj _).2 ⟨sorted_insert name v hobj.1, ?_⟩,
    (Json.numbers_obj _).2 ?_, Json.depth_obj_le ?_ (by decide)⟩
  all_goals
    intro m hm
    rcases mem_insert hm with rfl | hm
  · exact hnormal
  · exact hobj.2 m hm
  · exact hwf
  · exact hnumbers m hm
  · exact hdepth
  · exact (Json.depth_lt_of_mem hm).trans_le h.depth

/-! ## Signatures in a generic map -/

/-- Signatures as Go keeps them: the signers and their keys in order. -/
def Ordered (signatures : Map (Map Text)) : Prop :=
  Sorted signatures ∧ ∀ e ∈ signatures, Sorted e.2

theorem ordered_extract (h : Payload obj) : Ordered (extractSignatures obj) := by
  unfold extractSignatures
  split
  · rename_i signers hsigners
    have hnormal : (Json.obj signers).Normal :=
      ((Json.normal_obj obj).1 h.normal).2 _ (mem_of_get hsigners)
    rw [Json.normal_obj] at hnormal
    refine ⟨sorted_filterValues _ hnormal.1, fun e he => ?_⟩
    obtain ⟨v, hv, hblock⟩ := mem_filterValues he
    cases v with
    | obj inner =>
      have hinner := (Json.normal_obj inner).1 (hnormal.2 _ hv)
      rw [← some.inj hblock]
      exact sorted_filterValues _ hinner.1
    | _ => cases hblock
  · exact ⟨Pairwise.nil, nofun⟩

theorem signatureIn_eq (h : Payload obj) (signer keyID : Text) :
    signatureIn obj signer keyID =
      (get signer (extractSignatures obj)).bind (get keyID) := by
  unfold signatureIn extractSignatures
  cases hget : get "signatures".toList obj with
  | none => rfl
  | some v =>
    cases v with
    | obj signers =>
      have hnormal : (Json.obj signers).Normal :=
        ((Json.normal_obj obj).1 h.normal).2 _ (mem_of_get hget)
      rw [Json.normal_obj] at hnormal
      simp only [get_filterValues signerBlock hnormal.1]
      cases hsigner : get signer signers with
      | none => rfl
      | some w =>
        cases w with
        | obj inner =>
          have hinner := (Json.normal_obj inner).1 (hnormal.2 _ (mem_of_get hsigner))
          simp only [bind_some, signerBlock]
          rw [get_filterValues stringOf hinner.1]
        | _ => rfl
    | _ => rfl

variable {signatures : Map (Map Text)}

theorem Ordered.erase (h : Ordered signatures) (name : Text) :
    Ordered (erase name signatures) :=
  ⟨sorted_erase name h.1, fun e he => h.2 e (mem_of_mem_filter he)⟩

theorem Ordered.block (h : Ordered signatures) (name : Text) :
    Sorted ((get name signatures).getD []) := by
  cases hget : get name signatures with
  | none => exact Pairwise.nil
  | some block => exact h.2 _ (mem_of_get hget)

variable {existing : Map (Map Text)}

theorem Ordered.merge (h : Ordered existing) (notaryName notaryKeyID sigB64 : Text) :
    Ordered (mergeNotarySig existing notaryName notaryKeyID sigB64) := by
  refine ⟨sorted_insert _ _ (h.erase notaryName).1, fun e he => ?_⟩
  rcases mem_insert he with rfl | he
  · exact sorted_insert _ _ (h.block notaryName)
  · exact (h.erase notaryName).2 e he

section Signatures

variable {signatures : Map (Map Text)}

/-- What is read back from signatures that were written. -/
theorem extractSignatures_of_get {obj : Map Json}
    (hget : get "signatures".toList obj = some (signaturesJson signatures)) :
    extractSignatures obj = signatures := by
  unfold extractSignatures
  rw [hget]
  show filterValues signerBlock (mapValues _ signatures) = signatures
  rw [filterValues_mapValues fun e he => ?_]
  show some (filterValues stringOf (mapValues .str e.2)) = some e.2
  rw [filterValues_mapValues fun _ _ => rfl]

theorem normalForm_signaturesJson (h : Ordered signatures) :
    NormalForm (signaturesJson signatures) := by
  refine (normalForm_obj (sorted_mapValues.2 h.1) fun e he => ?_)
  obtain ⟨e', he', rfl⟩ := mem_map.1 he
  refine normalForm_obj (sorted_mapValues.2 (h.2 e' he')) fun s hs => ?_
  obtain ⟨s', -, rfl⟩ := mem_map.1 hs
  exact normalForm_str s'.2

/-- An object that is written entry by entry has the numbers of its entries, and is one level
deeper. -/
theorem readable_mapValues {α : Type} {encode : α → Json} {p : Text → Prop} {d : Nat}
    (h : ∀ a, (encode a).Numbers p ∧ (encode a).depth ≤ d) (m : Map α) :
    (Json.obj (mapValues encode m)).Numbers p ∧
      (Json.obj (mapValues encode m)).depth ≤ d + 1 := by
  have hmem : ∀ e ∈ mapValues encode m, e.2.Numbers p ∧ e.2.depth ≤ d := by
    intro e he
    obtain ⟨a, -, rfl⟩ := mem_map.1 he
    exact h a.2
  exact ⟨(Json.numbers_obj _).2 fun e he => (hmem e he).1,
    Json.depth_obj_le (fun e he => Nat.lt_succ_of_le (hmem e he).2) d.succ_pos⟩

theorem readable_signaturesJson (p : Text → Prop) (signatures : Map (Map Text)) :
    (signaturesJson signatures).Numbers p ∧ (signaturesJson signatures).depth ≤ 2 := by
  refine readable_mapValues (fun block => readable_mapValues (fun s => ⟨?_, ?_⟩) block) signatures
  · exact Json.numbers_str s
  · simp [Json.depth]

end Signatures

theorem Payload.insertSignatures (hobj : Payload obj) (h : Ordered signatures) :
    Payload (Assoc.insert "signatures".toList (signaturesJson signatures) obj) := by
  obtain ⟨hwf, hdepth⟩ := readable_signaturesJson Json.IsNumber signatures
  exact hobj.insert _ (normalForm_signaturesJson h).normal hwf (hdepth.trans_lt (by decide))

theorem get_mergeNotarySig (existing : Map (Map Text))
    (notaryName notaryKeyID sigB64 signer : Text) :
    get signer (mergeNotarySig existing notaryName notaryKeyID sigB64) =
      if signer = notaryName then
        some (Assoc.insert notaryKeyID sigB64 ((get notaryName existing).getD []))
      else get signer existing := by
  rw [mergeNotarySig, get_insert, get_erase]
  split_ifs <;> rfl

theorem exists_own_signature (existing : Map (Map Text))
    (notaryName notaryKeyID sigB64 : Text) : ∃ own,
      get notaryName (mergeNotarySig existing notaryName notaryKeyID sigB64) = some own ∧
        get notaryKeyID own = some sigB64 := by
  refine ⟨Assoc.insert notaryKeyID sigB64 ((get notaryName existing).getD []), ?_, ?_⟩
  · rw [get_mergeNotarySig, if_pos rfl]
  · rw [get_insert, if_pos rfl]

/-- The signatures that the notary covers stay the same when its own is added. -/
theorem erase_mergeNotarySig (h : Ordered existing) (notaryName notaryKeyID sigB64 : Text) :
    erase notaryName (mergeNotarySig existing notaryName notaryKeyID sigB64) =
      erase notaryName existing := by
  refine ext_get ((h.merge _ _ _).erase _).1 (h.erase _).1 fun signer => ?_
  rw [get_erase, get_erase, get_mergeNotarySig]
  split_ifs <;> rfl

/-- Adding a signature that is there changes nothing. -/
theorem mergeNotarySig_merge (h : Ordered existing) (notaryName notaryKeyID sigB64 : Text) :
    mergeNotarySig (mergeNotarySig existing notaryName notaryKeyID sigB64) notaryName notaryKeyID
      sigB64 = mergeNotarySig existing notaryName notaryKeyID sigB64 := by
  have hmerge := h.merge notaryName notaryKeyID sigB64
  refine ext_get (hmerge.merge _ _ _).1 hmerge.1 fun signer => ?_
  rw [get_mergeNotarySig, get_mergeNotarySig, get_mergeNotarySig, if_pos rfl, getD_some]
  split_ifs with hsigner
  · rw [insert_of_get (sorted_insert _ _ (h.block notaryName))]
    rw [get_insert, if_pos rfl]
  · rfl

/-! ## What the result holds -/

section Attach

variable {scheme : Scheme} {rawOrigin out : Bytes} {notaryName notaryKeyID : Text}
  {notaryPriv : Bytes}

/-- The steps of a call that succeeds. -/
theorem attachNotarySignature_ok :
    attachNotarySignature scheme rawOrigin notaryName notaryKeyID notaryPriv = .ok out ↔
      notaryName ≠ [] ∧ notaryKeyID ≠ [] ∧ notaryPriv.length = privateKeySize ∧
      ∃ obj sigB64, decodeOriginObject rawOrigin = some obj ∧
        signPayload scheme notaryPriv (buildSignable obj (extractSignatures obj) notaryName) =
          some sigB64 ∧
        marshal (.obj (Assoc.insert "signatures".toList (signaturesJson
          (mergeNotarySig (extractSignatures obj) notaryName notaryKeyID sigB64)) obj)) =
            some out := by
  unfold attachNotarySignature
  constructor
  · intro h
    split_ifs at h with hraw hnames hpriv
    obtain ⟨hname, hkeyID⟩ := not_or.1 hnames
    split at h
    · cases h
    · rename_i obj hobj
      simp only at h
      split at h
      · cases h
      · rename_i sigB64 hsig
        split at h
        · cases h
        · rename_i bytes hout
          cases h
          exact ⟨hname, hkeyID, not_not.1 hpriv, obj, sigB64, hobj, hsig, hout⟩
  · rintro ⟨hname, hkeyID, hpriv, obj, sigB64, hobj, hsig, hout⟩
    rw [if_neg (ne_nil_of_decode hobj), if_neg (not_or.2 ⟨hname, hkeyID⟩), if_neg (not_not.2 hpriv),
      hobj]
    simp only [hsig, hout]

/-- What the result of a call holds, compared with the map it was made from. -/
structure Attached (notaryName notaryKeyID sigB64 : Text) (obj ks : Map Json) : Prop where
  payload : Payload ks
  ordered : Ordered (extractSignatures obj)
  signatures : get "signatures".toList ks = some (signaturesJson
    (mergeNotarySig (extractSignatures obj) notaryName notaryKeyID sigB64))
  fields : Related (fun v w => Canonical.normalize v = some w) (stripMembers obj)
    (stripMembers ks)

theorem attached_of_marshal {obj : Map Json} {sigB64 : Text} (hobj : Payload obj)
    (h : marshal (.obj (Assoc.insert "signatures".toList (signaturesJson
      (mergeNotarySig (extractSignatures obj) notaryName notaryKeyID sigB64)) obj)) = some out) :
    ∃ ks, Json.parse (Utf8.decode out) = some (.obj ks) ∧ decodeOriginObject out = some ks ∧
      marshal (.obj ks) = some out ∧ Attached notaryName notaryKeyID sigB64 obj ks := by
  have hordered := ordered_extract hobj
  have hmerge := hordered.merge notaryName notaryKeyID sigB64
  have hpayload := hobj.insertSignatures hmerge
  obtain ⟨ks, hparse, hks, hpayload', hrel⟩ := decodeOriginObject_marshal hpayload h
  refine ⟨ks, hparse, hks, (marshal_of_sorted hpayload.sorted hrel).trans h,
    hpayload', hordered, ?_, ?_⟩
  · obtain ⟨w, hw, hnormal⟩ := hrel.get_some (k := "signatures".toList)
      (by rw [get_insert, if_pos rfl])
    rw [hw, ← hnormal, (normalForm_signaturesJson hmerge).fixed]
  · have hstrip := (hrel.erase "signatures".toList).erase "unsigned".toList
    rwa [erase_insert hobj.sorted] at hstrip

section Result

variable {notaryName notaryKeyID sigB64 : Text} {obj ks : Map Json}

section Attached

variable (h : Attached notaryName notaryKeyID sigB64 obj ks)
include h

theorem Attached.extract : extractSignatures ks =
      mergeNotarySig (extractSignatures obj) notaryName notaryKeyID sigB64 :=
  extractSignatures_of_get h.signatures

/-- The signed fields have the same canonical form. -/
theorem Attached.marshal_strip (hobj : Payload obj) :
    marshal (.obj (stripMembers ks)) = marshal (.obj (stripMembers obj)) :=
  marshal_of_sorted hobj.strip.sorted h.fields

/-- What the notary signs has the same canonical form in the result. -/
theorem Attached.marshal_signable (hobj : Payload obj) :
    marshal (buildSignable ks (extractSignatures ks) notaryName) =
      marshal (buildSignable obj (extractSignatures obj) notaryName) := by
  unfold buildSignable
  rw [h.extract, erase_mergeNotarySig h.ordered]
  dsimp only
  split_ifs
  · exact h.marshal_strip hobj
  · have hform := normalForm_signaturesJson (h.ordered.erase notaryName)
    exact marshal_of_sorted (sorted_insert _ _ hobj.strip.sorted)
      (h.fields.insert "signatures".toList hform.fixed)

theorem Attached.exists_message
    (hobj : Payload obj) : ∃ message, marshal (.obj (stripMembers obj)) = some message := by
  rw [marshal_eq, normalize_of_sorted hobj.strip.sorted h.fields]
  exact ⟨_, rfl⟩

/-- The signatures of others are those of the origin. -/
theorem Attached.signatureIn_other
    (hobj : Payload obj) {signer : Text} (hsigner : signer ≠ notaryName) (keyID : Text) :
    signatureIn ks signer keyID = signatureIn obj signer keyID := by
  rw [signatureIn_eq h.payload, signatureIn_eq hobj, h.extract, get_mergeNotarySig,
    if_neg hsigner]

theorem Attached.signatureIn_notary : signatureIn ks notaryName notaryKeyID = some sigB64 := by
  obtain ⟨own, hown, hsig⟩ :=
    exists_own_signature (extractSignatures obj) notaryName notaryKeyID sigB64
  rw [signatureIn_eq h.payload, h.extract, hown, bind_some, hsig]

end Attached

end Result

/-- The bytes that `verifySelfSignature` checks the signature over. -/
def originMessage (raw : Bytes) : Option Bytes :=
  (decodeObject raw).bind fun parsed => json (Utf8.encode (strip parsed).marshal)

theorem originMessage_eq {raw : Bytes} {obj : Map Json}
    (h : decodeOriginObject raw = some obj) :
    originMessage raw = marshal (.obj (stripMembers obj)) := by
  obtain ⟨hdecode, hobj⟩ := decodeOriginObject_some h
  have hstrip := hobj.strip
  rw [originMessage, hdecode, bind_some, json]
  show (input (Utf8.encode (Json.obj (stripMembers obj)).marshal)).bind _ = _
  rw [input_marshal hstrip.normal hstrip.wellFormed hstrip.depth, bind_some]

/-- **Attaching the notary signature preserves the origin**: the bytes that the origin has signed,
the signatures of others, the notary's own signature over what the result says, and the result when
the call is made again. -/
theorem attach_preserves_origin (key : KeyPair scheme)
    (h : attachNotarySignature scheme rawOrigin notaryName notaryKeyID key.priv = .ok out) :
    ∃ obj ks, decodeOriginObject rawOrigin = some obj ∧ decodeOriginObject out = some ks ∧
      (∃ message, Canonical.marshal (.obj (stripMembers ks)) = some message ∧
        originMessage rawOrigin = some message) ∧
      (∀ signer keyID sig, signer ≠ notaryName → signatureIn obj signer keyID = some sig →
        signatureIn ks signer keyID = some sig) ∧
      (∃ sigB64 sig message, signatureIn ks notaryName notaryKeyID = some sigB64 ∧
        Base64.rawStdDecode sigB64 = some sig ∧
        Canonical.marshal (buildSignable ks (extractSignatures ks) notaryName) = some message ∧
        scheme.verify key.pub message sig = true) ∧
      attachNotarySignature scheme out notaryName notaryKeyID key.priv = .ok out := by
  obtain ⟨hname, hkeyID, hpriv, obj, sigB64, hdecode, hsig, hout⟩ := attachNotarySignature_ok.1 h
  have hobj := (decodeOriginObject_some hdecode).2
  obtain ⟨ks, -, hks, hmarshal, hattached⟩ := attached_of_marshal hobj hout
  have hsignable := hattached.marshal_signable hobj
  refine ⟨obj, ks, hdecode, hks, ?_, ?_, ?_, ?_⟩
  · obtain ⟨message, hmessage⟩ := hattached.exists_message hobj
    refine ⟨message, (hattached.marshal_strip hobj).trans hmessage, ?_⟩
    rw [originMessage_eq hdecode, hmessage]
  · intro signer keyID sig hsigner hget
    rw [hattached.signatureIn_other hobj hsigner, hget]
  · obtain ⟨message, hmessage, rfl⟩ := map_eq_some_iff.1 hsig
    exact ⟨_, _, message, hattached.signatureIn_notary, Base64.rawStdDecode_encode _,
      hsignable.trans hmessage, key.verifies message⟩
  · refine attachNotarySignature_ok.2 ⟨hname, hkeyID, hpriv, ks, sigB64, hks, ?_, ?_⟩
    · rw [signPayload, hsignable]
      exact hsig
    · -- the same signature is added again
      rw [hattached.extract, mergeNotarySig_merge hattached.ordered,
        insert_of_get hattached.payload.sorted hattached.signatures]
      exact hmarshal

/-- A checksum of the message, sixteen times over. -/
def stamp (m : Bytes) : Bytes :=
  (replicate 16 (Digest.le32 (m.foldr (fun b n => b.toNat + 31 * n) 0))).flatten

def samplePub : Bytes := (range publicKeySize).map UInt8.ofNat

/-- A document that `s` has signed with two members for the name, in different case. -/
def renamedMembers : List (Text × Json) :=
  ("server_name".toList, .str "x".toList) :: ("SERVER_NAME".toList, .str "s".toList) ::
    honestMembers.filter (fun m => m.1 ≠ "server_name".toList)

/-- What is signed of it. -/
def renamedMessage : Option Bytes :=
  (signedObject (bytesOf renamedMembers)).bind Canonical.marshal

/-- The key `samplePub` signs with checksums; with any other key two messages were signed. -/
def sampleScheme : Scheme where
  sign _ m := stamp m
  verify pub m sig :=
    if pub = samplePub then sig == stamp m
    else honestMessage == some m || renamedMessage == some m

def sampleKeyPair : KeyPair sampleScheme where
  priv := replicate privateKeySize 0
  pub := samplePub
  priv_length := by decide
  pub_length := by decide
  sign_length _ := rfl
  verifies m := by simp [sampleScheme]

/-- The generic map of the honest response. -/
def honestObject : Map Json := ofEntries (mapValues Json.generic honestMembers)

theorem honest_decode : decodeOriginObject (bytesOf honestMembers) = some honestObject := by
  rw [decodeOriginObject, decodeObject_eq honest_parse, Json.generic_obj]
  rfl

/-- The notary `n` signs the honest response. -/
theorem attach_preserves_origin_honest :
    ∃ out ks, attachNotarySignature sampleScheme (bytesOf honestMembers) "n".toList "k".toList
        sampleKeyPair.priv = .ok out ∧ decodeOriginObject out = some ks ∧
      signatureIn ks "s".toList "b".toList = some (List.replicate 86 'C') := by
  have hwritten : ((signPayload sampleScheme sampleKeyPair.priv
      (buildSignable honestObject (extractSignatures honestObject) "n".toList)).bind fun sigB64 =>
        marshal (.obj (Assoc.insert "signatures".toList (signaturesJson (mergeNotarySig
          (extractSignatures honestObject) "n".toList "k".toList sigB64))
            honestObject))).isSome = true := by
    decide +kernel
  obtain ⟨out, hboth⟩ := isSome_iff_exists.1 hwritten
  obtain ⟨sigB64, hsig, hout⟩ := bind_eq_some_iff.1 hboth
  have hattach := attachNotarySignature_ok.2 ⟨by decide, by decide, sampleKeyPair.priv_length,
    honestObject, sigB64, honest_decode, hsig, hout⟩
  obtain ⟨obj, ks, hobj, hks, -, hothers, -, -⟩ := attach_preserves_origin sampleKeyPair hattach
  cases honest_decode.symm.trans hobj
  exact ⟨out, ks, hattach, hks, hothers _ _ _ (by decide) (by decide +kernel)⟩

end Attach

end MxKeys.Keys
