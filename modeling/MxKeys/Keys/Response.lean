/-
# MxKeys.Keys.Response — key responses and how they are read from JSON.

`ServerKeysResponse` is what a server publishes under `/_matrix/key/v2/server`, with the bytes it
came in when they are known.  It is decoded by `json.Unmarshal`, that is, member by member into a
struct: names are taken up to the case of letters, a repeated `verify_keys` is merged into the keys
that are there, and the entries of the maps are decoded afresh.
-/
import MxKeys.Lib.Json.Fields

namespace MxKeys.Keys

open MxKeys.Lib
open List Json

/-- A Go map from strings, its entries by increasing key. -/
abbrev Map (V : Type) := List (Text × V)

/-- `VerifyKeyResponse`. -/
structure VerifyKeyResponse where
  key : Text
  deriving DecidableEq

/-- `OldKeyResponse`. -/
structure OldKeyResponse where
  key : Text
  expiredTS : Int
  deriving DecidableEq

/-- `ServerKeysResponse`. -/
structure ServerKeysResponse where
  serverName : Text
  verifyKeys : Map VerifyKeyResponse
  oldVerifyKeys : Map OldKeyResponse
  validUntilTS : Int
  /-- `none` is the nil map. -/
  signatures : Option (Map (Map Text))
  raw : Bytes
  deriving DecidableEq

/-- The zero value. -/
def ServerKeysResponse.zero : ServerKeysResponse := ⟨[], [], [], 0, none, []⟩

/-! ## Decoding -/

def keyField : Json.Field VerifyKeyResponse :=
  .of "key".toList (·.key) (fun k s => { k with key := s }) decodeString

/-- The fields of `VerifyKeyResponse`. -/
def verifyKeyFields : List (Json.Field VerifyKeyResponse) := [keyField]

def oldKeyField : Json.Field OldKeyResponse :=
  .of "key".toList (·.key) (fun k s => { k with key := s }) decodeString

def expiredTSField : Json.Field OldKeyResponse :=
  .of "expired_ts".toList (·.expiredTS) (fun k n => { k with expiredTS := n }) decodeInt

/-- The fields of `OldKeyResponse`. -/
def oldKeyFields : List (Json.Field OldKeyResponse) := [oldKeyField, expiredTSField]

/-- An entry of `verify_keys`, into a fresh struct. -/
def decodeVerifyKey : Json → Option VerifyKeyResponse := decodeStruct verifyKeyFields ⟨[]⟩

/-- An entry of `old_verify_keys`. -/
def decodeOldKey : Json → Option OldKeyResponse := decodeStruct oldKeyFields ⟨[], 0⟩

/-- The signatures of one signer. -/
def decodeSigner : Json → Option (Map Text) := decodeMap (decodeString []) []

/-- Into `signatures`: `null` makes it the nil map. -/
def decodeSignatures (old : Option (Map (Map Text))) :
    Json → Option (Option (Map (Map Text)))
  | .null => some none
  | j => (decodeMap decodeSigner (old.getD []) j).map some

def serverNameField : Json.Field ServerKeysResponse :=
  .of "server_name".toList (·.serverName) (fun r s => { r with serverName := s }) decodeString

def verifyKeysField : Json.Field ServerKeysResponse :=
  .of "verify_keys".toList (·.verifyKeys) (fun r m => { r with verifyKeys := m })
    (decodeMap decodeVerifyKey)

def oldVerifyKeysField : Json.Field ServerKeysResponse :=
  .of "old_verify_keys".toList (·.oldVerifyKeys) (fun r m => { r with oldVerifyKeys := m })
    (decodeMap decodeOldKey)

def validUntilTSField : Json.Field ServerKeysResponse :=
  .of "valid_until_ts".toList (·.validUntilTS) (fun r n => { r with validUntilTS := n })
    decodeInt

def signaturesField : Json.Field ServerKeysResponse :=
  .of "signatures".toList (·.signatures) (fun r m => { r with signatures := m }) decodeSignatures

/-- The fields of `ServerKeysResponse`; `raw` has none. -/
def responseFields : List (Json.Field ServerKeysResponse) :=
  [serverNameField, verifyKeysField, oldVerifyKeysField, validUntilTSField, signaturesField]

/-- `json.Unmarshal` into a `ServerKeysResponse`. -/
def decodeResponse : Json → Option ServerKeysResponse :=
  decodeStruct responseFields .zero

/-- `json.Unmarshal(raw, &response)`. -/
def unmarshalResponse (raw : Bytes) : Option ServerKeysResponse :=
  (parse (Utf8.decode raw)).bind decodeResponse

/-! ## The same fields in a generic map -/

/-- What a struct of the four signed fields holds. -/
structure SignedFields where
  serverName : Text
  verifyKeys : Map VerifyKeyResponse
  oldVerifyKeys : Map OldKeyResponse
  validUntilTS : Int
  deriving DecidableEq

/-- The fields of a response that a signature covers. -/
def ServerKeysResponse.signedFields (r : ServerKeysResponse) : SignedFields :=
  ⟨r.serverName, r.verifyKeys, r.oldVerifyKeys, r.validUntilTS⟩

/-- An entry of `verify_keys` in a generic map: names are taken as they are, and what is missing is
the zero value. -/
def readVerifyKey : Json → Option VerifyKeyResponse
  | .obj members => (decodeString [] (Json.lookup "key".toList members)).map fun key => ⟨key⟩
  | .null => some ⟨[]⟩
  | _ => none

/-- An old key, read by exact names. -/
def readOldKey : Json → Option OldKeyResponse
  | .obj members => do
    let key ← decodeString [] (Json.lookup "key".toList members)
    let expiredTS ← decodeInt 0 (Json.lookup "expired_ts".toList members)
    return ⟨key, expiredTS⟩
  | .null => some ⟨[], 0⟩
  | _ => none

/-- The signed fields of a generic map. -/
def readFields : Json → Option SignedFields
  | .obj members => do
    let serverName ← decodeString [] (Json.lookup "server_name".toList members)
    let verifyKeys ← decodeMap readVerifyKey [] (Json.lookup "verify_keys".toList members)
    let oldVerifyKeys ← decodeMap readOldKey [] (Json.lookup "old_verify_keys".toList members)
    let validUntilTS ← decodeInt 0 (Json.lookup "valid_until_ts".toList members)
    return ⟨serverName, verifyKeys, oldVerifyKeys, validUntilTS⟩
  | _ => none

/-! ## When the two agree -/

/-- In every entry of a map, the names are unambiguous. -/
def ClearEntries (names : List Text) (j : Json) : Prop :=
  ∀ e ∈ j.members, ∀ n ∈ names, Plain e.2.members n

instance (names : List Text) (j : Json) : Decidable (ClearEntries names j) :=
  inferInstanceAs (Decidable (∀ e ∈ j.members, _))

/-- The names of the signed fields. -/
def signedNames : List Text :=
  ["server_name".toList, "verify_keys".toList, "old_verify_keys".toList, "valid_until_ts".toList]

/-- The names of the signed fields are unambiguous, and so are those inside the keys. -/
structure ClearFields (j : Json) : Prop where
  top : ∀ n ∈ signedNames, Plain j.members n
  keys : ClearEntries ["key".toList] (Json.lookup "verify_keys".toList j.members)
  oldKeys : ClearEntries ["key".toList, "expired_ts".toList]
    (Json.lookup "old_verify_keys".toList j.members)

/-! ### The parts of a struct -/

theorem verifyKey_part {j : Json} {k : VerifyKeyResponse}
    (hclear : ∀ n ∈ ["key".toList], Plain j.members n) (h : decodeVerifyKey j = some k) :
    decodeString [] (Json.lookup "key".toList j.members) = some k.key := by
  refine decodeStruct_part (f := keyField) rfl (Json.Field.sets_of fun _ _ => rfl) ?_ rfl h
    (hclear _ mem_cons_self)
  exact forall_mem_singleton.2 fun hne => absurd rfl hne

theorem oldKey_parts {j : Json} {k : OldKeyResponse}
    (hclear : ∀ n ∈ ["key".toList, "expired_ts".toList], Plain j.members n)
    (h : decodeOldKey j = some k) :
    decodeString [] (Json.lookup "key".toList j.members) = some k.key ∧
      decodeInt 0 (Json.lookup "expired_ts".toList j.members) = some k.expiredTS := by
  constructor
  · refine decodeStruct_part (f := oldKeyField) rfl (Json.Field.sets_of fun _ _ => rfl) ?_ rfl h
      (hclear _ mem_cons_self)
    refine forall_mem_cons.2 ⟨fun hne => absurd rfl hne, ?_⟩
    exact forall_mem_singleton.2 fun _ => Json.Field.keeps_of fun _ _ => rfl
  · refine decodeStruct_part (f := expiredTSField) rfl (Json.Field.sets_of fun _ _ => rfl) ?_ rfl h
      (hclear _ (mem_cons_of_mem _ mem_cons_self))
    refine forall_mem_cons.2 ⟨fun _ => Json.Field.keeps_of fun _ _ => rfl, ?_⟩
    exact forall_mem_singleton.2 fun hne => absurd rfl hne

theorem decodeString_generic (old : Text) (j : Json) :
    decodeString old j.generic = decodeString old j := by
  cases j <;> simp [decodeString]

theorem decodeInt_generic (old : Int) (j : Json) :
    decodeInt old j.generic = decodeInt old j := by
  cases j <;> simp [decodeInt]

theorem readVerifyKey_generic {j : Json} {k : VerifyKeyResponse}
    (hclear : ∀ n ∈ ["key".toList], Plain j.members n) (h : decodeVerifyKey j = some k) :
    readVerifyKey j.generic = some k := by
  cases j with
  | null =>
    cases h
    simp [readVerifyKey]
  | obj members =>
    have hplain : Plain members "key".toList := hclear _ mem_cons_self
    have hkey : decodeString [] (Json.lookup "key".toList members) = some k.key :=
      verifyKey_part hclear h
    rw [generic_obj]
    simp only [readVerifyKey]
    rw [lookup_generic hplain.2, decodeString_generic, hkey]
    rfl
  | _ => cases h

theorem readOldKey_generic {j : Json} {k : OldKeyResponse}
    (hclear : ∀ n ∈ ["key".toList, "expired_ts".toList], Plain j.members n)
    (h : decodeOldKey j = some k) : readOldKey j.generic = some k := by
  cases j with
  | null =>
    cases h
    simp [readOldKey]
  | obj members =>
    have hplain : Plain members "key".toList := hclear _ mem_cons_self
    have hplain' : Plain members "expired_ts".toList :=
      hclear _ (mem_cons_of_mem _ mem_cons_self)
    obtain ⟨hkey, hexpired⟩ : decodeString [] (Json.lookup "key".toList members) = some k.key ∧
        decodeInt 0 (Json.lookup "expired_ts".toList members) = some k.expiredTS :=
      oldKey_parts hclear h
    rw [generic_obj]
    simp only [readOldKey]
    rw [lookup_generic hplain.2, lookup_generic hplain'.2, decodeString_generic,
      decodeInt_generic, hkey, hexpired]
    rfl
  | _ => cases h

/-- A map of keys is the same in the struct and in the generic map. -/
theorem decodeMap_keys {α : Type} {element element' : Json → Option α} {names : List Text}
    {j : Json} {m : Map α} (hclear : ClearEntries names j)
    (hel : ∀ v k, (∀ n ∈ names, Plain v.members n) → element v = some k →
      element' v.generic = some k)
    (h : decodeMap element [] j = some m) : decodeMap element' [] j.generic = some m := by
  cases j with
  | null =>
    cases h
    simp [decodeMap]
  | obj members =>
    exact decodeMap_generic (fun e he v hv => hel e.2 v (hclear e he) hv) h
  | _ => cases h

/-- Every other field leaves a part alone. -/
theorem responseFields_keeps {α : Type} {name : Text} {part : ServerKeysResponse → α}
    (h : (∀ r s, "server_name".toList ≠ name → part { r with serverName := s } = part r) ∧
      (∀ r m, "verify_keys".toList ≠ name → part { r with verifyKeys := m } = part r) ∧
      (∀ r m, "old_verify_keys".toList ≠ name → part { r with oldVerifyKeys := m } = part r) ∧
      (∀ r n, "valid_until_ts".toList ≠ name → part { r with validUntilTS := n } = part r) ∧
      (∀ r m, "signatures".toList ≠ name → part { r with signatures := m } = part r)) :
    ∀ f ∈ responseFields, f.name ≠ name → f.Keeps part := by
  obtain ⟨h₁, h₂, h₃, h₄, h₅⟩ := h
  intro f hf hne
  simp only [responseFields, mem_cons, not_mem_nil, or_false] at hf
  rcases hf with rfl | rfl | rfl | rfl | rfl
  · exact Json.Field.keeps_of fun r s => h₁ r s hne
  · exact Json.Field.keeps_of fun r m => h₂ r m hne
  · exact Json.Field.keeps_of fun r m => h₃ r m hne
  · exact Json.Field.keeps_of fun r n => h₄ r n hne
  · exact Json.Field.keeps_of fun r m => h₅ r m hne

section Parts

variable {j : Json} {r : ServerKeysResponse} (h : decodeResponse j = some r)

include h

theorem serverName_part (hplain : Plain j.members "server_name".toList) :
    decodeString [] (Json.lookup "server_name".toList j.members) = some r.serverName :=
  decodeStruct_part (f := serverNameField) rfl (Json.Field.sets_of fun _ _ => rfl)
    (responseFields_keeps ⟨fun _ _ hne => absurd rfl hne, fun _ _ _ => rfl, fun _ _ _ => rfl,
      fun _ _ _ => rfl, fun _ _ _ => rfl⟩) rfl h hplain

theorem verifyKeys_part (hplain : Plain j.members "verify_keys".toList) :
    decodeMap decodeVerifyKey [] (Json.lookup "verify_keys".toList j.members) =
      some r.verifyKeys :=
  decodeStruct_part (f := verifyKeysField) rfl (Json.Field.sets_of fun _ _ => rfl)
    (responseFields_keeps ⟨fun _ _ _ => rfl, fun _ _ hne => absurd rfl hne, fun _ _ _ => rfl,
      fun _ _ _ => rfl, fun _ _ _ => rfl⟩) rfl h hplain

theorem oldVerifyKeys_part (hplain : Plain j.members "old_verify_keys".toList) :
    decodeMap decodeOldKey [] (Json.lookup "old_verify_keys".toList j.members) =
      some r.oldVerifyKeys :=
  decodeStruct_part (f := oldVerifyKeysField) rfl (Json.Field.sets_of fun _ _ => rfl)
    (responseFields_keeps ⟨fun _ _ _ => rfl, fun _ _ _ => rfl, fun _ _ hne => absurd rfl hne,
      fun _ _ _ => rfl, fun _ _ _ => rfl⟩) rfl h hplain

theorem validUntilTS_part (hplain : Plain j.members "valid_until_ts".toList) :
    decodeInt 0 (Json.lookup "valid_until_ts".toList j.members) = some r.validUntilTS :=
  decodeStruct_part (f := validUntilTSField) rfl (Json.Field.sets_of fun _ _ => rfl)
    (responseFields_keeps ⟨fun _ _ _ => rfl, fun _ _ _ => rfl, fun _ _ _ => rfl,
      fun _ _ hne => absurd rfl hne, fun _ _ _ => rfl⟩) rfl h hplain

theorem signatures_part (hplain : Plain j.members "signatures".toList) :
    decodeSignatures none (Json.lookup "signatures".toList j.members) = some r.signatures :=
  decodeStruct_part (f := signaturesField) rfl (Json.Field.sets_of fun _ _ => rfl)
    (responseFields_keeps ⟨fun _ _ _ => rfl, fun _ _ _ => rfl, fun _ _ _ => rfl,
      fun _ _ _ => rfl, fun _ _ hne => absurd rfl hne⟩) rfl h hplain

end Parts

/-- **The signed fields of a struct are those of the generic map**, when their names are
unambiguous. -/
theorem readFields_generic {j : Json} {r : ServerKeysResponse} (hclear : ClearFields j)
    (h : decodeResponse j = some r) (hname : r.serverName ≠ []) :
    readFields j.generic = some r.signedFields := by
  cases j with
  | null =>
    cases h
    exact absurd rfl hname
  | obj members =>
    have hplain : ∀ n ∈ signedNames, Plain members n := hclear.top
    simp only [signedNames, forall_mem_cons] at hplain
    obtain ⟨hplain₁, hplain₂, hplain₃, hplain₄, -⟩ := hplain
    have hserver : decodeString [] (Json.lookup "server_name".toList members) =
        some r.serverName := serverName_part h hplain₁
    have huntil : decodeInt 0 (Json.lookup "valid_until_ts".toList members) =
        some r.validUntilTS := validUntilTS_part h hplain₄
    have hkeys : decodeMap readVerifyKey []
        (Json.lookup "verify_keys".toList members).generic = some r.verifyKeys :=
      decodeMap_keys hclear.keys (fun v k hv hk => readVerifyKey_generic hv hk)
        (verifyKeys_part h hplain₂)
    have hold : decodeMap readOldKey []
        (Json.lookup "old_verify_keys".toList members).generic = some r.oldVerifyKeys :=
      decodeMap_keys hclear.oldKeys (fun v k hv hk => readOldKey_generic hv hk)
        (oldVerifyKeys_part h hplain₃)
    rw [generic_obj]
    simp only [readFields]
    rw [lookup_generic hplain₁.2, lookup_generic hplain₂.2,
      lookup_generic hplain₃.2, lookup_generic hplain₄.2, decodeString_generic,
      decodeInt_generic, hserver, hkeys, hold, huntil]
    rfl
  | _ => cases h

end MxKeys.Keys
