/-
# MxKeys.Keys.Fetch — what the fetcher makes of a reply.

`fetchDirect` takes the reply of the server itself: the name has to be the one asked for, the
self-signature has to verify over the bytes of the reply, and the bytes are kept.  `fetchFromNotary`
takes the reply of a notary, a list of responses: the first one of the name asked for is used if the
notary's signature on it verifies, and no bytes are kept.
-/
import MxKeys.Keys.NotaryVerification

namespace MxKeys.Keys

open MxKeys.Lib
open List Option

/-! ## A list of responses -/

/-- A Go slice: what its array holds, and its length. -/
structure Slice (α : Type) where
  cells : List α
  len : Nat

/-- The elements of a slice. -/
def Slice.elements {α : Type} (s : Slice α) : List α := s.cells.take s.len

/-- The elements of an array, each over what its cell holds. -/
def decodeCells {α : Type} (element : α → Json → Option α) (zero : α) :
    List α → List Json → Option (List α)
  | cells, [] => some cells
  | cells, j :: js => do
    let a ← element (cells.head?.getD zero) j
    let rest ← decodeCells element zero cells.tail js
    return a :: rest

/-- Into a slice; an empty array makes a new one. -/
def decodeSlice {α : Type} (element : α → Json → Option α) (zero : α) (old : Slice α) :
    Json → Option (Slice α)
  | .arr [] => some ⟨[], 0⟩
  | .arr items => (decodeCells element zero old.cells items).map fun cells => ⟨cells, items.length⟩
  | .null => some ⟨[], 0⟩
  | _ => none

/-- Into a `map[string]interface{}` that nobody reads. -/
def decodeAnyMap : Json → Option Unit
  | .obj _ => some ()
  | .null => some ()
  | _ => none

/-- A `KeyQueryResponse` while it is decoded; its failures are checked and dropped. -/
structure KeyQueryDecoding where
  serverKeys : Slice ServerKeysResponse

def serverKeysField : Json.Field KeyQueryDecoding :=
  .of "server_keys".toList (·.serverKeys) (fun r s => { r with serverKeys := s })
    (decodeSlice (Json.decodeStruct responseFields) .zero)

/-- The field `failures`, which is decoded and not read. -/
def failuresField : Json.Field KeyQueryDecoding :=
  ⟨"failures".toList, fun r j => (decodeAnyMap j).map fun _ => r⟩

/-- `json.Unmarshal(body, &notaryResp)`, and the range over `notaryResp.ServerKeys`. -/
def unmarshalKeyQuery (body : Bytes) : Option (List ServerKeysResponse) :=
  (Json.parse (Utf8.decode body)).bind fun j =>
    (Json.decodeStruct [serverKeysField, failuresField] ⟨⟨[], 0⟩⟩ j).map (·.serverKeys.elements)

variable {α : Type}

/-- What the elements of an array have when every element is decoded over one that has it. -/
theorem decodeCells_forall {element : α → Json → Option α} {zero : α} {P : α → Prop}
    (hzero : P zero) (helement : ∀ old j a, P old → element old j = some a → P a)
    (items : List Json) : ∀ {cells out : List α}, (∀ a ∈ cells, P a) →
      decodeCells element zero cells items = some out → ∀ a ∈ out, P a := by
  induction items with
  | nil =>
    intro cells out hcells h
    exact some.inj h ▸ hcells
  | cons j items ih =>
    intro cells out hcells h
    simp only [decodeCells, bind, bind_eq_some_iff] at h
    obtain ⟨first, hfirst, rest, hrest, h⟩ := h
    cases h
    refine forall_mem_cons.2 ⟨helement _ j first ?_ hfirst, ih ?_ hrest⟩
    · cases cells with
      | nil => exact hzero
      | cons a cells => exact hcells a mem_cons_self
    · exact fun a ha => hcells a (mem_of_mem_tail ha)

theorem decodeSlice_forall {element : α → Json → Option α} {zero : α} {P : α → Prop}
    (hzero : P zero) (helement : ∀ old j a, P old → element old j = some a → P a) {old s : Slice α}
    {j : Json} (hold : ∀ a ∈ old.cells, P a) (h : decodeSlice element zero old j = some s) :
    ∀ a ∈ s.cells, P a := by
  unfold decodeSlice at h
  split at h
  · exact some.inj h ▸ forall_mem_nil _
  · obtain ⟨cells, hcells, rfl⟩ := map_eq_some_iff.1 h
    exact decodeCells_forall hzero helement _ hold hcells
  · exact some.inj h ▸ forall_mem_nil _
  · cases h

/-- What a response has however it is decoded, every response of a notary has. -/
theorem unmarshalKeyQuery_forall {P : ServerKeysResponse → Prop} (hzero : P .zero)
    (hdecode : ∀ old j r, P old → Json.decodeStruct responseFields old j = some r → P r)
    {body : Bytes} {serverKeys : List ServerKeysResponse}
    (h : unmarshalKeyQuery body = some serverKeys) : ∀ r ∈ serverKeys, P r := by
  obtain ⟨j, -, h⟩ := bind_eq_some_iff.1 h
  obtain ⟨decoding, hdecoding, rfl⟩ := map_eq_some_iff.1 h
  have hcells : ∀ r ∈ decoding.serverKeys.cells, P r := by
    refine Json.decodeStruct_invariant (P := fun d => ∀ r ∈ d.serverKeys.cells, P r)
      (fun f hf d j d' hd hstore => ?_) (forall_mem_nil _) hdecoding
    simp only [mem_cons, not_mem_nil, or_false] at hf
    rcases hf with rfl | rfl <;> obtain ⟨v, hv, rfl⟩ := map_eq_some_iff.1 hstore
    · exact decodeSlice_forall hzero hdecode hd hv
    · exact hd
  exact fun r hr => hcells r (mem_of_mem_take hr)

/-! ## The two replies -/

/-- Why no keys were fetched. -/
inductive FetchError
  | contextCanceled
  | circuitOpen
  | concurrencyLimit
  /-- The name could not be resolved, or to a private address. -/
  | resolve
  /-- `http.NewRequest` failed. -/
  | badRequest
  /-- The request failed; `isRetryableError` says whether it is worth another try. -/
  | request (retryable : Bool)
  | status (code : Nat)
  | parse
  | serverNameMismatch
  | selfSignature (e : SelfSignatureError)
  | notFound
  | notarySignature (e : NotaryError)
  | allSourcesFailed
  deriving DecidableEq

section Accept

variable (verify : Bytes → Bytes → Bytes → Bool)

/-- The end of `fetchDirect`: the body of a reply with status 200. -/
def acceptDirect (maxSignatures now : Int) (serverName : Text) (body : Bytes) :
    Except FetchError ServerKeysResponse :=
  match unmarshalResponse body with
  | none => .error .parse
  | some keysResp =>
    if keysResp.serverName ≠ serverName then .error .serverNameMismatch
    else
      match verifySelfSignature verify maxSignatures now keysResp body with
      | .error e => .error (.selfSignature e)
      | .ok () => .ok { keysResp with raw := body }

/-- The end of `fetchFromNotary`. -/
def acceptNotary (trustedNotaries : Map TrustedNotary) (notary serverName : Text)
    (body : Bytes) : Except FetchError ServerKeysResponse :=
  match unmarshalKeyQuery body with
  | none => .error .parse
  | some serverKeys =>
    match serverKeys.find? fun keys => keys.serverName = serverName with
    | none => .error .notFound
    | some keys =>
      match verifyNotarySignature verify trustedNotaries notary keys with
      | .error e => .error (.notarySignature e)
      | .ok () => .ok keys

variable {verify} {serverName : Text} {body : Bytes} {r : ServerKeysResponse}

theorem acceptDirect_ok {maxSignatures now : Int}
    (h : acceptDirect verify maxSignatures now serverName body = .ok r) :
    ∃ keysResp, unmarshalResponse body = some keysResp ∧ keysResp.serverName = serverName ∧
      verifySelfSignature verify maxSignatures now keysResp body = .ok () ∧
      r = { keysResp with raw := body } := by
  unfold acceptDirect at h
  split at h
  · cases h
  · rename_i keysResp hparse
    split_ifs at h with hname
    split at h
    · cases h
    · rename_i hself
      exact ⟨keysResp, hparse, not_not.1 hname, hself, (Except.ok.inj h).symm⟩

theorem acceptNotary_ok {trustedNotaries : Map TrustedNotary} {notary : Text}
    (h : acceptNotary verify trustedNotaries notary serverName body = .ok r) :
    r.serverName = serverName ∧ (∃ serverKeys, unmarshalKeyQuery body = some serverKeys ∧
      r ∈ serverKeys) ∧ verifyNotarySignature verify trustedNotaries notary r = .ok () := by
  unfold acceptNotary at h
  split at h
  · cases h
  · rename_i serverKeys hparse
    split at h
    · cases h
    · rename_i keys hfind
      split at h
      · cases h
      · rename_i hverify
        obtain rfl := Except.ok.inj h
        exact ⟨by simpa using find?_some hfind,
          ⟨serverKeys, hparse, mem_of_find?_eq_some hfind⟩, hverify⟩

end Accept

end MxKeys.Keys
