/-
# MxKeys.Keys.Partition — a key query partitions its request.

Memory cache, database and flights hold a response only under the name it has.  The name is checked
where a response comes in, and when it is read back from the database it comes from the document
that was stored; the names that are not found, not signed or not allowed are failures.  So whatever
the caches, the database, the network and the policy do, every name of a request is answered once,
as long as the documents that are stored have one member for the name.

The column `response` is JSONB, which keeps the last of the members of a name and puts members in an
order of its own, while `encoding/json` takes members of any case and lets the last one decide.  A
document with the members `server_name` and `SERVER_NAME` is accepted under one name and comes back
under the other, and `GetServerKeys` does not compare names again: `renamed_served`.
-/
import MxKeys.Keys.Origin
import MxKeys.Keys.Service

namespace MxKeys.Keys

open MxKeys.Lib
open List Option

/-! ## Names and documents -/

/-- The document has one member for the name of the server, in any case, and it is `serverName`. -/
def NamedIn (serverName : Text) (j : Json) : Prop :=
  Json.Plain j.members "server_name".toList ∧
    Json.decodeString [] (Json.lookup "server_name".toList j.members) = some serverName

/-- A column from which such documents are read back under their names. -/
def KeepsName (jsonb : Json → Json) : Prop :=
  ∀ serverName j r, NamedIn serverName j → decodeResponse (jsonb j) = some r →
    r.serverName = serverName

/-- Bytes with one member for the name. -/
def OneName (raw : Bytes) : Prop :=
  ∀ j, Json.parse (Utf8.decode raw) = some j → Json.Plain j.members "server_name".toList

/-- A response of the name, by its struct and by the bytes of its origin. -/
structure Named (serverName : Text) (r : ServerKeysResponse) : Prop where
  name : r.serverName = serverName
  raw : r.raw ≠ [] → ∀ j, Json.parse (Utf8.decode r.raw) = some j → NamedIn serverName j

variable {r r' : ServerKeysResponse} {serverName : Text}

/-- Decoding leaves the bytes of the origin alone. -/
theorem raw_decodeStruct {old : ServerKeysResponse} {j : Json} (hold : old.raw = [])
    (h : Json.decodeStruct responseFields old j = some r) : r.raw = [] := by
  refine Json.decodeStruct_invariant (P := fun r => r.raw = []) (fun f hf s j s' hs hstore => ?_)
    hold h
  simp only [responseFields, mem_cons, not_mem_nil, or_false] at hf
  rcases hf with rfl | rfl | rfl | rfl | rfl <;>
    obtain ⟨v, -, rfl⟩ := map_eq_some_iff.1 hstore <;> exact hs

theorem raw_of_notary {body : Bytes} {serverKeys : List ServerKeysResponse}
    (h : unmarshalKeyQuery body = some serverKeys) : ∀ r ∈ serverKeys, r.raw = [] :=
  unmarshalKeyQuery_forall (P := fun r => r.raw = []) rfl
    (fun _ _ _ hold h => raw_decodeStruct hold h) h

theorem named_of_struct (hname : r.serverName = serverName) (hraw : r.raw = []) :
    Named serverName r :=
  ⟨hname, fun hne => absurd hraw hne⟩

theorem namedIn_of_decode {j : Json} (hplain : Json.Plain j.members "server_name".toList)
    (h : decodeResponse j = some r) : NamedIn r.serverName j :=
  ⟨hplain, serverName_part h hplain⟩

theorem namedIn_structMembers (r : ServerKeysResponse) :
    NamedIn r.serverName (.obj (structMembers r)) :=
  ⟨plain_structMembers r _ (mem_cons_of_mem _ mem_cons_self), rfl⟩

/-- Read from the bytes that are kept. -/
theorem named_of_raw {raw : Bytes} (hone : OneName raw)
    (hparse : unmarshalResponse raw = some r) (hname : r.serverName = serverName) :
    Named serverName { r with raw := raw } := by
  obtain ⟨j, hj, hr⟩ := bind_eq_some_iff.1 hparse
  refine ⟨hname, fun _ j' hj' => ?_⟩
  cases hj.symm.trans hj'
  exact hname ▸ namedIn_of_decode (hone j hj) hr

theorem named_stored {jsonb : Json → Json} (hjsonb : KeepsName jsonb) {document : Json}
    (h : Named serverName r) (hdocument : responseDocument r = some document)
    (hread : ResponseRow.read jsonb ⟨document, r.raw⟩ = some r') : Named serverName r' := by
  obtain ⟨decoded, hdecoded, rfl⟩ := map_eq_some_iff.1 hread
  by_cases hraw : r.raw = []
  · rw [responseDocument, if_neg (not_not.2 hraw)] at hdocument
    cases hdocument
    rw [if_neg (not_not.2 hraw)]
    have hname := hjsonb _ _ _ (namedIn_structMembers r) hdecoded
    exact named_of_struct (hname.trans h.name) (raw_decodeStruct rfl hdecoded)
  · rw [responseDocument, if_pos hraw] at hdocument
    rw [if_pos hraw]
    have hname := hjsonb _ _ _ (h.raw hraw _ hdocument) hdecoded
    exact ⟨hname, h.raw⟩

/-- Responses are held under their names. -/
def naming {scheme : Scheme} {jsonb : Json → Json} (hjsonb : KeepsName jsonb) (n : Node scheme) :
    Standard jsonb n where
  Holds := Named
  Reply site reply := site = .direct → ∀ body, reply.body = .ok body → OneName body
  Payload := OneName
  named h := h.name
  cloned h := ⟨h.name, h.raw⟩
  direct hreply hbody h := by
    obtain ⟨keysResp, hparse, hname, -, rfl⟩ := acceptDirect_ok h
    exact named_of_raw (hreply rfl _ hbody) hparse hname
  notary _ _ h := by
    obtain ⟨hname, ⟨serverKeys, hparse, hmem⟩, -⟩ := acceptNotary_ok h
    exact named_of_struct hname (raw_of_notary hparse _ hmem)
  replicated hpayload h := by
    obtain ⟨response, hparse, hname, -, rfl⟩ := validateReplicated_ok h
    exact named_of_raw hpayload hparse hname
  stored h hdocument hread := named_stored hjsonb h hdocument hread

/-- Nothing is said about time. -/
def anyTime : Timing where
  Current _ _ := True
  Answer _ _ _ := True
  keep _ _ := trivial
  checked _ _ := trivial
  waited _ _ := trivial
  notary _ _ := trivial

/-- Steps in which the bytes of servers and of peers have one member for the name. -/
def OneNamed : Machine.Event NotaryOp NotaryOp.Answer Call OutsideEvent → Prop
  | .exec _ env => ∀ reply body, env (.net (.exchange .direct)) = Except.ok reply →
      reply.body = .ok body → OneName body
  | .call (.applyReplicatedServerResponse _ payload _) => OneName payload
  | _ => True

/-- **Key queries partition the request**: in every run of the notary in which the bytes of servers
and of peers have one member for the name, every response of `QueryKeys` has every requested name
exactly once, as an element or as a failure, and no other, and its elements are in order. -/
theorem query_partitions {scheme : Scheme} {jsonb : Json → Json} (hjsonb : KeepsName jsonb)
    (n : Node scheme) {m : NotaryMachine}
    (h : Reach (Machine.step (n.rules jsonb)) (fun _ a => OneNamed a) initialNotary m) :
    ∀ x ∈ m.shared.served, Partition x.request x.response := by
  have hinitial : initialNotary.shared.Holds (naming hjsonb n) :=
    ⟨forall_mem_nil _, forall_mem_nil _, forall_mem_nil _, forall_mem_nil _⟩
  have hsafe := Machine.safe_of_reach (c := service (naming hjsonb n) anyTime)
    (I := NotaryState.Holds (naming hjsonb n)) (J := NotaryState.Joined) h (.initial hinitial) rfl
    (fun call m _ hok => ⟨?_, ensures_start ?_ m.shared⟩)
    (fun m i env o next k answer s hs hk hasks hok _ hstep => ?_)
    (fun m e m' hsafe _ hstep => ?_)
  · exact fun x hx => (hsafe.shared.served x hx).1
  · cases call <;> exact forall_mem_nil _
  · cases call with
    | applyReplicatedServerResponse serverName payload validUntilTS => exact hok
    | _ => trivial
  · have heffect := handle_effect hstep
    refine ⟨⟨handle_answer hstep hs hk ?_, trivial⟩, heffect.holds hs hk hasks,
      handle_joined hstep hk, fun _ hk' => heffect.joined hk'⟩
    rintro site reply hreply rfl body hbody
    exact hok reply body hreply hbody
  · cases e with
    | tick clock =>
      cases hstep
      exact ⟨{ hsafe.shared with }, hsafe.threads⟩
    | restart =>
      cases hstep
      exact .initial { hsafe.shared with
        cache := forall_mem_nil _, flights := forall_mem_nil _ }

/-! ## The column of PostgreSQL -/

/-- The order of names in JSONB: by the length in bytes, then by the bytes. -/
def jsonbLE (e e' : Text × Json) : Prop :=
  let name := Utf8.encode e.1
  let name' := Utf8.encode e'.1
  name.length < name'.length ∨ name.length = name'.length ∧ name ≤ name'

instance : DecidableRel jsonbLE := fun _ _ => inferInstanceAs (Decidable (_ ∨ _ ∧ _))

/-- JSONB: in each object the last member of a name stands for it, and the members are in order. -/
def postgres : Json → Json :=
  Json.fold {
    null := .null
    bool := .bool
    num := .num
    str := .str
    arr := .arr
    obj := fun members => .obj ((Assoc.ofEntries members).insertionSort jsonbLE) }

theorem decodeString_postgres (old : Text) (j : Json) :
    Json.decodeString old (postgres j) = Json.decodeString old j := by
  cases j <;> rfl

theorem decodeInt_postgres (old : Int) (j : Json) :
    Json.decodeInt old (postgres j) = Json.decodeInt old j := by
  cases j <;> rfl

theorem postgres_obj (members : List (Text × Json)) : postgres (.obj members) =
    .obj ((Assoc.ofEntries (Assoc.mapValues postgres members)).insertionSort jsonbLE) :=
  Json.fold_obj _ members

/-- A name that occurs once, and in one case, does so in the column. -/
theorem plain_postgres {j : Json} {name : Text} (h : Json.Plain j.members name) :
    Json.Plain (postgres j).members name ∧
      Json.lookup name (postgres j).members = postgres (Json.lookup name j.members) := by
  cases j with
  | obj members =>
    have hsorted := Assoc.sorted_ofEntries (Assoc.mapValues postgres members)
    have hperm := perm_insertionSort jsonbLE (Assoc.ofEntries (Assoc.mapValues postgres members))
    have honce : Assoc.Once name (Assoc.mapValues postgres members) := pairwise_map.2 h.2
    rw [postgres_obj]
    dsimp only [Json.members]
    refine ⟨⟨fun e he hfold => ?_, Assoc.once_of_perm hsorted hperm name⟩, ?_⟩
    · obtain ⟨e', he', rfl⟩ := mem_map.1 (Assoc.mem_ofEntries (hperm.mem_iff.1 he))
      exact h.1 e' he' hfold
    · rw [Json.lookup, Assoc.get_of_perm hsorted hperm, Assoc.get_ofEntries_of_once honce,
        Assoc.get_mapValues, Json.lookup]
      cases Assoc.get name members <;> rfl
  | _ => exact ⟨h, rfl⟩

/-- **JSONB keeps the names of documents that have one.** -/
theorem keepsName_postgres : KeepsName postgres := by
  intro serverName j r hj hr
  obtain ⟨hplain, hlookup⟩ := plain_postgres hj.1
  have hname := (namedIn_of_decode hplain hr).2
  rw [hlookup, decodeString_postgres] at hname
  exact some.inj (hname.symm.trans hj.2)

/-! ## A query for three names -/

/-- The policy denies `d`, the circuits are open, and the database works. -/
def sampleAnswers : (o : NotaryOp) → o.Answer
  | .net (.allow _) => false
  | .net o => sampleEnv [] o
  | .checkServer serverName =>
    if serverName = "d".toList then some ⟨"deny_list", "server is denied"⟩ else none
  | .checkResponse _ _ => none
  | .cacheGet _ => none
  | .databaseGet _ => .ok (some .zero)
  | .databasePut _ _ => (true, true)
  | .databaseDeleteExpired => []
  | .flightJoin _ => (true, 0)
  | .flightWait _ => .error .allSourcesFailed
  | .transparency _ | .cacheEvict _ _ _ | .cachePut _ _ _ | .cacheDelete _ | .cacheSweep
  | .flightFinish _ _ | .broadcast _ _ _ | .respond _ _ => ()

/-- A query for three servers. -/
def sampleRequest : KeyQueryRequest :=
  ⟨[("a".toList, []), ("d".toList, []), ("s".toList, [])], by unfold Assoc.Sorted; decide⟩

/-- The response of `s` is replicated; then `a`, `d` and `s` are asked for. -/
def sampleSchedule : List (Machine.Event NotaryOp NotaryOp.Answer Call OutsideEvent) :=
  .call (.applyReplicatedServerResponse "s".toList (bytesOf honestMembers) 10) ::
    List.replicate 4 (.exec 0 sampleAnswers) ++
  .call (.queryKeys sampleRequest) :: List.replicate 19 (.exec 1 sampleAnswers)

/-- The names that were asked for, served and refused. -/
def answeredNames (m : NotaryMachine) :
    List (List Text × List Text × List Text) :=
  m.shared.served.map fun x =>
    (x.request.names, x.response.serverKeys.map (·.serverName), x.response.failed)

theorem mem_answered {m : NotaryMachine}
    {names : List Text × List Text × List Text}
    (h : answeredNames m = [names]) : ∃ x ∈ m.shared.served, x.request.names = names.1 ∧
      x.response.serverKeys.map (·.serverName) = names.2.1 ∧ x.response.failed = names.2.2 := by
  obtain ⟨x, hx, rfl⟩ := List.mem_map.1 (h ▸ mem_singleton_self _)
  exact ⟨x, hx, rfl, rfl, rfl⟩

/-- Peers send the honest response, and servers nothing. -/
def SampleEvent : Machine.Event NotaryOp NotaryOp.Answer Call OutsideEvent → Prop
  | .exec _ env => env = sampleAnswers
  | .call (.applyReplicatedServerResponse _ payload _) => payload = bytesOf honestMembers
  | .call _ => True
  | .outside _ => False

theorem oneNamed_of_sample {a : Machine.Event NotaryOp NotaryOp.Answer Call OutsideEvent}
    (h : SampleEvent a) : OneNamed a := by
  cases a with
  | exec i env =>
    obtain rfl : env = sampleAnswers := h
    rintro reply body ⟨⟩
  | call p =>
    cases p with
    | applyReplicatedServerResponse serverName payload validUntilTS =>
      obtain rfl : payload = bytesOf honestMembers := h
      intro j hj
      cases honest_parse.symm.trans hj
      decide +kernel
    | _ => trivial
  | outside e => exact h.elim

/-- One name is not found, one is denied, and one is served from the cache. -/
theorem query_partitions_sample : KeepsName postgres ∧ ∃ m x,
    Reach (Machine.step (sampleNode.rules postgres)) (fun _ a => OneNamed a) initialNotary m ∧
      x ∈ m.shared.served ∧ x.request.names = ["a".toList, "d".toList, "s".toList] ∧
      x.response.serverKeys.map (·.serverName) = ["s".toList] ∧
      x.response.failed = ["a".toList, "d".toList] ∧ Partition x.request x.response := by
  obtain ⟨m, hm, hobs⟩ := reach_observe (P := SampleEvent)
    (by simp [sampleSchedule, SampleEvent]) (fun m a ha _ => oneNamed_of_sample ha)
    (show (execute (Machine.step (sampleNode.rules postgres)) (fun _ _ => true) initialNotary
      sampleSchedule).map answeredNames = some [(["a".toList, "d".toList, "s".toList], ["s".toList],
        ["a".toList, "d".toList])] by decide +kernel)
  obtain ⟨x, hx, hnames, hserved, hfailed⟩ := mem_answered hobs
  exact ⟨keepsName_postgres, m, x, hm, hx, hnames, hserved, hfailed,
    query_partitions keepsName_postgres sampleNode hm x hx⟩

/-- A query for every key of `s`. -/
def singleRequest : KeyQueryRequest := ⟨[("s".toList, [])], pairwise_singleton _ _⟩

/-- A peer replicates the document of `s` with two members for the name; the notary is restarted,
and `s` is asked for. -/
def renamedSchedule : List (Machine.Event NotaryOp NotaryOp.Answer Call OutsideEvent) :=
  .call (.applyReplicatedServerResponse "s".toList (bytesOf renamedMembers) 10) ::
    List.replicate 4 (.exec 0 sampleAnswers) ++
  .outside .restart :: .call (.queryKeys singleRequest) ::
    List.replicate 10 (.exec 0 sampleAnswers)

/-- **Served under another name**: `s` is asked for, the element that is returned is one for `x`,
and there is no failure. -/
theorem renamed_served : ∃ m x,
    Reach (Machine.step (sampleNode.rules postgres)) anyAction initialNotary m ∧
      x ∈ m.shared.served ∧ x.request.names = ["s".toList] ∧
      x.response.serverKeys.map (·.serverName) = ["x".toList] ∧ x.response.failed = [] ∧
      ¬Partition x.request x.response := by
  obtain ⟨m, hm, hobs⟩ := reach_observe_any
    (show (execute (Machine.step (sampleNode.rules postgres)) (fun _ _ => true) initialNotary
      renamedSchedule).map answeredNames = some [(["s".toList], ["x".toList], [])] by
        decide +kernel)
  obtain ⟨x, hx, hnames, hserved, hfailed⟩ := mem_answered hobs
  refine ⟨m, x, hm, hx, hnames, hserved, hfailed, fun hpartition => ?_⟩
  have hmem : "x".toList ∈ x.response.serverKeys.map (·.serverName) := hserved ▸ mem_cons_self
  obtain ⟨d, hd, hname⟩ := List.mem_map.1 hmem
  have hrequested := hpartition.served_requested d hd
  rw [hnames, hname] at hrequested
  exact absurd hrequested (by decide)

end MxKeys.Keys
