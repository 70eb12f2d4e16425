/-
# MxKeys.Keys.Service — what every call of the notary keeps to.

A standard for responses (`Standard`) is a property of a response and the name it is held under,
such that whatever the notary accepts from outside has it and reading back from the database keeps
it.  A timing (`Timing`) is what a call knows of the `valid_until_ts` of a response after it has
compared it with the clock.  For any of both, the calls of the notary keep to one contract: they put
into the cache, into the database and into flights only responses of the standard that are current,
and what they return partitions the request and holds only such responses, delivered.

The contract is proved here along the programs, and the part of its invariant that does not speak of
time; what a standard and a timing are needed for is left to those who choose them.
-/
import MxKeys.Keys.Sources

namespace MxKeys.Keys

open MxKeys.Lib
open MxKeys.Lib.Prog (Ensures ensures_ask ensures_bind ensures_pure)
open List Option Assoc

/-! ## Standards and timings -/

section Contract

variable {scheme : Scheme}

/-- A property of the responses that the notary holds under a name.  `Reply` and `Payload` are what
is assumed of the replies of servers and of notaries, and of replicated payloads. -/
structure Standard (jsonb : Json → Json) (n : Node scheme) where
  Holds : Text → ServerKeysResponse → Prop
  Reply : Site → HttpReply → Prop
  Payload : Bytes → Prop
  named : ∀ {serverName r}, Holds serverName r → r.serverName = serverName
  cloned : ∀ {serverName r}, Holds serverName r → Holds serverName (cloneServerKeysResponse r)
  direct : ∀ {serverName reply body now r}, Reply .direct reply → reply.body = .ok body →
    acceptDirect scheme.verify n.fetcher.maxSignatures now serverName body = .ok r →
    Holds serverName r
  notary : ∀ {notary serverName reply body r}, Reply .notary reply → reply.body = .ok body →
    acceptNotary scheme.verify n.fetcher.trustedNotaries notary serverName body = .ok r →
    Holds serverName r
  replicated : ∀ {serverName payload validUntilTS now r}, Payload payload →
    n.validateReplicatedServerResponse now serverName payload validUntilTS = .ok r →
    Holds serverName r
  stored : ∀ {serverName r document r'}, Holds serverName r → responseDocument r = some document →
    ResponseRow.read jsonb ⟨document, r.raw⟩ = some r' → Holds serverName r'

/-- What a call knows of a `valid_until_ts` that is current, and of answers that keep it so. -/
structure Timing where
  Current : Int → Readings → Prop
  Answer : Readings → (o : NotaryOp) → o.Answer → Prop
  keep : ∀ {k o answer validUntilTS}, Answer k o answer → Current validUntilTS k →
    Current validUntilTS (Readings.note o answer k)
  checked : ∀ {k validUntilTS}, validUntilTS ∈ k.validUntil → unixMilli k.now < validUntilTS →
    Current validUntilTS k
  waited : ∀ {k serverName flight} {r : ServerKeysResponse}, (serverName, flight) ∈ k.joined →
    Answer k (.flightWait flight) (Except.ok r) →
    Current r.validUntilTS (Readings.note (.flightWait flight) (Except.ok r) k)
  notary : ∀ {k} {reply : HttpReply} {r}, Answer k (.net (.exchange .notary)) (Except.ok reply) →
    r ∈ reply.responses .notary →
    Current r.validUntilTS (Readings.note (.net (.exchange .notary)) (Except.ok reply) k)

/-! ## Partitions -/

/-- The elements for a name. -/
def KeyQueryResponse.servedFor (response : KeyQueryResponse) (serverName : Text) :
    List ServerKeysResponse := response.serverKeys.filter fun d => d.serverName = serverName

/-- The names with a failure. -/
def KeyQueryResponse.failed (response : KeyQueryResponse) : List Text :=
  response.failures.map Prod.fst

/-- A response partitions its request: every name has exactly one element or a failure, nothing else
is there, and the elements are in the order of `sort.Strings`. -/
structure Partition (request : KeyQueryRequest) (response : KeyQueryResponse) : Prop where
  answered : ∀ serverName ∈ request.names,
    ((response.servedFor serverName).length = 1 ∧ serverName ∉ response.failed) ∨
      (response.servedFor serverName = [] ∧ serverName ∈ response.failed)
  served_requested : ∀ d ∈ response.serverKeys, d.serverName ∈ request.names
  failed_requested : ∀ serverName ∈ response.failed, serverName ∈ request.names
  increasing : response.serverKeys.Pairwise fun d d' =>
    Utf8.encode d.serverName < Utf8.encode d'.serverName

/-! ## The contract -/

variable {jsonb : Json → Json} {n : Node scheme}

/-- Delivered from a response of the standard. -/
def Standard.Delivers (std : Standard jsonb n) (d : ServerKeysResponse) : Prop :=
  ∃ keys, std.Holds d.serverName keys ∧ n.deliver (fun _ => false) keys = some d

/-- What an answer brings is of the standard. -/
def Standard.Answer (std : Standard jsonb n) (k : Readings) : (o : NotaryOp) → o.Answer → Prop
  | .net (.exchange site), (.ok reply : Except Bool HttpReply) => std.Reply site reply
  | .cacheGet serverName, (some cached : Option CachedResponse) =>
    std.Holds serverName cached.response
  | .databaseGet serverName, (.ok (some stored) : Except Unit (Option ServerKeysResponse)) =>
    std.Holds serverName stored
  | .flightWait flight, (.ok result : Except FetchError ServerKeysResponse) =>
    ∀ serverName, (serverName, flight) ∈ k.joined → std.Holds serverName result
  | _, _ => True

/-- A response that may be handed on. -/
def Good (std : Standard jsonb n) (timing : Timing) (serverName : Text) (r : ServerKeysResponse)
    (k : Readings) : Prop := std.Holds serverName r ∧ timing.Current r.validUntilTS k

/-- What a call may do. -/
def Asks (std : Standard jsonb n) (timing : Timing) (k : Readings) : NotaryOp → Prop
  | .cachePut serverName r _ => Good std timing serverName r k
  | .databasePut serverName r => Good std timing serverName r k
  | .flightFinish flight result => ∀ r, result = .ok r →
      ∃ serverName, (serverName, flight) ∈ k.joined ∧ Good std timing serverName r k
  | .respond request response => Partition request response ∧
      ∀ d ∈ response.serverKeys, std.Delivers d ∧ timing.Current d.validUntilTS k
  | _ => True

/-- What the calls ask, and what they may be answered. -/
def service (std : Standard jsonb n) (timing : Timing) :
    Prog.Contract NotaryOp NotaryOp.Answer Readings where
  note := Readings.note
  asks := Asks std timing
  answers k o answer := std.Answer k o answer ∧ timing.Answer k o answer

end Contract

/-! ## The programs -/

section Programs

variable {scheme : Scheme} {jsonb : Json → Json} {n : Node scheme} {std : Standard jsonb n}
  {timing : Timing} {serverName : Text} {r : ServerKeysResponse} {k : Readings} {o : NotaryOp}
  {answer : o.Answer} {now : Nat}

theorem good_keep (hanswer : (service std timing).answers k o answer)
    (h : Good std timing serverName r k) :
    Good std timing serverName r ((service std timing).note o answer k) :=
  ⟨h.1, timing.keep hanswer.2 h.2⟩

theorem good_clone (h : Good std timing serverName r k) :
    Good std timing serverName (cloneServerKeysResponse r) k := ⟨std.cloned h.1, h.2⟩

theorem ensures_storeInMemoryCache (h : Good std timing serverName r k) :
    Ensures (service std timing) (fun _ k' => Good std timing serverName r k')
      (n.storeInMemoryCache serverName r) k := by
  refine ensures_ask trivial fun (now : Nat) hnow => ?_
  have hgood := good_keep hnow h
  show Ensures _ _ (if ¬((now : Int) < n.cacheExpiresAt r now) then _ else _) _
  split
  · exact ⟨trivial, fun _ hanswer => good_keep hanswer hgood⟩
  · exact ⟨hgood, fun _ hanswer => good_keep hanswer hgood⟩

theorem ensures_fetch :
    Ensures (service std timing) (Returns (Good std timing serverName))
      (fetchServerKeys scheme.verify n.fetcher serverName).lift k := by
  refine ensures_lift (ensures_fetchServerKeys (fun _ _ => trivial)
    (fun k o answer r hanswer h => good_keep hanswer h) ?_ ?_)
  · rintro k body now r ⟨k₀, reply, hreply, hbody, rfl⟩ - haccept
    refine ⟨std.direct hreply.1 hbody haccept, timing.checked ?_ ?_⟩
    · obtain ⟨keysResp, hparse, -, -, rfl⟩ := acceptDirect_ok haccept
      -- the reply was read just before the clock
      show keysResp.validUntilTS ∈
        ((reply.responses .direct).map (·.validUntilTS) ++ k₀.arrived) ++ k₀.validUntil
      simp [HttpReply.responses, hbody, Except.toOption, hparse]
    · obtain ⟨keysResp, -, -, hself, rfl⟩ := acceptDirect_ok haccept
      exact (verifySelfSignature_ok hself).current
  · rintro notary - k body r ⟨k₀, reply, hreply, hbody, rfl⟩ haccept
    refine ⟨std.notary hreply.1 hbody haccept, timing.notary hreply.2 ?_⟩
    obtain ⟨-, ⟨serverKeys, hparse, hmem⟩, -⟩ := acceptNotary_ok haccept
    simpa [HttpReply.responses, hbody, Except.toOption, hparse] using hmem

theorem ensures_fetchAndStore :
    Ensures (service std timing) (Returns (Good std timing serverName))
      (n.fetchAndStore serverName) k := by
  refine ensures_bind ensures_fetch fun result k₁ hresult => ?_
  cases result with
  | error e => exact ensures_pure returns_error
  | ok keys =>
    have hgood := hresult keys rfl
    refine ensures_ask hgood fun _ hanswer => ?_
    refine ensures_bind (ensures_storeInMemoryCache (good_keep hanswer hgood)) fun _ k₂ hgood => ?_
    exact ensures_ask trivial fun _ hanswer => ensures_pure (returns_ok (good_keep hanswer hgood))

theorem joined_keep {e : Text × Nat} (h : e ∈ k.joined) :
    e ∈ (Readings.note o answer k).joined := by
  unfold Readings.note
  split
  · exact h
  · exact h
  · exact mem_cons_of_mem _ h
  · exact h

theorem ensures_fetchOnce :
    Ensures (service std timing) (Returns (Good std timing serverName))
      (n.fetchOnce serverName) k := by
  refine ensures_ask trivial fun (answer : Bool × Nat) _ => ?_
  obtain ⟨leads, flight⟩ := answer
  have hjoined : (serverName, flight) ∈
      (Readings.note (.flightJoin serverName) ((leads, flight) : Bool × Nat) k).joined :=
    mem_cons_self
  cases leads with
  | true =>
    refine ensures_bind (ensures_fetchAndStore.keep (Q := fun k => (serverName, flight) ∈ k.joined)
      hjoined fun _ _ _ _ => joined_keep) fun result k₁ ⟨hresult, hmem⟩ => ?_
    refine ensures_ask (fun r hr => ⟨serverName, hmem, hresult r hr⟩) fun _ hanswer => ?_
    exact ensures_pure fun r hr => good_keep hanswer (hresult r hr)
  | false =>
    refine ⟨trivial, fun (result : Except FetchError ServerKeysResponse) hanswer => ?_⟩
    cases result with
    | error e => exact returns_error
    | ok r => exact returns_ok ⟨hanswer.1 serverName hjoined, timing.waited hjoined hanswer.2⟩

/-- A response that was read before the clock, or is read after it, and is found current. -/
theorem good_checked (hholds : std.Holds serverName r) (hread : r.validUntilTS ∈ k.validUntil)
    (hcurrent : unixMilli k.now < r.validUntilTS) : Good std timing serverName r k :=
  ⟨hholds, timing.checked hread hcurrent⟩

theorem unixMilli_lt {ts : Int} (h : (now : Int) < ofMilli ts) : unixMilli now < ts :=
  Int.ediv_lt_of_lt_mul (by decide) h

theorem ensures_staleEntry (e : FetchError) :
    Ensures (service std timing) (Returns (Good std timing serverName))
      (staleEntry serverName e) k := by
  refine ensures_ask trivial fun (entry : Option CachedResponse) hentry => ?_
  cases entry with
  | none => exact ensures_pure returns_error
  | some expired =>
    refine ensures_ask trivial fun (now : Nat) _ => ensures_pure fun r hr => ?_
    split at hr
    · rename_i hcurrent
      obtain rfl := Except.ok.inj hr
      exact good_checked hentry.1 (mem_append_right _ mem_cons_self)
        (unixMilli_lt hcurrent)
    · cases hr

theorem ensures_getUncached (hnow : k.now = now) :
    Ensures (service std timing) (Returns (Good std timing serverName))
      (n.getUncached serverName now) k := by
  have hfetch : ∀ k, Ensures (service std timing) (Returns (Good std timing serverName))
      (Node.getUncached.fetch n serverName) k := by
    intro k
    refine ensures_bind ensures_fetchOnce fun result k₁ hresult => ?_
    cases result with
    | ok r => exact ensures_pure hresult
    | error e => exact ensures_staleEntry e
  refine ensures_ask trivial fun (answer : Except Unit (Option ServerKeysResponse)) hanswer => ?_
  cases answer with
  | error e => exact hfetch _
  | ok found =>
    cases found with
    | none => exact hfetch _
    | some stored =>
      show Ensures _ _ (if unixMilli now < stored.validUntilTS then _ else _) _
      split
      · rename_i hcurrent
        have hgood : Good std timing serverName stored
            (Readings.note (.databaseGet serverName)
              (Except.ok (some stored) : Except Unit (Option ServerKeysResponse)) k) :=
          good_checked hanswer.1 mem_cons_self (hnow.symm ▸ hcurrent)
        refine ensures_bind (ensures_storeInMemoryCache hgood) fun _ k₁ hgood => ?_
        exact ensures_pure (returns_ok hgood)
      · exact hfetch _

theorem ensures_getServerKeys :
    Ensures (service std timing) (Returns (Good std timing serverName))
      (n.getServerKeys serverName) k := by
  refine ensures_ask trivial fun (canceled : Bool) _ => ?_
  cases canceled with
  | true => exact ensures_pure returns_error
  | false =>
    refine ensures_ask trivial fun (now : Nat) _ => ?_
    refine ensures_ask trivial fun (entry : Option CachedResponse) hentry => ?_
    cases entry with
    | none => exact ensures_getUncached rfl
    | some cached =>
      show Ensures _ _ (if cacheEntryValid cached now then _ else _) _
      split
      · rename_i hvalid
        have hcurrent := (of_decide_eq_true hvalid).2
        exact ensures_pure (returns_ok
          (good_clone (good_checked hentry.1 mem_cons_self hcurrent)))
      · exact ensures_ask trivial fun _ _ => ensures_getUncached rfl

theorem ensures_getServerKeysWithCriteria (minValidUntil : Int) :
    Ensures (service std timing) (Returns (Good std timing serverName))
      (n.getServerKeysWithCriteria serverName minValidUntil) k := by
  refine ensures_bind ensures_getServerKeys fun result k₁ hresult => ?_
  cases result with
  | error e => exact ensures_pure returns_error
  | ok keys =>
    show Ensures _ _ (if 0 < minValidUntil ∧ keys.validUntilTS < minValidUntil then _ else _) _
    split
    · exact ensures_fetchAndStore
    · exact ensures_pure hresult

/-! ## Queries -/

/-- Every element is delivered and current. -/
def Deliverable (std : Standard jsonb n) (timing : Timing) (response : KeyQueryResponse)
    (k : Readings) : Prop :=
  ∀ d ∈ response.serverKeys, std.Delivers d ∧ timing.Current d.validUntilTS k

variable {response : KeyQueryResponse}

theorem deliverable_keep (hanswer : (service std timing).answers k o answer)
    (h : Deliverable std timing response k) :
    Deliverable std timing response ((service std timing).note o answer k) :=
  fun d hd => ⟨(h d hd).1, timing.keep hanswer.2 (h d hd).2⟩

/-- What `QueryKeys` does for one name. -/
inductive Outcome (serverName : Text) (response : KeyQueryResponse) : KeyQueryResponse → Prop
  | failed (failure : Failure) : Outcome serverName response (response.fail serverName failure)
  | served (d : ServerKeysResponse) (hname : d.serverName = serverName) :
      Outcome serverName response { response with serverKeys := response.serverKeys ++ [d] }

/-- What it does for one name after another. -/
inductive Progress : List Text → KeyQueryResponse → KeyQueryResponse → Prop
  | done (response : KeyQueryResponse) : Progress [] response response
  | step {serverName : Text} {rest : List Text} {response next last : KeyQueryResponse}
      (h : Outcome serverName response next) (hrest : Progress rest next last) :
      Progress (serverName :: rest) response last

/-- What `deliver` makes of a response that may be handed on. -/
theorem delivered_good {keys signed : ServerKeysResponse} (h : Good std timing serverName keys k)
    (hsigned : n.addNotarySignature (cloneServerKeysResponse keys) = some signed) :
    signed.serverName = serverName ∧ std.Delivers { signed with raw := n.finalRaw signed.raw } ∧
      timing.Current signed.validUntilTS k := by
  have hdeliver : n.deliver (fun _ => false) keys =
      some { signed with raw := n.finalRaw signed.raw } := by
    simp [Notary.deliver, hsigned]
  obtain ⟨message, hdelivered⟩ := delivered_of_deliver hdeliver
  have hname : signed.serverName = serverName :=
    (congrArg SignedFields.serverName hdelivered.fields).trans (std.named h.1)
  have hvalid : signed.validUntilTS = keys.validUntilTS :=
    congrArg SignedFields.validUntilTS hdelivered.fields
  refine ⟨hname, ⟨keys, ?_, hdeliver⟩, hvalid ▸ h.2⟩
  show std.Holds signed.serverName keys
  exact hname ▸ h.1

theorem ensures_queryServer (serverKeys : Map (Map KeyCriteria))
    (h : Deliverable std timing response k) :
    Ensures (service std timing)
      (fun next k' => Outcome serverName response next ∧ Deliverable std timing next k')
      (n.queryServer serverKeys serverName response) k := by
  refine ensures_bind
    ((ensures_getServerKeysWithCriteria _).keep (Q := Deliverable std timing response)
    h fun _ _ _ => deliverable_keep) fun result k₁ ⟨hresult, h⟩ => ?_
  cases result with
  | error err =>
    exact ensures_ask trivial fun _ hanswer =>
      ensures_pure ⟨.failed _, fun d hd => deliverable_keep hanswer h d hd⟩
  | ok keys =>
    dsimp only
    cases hsigned : n.addNotarySignature (cloneServerKeysResponse keys) with
    | none => exact ensures_pure ⟨.failed _, h⟩
    | some signed =>
      obtain ⟨hname, hdelivers, hcurrent⟩ := delivered_good (hresult keys rfl) hsigned
      refine ensures_ask trivial fun (violation : Option PolicyViolation) hpolicy => ?_
      have h := deliverable_keep hpolicy h
      cases violation with
      | some violation =>
        exact ensures_ask trivial fun _ hanswer =>
          ensures_pure ⟨.failed _, fun d hd => deliverable_keep hanswer h d hd⟩
      | none =>
        refine ensures_ask trivial fun _ hanswer => ensures_pure ⟨.served _ hname, fun d hd => ?_⟩
        rcases mem_append.1 hd with hd | hd
        · exact deliverable_keep hanswer h d hd
        · rw [mem_singleton.1 hd]
          exact ⟨hdelivers, timing.keep hanswer.2 (timing.keep hpolicy.2 hcurrent)⟩

theorem ensures_queryServers (serverKeys : Map (Map KeyCriteria)) (names : List Text) :
    ∀ {response : KeyQueryResponse} {k : Readings}, Deliverable std timing response k →
      Ensures (service std timing)
        (fun last k' => Progress names response last ∧ Deliverable std timing last k')
        (n.queryServers serverKeys names response) k := by
  induction names with
  | nil => exact fun h => ensures_pure ⟨.done _, h⟩
  | cons serverName rest ih =>
    intro response k h
    refine ensures_bind (ensures_queryServer serverKeys h) fun next k₁ ⟨houtcome, h⟩ => ?_
    exact (ih h).mono fun last k₂ ⟨hrest, h⟩ => ⟨.step houtcome hrest, h⟩

/-- The names that the trust policy denies get a failure and are left out of the request. -/
def Denied (names : List Text) (failures failures' : Map Failure)
    (serverKeys serverKeys' : Map (Map KeyCriteria)) : Prop :=
  ∃ denied : List Text, (∀ serverName ∈ denied, serverName ∈ names) ∧
    (∀ serverName, serverName ∈ failures'.map Prod.fst ↔
      serverName ∈ failures.map Prod.fst ∨ serverName ∈ denied) ∧
    serverKeys' = serverKeys.filter fun e => !denied.contains e.1

theorem ensures_applyTrustPolicyToRequest (names : List Text) :
    ∀ (failures : Map Failure) (serverKeys : Map (Map KeyCriteria)) (k : Readings),
      Ensures (service std timing)
        (fun result _ => Denied names failures result.1 serverKeys result.2)
        (applyTrustPolicyToRequest names failures serverKeys) k := by
  induction names with
  | nil =>
    intro failures serverKeys k
    exact ensures_pure ⟨[], forall_mem_nil _, by simp, by simp⟩
  | cons serverName rest ih =>
    intro failures serverKeys k
    refine ensures_ask trivial fun (violation : Option PolicyViolation) _ => ?_
    cases violation with
    | none =>
      refine (ih failures serverKeys _).mono fun result _ ⟨denied, hmem, hfailed, hleft⟩ => ?_
      exact ⟨denied, fun x hx => mem_cons_of_mem _ (hmem x hx), hfailed, hleft⟩
    | some violation =>
      refine (ih _ _ _).mono fun result _ ⟨denied, hmem, hfailed, hleft⟩ => ?_
      refine ⟨serverName :: denied, ?_, fun x => ?_, ?_⟩
      · exact forall_mem_cons.2
          ⟨mem_cons_self, fun x hx => mem_cons_of_mem _ (hmem x hx)⟩
      · rw [hfailed, mem_keys_insert, mem_cons]
        tauto
      · rw [hleft, erase, List.filter_filter]
        refine filter_congr fun e _ => ?_
        rw [Bool.eq_iff_iff]
        simp only [Bool.and_eq_true, decide_eq_true_eq, Bool.not_eq_true', contains_eq_mem,
          decide_eq_false_iff_not, mem_cons, not_or]
        exact and_comm

end Programs

/-! ## From the outcomes to the partition -/

variable {response : KeyQueryResponse}

/-- The names that are served are among the names in question, in their order, and the others fail.
-/
theorem Progress.outcome {names : List Text} {last : KeyQueryResponse}
    (h : Progress names response last) (hnodup : names.Nodup) :
    ∃ served : List Text, last.serverKeys.map (·.serverName) =
        response.serverKeys.map (·.serverName) ++ served ∧ served.Sublist names ∧
      ∀ serverName, serverName ∈ last.failed ↔
        serverName ∈ response.failed ∨ serverName ∈ names ∧ serverName ∉ served := by
  induction h with
  | done response => exact ⟨[], by simp, Sublist.slnil, by simp⟩
  | @step serverName rest response next last houtcome _ ih =>
    obtain ⟨hfresh, hnodup⟩ := nodup_cons.1 hnodup
    obtain ⟨served, hnames, hsub, hfailed⟩ := ih hnodup
    have hnot : serverName ∉ served := fun hmem => hfresh (hsub.subset hmem)
    cases houtcome with
    | failed failure =>
      refine ⟨served, hnames, hsub.cons _, fun x => ?_⟩
      have hfail : x ∈ (response.fail serverName failure).failed ↔
          x = serverName ∨ x ∈ response.failed := mem_keys_insert
      rw [hfailed, hfail, mem_cons]
      constructor
      · rintro ((rfl | hx) | ⟨hx, hs⟩)
        · exact .inr ⟨.inl rfl, hnot⟩
        · exact .inl hx
        · exact .inr ⟨.inr hx, hs⟩
      · rintro (hx | ⟨rfl | hx, hs⟩)
        · exact .inl (.inr hx)
        · exact .inl (.inl rfl)
        · exact .inr ⟨hx, hs⟩
    | served d hname =>
      refine ⟨serverName :: served, ?_, hsub.cons_cons _, fun x => ?_⟩
      · rw [hnames, ← hname]
        simp
      · rw [hfailed, mem_cons, mem_cons]
        show x ∈ response.failed ∨ _ ↔ _
        constructor
        · rintro (hx | ⟨hx, hs⟩)
          · exact .inl hx
          · refine .inr ⟨.inr hx, ?_⟩
            rintro (rfl | hmem)
            · exact hfresh hx
            · exact hs hmem
        · rintro (hx | ⟨rfl | hx, hs⟩)
          · exact .inl hx
          · exact absurd (.inl rfl) hs
          · exact .inr ⟨hx, fun hmem => hs (.inr hmem)⟩

theorem length_servedFor (serverName : Text) :
    (response.servedFor serverName).length =
      (response.serverKeys.map (·.serverName)).count serverName := by
  rw [KeyQueryResponse.servedFor, ← countP_eq_length_filter, count, countP_map]
  exact countP_congr fun d _ => by simp

theorem partition_of_progress {request : KeyQueryRequest} {failures : Map Failure}
    {serverKeys : Map (Map KeyCriteria)}
    (hdenied : Denied request.names [] failures request.serverKeys serverKeys)
    (h : Progress (sortedServerNames serverKeys) ⟨[], failures⟩ response) :
    Partition request response := by
  obtain ⟨denied, hmem, hfailures, rfl⟩ := hdenied
  have hsorted : ((request.serverKeys.filter fun e => !denied.contains e.1).map
      Prod.fst).Pairwise (· < ·) :=
    pairwise_map.2 (request.sorted.filter _)
  rw [sortedServerNames, Utf8.sortStrings_of_perm (Perm.refl _) hsorted] at h
  obtain ⟨served, hnames, hsub, hfailed⟩ := h.outcome (hsorted.imp ne_of_lt)
  rw [map_nil, nil_append] at hnames
  -- the names left after the policy are those of the request that it does not deny
  have hleft : ∀ x, x ∈ (request.serverKeys.filter fun e => !denied.contains e.1).map Prod.fst ↔
      x ∈ request.names ∧ x ∉ denied := by
    intro x
    simp [KeyQueryRequest.names]
  have hfailed : ∀ x, x ∈ response.failed ↔
      x ∈ denied ∨ (x ∈ request.names ∧ x ∉ denied) ∧ x ∉ served := by
    intro x
    have hdenied : x ∈ (⟨[], failures⟩ : KeyQueryResponse).failed ↔ x ∈ denied :=
      (hfailures x).trans (by simp)
    rw [hfailed, hdenied, hleft]
  have hserved : ∀ x ∈ served, x ∈ request.names ∧ x ∉ denied :=
    fun x hx => (hleft x).1 (hsub.subset hx)
  refine ⟨fun x hx => ?_, fun d hd => ?_, fun x hx => ?_, ?_⟩
  · by_cases hs : x ∈ served
    · refine .inl ⟨?_, fun hfail => ?_⟩
      · rw [length_servedFor, hnames]
        exact count_eq_one_of_mem ((hsorted.sublist hsub).imp ne_of_lt) hs
      · rcases (hfailed x).1 hfail with hd | ⟨-, hns⟩
        · exact (hserved x hs).2 hd
        · exact hns hs
    · refine .inr ⟨?_, (hfailed x).2 ?_⟩
      · rw [← length_eq_zero_iff, length_servedFor, hnames]
        exact count_eq_zero_of_not_mem hs
      · by_cases hd : x ∈ denied
        · exact .inl hd
        · exact .inr ⟨⟨hx, hd⟩, hs⟩
  · exact (hserved _ (hnames ▸ mem_map_of_mem hd)).1
  · rcases (hfailed x).1 hx with hd | ⟨⟨hx, -⟩, -⟩
    · exact hmem x hd
    · exact hx
  · have hincreasing := hnames ▸ hsorted.sublist hsub
    exact (pairwise_map.1 hincreasing).imp Utf8.encode_lt_iff.2

/-! ## Whole calls -/

section Calls

variable {scheme : Scheme} {jsonb : Json → Json} {n : Node scheme} {std : Standard jsonb n}
  {timing : Timing} {k : Readings} {serverName : Text} {payload : Bytes} {validUntilTS : Int}

theorem validateReplicated_ok {now : Int} {r : ServerKeysResponse}
    (h : n.validateReplicatedServerResponse now serverName payload validUntilTS = .ok r) :
    ∃ response, unmarshalResponse payload = some response ∧ response.serverName = serverName ∧
      verifySelfSignature scheme.verify n.fetcher.maxSignatures now response payload = .ok () ∧
      r = { response with raw := payload } := by
  unfold Node.validateReplicatedServerResponse at h
  split_ifs at h
  split at h
  · cases h
  · rename_i response hparse
    split_ifs at h with _ hname
    split at h
    · cases h
    · rename_i hself
      exact ⟨response, hparse, not_not.1 hname, hself, (Except.ok.inj h).symm⟩

theorem ensures_queryKeys (request : KeyQueryRequest) :
    Ensures (service std timing)
      (fun response k' => Partition request response ∧ Deliverable std timing response k')
      (n.queryKeys request) k := by
  refine ensures_bind (ensures_applyTrustPolicyToRequest request.names [] request.serverKeys k)
    fun result k₁ hdenied => ?_
  have hempty : Deliverable std timing ⟨[], result.1⟩ k₁ := forall_mem_nil _
  refine (ensures_queryServers result.2 (sortedServerNames result.2) hempty).mono ?_
  exact fun response k₂ ⟨hprogress, hdeliverable⟩ =>
    ⟨partition_of_progress hdenied hprogress, hdeliverable⟩

theorem ensures_applyReplicatedServerResponse (hpayload : std.Payload payload)
    (hread : ∀ response, unmarshalResponse payload = some response →
      response.validUntilTS ∈ k.validUntil) :
    Ensures (service std timing) (fun _ _ => True)
      (n.applyReplicatedServerResponse serverName payload validUntilTS) k := by
  refine ensures_ask trivial fun (now : Nat) _ => ?_
  cases hvalid : n.validateReplicatedServerResponse (unixMilli now) serverName payload
    validUntilTS with
  | error e => exact ensures_pure trivial
  | ok r =>
    obtain ⟨response, hparse, -, hself, rfl⟩ := validateReplicated_ok hvalid
    have hgood : Good std timing serverName { response with raw := payload }
        (Readings.note (.net .now) now k) :=
      good_checked (std.replicated hpayload hvalid)
        (mem_append_right _ (hread response hparse)) (verifySelfSignature_ok hself).current
    refine ensures_ask hgood fun (answer : Bool × Bool) hanswer => ?_
    obtain ⟨stored, written⟩ := answer
    cases stored with
    | false => exact ensures_pure trivial
    | true =>
      refine ensures_bind (ensures_storeInMemoryCache (good_clone (good_keep hanswer hgood))) ?_
      exact fun _ _ _ => ensures_pure trivial

/-- What is assumed of a call: a payload is as the standard asks. -/
def Standard.Call (std : Standard jsonb n) : Call → Prop
  | .applyReplicatedServerResponse _ payload _ => std.Payload payload
  | _ => True

/-- **Every call keeps to the contract.** -/
theorem ensures_start {call : Call} (h : std.Call call) (s : NotaryState) :
    (n.start s call).prog.Ensures (service std timing) (fun _ _ => True)
      (n.start s call).record := by
  cases call with
  | queryKeys request =>
    exact ensures_bind (ensures_queryKeys request) fun response k hresponse =>
      ⟨hresponse, fun _ _ => trivial⟩
  | applyReplicatedServerResponse serverName payload validUntilTS =>
    refine ensures_bind (ensures_applyReplicatedServerResponse h fun response hparse => ?_)
      fun _ _ _ => trivial
    simp [Node.start, hparse]
  | cleanup => exact ⟨trivial, fun _ _ => ⟨trivial, fun _ _ => trivial⟩⟩

end Calls

/-! ## The shared state -/

section State

variable {scheme : Scheme} {jsonb : Json → Json} {n : Node scheme} {std : Standard jsonb n}
  {timing : Timing} {s s' : NotaryState} {k : Readings}

/-- Everything that is shared, and everything that was returned, is of the standard. -/
structure NotaryState.Holds (std : Standard jsonb n) (s : NotaryState) : Prop where
  cache : ∀ e ∈ s.cache, std.Holds e.1 e.2.response
  database : ∀ e ∈ s.database, ∀ r, e.2.read jsonb = some r → std.Holds e.1 r
  flights : ∀ flight ∈ s.flights, ∀ r, flight.result = some (.ok r) → std.Holds flight.serverName r
  served : ∀ x ∈ s.served, Partition x.request x.response ∧
    ∀ d ∈ x.response.serverKeys, std.Delivers d

/-- The flights that a call has joined are those of the names it asked for. -/
def NotaryState.Joined (s : NotaryState) (k : Readings) : Prop :=
  ∀ e ∈ k.joined, (s.flights[e.2]?).map Flight.serverName = some e.1

variable {serverName : Text}

theorem databaseAnswer_some {proposed : Except Unit (Option ServerKeysResponse)}
    {r : ServerKeysResponse} (h : s.databaseAnswer jsonb serverName proposed = .ok (some r)) :
    ∃ row, get serverName s.database = some row ∧ row.read jsonb = some r := by
  unfold NotaryState.databaseAnswer at h
  split at h
  · split at h
    · cases h
    · rename_i row hget
      split at h
      · cases h
      · rename_i r' hread
        cases h
        exact ⟨row, hget, hread⟩
  · rename_i hproposed
    exact absurd h (hproposed r)

/-- **What an operation can do to the shared state.**  Entries, rows and results come from the
operation that puts them there, and flights keep their names. -/
structure Effect (o : NotaryOp) (s s' : NotaryState) : Prop where
  clock : s'.clock = s.clock
  cache : ∀ e ∈ s'.cache, e ∈ s.cache ∨ ∃ expiresAt, o = .cachePut e.1 e.2.response expiresAt
  database : ∀ e ∈ s'.database, e ∈ s.database ∨ ∃ r, o = .databasePut e.1 r ∧
    responseDocument r = some e.2.response ∧ e.2.rawResponse = r.raw
  flights : ∀ (i : Nat) f', s'.flights[i]? = some f' → s.flights[i]? = some f' ∨ f'.result = none ∨
    ∃ f result, o = .flightFinish i result ∧ s.flights[i]? = some f ∧
      f' = { f with result := some result }
  names : ∀ (i : Nat) serverName, (s.flights[i]?).map Flight.serverName = some serverName →
    (s'.flights[i]?).map Flight.serverName = some serverName
  served : ∀ x ∈ s'.served, x ∈ s.served ∨ ∃ request response, o = .respond request response ∧
    x = ⟨request, response, s.clock⟩

theorem Effect.unchanged (o : NotaryOp) (s : NotaryState) : Effect o s s :=
  ⟨rfl, fun _ h => .inl h, fun _ h => .inl h, fun _ _ h => .inl h, fun _ _ h => h,
    fun _ h => .inl h⟩

variable {o : NotaryOp}

/-- Entries are only taken out of the cache. -/
theorem Effect.ofCache {cache : Map CachedResponse} (h : ∀ e ∈ cache, e ∈ s.cache) :
    Effect o s { s with cache := cache } :=
  { Effect.unchanged o s with cache := fun e he => .inl (h e he) }

theorem Effect.join (serverName : Text) :
    Effect (.flightJoin serverName) s { s with flights := s.flights ++ [⟨serverName, none⟩] } := by
  refine { Effect.unchanged _ s with flights := fun i f' h => ?_, names := fun i name h => ?_ }
  · rw [getElem?_append] at h
    split at h
    · exact .inl h
    · exact .inr (.inl (mem_singleton.1 (mem_of_getElem? h) ▸ rfl))
  · obtain ⟨f, hf, -⟩ := map_eq_some_iff.1 h
    show Option.map _ (s.flights ++ _)[i]? = _
    rw [getElem?_append_left (List.getElem?_eq_some_iff.1 hf).1]
    exact h

theorem Effect.finish (flight : Nat) (result : Except FetchError ServerKeysResponse) :
    Effect (.flightFinish flight result) s
      { s with flights := s.flights.modify flight fun f => { f with result := some result } } := by
  refine { Effect.unchanged _ s with flights := fun i f' h => ?_, names := fun i name h => ?_ }
  · rw [getElem?_modify] at h
    obtain ⟨f, hf, hf'⟩ := map_eq_some_iff.1 h
    split at hf'
    · rename_i hi
      exact .inr (.inr ⟨f, result, hi ▸ rfl, hf, hf'.symm⟩)
    · exact .inl (hf.trans (congrArg some hf'))
  · show Option.map _ (s.flights.modify flight _)[i]? = _
    obtain ⟨f, hf, hname⟩ := map_eq_some_iff.1 h
    rw [getElem?_modify, hf]
    show some _ = some _
    rw [← hname]
    split <;> rfl

theorem handle_effect {answer proposed : o.Answer}
    (h : s.handle jsonb o proposed = some (answer, s')) : Effect o s s' := by
  cases o with
  | cacheEvict serverName cached now =>
    unfold NotaryState.handle at h
    dsimp only at h
    split at h
    · split at h
      · cases h
        exact Effect.ofCache fun e he => (mem_erase.1 he).1
      · cases h
        exact Effect.unchanged _ _
    · cases h
      exact Effect.unchanged _ _
  | cachePut serverName response expiresAt =>
    cases h
    refine { Effect.unchanged _ s with cache := fun e he => ?_ }
    rcases mem_insert he with rfl | he
    · exact .inr ⟨expiresAt, rfl⟩
    · exact .inl he
  | cacheDelete serverName =>
    cases h
    exact Effect.ofCache fun e he => (mem_erase.1 he).1
  | cacheSweep =>
    cases h
    exact Effect.ofCache fun e he => (mem_filter.1 he).1
  | databasePut serverName response =>
    obtain ⟨reported, written⟩ := proposed
    unfold NotaryState.handle at h
    dsimp only at h
    split at h
    · cases h
      exact Effect.unchanged _ _
    · rename_i document hdocument
      split at h
      · cases h
        refine { Effect.unchanged _ s with database := fun e he => ?_ }
        rcases mem_insert he with rfl | he
        · exact .inr ⟨response, rfl, hdocument, rfl⟩
        · exact .inl he
      · cases h
        exact Effect.unchanged _ _
  | databaseDeleteExpired =>
    cases h
    exact { Effect.unchanged _ s with database := fun e he => .inl (mem_filter.1 he).1 }
  | flightJoin serverName =>
    unfold NotaryState.handle at h
    dsimp only at h
    split at h
    · cases h
      exact Effect.unchanged _ _
    · cases h
      exact Effect.join serverName
  | flightFinish flight result =>
    cases h
    exact Effect.finish flight result
  | flightWait flight =>
    obtain ⟨result, -, h⟩ := map_eq_some_iff.1 h
    cases h
    exact Effect.unchanged _ _
  | respond request response =>
    cases h
    refine { Effect.unchanged _ s with served := fun x hx => ?_ }
    rcases mem_append.1 hx with hx | hx
    · exact .inl hx
    · exact .inr ⟨request, response, rfl, mem_singleton.1 hx⟩
  | net o | checkServer serverName | checkResponse serverName resp | transparency event
  | cacheGet serverName | databaseGet serverName | broadcast serverName payload validUntilTS =>
    cases h
    exact Effect.unchanged _ _

/-- A call joins a flight of its name that has not ended. -/
theorem handle_join {leads : Bool} {flight : Nat} {proposed : Bool × Nat}
    (h : s.handle jsonb (.flightJoin serverName) proposed = some ((leads, flight), s')) :
    s'.flights[flight]? = some ⟨serverName, none⟩ := by
  unfold NotaryState.handle at h
  dsimp only at h
  split at h
  · rename_i running hrunning
    obtain ⟨hanswer, rfl⟩ := Prod.mk.inj (some.inj h)
    cases hanswer
    obtain ⟨hlt, hmatch, -⟩ := findIdx?_eq_some_iff_getElem.1 hrunning
    obtain ⟨hname, hnone⟩ := of_decide_eq_true hmatch
    rw [getElem?_eq_getElem hlt]
    exact congrArg some (Flight.ext hname (isNone_iff_eq_none.1 hnone))
  · obtain ⟨hanswer, rfl⟩ := Prod.mk.inj (some.inj h)
    cases hanswer
    exact getElem?_concat_length

/-- The answers of the cache, the database and the flights are of the standard. -/
theorem handle_answer {answer : o.Answer} {env : (o : NotaryOp) → o.Answer}
    (h : s.handle jsonb o (env o) = some (answer, s')) (hs : s.Holds std) (hk : s.Joined k)
    (hreply : ∀ site reply, env (.net (.exchange site)) = Except.ok reply → std.Reply site reply) :
    std.Answer k o answer := by
  cases o with
  | net o =>
    cases h
    cases o with
    | exchange site =>
      show std.Answer k (.net (.exchange site)) (env (.net (.exchange site)))
      cases hanswer : env (.net (.exchange site)) with
      | error e => trivial
      | ok reply => exact hreply site reply hanswer
    | _ => trivial
  | cacheGet serverName =>
    cases h
    show std.Answer k (.cacheGet serverName) (get serverName s.cache)
    cases hget : get serverName s.cache with
    | none => trivial
    | some cached => exact hs.cache _ (mem_of_get hget)
  | databaseGet serverName =>
    cases h
    cases hanswer : s.databaseAnswer jsonb serverName (env (.databaseGet serverName)) with
    | error e => trivial
    | ok found =>
      cases found with
      | none => trivial
      | some r =>
        obtain ⟨row, hget, hread⟩ := databaseAnswer_some hanswer
        exact hs.database _ (mem_of_get hget) r hread
  | flightWait flight =>
    obtain ⟨result, hresult, h⟩ := map_eq_some_iff.1 h
    obtain ⟨rfl, -⟩ := Prod.mk.inj h
    obtain ⟨f, hf, hresult⟩ := bind_eq_some_iff.1 hresult
    cases result with
    | error e => trivial
    | ok r =>
      intro serverName hjoined
      have hname : (s.flights[flight]?).map Flight.serverName = some serverName := hk _ hjoined
      rw [hf] at hname
      exact some.inj hname ▸ hs.flights f (mem_of_getElem? hf) r hresult
  | _ => trivial

theorem Effect.holds (h : Effect o s s') (hs : s.Holds std) (hk : s.Joined k)
    (hasks : Asks std timing k o) : s'.Holds std where
  cache e he := by
    rcases h.cache e he with he | ⟨expiresAt, rfl⟩
    · exact hs.cache e he
    · exact hasks.1
  database e he r hread := by
    rcases h.database e he with he | ⟨stored, rfl, hdocument, hraw⟩
    · exact hs.database e he r hread
    · exact std.stored hasks.1 hdocument (hraw ▸ hread)
  flights f' hf' r hr := by
    obtain ⟨i, hi⟩ := mem_iff_getElem?.1 hf'
    rcases h.flights i f' hi with hi | hnone | ⟨f, result, rfl, hf, rfl⟩
    · exact hs.flights f' (mem_of_getElem? hi) r hr
    · rw [hnone] at hr
      cases hr
    · obtain ⟨serverName, hjoined, hgood⟩ := hasks r (some.inj hr)
      have hname := hk _ hjoined
      rw [hf] at hname
      exact (some.inj hname).symm ▸ hgood.1
  served x hx := by
    rcases h.served x hx with hx | ⟨request, response, rfl, rfl⟩
    · exact hs.served x hx
    · exact ⟨hasks.1, fun d hd => (hasks.2 d hd).1⟩

theorem Effect.joined (h : Effect o s s') (hk : s.Joined k) : s'.Joined k :=
  fun e he => h.names _ _ (hk e he)

theorem handle_joined {answer proposed : o.Answer}
    (h : s.handle jsonb o proposed = some (answer, s')) (hk : s.Joined k) :
    s'.Joined (Readings.note o answer k) := by
  have hold := (handle_effect h).joined hk
  unfold Readings.note
  split
  · exact hold
  · exact hold
  · refine forall_mem_cons.2 ⟨?_, hold⟩
    rw [handle_join h]
    rfl
  · exact hold

end State

end MxKeys.Keys
