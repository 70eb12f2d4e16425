/-
# MxKeys.Keys.Authentic — the keys that are served are those of their server.

What `QueryKeys` returns for a name comes from the memory cache, the database, the server itself, a
fallback notary or another node of the cluster.  `served_authentic`: in every run, every element has
the signature of its server over the bytes that are delivered, and has not expired when it is
returned, under these conditions.

* A fallback notary sends responses that would be accepted from their servers as well, and that have
  not expired.  The source does not check this: `fetchFromNotary` verifies the signature of the
  notary and nothing else, and `unsigned_served` is a response without any signature of its server,
  served on the word of a fallback notary.
* The bytes of a server or of a peer are unambiguous: the struct and the object that is delivered
  are read from them by different rules.
* The clock does not go back, and while a call is in progress it does not pass the `valid_until_ts`
  of a response that is cached or stored, or that the call has read: the source compares it with the
  clock once, and returns the response later.
* The name is not the notary's own: the notary's signature takes the place of the server's.
-/
import MxKeys.Keys.Origin
import MxKeys.Keys.Partition

namespace MxKeys.Keys

open MxKeys.Lib
open List Option

/-- What is read back from the column of an unambiguous document is what the document decodes to.
Of other documents JSONB may keep other members, and in another order. -/
def Faithful (jsonb : Json → Json) : Prop :=
  ∀ j r r', ClearFields j → Json.Plain j.members "signatures".toList →
    decodeResponse j = some r → decodeResponse (jsonb j) = some r' → r' = r

/-! ## What is read back from JSONB -/

section Postgres

variable {α : Type} {v : Json}

/-- A map of elements that are read back is read back. -/
theorem decodeMap_postgres {element : Json → Option α} {names : List Text} {m m' : Map α}
    (hclear : ClearEntries names v)
    (hel : ∀ v k k', (∀ n ∈ names, Json.Plain v.members n) → element v = some k →
      element (postgres v) = some k' → k' = k)
    (h : Json.decodeMap element [] v = some m)
    (h' : Json.decodeMap element [] (postgres v) = some m') : m' = m := by
  cases v with
  | null => exact some.inj (h'.symm.trans h)
  | obj members =>
    rw [postgres_obj] at h'
    exact Json.decodeMap_rewritten (perm_insertionSort _ _)
      (fun e he w w' => hel e.2 w w' (hclear e he)) h h'
  | _ => cases h

theorem verifyKey_postgres {k k' : VerifyKeyResponse}
    (hclear : ∀ n ∈ ["key".toList], Json.Plain v.members n) (h : decodeVerifyKey v = some k)
    (h' : decodeVerifyKey (postgres v) = some k') : k' = k := by
  have hplain := fun n hn => plain_postgres (hclear n hn)
  have hkey := verifyKey_part (fun n hn => (hplain n hn).1) h'
  rw [(hplain _ mem_cons_self).2, decodeString_postgres, verifyKey_part hclear h] at hkey
  exact congrArg VerifyKeyResponse.mk (some.inj hkey).symm

theorem oldKey_postgres {k k' : OldKeyResponse}
    (hclear : ∀ n ∈ ["key".toList, "expired_ts".toList], Json.Plain v.members n)
    (h : decodeOldKey v = some k) (h' : decodeOldKey (postgres v) = some k') : k' = k := by
  have hplain := fun n hn => plain_postgres (hclear n hn)
  obtain ⟨hkey, hexpired⟩ := oldKey_parts hclear h
  obtain ⟨hkey', hexpired'⟩ := oldKey_parts (fun n hn => (hplain n hn).1) h'
  rw [(hplain _ mem_cons_self).2, decodeString_postgres, hkey] at hkey'
  rw [(hplain _ (mem_cons_of_mem _ mem_cons_self)).2, decodeInt_postgres, hexpired] at hexpired'
  exact congrArg₂ OldKeyResponse.mk (some.inj hkey').symm (some.inj hexpired').symm

theorem clearEntries_nil (j : Json) : ClearEntries [] j := fun _ _ _ h => nomatch h

theorem signatures_postgres {sigs sigs' : Option (Map (Map Text))}
    (h : decodeSignatures none v = some sigs)
    (h' : decodeSignatures none (postgres v) = some sigs') : sigs' = sigs := by
  cases v with
  | obj members =>
    obtain ⟨m, hm, rfl⟩ := map_eq_some_iff.1 h
    rw [postgres_obj] at h'
    obtain ⟨m', hm', rfl⟩ := map_eq_some_iff.1 h'
    rw [Option.getD_none, ← postgres_obj] at hm'
    refine congrArg some
      (decodeMap_postgres (clearEntries_nil _) (fun w k k' _ hk hk' => ?_) hm hm')
    refine decodeMap_postgres (clearEntries_nil w) (fun t s s' _ hs hs' => ?_) hk hk'
    rw [decodeString_postgres, hs] at hs'
    exact (some.inj hs').symm
  | _ => exact some.inj (h'.symm.trans h)

/-- **JSONB is faithful**: it sorts the members of an object and keeps the last one of a name. -/
theorem faithful_postgres : Faithful postgres := by
  intro j r r' hclear hsignatures h h'
  obtain ⟨hname, hkeys, hold, huntil, -⟩ := by
    simpa only [signedNames, forall_mem_cons] using hclear.top
  obtain ⟨hname', hlookup⟩ := plain_postgres hname
  have hserver := serverName_part h' hname'
  rw [hlookup, decodeString_postgres, serverName_part h hname] at hserver
  obtain ⟨huntil', hlookup⟩ := plain_postgres huntil
  have htime := validUntilTS_part h' huntil'
  rw [hlookup, decodeInt_postgres, validUntilTS_part h huntil] at htime
  obtain ⟨hkeys', hlookup⟩ := plain_postgres hkeys
  have hverify := decodeMap_postgres hclear.keys (fun _ _ _ => verifyKey_postgres)
    (verifyKeys_part h hkeys) (hlookup ▸ verifyKeys_part h' hkeys')
  obtain ⟨hold', hlookup⟩ := plain_postgres hold
  have hexpired := decodeMap_postgres hclear.oldKeys (fun _ _ _ => oldKey_postgres)
    (oldVerifyKeys_part h hold) (hlookup ▸ oldVerifyKeys_part h' hold')
  obtain ⟨hsigs', hlookup⟩ := plain_postgres hsignatures
  have hsigs := signatures_postgres (signatures_part h hsignatures)
    (hlookup ▸ signatures_part h' hsigs')
  have hraw : r'.raw = r.raw := (raw_decodeStruct rfl h').trans (raw_decodeStruct rfl h).symm
  cases r
  cases r'
  rw [ServerKeysResponse.mk.injEq]
  exact ⟨(some.inj hserver).symm, hverify, hexpired, (some.inj htime).symm, hsigs, hraw⟩

end Postgres

/-! ## Genuine responses -/

/-- A response as the notary may hold it for a name: signed by its origin, and read back from what
is stored of it. -/
structure Genuine (verify : Bytes → Bytes → Bytes → Bool) (serverName : Text)
    (r : ServerKeysResponse) : Prop where
  name : r.serverName = serverName
  proper : r.Proper
  signatures : r.signatures.getD [] ≠ []
  clear : ∀ document, responseDocument r = some document →
    ClearFields document ∧ Json.Plain document.members "signatures".toList
  decoded : ∀ document, responseDocument r = some document →
    decodeResponse document = some { r with raw := [] }
  signed : OriginSigned verify r (marshalJSON r)

section Genuine

variable {verify : Bytes → Bytes → Bytes → Bool} {maxSignatures now : Int}
  {serverName : Text} {r : ServerKeysResponse}

/-- The copy of a response with signatures is the response. -/
theorem clone_of_signatures (h : r.signatures.getD [] ≠ []) : cloneServerKeysResponse r = r := by
  rw [cloneServerKeysResponse, if_neg h]

/-- Accepted over the bytes that are kept. -/
theorem genuine_of_raw {raw : Bytes} (hparse : unmarshalResponse raw = some r)
    (hself : verifySelfSignature verify maxSignatures now r raw = .ok ())
    (hclear : Unambiguous raw) :
    Genuine verify r.serverName { r with raw := raw } := by
  obtain ⟨hsigned, hsigs⟩ := originSigned_of_verify hparse hself hclear
  obtain ⟨j, hj, hr⟩ := bind_eq_some_iff.1 hparse
  have hraw : raw ≠ [] := by
    obtain ⟨obj, -, -, -, -, hobj, -⟩ := hsigned
    exact ne_nil_of_decode hobj
  have hproper := proper_of_decode hr
  have hdocument : responseDocument { r with raw := raw } = some j := by
    rw [responseDocument, if_pos hraw, hj]
  refine ⟨rfl, ⟨hproper.verifyKeys, hproper.oldVerifyKeys, hproper.signatures⟩, hsigs,
    fun document h => ?_, fun document h => ?_, ?_⟩
  · cases hdocument.symm.trans h
    exact ⟨hclear.fields j hj, hclear.signatures j hj⟩
  · cases hdocument.symm.trans h
    rw [hr, show r = { r with raw := [] } by rw [← raw_decodeStruct rfl hr]]
  · rw [show marshalJSON { r with raw := raw } = raw from if_pos hraw]
    exact hsigned.congr rfl

/-- A struct that would be accepted from its server if that sent it as it is written. -/
def Acceptable (verify : Bytes → Bytes → Bytes → Bool) (maxSignatures : Int)
    (r : ServerKeysResponse) : Prop :=
  ∃ now, acceptDirect verify maxSignatures now r.serverName (marshalJSON r) =
    .ok { r with raw := marshalJSON r }

theorem genuine_of_struct (hraw : r.raw = []) (h : Acceptable verify maxSignatures r) :
    Genuine verify r.serverName r := by
  obtain ⟨now, h⟩ := h
  obtain ⟨keysResp, hparse, -, hself, hsame⟩ := acceptDirect_ok h
  obtain ⟨j, hj, hr⟩ := bind_eq_some_iff.1 hparse
  obtain rfl : keysResp = r := by
    have hempty := raw_decodeStruct rfl hr
    obtain ⟨_, _, _, _, _, raw⟩ := keysResp
    obtain ⟨_, _, _, _, _, raw'⟩ := r
    obtain rfl : raw = [] := hempty
    obtain rfl : raw' = [] := hraw
    cases hsame
    rfl
  have hclear := unambiguous_struct hraw
  obtain ⟨hsigned, hsigs⟩ := originSigned_of_verify hparse hself hclear
  have hdocument : responseDocument keysResp = some j := by
    rw [← hj, responseDocument, if_neg (not_not.2 hraw), marshalJSON, if_neg (not_not.2 hraw),
      parse_structMembers]
  refine ⟨rfl, proper_of_decode hr, hsigs, fun document h => ?_, fun document h => ?_, hsigned⟩
  · cases hdocument.symm.trans h
    exact ⟨hclear.fields j hj, hclear.signatures j hj⟩
  · cases hdocument.symm.trans h
    rw [hr, ← hraw]

/-- What is stored of a genuine response is the response. -/
theorem genuine_stored {jsonb : Json → Json} (hjsonb : Faithful jsonb) {r' : ServerKeysResponse}
    {document : Json} (h : Genuine verify serverName r)
    (hdocument : responseDocument r = some document)
    (hread : ResponseRow.read jsonb ⟨document, r.raw⟩ = some r') : r' = r := by
  obtain ⟨decoded, hdecoded, rfl⟩ := map_eq_some_iff.1 hread
  obtain ⟨hfields, hsignatures⟩ := h.clear document hdocument
  cases hjsonb _ _ _ hfields hsignatures (h.decoded document hdocument) hdecoded
  split
  · rfl
  · rename_i hraw
    rw [← not_not.1 hraw]

end Genuine

section Conditions

variable {scheme : Scheme}

/-- What is assumed of replies: those of servers are unambiguous, and the responses of notaries
would be accepted from their servers. -/
def Honest (n : Node scheme) (reply : HttpReply) : Site → Prop
  | .direct => ∀ body, reply.body = .ok body → Unambiguous body
  | .notary => ∀ r ∈ reply.responses .notary,
      Acceptable scheme.verify n.fetcher.maxSignatures r
  | .wellKnown => True

theorem responses_notary {reply : HttpReply} {body : Bytes} (hbody : reply.body = .ok body)
    {serverKeys : List ServerKeysResponse} (hparse : unmarshalKeyQuery body = some serverKeys) :
    reply.responses .notary = serverKeys := by
  simp [HttpReply.responses, hbody, Except.toOption, hparse]

/-- Responses are genuine. -/
def genuineness {jsonb : Json → Json} (hjsonb : Faithful jsonb) (n : Node scheme) :
    Standard jsonb n where
  Holds := Genuine scheme.verify
  Reply site reply := Honest n reply site
  Payload := Unambiguous
  named h := h.name
  cloned h := by rwa [clone_of_signatures h.signatures]
  direct hreply hbody h := by
    obtain ⟨keysResp, hparse, rfl, hself, rfl⟩ := acceptDirect_ok h
    exact genuine_of_raw hparse hself (hreply _ hbody)
  notary hreply hbody h := by
    obtain ⟨rfl, ⟨serverKeys, hparse, hmem⟩, -⟩ := acceptNotary_ok h
    rw [← responses_notary hbody hparse] at hmem
    refine genuine_of_struct (raw_of_notary hparse _ ?_) (hreply _ hmem)
    rwa [responses_notary hbody hparse] at hmem
  replicated hpayload h := by
    obtain ⟨response, hparse, rfl, hself, rfl⟩ := validateReplicated_ok h
    exact genuine_of_raw hparse hself hpayload
  stored h hdocument hread := genuine_stored hjsonb h hdocument hread ▸ h

end Conditions

/-! ## The clock -/

theorem unixMilli_mono {t t' : Nat} (h : t ≤ t') : unixMilli t ≤ unixMilli t' :=
  Int.ediv_le_ediv (by decide) (Int.ofNat_le.2 h)

/-- Compared with the last reading of the clock. -/
def CurrentAt (validUntilTS : Int) (k : Readings) : Prop :=
  validUntilTS ∈ k.validUntil ∧ unixMilli k.now < validUntilTS

/-- What answers say about time: what was current stays so when the clock is read again, and what
flights and fallback notaries bring is current. -/
def TimelyAnswer (k : Readings) : (o : NotaryOp) → o.Answer → Prop
  | .net .now, (now : Nat) =>
    ∀ validUntilTS ∈ k.validUntil, unixMilli k.now < validUntilTS → unixMilli now < validUntilTS
  | .net (.exchange .notary), (.ok reply : Except Bool HttpReply) =>
    ∀ r ∈ reply.responses .notary, unixMilli k.now < r.validUntilTS
  | .flightWait flight, (.ok r : Except FetchError ServerKeysResponse) =>
    ∀ serverName, (serverName, flight) ∈ k.joined → unixMilli k.now < r.validUntilTS
  | _, _ => True

/-- Documents are taken while they are valid by the clock. -/
def onTime : Timing where
  Current := CurrentAt
  Answer := TimelyAnswer
  keep {k o answer validUntilTS} hanswer h := by
    unfold Readings.note
    split
    · exact ⟨mem_append_right _ h.1, hanswer _ h.1 h.2⟩
    · exact h
    · exact h
    · exact ⟨mem_append_right _ h.1, h.2⟩
  checked hmem hcurrent := ⟨hmem, hcurrent⟩
  waited hjoined hanswer := ⟨mem_cons_self, hanswer _ hjoined⟩
  notary hanswer hmem := ⟨mem_append_left _ (mem_map_of_mem hmem), hanswer _ hmem⟩

section Known

variable {jsonb : Json → Json} {s s' : NotaryState} {k : Readings} {validUntilTS : Int}

/-- The `valid_until_ts` of a response that is shared. -/
inductive Known (jsonb : Json → Json) (s : NotaryState) : Int → Prop
  | cached {e : Text × CachedResponse} (h : e ∈ s.cache) : Known jsonb s e.2.response.validUntilTS
  | stored {e : Text × ResponseRow} {r : ServerKeysResponse} (h : e ∈ s.database)
      (hread : e.2.read jsonb = some r) : Known jsonb s r.validUntilTS
  | flown {f : Flight} {r : ServerKeysResponse} (h : f ∈ s.flights)
    (hresult : f.result = some (.ok r)) :
      Known jsonb s r.validUntilTS

theorem known_tick {clock : Nat} (h : Known jsonb { s with clock := clock } validUntilTS) :
    Known jsonb s validUntilTS := by
  cases h with
  | cached he => exact .cached he
  | stored he hread => exact .stored he hread
  | flown hf hresult => exact .flown hf hresult

/-- What a call has found current is current, by the clock itself. -/
structure Timely (jsonb : Json → Json) (s : NotaryState) (k : Readings) : Prop where
  now_le : k.now ≤ s.clock
  current : ∀ validUntilTS, validUntilTS ∈ k.validUntil ∨ Known jsonb s validUntilTS →
    unixMilli k.now < validUntilTS → unixMilli s.clock < validUntilTS
  joined : ∀ e ∈ k.joined, ∀ f r, s.flights[e.2]? = some f → f.result = some (.ok r) →
    unixMilli k.now < r.validUntilTS

theorem Timely.of_current (h : Timely jsonb s k) (hcurrent : CurrentAt validUntilTS k) :
    unixMilli s.clock < validUntilTS := h.current _ (.inl hcurrent.1) hcurrent.2

end Known

section Steps

variable {scheme : Scheme} {jsonb : Json → Json} {hjsonb : Faithful jsonb} {n : Node scheme}
  {s s' : NotaryState} {k : Readings} {o : NotaryOp}

/-- What an operation makes known is current. -/
theorem Effect.known (h : Effect o s s') (hasks : Asks (genuineness hjsonb n) onTime k o)
    (hk : Timely jsonb s k) {validUntilTS : Int} (hknown : Known jsonb s' validUntilTS) :
    Known jsonb s validUntilTS ∨ unixMilli s.clock < validUntilTS := by
  cases hknown with
  | @cached e he =>
    rcases h.cache e he with he | ⟨expiresAt, rfl⟩
    · exact .inl (.cached he)
    · exact .inr (hk.of_current hasks.2)
  | @stored e r he hread =>
    rcases h.database e he with he | ⟨r₀, rfl, hdocument, hraw⟩
    · exact .inl (.stored he hread)
    · rw [show e.2 = ⟨e.2.response, r₀.raw⟩ by rw [← hraw]] at hread
      rw [genuine_stored hjsonb hasks.1 hdocument hread]
      exact .inr (hk.of_current hasks.2)
  | @flown f' r hf' hresult =>
    obtain ⟨i, hi⟩ := mem_iff_getElem?.1 hf'
    rcases h.flights i f' hi with hi | hnone | ⟨f, result, rfl, hf, rfl⟩
    · exact .inl (.flown (mem_of_getElem? hi) hresult)
    · rw [hnone] at hresult
      cases hresult
    · obtain ⟨_, _, hgood⟩ := hasks r (some.inj hresult)
      exact .inr (hk.of_current hgood.2)

/-- An operation keeps what is known to be current, for every call. -/
theorem Effect.timely (h : Effect o s s') (hasks : Asks (genuineness hjsonb n) onTime k o)
    (hk : Timely jsonb s k) {k' : Readings} (hk' : Timely jsonb s k') : Timely jsonb s' k' where
  now_le := h.clock ▸ hk'.now_le
  current validUntilTS hmem hcurrent := by
    rw [h.clock]
    rcases hmem with hmem | hknown
    · exact hk'.current _ (.inl hmem) hcurrent
    · rcases h.known hasks hk hknown with hknown | hclock
      · exact hk'.current _ (.inr hknown) hcurrent
      · exact hclock
  joined e he f' r hf' hresult := by
    rcases h.flights e.2 f' hf' with hf | hnone | ⟨f, result, rfl, hf, rfl⟩
    · exact hk'.joined e he f' r hf hresult
    · rw [hnone] at hresult
      cases hresult
    · obtain ⟨_, _, hgood⟩ := hasks r (some.inj hresult)
      exact (unixMilli_mono hk'.now_le).trans_lt (hk.of_current hgood.2)

/-- The responses of fallback notaries have not expired when they arrive. -/
def Unexpired (clock : Nat) (env : (o : NotaryOp) → o.Answer) : Prop :=
  ∀ reply, env (.net (.exchange .notary)) = Except.ok reply →
    ∀ r ∈ reply.responses .notary, unixMilli clock < r.validUntilTS

variable {env : (o : NotaryOp) → o.Answer}

section Handle

variable {answer : o.Answer} (h : s.handle jsonb o (env o) = some (answer, s'))
  (henv : Unexpired s.clock env)
include h henv

/-- What an answer brings is known, or has just arrived and is current. -/
theorem handle_brings {r : ServerKeysResponse} (hr : r ∈ o.brings answer) :
    Known jsonb s r.validUntilTS ∨ unixMilli s.clock < r.validUntilTS := by
  unfold NotaryOp.brings at hr
  split at hr
  · rename_i reply
    obtain ⟨hanswer, -⟩ := Prod.mk.inj (some.inj h)
    exact .inr (henv reply hanswer r hr)
  · rename_i serverName cached
    obtain ⟨hanswer, -⟩ := Prod.mk.inj (some.inj h)
    obtain rfl := mem_singleton.1 hr
    exact .inl (.cached (Assoc.mem_of_get hanswer))
  · rename_i serverName stored
    obtain ⟨hanswer, -⟩ := Prod.mk.inj (some.inj h)
    obtain ⟨row, hget, hread⟩ := databaseAnswer_some hanswer
    obtain rfl := mem_singleton.1 hr
    exact .inl (.stored (Assoc.mem_of_get hget) hread)
  · rename_i flight result
    obtain ⟨_, hresult, h⟩ := map_eq_some_iff.1 h
    cases h
    obtain ⟨f, hf, hresult⟩ := bind_eq_some_iff.1 hresult
    obtain rfl := mem_singleton.1 hr
    exact .inl (.flown (mem_of_getElem? hf) hresult)
  · cases hr

theorem handle_timelyAnswer (hk : Timely jsonb s k) : TimelyAnswer k o answer := by
  unfold TimelyAnswer
  split
  · cases h
    exact fun validUntilTS hmem => hk.current _ (.inl hmem)
  · rename_i reply
    obtain ⟨hanswer, -⟩ := Prod.mk.inj (some.inj h)
    exact fun r hr => (unixMilli_mono hk.now_le).trans_lt (henv reply hanswer r hr)
  · rename_i flight r
    obtain ⟨_, hresult, h⟩ := map_eq_some_iff.1 h
    cases h
    obtain ⟨f, hf, hresult⟩ := bind_eq_some_iff.1 hresult
    exact fun serverName hjoined => hk.joined _ hjoined f r hf hresult
  · trivial

/-- The record of the call that was answered. -/
theorem handle_timely (hasks : Asks (genuineness hjsonb n) onTime k o)
    (hk : Timely jsonb s k) : Timely jsonb s' (Readings.note o answer k) := by
  have heffect := handle_effect h
  have hold := heffect.timely hasks hk hk
  unfold Readings.note
  split
  · -- the clock was read: what is known of flights is current by it
    cases h
    refine ⟨le_rfl, fun _ _ hcurrent => hcurrent, fun e he f r hf hresult => ?_⟩
    exact hk.current _ (.inr (.flown (mem_of_getElem? hf) hresult)) (hk.joined e he f r hf hresult)
  · exact ⟨hold.now_le, hold.current, hold.joined⟩
  · refine ⟨hold.now_le, hold.current, forall_mem_cons.2 ⟨fun f r hf hresult => ?_, hold.joined⟩⟩
    -- a flight that is joined has no result yet
    rw [handle_join h] at hf
    cases hf
    cases hresult
  · refine ⟨hold.now_le, fun validUntilTS hmem hcurrent => ?_, hold.joined⟩
    rcases hmem with hmem | hknown
    · rcases mem_append.1 hmem with hmem | hmem
      · obtain ⟨r, hr, rfl⟩ := mem_map.1 hmem
        rw [heffect.clock]
        rcases handle_brings h henv hr with hknown | hclock
        · exact hk.current _ (.inr hknown) hcurrent
        · exact hclock
      · exact hold.current _ (.inl hmem) hcurrent
    · exact hold.current _ (.inr hknown) hcurrent

end Handle

end Steps

/-! ## Runs -/

section Runs

variable {scheme : Scheme} {jsonb : Json → Json}

/-- The `valid_until_ts` of a response that is in use: a call is in progress, and the response is
shared or the call has read it. -/
def InUse (jsonb : Json → Json) (m : NotaryMachine) (validUntilTS : Int) : Prop :=
  ∃ t ∈ m.threads, t.Running ∧
    (validUntilTS ∈ t.record.validUntil ∨ Known jsonb m.shared validUntilTS)

/-- The steps under which what is served is authentic. -/
def Careful (jsonb : Json → Json) (n : Node scheme) (m : NotaryMachine) :
    Machine.Event NotaryOp NotaryOp.Answer Call OutsideEvent → Prop
  | .exec _ env => Unexpired m.shared.clock env ∧
      ∀ site reply, env (.net (.exchange site)) = Except.ok reply → Honest n reply site
  | .call (.applyReplicatedServerResponse _ payload _) => Unambiguous payload
  | .call _ => True
  | .outside (.tick clock) => m.shared.clock ≤ clock ∧ ∀ validUntilTS, InUse jsonb m validUntilTS →
      unixMilli m.shared.clock < validUntilTS → unixMilli clock < validUntilTS
  | .outside .restart => True

/-- The shared state is genuine, and what was returned was current. -/
structure AuthenticState (hjsonb : Faithful jsonb) (n : Node scheme) (s : NotaryState) : Prop where
  holds : s.Holds (genuineness hjsonb n)
  served : ∀ x ∈ s.served, ∀ d ∈ x.response.serverKeys, unixMilli x.clock < d.validUntilTS

theorem authentic_of_reach (hjsonb : Faithful jsonb) (n : Node scheme) {m : NotaryMachine}
    (h : Reach (Machine.step (n.rules jsonb)) (Careful jsonb n) initialNotary m) :
    AuthenticState hjsonb n m.shared := by
  have hinitial : AuthenticState hjsonb n initialNotary.shared :=
    ⟨⟨forall_mem_nil _, forall_mem_nil _, forall_mem_nil _, forall_mem_nil _⟩,
      forall_mem_nil _⟩
  refine (Machine.safe_of_reach (c := service (genuineness hjsonb n) onTime)
    (I := AuthenticState hjsonb n) (J := fun s k => s.Joined k ∧ Timely jsonb s k) h
    (.initial hinitial) rfl (fun call m hs hok => ⟨⟨?_, ?_⟩, ensures_start ?_ m.shared⟩)
    (fun m i env o next k answer s hs hk hasks hok _ hstep => ?_)
    (fun m e m' hsafe hok hstep => ?_)).shared
  · cases call <;> exact forall_mem_nil _
  · -- a call starts with the clock as it is
    cases call <;> exact ⟨le_rfl, fun _ _ hcurrent => hcurrent, forall_mem_nil _⟩
  · cases call with
    | applyReplicatedServerResponse serverName payload validUntilTS => exact hok
    | _ => trivial
  · have heffect := handle_effect hstep
    refine ⟨⟨handle_answer hstep hs.holds hk.1 hok.2, handle_timelyAnswer hstep hok.1 hk.2⟩,
      ⟨heffect.holds hs.holds hk.1 hasks, fun x hx => ?_⟩,
      ⟨handle_joined hstep hk.1, handle_timely hstep hok.1 hasks hk.2⟩,
      fun k' hk' => ⟨heffect.joined hk'.1, heffect.timely hasks hk.2 hk'.2⟩⟩
    rcases heffect.served x hx with hx | ⟨request, response, rfl, rfl⟩
    · exact hs.served x hx
    · exact fun d hd => hk.2.of_current (hasks.2 d hd).2
  · cases e with
    | tick clock =>
      cases hstep
      refine ⟨⟨{ hsafe.shared.holds with }, hsafe.shared.served⟩, fun t ht hrunning => ?_⟩
      obtain ⟨⟨hjoined, htimely⟩, hens⟩ := hsafe.threads t ht hrunning
      refine ⟨⟨hjoined, htimely.now_le.trans hok.1, fun validUntilTS hmem hcurrent => ?_,
        htimely.joined⟩, hens⟩
      have hmem : validUntilTS ∈ t.record.validUntil ∨ Known jsonb m.shared validUntilTS :=
        hmem.imp_right known_tick
      exact hok.2 _ ⟨t, ht, hrunning, hmem⟩ (htimely.current _ hmem hcurrent)
    | restart =>
      cases hstep
      exact .initial ⟨{ hsafe.shared.holds with
        cache := forall_mem_nil _, flights := forall_mem_nil _ }, hsafe.shared.served⟩

/-- **Key authenticity**: in every run whose steps are careful, every element that is returned for a
name other than the notary's own was asked for, has the signature of its server over the bytes that
are delivered, and had not expired when it was returned. -/
theorem served_authentic (hjsonb : Faithful jsonb) (n : Node scheme) {m : NotaryMachine}
    (h : Reach (Machine.step (n.rules jsonb)) (Careful jsonb n) initialNotary m) :
    ∀ x ∈ m.shared.served, ∀ d ∈ x.response.serverKeys, d.serverName ≠ n.serverName →
      d.serverName ∈ x.request.names ∧ OriginSigned scheme.verify d (marshalJSON d) ∧
        unixMilli x.clock < d.validUntilTS := by
  have hstate := authentic_of_reach hjsonb n h
  intro x hx d hd hname
  obtain ⟨hpartition, hdelivers⟩ := hstate.holds.served x hx
  obtain ⟨keys, hgenuine, hdeliver⟩ := hdelivers d hd
  refine ⟨hpartition.served_requested d hd, ?_, hstate.served x hx d hd⟩
  exact originSigned_deliver hgenuine.proper hgenuine.signatures hgenuine.signed hdeliver
    (hgenuine.name.symm ▸ hname)

end Runs

/-! ## A replicated response -/

theorem honest_unambiguous : Unambiguous (bytesOf honestMembers) := by
  refine ⟨fun j hj => ?_, fun j hj => ?_⟩ <;>
    cases honest_parse.symm.trans hj
  · exact ⟨by decide +kernel, by decide +kernel, by decide +kernel⟩
  · decide +kernel

theorem careful_of_sample {m : NotaryMachine}
    {a : Machine.Event NotaryOp NotaryOp.Answer Call OutsideEvent} (h : SampleEvent a) :
    Careful postgres sampleNode m a := by
  cases a with
  | exec i env =>
    obtain rfl : env = sampleAnswers := h
    exact ⟨by rintro reply ⟨⟩, by rintro site reply ⟨⟩⟩
  | call p =>
    cases p with
    | applyReplicatedServerResponse serverName payload validUntilTS =>
      obtain rfl : payload = bytesOf honestMembers := h
      exact honest_unambiguous
    | _ => trivial
  | outside e => exact h.elim

/-- The names under which the bytes have signatures. -/
def signersOf (bytes : Bytes) : List Text :=
  ((decodeOriginObject bytes).map fun obj => (extractSignatures obj).map Prod.fst).getD []

/-- The names that were served, and by whom their elements are signed. -/
def servedSigners (m : NotaryMachine) : List (Text × List Text) :=
  m.shared.served.flatMap fun x =>
    x.response.serverKeys.map fun d => (d.serverName, signersOf (marshalJSON d))

/-- The replicated response of `s` is served with the signatures of `s` and of the notary. -/
theorem served_authentic_sample : Faithful postgres ∧ ∃ m x d,
    Reach (Machine.step (sampleNode.rules postgres)) (Careful postgres sampleNode) initialNotary m ∧
      x ∈ m.shared.served ∧ d ∈ x.response.serverKeys ∧ d.serverName = "s".toList ∧
      OriginSigned sampleScheme.verify d (marshalJSON d) ∧ unixMilli x.clock < d.validUntilTS := by
  obtain ⟨m, hm, hobs⟩ := reach_observe (P := SampleEvent)
    (by simp [sampleSchedule, SampleEvent]) (fun m a ha _ => careful_of_sample ha)
    (show (execute (Machine.step (sampleNode.rules postgres)) (fun _ _ => true) initialNotary
      sampleSchedule).map servedSigners = some [("s".toList, ["n".toList, "s".toList])] by
        decide +kernel)
  obtain ⟨x, hx, hd⟩ := mem_flatMap.1 (hobs ▸ mem_singleton_self _)
  obtain ⟨d, hd, hobs⟩ := mem_map.1 hd
  obtain ⟨hname, -⟩ := Prod.mk.inj hobs
  obtain ⟨-, hsigned, hcurrent⟩ := served_authentic faithful_postgres sampleNode hm x hx d hd
    (by rw [hname]; decide)
  exact ⟨faithful_postgres, m, x, d, hm, hx, hd, hname, hsigned, hcurrent⟩

/-! ## A response without the signature of its server -/

theorem mem_signersOf {verify : Bytes → Bytes → Bytes → Bool}
    {r : ServerKeysResponse} {bytes : Bytes} (h : OriginSigned verify r bytes) :
    r.serverName ∈ signersOf bytes := by
  obtain ⟨obj, keyID, key, sig, message, hobj, -, hsig, -⟩ := h
  rw [signatureIn_eq (decodeOriginObject_some hobj).2] at hsig
  obtain ⟨block, hblock, -⟩ := bind_eq_some_iff.1 hsig
  rw [signersOf, hobj]
  exact mem_map_of_mem (Assoc.mem_of_get hblock)

/-- A notary that falls back to `f`, with the key of `f` pinned. -/
def fallbackNode : Node sampleScheme where
  toNotary := sampleNotary
  fetcher :=
    ⟨["f".toList], [("f".toList, ⟨"k".toList, samplePub⟩)], 1, 10, false⟩
  cacheTTLHours := 1

/-- What `f` signs of a response for `s`. -/
def forgedMessage : Option Bytes := Canonical.marshal
  (perspective "f".toList { sampleResponse [("b".toList, 'B')] with signatures := none })

/-- A response for `s` with no signature but that of `f`. -/
def forgedMembers : List (Text × Json) :=
  [oneKey "b".toList 'B', ("server_name".toList, .str "s".toList),
    ("valid_until_ts".toList, .num "10".toList),
    ("signatures".toList,
      .obj [("f".toList, .obj [("k".toList,
        .str (Base64.rawStdEncode (stamp (forgedMessage.getD []))))])])]

/-- Nobody answers but `f`. -/
def fallbackAnswers : (o : NotaryOp) → o.Answer
  | .net (.newRequest .notary _) => false
  | .net (.newRequest _ _) => true
  | .net (.connect _ _ _) => true
  | .net (.exchange .notary) =>
    .ok ⟨200, none, .ok (bytesOf [("server_keys".toList, .arr [.obj forgedMembers])])⟩
  | .net o => sampleEnv [[8, 8, 8, 8]] o
  | o => sampleAnswers o

/-- **Served on the word of a fallback notary**: the response for `s` has the signatures of `f` and
of the notary itself, and none of `s`. -/
theorem unsigned_served : ∃ m x d,
    Reach (Machine.step (fallbackNode.rules postgres)) anyAction initialNotary m ∧
      x ∈ m.shared.served ∧ d ∈ x.response.serverKeys ∧ d.serverName = "s".toList ∧
      signersOf (marshalJSON d) = ["f".toList, "n".toList] ∧
      ¬OriginSigned sampleScheme.verify d (marshalJSON d) := by
  obtain ⟨m, hm, hobs⟩ := reach_observe_any
    (show (execute (Machine.step (fallbackNode.rules postgres)) (fun _ _ => true) initialNotary
      (.call (.queryKeys singleRequest) :: replicate 47 (.exec 0 fallbackAnswers))).map
        servedSigners = some [("s".toList, ["f".toList, "n".toList])] by decide +kernel)
  obtain ⟨x, hx, hd⟩ := mem_flatMap.1 (hobs ▸ mem_singleton_self _)
  obtain ⟨d, hd, hobs⟩ := mem_map.1 hd
  obtain ⟨hname, hsigners⟩ := Prod.mk.inj hobs
  refine ⟨m, x, d, hm, hx, hd, hname, hsigners, fun hsigned => ?_⟩
  have hmem := mem_signersOf hsigned
  rw [hname, hsigners] at hmem
  exact absurd hmem (by decide)

end MxKeys.Keys
