/-
# MxKeys.Keys.Notary — the notary as a system of concurrent calls.

`QueryKeys`, `ApplyReplicatedServerResponse` and the cleanup run side by side over a memory cache, a
database and the flights of `singleflight`.  The programs here follow the source call by call and
ask for what they share, and for the network, by operations; `NotaryState.handle` says what an
operation does to the shared state, one lock or one statement at a time, so that calls interleave at
every operation.  The trust policy, the transparency log, the database's clock and its failures are
answers that the environment gives as it likes.

The column `response` is of type JSONB: what it gives back of a document is `jsonb`.
-/
import MxKeys.Keys.Delivery
import MxKeys.Keys.Outbound
import MxKeys.Lib.Threads
import MxKeys.Lib.Utf8Order

namespace MxKeys.Keys

open MxKeys.Lib
open Assoc

/-! ## Requests and responses -/

/-- `KeyCriteria`. -/
structure KeyCriteria where
  minimumValidUntilTS : Int

/-- `KeyQueryRequest`: a map, by increasing name. -/
structure KeyQueryRequest where
  serverKeys : Map (Map KeyCriteria)
  sorted : Sorted serverKeys

/-- The names that are asked for. -/
def KeyQueryRequest.names (request : KeyQueryRequest) : List Text :=
  request.serverKeys.map Prod.fst

/-- A value of the map `failures`. -/
structure Failure where
  errcode : String
  error : String
  deriving DecidableEq

/-- `KeyQueryResponse`. -/
structure KeyQueryResponse where
  serverKeys : List ServerKeysResponse
  failures : Map Failure

/-- `PolicyViolation`. -/
structure PolicyViolation where
  rule : String
  details : String

/-- `matrixFailure`. -/
def matrixFailure (errCode message : String) : Failure := ⟨errCode, message⟩

/-- `sanitizeQueryFailure`. -/
def sanitizeQueryFailure : FetchError → Failure
  | .contextCanceled => matrixFailure "M_UNKNOWN" "Request canceled"
  | .concurrencyLimit | .circuitOpen =>
    matrixFailure "M_LIMIT_EXCEEDED" "Upstream temporarily unavailable"
  | .resolve => matrixFailure "M_NOT_FOUND" "Unable to resolve remote server"
  | .allSourcesFailed => matrixFailure "M_UNKNOWN" "Unable to fetch remote server keys"
  | .selfSignature _ | .serverNameMismatch | .notarySignature _ =>
    matrixFailure "M_INVALID_PARAM" "Remote server keys failed verification"
  | .badRequest | .request _ | .status _ | .parse | .notFound =>
    matrixFailure "M_UNKNOWN" "Unable to obtain verified keys"

/-- The failure of a name that the trust policy forbids. -/
def policyFailure (violation : PolicyViolation) : Failure :=
  ⟨"M_FORBIDDEN", "Trust policy violation (" ++ violation.rule ++ "): " ++ violation.details⟩

/-! ## What is shared -/

/-- `cachedResponse`; the stamp tells one allocation from another. -/
structure CachedResponse where
  stamp : Nat
  response : ServerKeysResponse
  /-- In nanoseconds. -/
  validUntil : Int

/-- A row of `server_key_responses`; an empty `rawResponse` is NULL. -/
structure ResponseRow where
  response : Json
  rawResponse : Bytes

/-- A call of `singleflight`, with its result when it has ended. -/
@[ext]
structure Flight where
  serverName : Text
  result : Option (Except FetchError ServerKeysResponse)

/-- A response that was returned, and the time. -/
structure Served where
  request : KeyQueryRequest
  response : KeyQueryResponse
  clock : Nat

/-- What the calls share, and what they have returned. -/
structure NotaryState where
  /-- In nanoseconds. -/
  clock : Nat
  cache : Map CachedResponse
  /-- The next stamp. -/
  stamps : Nat
  database : Map ResponseRow
  flights : List Flight
  served : List Served

/-- What the transparency log is told. -/
inductive LogEvent
  | failure (serverName : Text) (err : FetchError)
  | policyViolation (violation : PolicyViolation)
  | key (serverName : Text) (resp : ServerKeysResponse)

/-- An operation of a call: on the network, the cache, the database or a flight. -/
inductive NotaryOp
  | net (o : NetOp)
  | checkServer (serverName : Text)
  | checkResponse (serverName : Text) (resp : ServerKeysResponse)
  | transparency (event : LogEvent)
  | cacheGet (serverName : Text)
  /-- Delete the entry if it is still the one that was found, and not valid. -/
  | cacheEvict (serverName : Text) (cached : CachedResponse) (now : Nat)
  | cachePut (serverName : Text) (response : ServerKeysResponse) (expiresAt : Int)
  | cacheDelete (serverName : Text)
  /-- The loop of `cleanup`, under its lock. -/
  | cacheSweep
  | databaseGet (serverName : Text)
  | databasePut (serverName : Text) (response : ServerKeysResponse)
  | databaseDeleteExpired
  /-- Enter `fetchGroup.Do`. -/
  | flightJoin (serverName : Text)
  | flightFinish (flight : Nat) (result : Except FetchError ServerKeysResponse)
  | flightWait (flight : Nat)
  | broadcast (serverName : Text) (payload : Bytes) (validUntilTS : Int)
  /-- `QueryKeys` returns. -/
  | respond (request : KeyQueryRequest) (response : KeyQueryResponse)

/-- What comes back: of `databasePut`, whether it reports success and whether the row is written; of
`databaseDeleteExpired`, the names that the database finds expired; of `flightJoin`, whether the
call leads its flight, and the flight. -/
def NotaryOp.Answer : NotaryOp → Type
  | .net o => o.Answer
  | .checkServer _ => Option PolicyViolation
  | .checkResponse _ _ => Option PolicyViolation
  | .cacheGet _ => Option CachedResponse
  | .databaseGet _ => Except Unit (Option ServerKeysResponse)
  | .databasePut _ _ => Bool × Bool
  | .databaseDeleteExpired => List Text
  | .flightJoin _ => Bool × Nat
  | .flightWait _ => Except FetchError ServerKeysResponse
  | _ => Unit

/-- `time.Now().UnixMilli()`. -/
def unixMilli (now : Nat) : Int := now / 1000000

/-- `time.UnixMilli(ts)`. -/
def ofMilli (ts : Int) : Int := ts * 1000000

/-- `cacheEntryValid`. -/
def cacheEntryValid (cached : CachedResponse) (now : Nat) : Bool :=
  now < cached.validUntil ∧ unixMilli now < cached.response.validUntilTS

/-- What `json.Marshal(response)` writes, as a document: the bytes of the origin if there are any.
-/
def responseDocument (r : ServerKeysResponse) : Option Json :=
  if r.raw ≠ [] then Json.parse (Utf8.decode r.raw) else some (.obj (structMembers r))

section Handle

variable (jsonb : Json → Json)

/-- `GetServerResponse`, after the row was found. -/
def ResponseRow.read (row : ResponseRow) : Option ServerKeysResponse :=
  (decodeResponse (jsonb row.response)).map fun r =>
    if row.rawResponse ≠ [] then { r with raw := row.rawResponse } else r

/-- The network is the environment's, the clock is shared. -/
def netAnswer (clock : Nat) : (o : NetOp) → o.Answer → o.Answer
  | .now, _ => clock
  | _, proposed => proposed

/-- What the database says of a name; it may fail, or find the row expired by its own clock. -/
def NotaryState.databaseAnswer (s : NotaryState) (serverName : Text) :
    Except Unit (Option ServerKeysResponse) → Except Unit (Option ServerKeysResponse)
  | .ok (some _) =>
    match get serverName s.database with
    | none => .ok none
    | some row =>
      match row.read jsonb with
      | none => .error ()
      | some r => .ok (some r)
  | proposed => proposed

/-- The flight of a name that has not ended. -/
def NotaryState.running (s : NotaryState) (serverName : Text) : Option Nat :=
  s.flights.findIdx? fun flight => flight.serverName = serverName ∧ flight.result.isNone

/-- What an operation answers and does; `none` while it must wait. -/
def NotaryState.handle (s : NotaryState) : (o : NotaryOp) → o.Answer →
    Option (o.Answer × NotaryState)
  | .net o, proposed => some (netAnswer s.clock o proposed, s)
  | .cacheGet serverName, _ => some (get serverName s.cache, s)
  | .cacheEvict serverName cached now, _ =>
    match get serverName s.cache with
    | some current =>
      if current.stamp = cached.stamp ∧ ¬cacheEntryValid current now then
        some ((), { s with cache := erase serverName s.cache })
      else some ((), s)
    | none => some ((), s)
  | .cachePut serverName response expiresAt, _ =>
    some ((), { s with
      cache := insert serverName ⟨s.stamps, response, expiresAt⟩ s.cache
      stamps := s.stamps + 1 })
  | .cacheDelete serverName, _ => some ((), { s with cache := erase serverName s.cache })
  | .cacheSweep, _ =>
    some ((), { s with cache := s.cache.filter fun e => ¬e.2.validUntil < s.clock })
  | .databaseGet serverName, proposed => some (s.databaseAnswer jsonb serverName proposed, s)
  | .databasePut serverName response, (reported, written) =>
    match responseDocument response with
    | none => some ((false, false), s)
    | some document =>
      if reported ∨ written then
        some ((reported, true),
          { s with database := insert serverName ⟨document, response.raw⟩ s.database })
      else some ((false, false), s)
  | .databaseDeleteExpired, (expired : List Text) =>
    some (expired, { s with database := s.database.filter fun e => e.1 ∉ expired })
  | .flightJoin serverName, _ =>
    match s.running serverName with
    | some flight => some ((false, flight), s)
    | none =>
      some ((true, s.flights.length), { s with flights := s.flights ++ [⟨serverName, none⟩] })
  | .flightFinish flight result, _ =>
    some ((), { s with flights := s.flights.modify flight fun f =>
      { f with result := some result } })
  | .flightWait flight, _ => (s.flights[flight]?.bind (·.result)).map fun result => (result, s)
  | .respond request response, _ =>
    some ((), { s with served := s.served ++ [⟨request, response, s.clock⟩] })
  | .checkServer _, proposed => some (proposed, s)
  | .checkResponse _ _, proposed => some (proposed, s)
  | .transparency _, _ => some ((), s)
  | .broadcast _ _ _, _ => some ((), s)

end Handle

/-! ## Programs -/

/-- A program of the notary. -/
abbrev Proc := Prog NotaryOp NotaryOp.Answer

/-- A program of the fetcher, as one of the notary. -/
def Net.lift {α : Type} : Net α → Proc α
  | .ret a => .ret a
  | .ask o next => .ask (.net o) fun answer => Net.lift (next answer)

def perform (o : NotaryOp) : Proc o.Answer := Prog.op o

def readClock : Proc Nat := perform (.net .now)

/-- `ctx.Err() != nil`. -/
def canceled : Proc Bool := perform (.net .ctxErr)

def checkServer (serverName : Text) : Proc (Option PolicyViolation) :=
  perform (.checkServer serverName)

def checkResponse (serverName : Text) (resp : ServerKeysResponse) :
    Proc (Option PolicyViolation) := perform (.checkResponse serverName resp)

def transparency (event : LogEvent) : Proc Unit := perform (.transparency event)

def cacheGet (serverName : Text) : Proc (Option CachedResponse) :=
  perform (.cacheGet serverName)

def cacheEvict (serverName : Text) (cached : CachedResponse) (now : Nat) : Proc Unit :=
  perform (.cacheEvict serverName cached now)

def cachePut (serverName : Text) (response : ServerKeysResponse) (expiresAt : Int) : Proc Unit :=
  perform (.cachePut serverName response expiresAt)

def cacheDelete (serverName : Text) : Proc Unit := perform (.cacheDelete serverName)

def databaseGet (serverName : Text) : Proc (Except Unit (Option ServerKeysResponse)) :=
  perform (.databaseGet serverName)

def databasePut (serverName : Text) (response : ServerKeysResponse) : Proc (Bool × Bool) :=
  perform (.databasePut serverName response)

def flightJoin (serverName : Text) : Proc (Bool × Nat) := perform (.flightJoin serverName)

def flightFinish (flight : Nat) (result : Except FetchError ServerKeysResponse) : Proc Unit :=
  perform (.flightFinish flight result)

def flightWait (flight : Nat) : Proc (Except FetchError ServerKeysResponse) :=
  perform (.flightWait flight)

/-- The notary with its fetcher. -/
structure Node (scheme : Scheme) extends Notary scheme where
  fetcher : Fetcher
  cacheTTLHours : Int

section Programs

variable {scheme : Scheme} (n : Node scheme)

/-- `cacheExpiresAt`, in nanoseconds. -/
def Node.cacheExpiresAt (response : ServerKeysResponse) (now : Nat) : Int :=
  let cacheExpiry := now + n.cacheTTLHours * hour
  if response.validUntilTS ≤ 0 then cacheExpiry
  else if ofMilli response.validUntilTS < cacheExpiry then ofMilli response.validUntilTS
  else cacheExpiry

/-- `storeInMemoryCache`. -/
def Node.storeInMemoryCache (serverName : Text) (response : ServerKeysResponse) : Proc Unit := do
  let now ← readClock
  let expiresAt := n.cacheExpiresAt response now
  if ¬now < expiresAt then cacheDelete serverName else cachePut serverName response expiresAt

/-- `fetchAndStoreWithSource`: an error of the database is only logged. -/
def Node.fetchAndStore (serverName : Text) : Proc (Except FetchError ServerKeysResponse) := do
  match ← (fetchServerKeys scheme.verify n.fetcher serverName).lift with
  | .error e => pure (.error e)
  | .ok keys =>
    let _ ← databasePut serverName keys
    n.storeInMemoryCache serverName keys
    perform (.broadcast serverName (marshalJSON keys) keys.validUntilTS)
    pure (.ok keys)

/-- The end of `GetServerKeys`: a fetch failed, and a cache entry may still stand in. -/
def staleEntry (serverName : Text) (e : FetchError) :
    Proc (Except FetchError ServerKeysResponse) := do
  match ← cacheGet serverName with
  | none => pure (.error e)
  | some expired =>
    let now ← readClock
    pure (if now < ofMilli expired.response.validUntilTS then .ok expired.response else .error e)

/-- `fetchGroup.Do`: the first call of a name fetches, the others wait for its result. -/
def Node.fetchOnce (serverName : Text) : Proc (Except FetchError ServerKeysResponse) := do
  let (leads, flight) ← flightJoin serverName
  if leads then
    let result ← n.fetchAndStore serverName
    flightFinish flight result
    pure result
  else flightWait flight

/-- `GetServerKeys` after the memory cache had nothing valid. -/
def Node.getUncached (serverName : Text) (now : Nat) :
    Proc (Except FetchError ServerKeysResponse) := do
  match ← databaseGet serverName with
  | .ok (some stored) =>
    if unixMilli now < stored.validUntilTS then
      n.storeInMemoryCache serverName stored
      pure (.ok stored)
    else fetch
  | _ => fetch
where
  fetch : Proc (Except FetchError ServerKeysResponse) := do
    match ← n.fetchOnce serverName with
    | .ok result => pure (.ok result)
    | .error e => staleEntry serverName e

/-- `GetServerKeys`. -/
def Node.getServerKeys (serverName : Text) : Proc (Except FetchError ServerKeysResponse) := do
  if ← canceled then pure (.error .contextCanceled)
  else
    let now ← readClock
    match ← cacheGet serverName with
    | none => n.getUncached serverName now
    | some cached =>
      if cacheEntryValid cached now then pure (.ok (cloneServerKeysResponse cached.response))
      else
        cacheEvict serverName cached now
        n.getUncached serverName now

/-- `GetServerKeysWithCriteria`. -/
def Node.getServerKeysWithCriteria (serverName : Text) (minValidUntil : Int) :
    Proc (Except FetchError ServerKeysResponse) := do
  match ← n.getServerKeys serverName with
  | .error e => pure (.error e)
  | .ok keys =>
    if 0 < minValidUntil ∧ keys.validUntilTS < minValidUntil then n.fetchAndStore serverName
    else pure (.ok keys)

/-- The loop of `applyTrustPolicyToRequest`: the failures, and the names that are left. -/
def applyTrustPolicyToRequest : List Text → Map Failure → Map (Map KeyCriteria) →
    Proc (Map Failure × Map (Map KeyCriteria))
  | [], failures, serverKeys => pure (failures, serverKeys)
  | serverName :: rest, failures, serverKeys => do
    match ← checkServer serverName with
    | some violation =>
      applyTrustPolicyToRequest rest (insert serverName (policyFailure violation) failures)
        (erase serverName serverKeys)
    | none => applyTrustPolicyToRequest rest failures serverKeys

/-- The largest `minimum_valid_until_ts` of the keys asked for. -/
def minValidUntil (keyCriteria : Map KeyCriteria) : Int :=
  keyCriteria.foldl
    (fun least e => if least < e.2.minimumValidUntilTS then e.2.minimumValidUntilTS else least) 0

/-- A failure for a name. -/
def KeyQueryResponse.fail (response : KeyQueryResponse) (serverName : Text) (failure : Failure) :
    KeyQueryResponse :=
  { response with failures := insert serverName failure response.failures }

/-- The body of the loop of `QueryKeys`. -/
def Node.queryServer (serverKeys : Map (Map KeyCriteria)) (serverName : Text)
    (response : KeyQueryResponse) : Proc KeyQueryResponse := do
  let keyCriteria := (get serverName serverKeys).getD []
  match ← n.getServerKeysWithCriteria serverName (minValidUntil keyCriteria) with
  | .error err =>
    transparency (.failure serverName err)
    pure (response.fail serverName (sanitizeQueryFailure err))
  | .ok keys =>
    match n.addNotarySignature (cloneServerKeysResponse keys) with
    | none => pure (response.fail serverName (matrixFailure "M_UNKNOWN" "Internal signing error"))
    | some signed =>
      let keysForResponse := { signed with raw := n.finalRaw signed.raw }
      match ← checkResponse serverName keysForResponse with
      | some violation =>
        transparency (.policyViolation violation)
        pure (response.fail serverName (policyFailure violation))
      | none =>
        transparency (.key serverName keysForResponse)
        pure { response with serverKeys := response.serverKeys ++ [keysForResponse] }

/-- The loop of `QueryKeys`. -/
def Node.queryServers (serverKeys : Map (Map KeyCriteria)) :
    List Text → KeyQueryResponse → Proc KeyQueryResponse
  | [], response => pure response
  | serverName :: rest, response => do
    let response ← n.queryServer serverKeys serverName response
    Node.queryServers serverKeys rest response

/-- `sortedServerNames`. -/
def sortedServerNames (serverKeys : Map (Map KeyCriteria)) : List Text :=
  Utf8.sortStrings (serverKeys.map Prod.fst)

/-- `QueryKeys`. -/
def Node.queryKeys (request : KeyQueryRequest) : Proc KeyQueryResponse := do
  let (failures, serverKeys) ← applyTrustPolicyToRequest request.names [] request.serverKeys
  n.queryServers serverKeys (sortedServerNames serverKeys) ⟨[], failures⟩

/-- Why a replicated response is refused. -/
inductive ReplicationError
  | payloadEmpty
  | decode
  | serverNameMissing
  | serverMismatch
  | validUntilMissing
  | validUntilMismatch
  | verification (e : SelfSignatureError)
  | store

/-- `validateReplicatedServerResponse`; `now` is the clock in milliseconds. -/
def Node.validateReplicatedServerResponse (now : Int) (serverName : Text)
    (rawResponse : Bytes) (validUntilTS : Int) : Except ReplicationError ServerKeysResponse :=
  if trimSpace (Utf8.decode rawResponse) = [] then .error .payloadEmpty
  else
    match unmarshalResponse rawResponse with
    | none => .error .decode
    | some response =>
      if response.serverName = [] then .error .serverNameMissing
      else if response.serverName ≠ serverName then .error .serverMismatch
      else if response.validUntilTS ≤ 0 then .error .validUntilMissing
      else if response.validUntilTS ≠ validUntilTS then .error .validUntilMismatch
      else
        match verifySelfSignature scheme.verify n.fetcher.maxSignatures now response
          rawResponse with
        | .error e => .error (.verification e)
        | .ok () => .ok { response with raw := rawResponse }

/-- `ApplyReplicatedServerResponse`. -/
def Node.applyReplicatedServerResponse (serverName : Text) (rawResponse : Bytes)
    (validUntilTS : Int) : Proc (Except ReplicationError Unit) := do
  let now ← readClock
  match n.validateReplicatedServerResponse (unixMilli now) serverName rawResponse validUntilTS with
  | .error e => pure (.error e)
  | .ok response =>
    let (stored, _) ← databasePut serverName response
    if ¬stored then pure (.error .store)
    else
      n.storeInMemoryCache serverName (cloneServerKeysResponse response)
      pure (.ok ())

/-- A round of the cleanup loop. -/
def cleanup : Proc Unit := do
  let () ← perform .cacheSweep
  let _ ← perform .databaseDeleteExpired
  pure ()

end Programs

/-! ## The system -/

/-- What is called from outside. -/
inductive Call
  | queryKeys (request : KeyQueryRequest)
  | applyReplicatedServerResponse (serverName : Text) (rawResponse : Bytes)
      (validUntilTS : Int)
  | cleanup

/-- What a call has read so far: the clock, the `valid_until_ts` of replies of servers since then,
those of other responses, and the flights it has joined. -/
structure Readings where
  now : Nat
  arrived : List Int
  validUntil : List Int
  joined : List (Text × Nat)

/-- The responses in a reply, by what the site is asked for. -/
def HttpReply.responses (reply : HttpReply) : Site → List ServerKeysResponse
  | .direct => (reply.body.toOption.bind unmarshalResponse).toList
  | .notary => (reply.body.toOption.bind unmarshalKeyQuery).getD []
  | .wellKnown => []

/-- The responses that an answer brings, but for the reply of a server. -/
def NotaryOp.brings : (o : NotaryOp) → o.Answer → List ServerKeysResponse
  | .net (.exchange .notary), (.ok reply : Except Bool HttpReply) => reply.responses .notary
  | .cacheGet _, (some cached : Option CachedResponse) => [cached.response]
  | .databaseGet _, (.ok (some stored) : Except Unit (Option ServerKeysResponse)) => [stored]
  | .flightWait _, (.ok result : Except FetchError ServerKeysResponse) => [result]
  | _, _ => []

/-- What a call has read of the clock and from the network. -/
def Readings.note : (o : NotaryOp) → o.Answer → Readings → Readings
  | .net .now, (now : Nat), k =>
    { k with now := now, arrived := [], validUntil := k.arrived ++ k.validUntil }
  | .net (.exchange .direct), (.ok reply : Except Bool HttpReply), k =>
    { k with arrived := (reply.responses .direct).map (·.validUntilTS) ++ k.arrived }
  | .flightJoin serverName, ((_, flight) : Bool × Nat), k =>
    { k with joined := (serverName, flight) :: k.joined }
  | o, answer, k => { k with validUntil := (o.brings answer).map (·.validUntilTS) ++ k.validUntil }

/-- What happens from outside: the clock is set, or the process ends and is started again. -/
inductive OutsideEvent
  | tick (clock : Nat)
  | restart

section System

variable {scheme : Scheme} (jsonb : Json → Json) (n : Node scheme)

/-- A call starts with a reading of the clock, and a payload counts as read. -/
def Node.start (s : NotaryState) : Call → Thread NotaryOp NotaryOp.Answer Readings
  | .queryKeys request =>
    ⟨do let response ← n.queryKeys request; perform (.respond request response),
      ⟨s.clock, [], [], []⟩⟩
  | .applyReplicatedServerResponse serverName rawResponse validUntilTS =>
    ⟨do let _ ← n.applyReplicatedServerResponse serverName rawResponse validUntilTS,
      ⟨s.clock, [], (unmarshalResponse rawResponse).toList.map (·.validUntilTS), []⟩⟩
  | .cleanup => ⟨cleanup, ⟨s.clock, [], [], []⟩⟩

/-- The notary with its calls in progress. -/
abbrev NotaryMachine := Machine NotaryState NotaryOp NotaryOp.Answer Readings

/-- The clock is set, or the process is restarted. -/
def outside (m : NotaryMachine) : OutsideEvent → Option NotaryMachine
  | .tick clock => some { m with shared := { m.shared with clock := clock } }
  | .restart => some ⟨{ m.shared with cache := [], flights := [] }, []⟩

/-- The rules by which calls are interleaved. -/
def Node.rules : Machine.Rules NotaryState NotaryOp NotaryOp.Answer Readings Call OutsideEvent where
  note := Readings.note
  handle := NotaryState.handle jsonb
  start := n.start
  outside := outside

/-- Nothing is stored anywhere, and nothing runs. -/
def initialNotary : NotaryMachine := ⟨⟨0, [], 0, [], [], []⟩, []⟩

end System

/-- A notary with a cache of one hour. -/
def sampleNode : Node sampleScheme :=
  { sampleNotary with fetcher := sampleFetcher, cacheTTLHours := 1 }

end MxKeys.Keys
