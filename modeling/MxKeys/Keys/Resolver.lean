/-
# MxKeys.Keys.Resolver — from a server name to the host that is asked for keys.

The resolver follows the discovery of Matrix: an IP literal or an explicit port is taken as it is;
otherwise the server may delegate by a document under `/.well-known/matrix/server`, and SRV records
may name another host.  The programs here ask the network and the shared caches by operations
(`NetOp`), and nothing is assumed of the answers.
-/
import MxKeys.Keys.Fetch
import MxKeys.Lib.Interaction
import MxKeys.Lib.NetIP

namespace MxKeys.Keys

open MxKeys.Lib
open MxKeys.Lib.NetIP (IP parseIP parseAddr)
open List

/-! ## Operations -/

/-- What a connection is made for. -/
inductive Site
  | wellKnown
  | direct
  | notary
  deriving DecidableEq

/-- The target of a redirect. -/
structure Location where
  https : Bool
  hostname : Text
  port : Nat

/-- What `http.Client` returns for a request. -/
structure HttpReply where
  status : Nat
  location : Option Location
  /-- The body, or whether reading it failed in a way that is worth another try. -/
  body : Except Bool Bytes

/-- `errorType`. -/
inductive WellKnownErrorType
  | errNone
  | errNotFound
  | errTemporary
  | errInvalid
  deriving DecidableEq

/-- Times in nanoseconds. -/
structure WellKnownEntry where
  host : Text
  port : Nat
  fetchedAt : Nat
  isError : Bool
  errType : WellKnownErrorType
  deriving DecidableEq

/-- An entry of the SRV cache. -/
structure SrvEntry where
  target : Text
  port : Nat
  fetchedAt : Nat
  isError : Bool
  isNotFound : Bool
  deriving DecidableEq

/-- What the fetcher asks of its surroundings. -/
inductive NetOp
  | ctxErr
  | allow (serverName : Text)
  | acquire
  | recordSuccess (serverName : Text)
  | recordFailure (serverName : Text)
  /-- Wait before another try; the answer is whether the context ended. -/
  | backoff (attempt : Nat)
  | now
  | wellKnownGet (hostname : Text)
  | wellKnownSet (hostname : Text) (entry : WellKnownEntry)
  | srvGet (key : Text)
  | srvSet (key : Text) (entry : SrvEntry)
  | lookupSRV (service proto hostname : Text)
  /-- `http.NewRequest` for a host; the answer is whether it failed. -/
  | newRequest (site : Site) (host : Text)
  /-- A host with an escape or a character outside ASCII, in the form in which it is dialled. -/
  | toASCII (site : Site) (host : Text)
  | lookupIP (site : Site) (host : Text)
  /-- A connection is made; the answer is whether it stands. -/
  | connect (site : Site) (ip : IP) (port : Nat)
  /-- A request is sent over the connection; on an error, whether it may be tried again. -/
  | exchange (site : Site)
  deriving DecidableEq

/-- What comes back.  `lookupSRV` gives records and perhaps an error, with whether that says that
the name does not exist. -/
def NetOp.Answer : NetOp → Type
  | .ctxErr => Bool
  | .allow _ => Bool
  | .acquire => Bool
  | .recordSuccess _ => Unit
  | .recordFailure _ => Unit
  | .backoff _ => Bool
  | .now => Nat
  | .wellKnownGet _ => Option WellKnownEntry
  | .wellKnownSet _ _ => Unit
  | .srvGet _ => Option SrvEntry
  | .srvSet _ _ => Unit
  | .lookupSRV _ _ _ => List (Text × Nat) × Option Bool
  | .newRequest _ _ => Bool
  | .toASCII _ _ => Text
  | .lookupIP _ _ => Option (List IP)
  | .connect _ _ _ => Bool
  | .exchange _ => Except Bool HttpReply

/-- A program of the fetcher. -/
abbrev Net := Prog NetOp NetOp.Answer

def query (o : NetOp) : Net o.Answer := Prog.op o

/-- `time.Now()`. -/
def timeNow : Net Nat := query .now

def connect (site : Site) (ip : IP) (port : Nat) : Net Bool := query (.connect site ip port)

/-- Whether `http.NewRequest` fails. -/
def newRequestFails (site : Site) (host : Text) : Net Bool := query (.newRequest site host)

/-- What is dialled for such a host. -/
def toASCII (site : Site) (host : Text) : Net Text := query (.toASCII site host)

/-- `duration` units of the `time` package. -/
def minute : Nat := 60 * 1000000000

def hour : Nat := 60 * minute

/-! ## Names -/

/-- Cut at the last occurrence of a character: what is before it and what is after it. -/
def cutLast (c : Char) (s : Text) : Option (Text × Text) :=
  if c ∈ s then
    some ((s.reverse.dropWhile (· ≠ c)).tail.reverse, (s.reverse.takeWhile (· ≠ c)).reverse)
  else none

/-- `strconv.Atoi`, where the result is a port. -/
def atoiPort (s : Text) : Option Nat :=
  let digits := if s.head? = some '+' then s.tail else s
  if digits ≠ [] ∧ digits.all Char.isDigit then
    let p := Nat.ofDigitChars 10 digits 0
    if 0 < p ∧ p ≤ 65535 then some p else none
  else none

/-- `unicode.IsSpace`. -/
def isSpace (c : Char) : Bool :=
  c.toNat ∈ [0x09, 0x0a, 0x0b, 0x0c, 0x0d, 0x20, 0x85, 0xa0, 0x1680, 0x2028, 0x2029, 0x202f, 0x205f,
    0x3000] ∨ (0x2000 ≤ c.toNat ∧ c.toNat ≤ 0x200a)

/-- `strings.TrimSpace`. -/
def trimSpace (s : Text) : Text :=
  ((s.dropWhile isSpace).reverse.dropWhile isSpace).reverse

theorem trimSpace_of_ends {s : Text} (hhead : ∀ c, s.head? = some c → isSpace c = false)
    (hlast : ∀ c, s.getLast? = some c → isSpace c = false) : trimSpace s = s := by
  have hdrop : ∀ {t : Text}, (∀ c, t.head? = some c → isSpace c = false) →
      t.dropWhile isSpace = t := by
    intro t ht
    cases t with
    | nil => rfl
    | cons c t => rw [dropWhile_cons, ht c rfl, if_neg Bool.false_ne_true]
  rw [trimSpace, hdrop hhead, hdrop fun c hc => hlast c (by rwa [head?_reverse] at hc),
    reverse_reverse]

theorem trimSpace_of_forall {s : Text} (h : ∀ c ∈ s, isSpace c = false) : trimSpace s = s :=
  trimSpace_of_ends (fun c hc => h c (mem_of_mem_head? hc))
    fun c hc => h c (mem_of_mem_getLast? hc)

/-- `parseServerName`: the host, the port or 0, and whether it is an IP literal. -/
def parseServerName (name : Text) : Text × Nat × Bool :=
  let name := trimSpace name
  if name.head? = some '[' then
    if ']' ∈ name then
      let hostname := (name.takeWhile (· ≠ ']')).tail
      let rest := (name.dropWhile (· ≠ ']')).tail
      let port := if rest.head? = some ':' then (atoiPort rest.tail).getD 0 else 0
      (hostname, port, true)
    else (name, 0, false)
  else
    match (cutLast ':' name).bind fun cut => (atoiPort cut.2).map fun p => (cut.1, p) with
    | some (hostname, port) => (hostname, port, (parseIP hostname).isSome)
    | none => (name, 0, (parseIP name).isSome)

/-- The host and the port of `"https://" + hostname + "/…"`: the authority ends at the first `/`,
`?` or `#`, what is before an `@` is the user, and the port is behind the last colon. -/
def urlTarget (hostname : Text) : Text × Nat :=
  let authority := hostname.takeWhile fun c => ¬(c = '/' ∨ c = '?' ∨ c = '#')
  let hostPort := ((cutLast '@' authority).map Prod.snd).getD authority
  let (host, port) :=
    match cutLast ':' hostPort with
    | some (host, port) =>
      if port.all Char.isDigit then (host, if port = [] then 443 else Nat.ofDigitChars 10 port 0)
      else (hostPort, 443)
    | none => (hostPort, 443)
  if host.head? = some '[' ∧ host.getLast? = some ']' then (host.tail.dropLast, port)
  else (host, port)

/-! ## Connections -/

/-- The addresses of a host: a literal stands for itself, anything else is looked up. -/
def lookup (site : Site) (host : Text) : Net (Option (List IP)) :=
  match parseAddr host with
  | some ip => pure (some [ip])
  | none => query (.lookupIP site host)

/-- Dial the addresses one after another, until a connection stands. -/
def dialAddresses (site : Site) (port : Nat) : List IP → Net Bool
  | [] => pure false
  | ip :: ips => do
    if ← connect site ip port then pure true
    else dialAddresses site port ips

/-- The unspecified IPv6 address `::`. -/
def unspecified6 : IP := replicate 16 0

/-- `0.0.0.0` is tried after `::`, when that is all there is. -/
def withFallback (ips : List IP) : List IP :=
  if ips = [unspecified6] then [unspecified6, [0, 0, 0, 0]] else ips

/-- The host that is dialled for the host of a URL: `url.Parse` decodes escapes, and
`idnaASCIIFromURL` maps what is outside ASCII.  An address has neither. -/
def dialHost (site : Site) (host : Text) : Net Text :=
  if (parseAddr host).isSome ∨ host.all fun c => c.toNat < 128 ∧ c ≠ '%' then pure host
  else toASCII site host

/-- `net.Dialer.DialContext`, from a transport.  An empty host is the local system. -/
def dial (site : Site) (host : Text) (port : Nat) : Net Bool := do
  let host ← dialHost site host
  if host = [] then dialAddresses site port (withFallback [unspecified6])
  else
    match ← lookup site host with
    | none => pure false
    | some ips => dialAddresses site port (withFallback ips)

/-- One request over a connection made by `dialing`. -/
def roundTrip (site : Site) (host : Text) (dialing : Net Bool) :
    Net (Except FetchError HttpReply) := do
  if ← newRequestFails site host then pure (.error .badRequest)
  else if ← dialing then
    match ← (query (.exchange site) : Net (Except Bool HttpReply)) with
    | .ok reply => pure (.ok reply)
    | .error retryable => pure (.error (.request retryable))
  else pure (.error (.request true))

/-! ## Well-known documents -/

/-- How long an entry is kept. -/
def WellKnownEntry.ttl (e : WellKnownEntry) : Nat :=
  if ¬e.isError then 24 * hour
  else
    match e.errType with
    | .errNotFound => hour
    | .errInvalid => 30 * minute
    | .errTemporary => 2 * minute
    | .errNone => 5 * minute

/-- `wellKnownCache.get`. -/
def wellKnownCacheGet (hostname : Text) : Net (Option WellKnownEntry) := do
  match ← (query (.wellKnownGet hostname) : Net (Option WellKnownEntry)) with
  | none => pure none
  | some entry =>
    let now ← timeNow
    pure (if entry.ttl < now - entry.fetchedAt then none else some entry)

/-- `cacheErrorWithType`. -/
def cacheErrorWithType (hostname : Text) (errType : WellKnownErrorType) : Net Unit := do
  let now ← timeNow
  query (.wellKnownSet hostname ⟨[], 0, now, true, errType⟩)

/-- The statuses that `http.Client` follows. -/
def isRedirect (status : Nat) : Bool := status ∈ [301, 302, 303, 307, 308]

/-- `CheckRedirect` of the resolver's client, but for the number of redirects. -/
def redirectAllowed (location : Location) : Bool :=
  location.https &&
    match parseIP location.hostname with
    | some ip => !(NetIP.isLoopback ip || NetIP.isPrivate ip || NetIP.isLinkLocalUnicast ip)
    | none => true

/-- `r.client.Do(req)`: at most `left` requests, each after the redirect of the one before. -/
def clientDo : Nat → Text → Nat → Net (Option HttpReply)
  | 0, _, _ => pure none
  | left + 1, host, port => do
    match ← roundTrip .wellKnown host (dial .wellKnown host port) with
    | .error _ => pure none
    | .ok reply =>
      match reply.location with
      | none => pure (some reply)
      | some location =>
        if ¬isRedirect reply.status then pure (some reply)
        else if redirectAllowed location then clientDo left location.hostname location.port
        else pure none

def mServerField : Json.Field Text :=
  .of "m.server".toList id (fun _ s => s) Json.decodeString

/-- `json.Unmarshal(body, &wk)`. -/
def unmarshalWellKnown (body : Bytes) : Option Text :=
  (Json.parse (Utf8.decode body)).bind (Json.decodeStruct [mServerField] [])

/-- What the reply says: the delegated name, or the kind of error. -/
def readWellKnown (reply : Option HttpReply) : Except WellKnownErrorType Text :=
  match reply with
  | none => .error .errTemporary
  | some reply =>
    if reply.status = 404 then .error .errNotFound
    else if reply.status ≠ 200 then .error .errTemporary
    else
      match reply.body with
      | .error _ => .error .errTemporary
      | .ok body =>
        match unmarshalWellKnown (body.take (32 * 1024)) with
        | none => .error .errInvalid
        | some server => if server = [] then .error .errInvalid else .ok server

/-- `resolveWellKnown`. -/
def resolveWellKnown (hostname : Text) : Net (Option WellKnownEntry) := do
  match ← wellKnownCacheGet hostname with
  | some entry => pure (if entry.isError then none else some entry)
  | none =>
    match readWellKnown (← clientDo 5 (urlTarget hostname).1 (urlTarget hostname).2) with
    | .error errType =>
      cacheErrorWithType hostname errType
      pure none
    | .ok server =>
      let (host, port, _) := parseServerName server
      let now ← timeNow
      query (.wellKnownSet hostname ⟨host, port, now, false, .errNone⟩)
      pure (some ⟨host, port, now, false, .errNone⟩)

/-! ## SRV records -/

/-- `ResolvedServer`. -/
structure ResolvedServer where
  host : Text
  port : Nat
  serverName : Text
  /-- The addresses themselves; the source keeps their texts. -/
  pinnedIPs : List IP

/-- How long an entry is kept. -/
def SrvEntry.ttl (e : SrvEntry) : Nat :=
  if ¬e.isError then hour else if e.isNotFound then 30 * minute else 2 * minute

/-- `srvCache.get`. -/
def srvCacheGet (key : Text) : Net (Option SrvEntry) := do
  match ← (query (.srvGet key) : Net (Option SrvEntry)) with
  | none => pure none
  | some entry =>
    let now ← timeNow
    pure (if entry.ttl < now - entry.fetchedAt then none else some entry)

/-- `strings.TrimSuffix(target, ".")`. -/
def trimDot (target : Text) : Text :=
  if target.getLast? = some '.' then target.dropLast else target

/-- `lookupSRV`, with its cache. -/
def lookupSRV (service proto hostname serverName : Text) : Net (Option ResolvedServer) := do
  let cacheKey := service ++ '.' :: proto ++ '.' :: hostname
  match ← srvCacheGet cacheKey with
  | some entry =>
    pure (if entry.isError then none else some ⟨entry.target, entry.port, serverName, []⟩)
  | none =>
    match ← (query (.lookupSRV service proto hostname) :
        Net (List (Text × Nat) × Option Bool)) with
    | ((target, port) :: _, none) =>
      let now ← timeNow
      query (.srvSet cacheKey ⟨trimDot target, port, now, false, false⟩)
      pure (some ⟨trimDot target, port, serverName, []⟩)
    | (addrs, err) =>
      let now ← timeNow
      query (.srvSet cacheKey ⟨[], 0, now, true, addrs = [] ∨ err = some true⟩)
      pure none

/-- SRV records, the current service before the deprecated one, or else the host itself. -/
def resolveBySRV (hostname serverName : Text) : Net ResolvedServer := do
  match ← lookupSRV "_matrix-fed".toList "_tcp".toList hostname serverName with
  | some resolved => pure resolved
  | none =>
    match ← lookupSRV "_matrix".toList "_tcp".toList hostname serverName with
    | some resolved => pure resolved
    | none => pure ⟨hostname, 8448, serverName, []⟩

/-! ## Resolution -/

/-- `resolveDelegated`. -/
def resolveDelegated (wk : WellKnownEntry) (originalServerName : Text) : Net ResolvedServer :=
  if (parseIP wk.host).isSome then
    pure ⟨wk.host, if wk.port = 0 then 8448 else wk.port, originalServerName, []⟩
  else if wk.port ≠ 0 then pure ⟨wk.host, wk.port, originalServerName, []⟩
  else resolveBySRV wk.host originalServerName

/-- `ResolveServerName`. -/
def resolveServerName (serverName : Text) : Net ResolvedServer := do
  let (hostname, port, isIP) := parseServerName serverName
  if isIP then pure ⟨hostname, if port = 0 then 8448 else port, serverName, []⟩
  else if port ≠ 0 then pure ⟨hostname, port, serverName, []⟩
  else
    match ← resolveWellKnown hostname with
    | some delegated => resolveDelegated delegated serverName
    | none => resolveBySRV hostname serverName

end MxKeys.Keys
