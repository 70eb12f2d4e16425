/-
# MxKeys.Keys.Outbound — the connections of `FetchServerKeys`.

A fetch tries the server itself and then the fallback notaries.  Before it asks a resolved server
for keys, `rejectPrivateAddress` turns private addresses away and pins the others, so that the
connection goes to an address that was checked.  The request for a well-known document, which comes
before, is made by a client of its own without such a check; and the check lets the unspecified IPv6
address pass.

`outbound_public`: these two are the only ways to an internal address.  For a well-known request it
is the host in the form in which it is dialled that counts: full-width digits are an address, and an
empty host is the local system.
-/
import MxKeys.Keys.Resolver

namespace MxKeys.Keys

open MxKeys.Lib
open MxKeys.Lib.NetIP (IP parseIP parseAddr)
open List Option Prog

/-! ## Private addresses -/

/-- The networks of `isPrivateIP`. -/
def reserved : List NetIP.Network :=
  [⟨[0, 0, 0, 0], [255, 0, 0, 0]⟩, ⟨[100, 64, 0, 0], [255, 192, 0, 0]⟩,
    ⟨[169, 254, 0, 0], [255, 255, 0, 0]⟩, ⟨[192, 0, 0, 0], [255, 255, 255, 0]⟩,
    ⟨[192, 0, 2, 0], [255, 255, 255, 0]⟩, ⟨[198, 51, 100, 0], [255, 255, 255, 0]⟩,
    ⟨[203, 0, 113, 0], [255, 255, 255, 0]⟩, ⟨[224, 0, 0, 0], [240, 0, 0, 0]⟩,
    ⟨[240, 0, 0, 0], [240, 0, 0, 0]⟩, ⟨[255, 255, 255, 255], [255, 255, 255, 255]⟩]

/-- `isPrivateIP`. -/
def isPrivateIP (ip : IP) : Bool :=
  if NetIP.isLoopback ip || NetIP.isPrivate ip || NetIP.isLinkLocalUnicast ip ||
      NetIP.isLinkLocalMulticast ip then true
  else reserved.any fun network => network.contains ip

/-- An address that no connection should go to. -/
def Internal (ip : IP) : Prop :=
  NetIP.isUnspecified ip = true ∨ NetIP.isLoopback ip = true ∨ NetIP.isLinkLocalUnicast ip = true ∨
    NetIP.isLinkLocalMulticast ip = true ∨ NetIP.isPrivate ip = true ∨ isPrivateIP ip = true

variable {ip : IP}

/-- **`isPrivateIP` knows all internal addresses but one.** -/
theorem internal_iff : Internal ip ↔ isPrivateIP ip = true ∨ ip = unspecified6 := by
  constructor
  · intro h
    by_contra hno
    obtain ⟨hpriv, hne⟩ := not_or.1 hno
    unfold isPrivateIP at hpriv
    split_ifs at hpriv with hkind
    · exact hpriv rfl
    simp only [Bool.or_eq_true, not_or] at hkind
    obtain ⟨⟨⟨hloop, hprivate⟩, hlocal⟩, hmulti⟩ := hkind
    rcases h with hun | h | h | h | h | h
    · rcases NetIP.isUnspecified_iff.1 hun with rfl | h4
      · exact hne rfl
      · -- 0.0.0.0 is in the first network
        refine hpriv (any_eq_true.2 ⟨_, mem_cons_self, ?_⟩)
        unfold NetIP.Network.contains NetIP.test
        rw [h4]
        rfl
    · exact hloop h
    · exact hlocal h
    · exact hmulti h
    · exact hprivate h
    · unfold isPrivateIP at h
      rw [if_neg (by simp [hloop, hprivate, hlocal, hmulti])] at h
      exact hpriv h
  · rintro (h | rfl)
    · exact .inr (.inr (.inr (.inr (.inr h))))
    · exact .inl (by decide)

/-! ## The fetcher -/

/-- `Fetcher`, with its configuration. -/
structure Fetcher where
  fallbackServers : List Text
  trustedNotaries : Map TrustedNotary
  retryAttempts : Nat
  maxSignatures : Int
  blockPrivateIPs : Bool

section Fetch

variable (verify : Bytes → Bytes → Bytes → Bool) (f : Fetcher)

/-- `rejectPrivateAddress`; the public addresses found are pinned. -/
def rejectPrivateAddress (site : Site) (resolved : ResolvedServer) :
    Net (Except FetchError ResolvedServer) :=
  if ¬f.blockPrivateIPs then pure (.ok resolved)
  else
    match parseIP resolved.host with
    | some ip => pure (if isPrivateIP ip then .error .resolve else .ok resolved)
    | none => do
      match ← lookup site resolved.host with
      | none => pure (.error .resolve)
      | some ips =>
        pure (if ips = [] ∨ ips.any isPrivateIP then .error .resolve
          else .ok { resolved with pinnedIPs := ips })

/-- The connection of `clientForResolved`: to the pinned addresses if there are any. -/
def dialResolved (site : Site) (resolved : ResolvedServer) : Net Bool :=
  if resolved.pinnedIPs = [] then dial site resolved.host resolved.port
  else dialAddresses site resolved.port (resolved.pinnedIPs.flatMap fun ip => withFallback [ip])

/-- `maxFederationBody`. -/
def maxFederationBody : Nat := 1048576

/-- Resolve a name, check where it leads, and ask there; the client follows no redirect. -/
def requestKeys (site : Site) (name : Text) : Net (Except FetchError Bytes) := do
  let resolved ← resolveServerName name
  match ← rejectPrivateAddress f site resolved with
  | .error e => pure (.error e)
  | .ok resolved =>
    match ← roundTrip site resolved.host (dialResolved site resolved) with
    | .error e => pure (.error e)
    | .ok reply =>
      if reply.status ≠ 200 then pure (.error (.status reply.status))
      else
        match reply.body with
        | .error retryable => pure (.error (.request retryable))
        | .ok body =>
          pure (if maxFederationBody < body.length then .error (.request false) else .ok body)

/-- `fetchDirect`. -/
def fetchDirect (serverName : Text) : Net (Except FetchError ServerKeysResponse) := do
  match ← requestKeys f .direct serverName with
  | .error e => pure (.error e)
  | .ok body =>
    let now ← timeNow
    pure (acceptDirect verify f.maxSignatures (now / 1000000) serverName body)

/-- `fetchFromNotary`. -/
def fetchFromNotary (notary serverName : Text) : Net (Except FetchError ServerKeysResponse) := do
  match ← requestKeys f .notary notary with
  | .error e => pure (.error e)
  | .ok body => pure (acceptNotary verify f.trustedNotaries notary serverName body)

/-- `IsPermanentError`, or no error of the network. -/
def FetchError.isFinal : FetchError → Bool
  | .request retryable => !retryable
  | _ => true

/-- Wait before every try but the first; whether the context ended meanwhile. -/
def waitBackoff : Nat → Net Bool
  | 0 => pure false
  | attempt + 1 => query (.backoff (attempt + 1))

/-- The tries that are left, and the error of the last one. -/
def fetchDirectWithRetry (serverName : Text) :
    Nat → Option FetchError → Net (Except FetchError ServerKeysResponse)
  | 0, lastErr => pure (.error (lastErr.getD .allSourcesFailed))
  | left + 1, _ => do
    if ← waitBackoff (f.retryAttempts - (left + 1)) then pure (.error .contextCanceled)
    else
      match ← fetchDirect verify f serverName with
      | .ok resp => pure (.ok resp)
      | .error e =>
        if e.isFinal then pure (.error e) else fetchDirectWithRetry serverName left (some e)

/-- The loop over the fallback notaries. -/
def fetchFallback (serverName : Text) :
    List Text → Net (Except FetchError ServerKeysResponse)
  | [] => do
    let _ ← query (.recordFailure serverName)
    pure (.error .allSourcesFailed)
  | fallback :: rest => do
    match ← fetchFromNotary verify f fallback serverName with
    | .ok resp =>
      let _ ← query (.recordSuccess serverName)
      pure (.ok resp)
    | .error _ => fetchFallback serverName rest

/-- `FetchServerKeys`. -/
def fetchServerKeys (serverName : Text) : Net (Except FetchError ServerKeysResponse) := do
  let canceled : Bool ← query .ctxErr
  if canceled then pure (.error .contextCanceled)
  else
    let allowed : Bool ← query (.allow serverName)
    if ¬allowed then pure (.error .circuitOpen)
    else
      let acquired : Bool ← query .acquire
      if ¬acquired then pure (.error .concurrencyLimit)
      else
        match ← fetchDirectWithRetry verify f serverName f.retryAttempts none with
        | .ok resp =>
          let _ ← query (.recordSuccess serverName)
          pure (.ok resp)
        | .error _ => fetchFallback verify f serverName f.fallbackServers

end Fetch

/-! ## Where connections go -/

/-- A host that is not the local system and no internal address. -/
def OutsideHost (host : Text) : Prop :=
  host ≠ [] ∧ ∀ ip, parseAddr host = some ip → ¬Internal ip

/-- The hosts and the answers that keep connections off internal addresses: what a well-known
request is made to is no internal address, by its literal, in the form in which it is dialled or by
the answer of DNS; and no other host stands for the address `::`. -/
def Benign : (o : NetOp) → o.Answer → Prop
  | .newRequest .wellKnown host, _ => OutsideHost host
  | .newRequest _ host, _ => parseAddr host ≠ some unspecified6
  | .toASCII .wellKnown _, host => OutsideHost host
  | .lookupIP .wellKnown _, answer => ∀ ips : List IP, answer = some ips → ∀ ip ∈ ips, ¬Internal ip
  | .lookupIP _ _, answer => ∀ ips : List IP, answer = some ips → unspecified6 ∉ ips
  | _, _ => True

/-- A connection goes to no internal address. -/
def Outward : NetOp → Prop
  | .connect _ ip _ => ¬Internal ip
  | _ => True

/-- Such connections only, if the answers are benign; no record is kept. -/
def outbound : Contract NetOp NetOp.Answer Unit :=
  ⟨fun _ _ _ => (), fun _ => Outward, fun _ => Benign⟩

/-- A program makes such connections only, and returns what satisfies `post`. -/
abbrev Net.Gives {α : Type} (p : Net α) (post : α → Prop) : Prop :=
  Ensures outbound (fun a _ => post a) p ()

abbrev Net.Safe {α : Type} (p : Net α) : Prop := p.Gives fun _ => True

variable {o : NetOp}

theorem safe_query (h : Outward o) : (query o).Safe :=
  ensures_op h fun _ _ => trivial

variable {α : Type}

theorem safe_pure (a : α) : Net.Safe (pure a) := ensures_pure trivial

variable {β : Type}

theorem safe_bind {p : Net α} {k : α → Net β} (hp : p.Safe) (hk : ∀ a, (k a).Safe) :
    Net.Safe (p >>= k) := ensures_bind hp fun a _ _ => hk a

theorem gives_bind {post : α → Prop} {post' : β → Prop} {p : Net α} {k : α → Net β}
    (hp : p.Gives post) (hk : ∀ a, post a → (k a).Gives post') : Net.Gives (p >>= k) post' :=
  ensures_bind hp fun a _ ha => hk a ha

/-- An operation and what follows it. -/
theorem gives_query {post : β → Prop} {k : o.Answer → Net β} (ho : Outward o)
    (hk : ∀ answer, Benign o answer → (k answer).Gives post) :
    Net.Gives (query o >>= k) post := ensures_ask ho hk

variable {site : Site} {port : Nat}

theorem safe_dialAddresses {ips : List IP} (h : ∀ ip ∈ ips, ¬Internal ip) :
    (dialAddresses site port ips).Safe := by
  induction ips with
  | nil => exact safe_pure _
  | cons ip ips ih =>
    obtain ⟨hip, hips⟩ := forall_mem_cons.1 h
    refine safe_bind (safe_query (o := .connect site ip port) hip) fun connected => ?_
    split_ifs
    · exact safe_pure _
    · exact ih hips

/-- Addresses that are not internal, with the one that is tried after `::`. -/
theorem withFallback_public {ips : List IP} (h : ∀ ip ∈ ips, ¬Internal ip) :
    withFallback ips = ips := by
  refine if_neg fun heq => ?_
  exact h unspecified6 (heq ▸ mem_singleton_self _) (internal_iff.2 (.inr rfl))

theorem safe_dialFallback {ips : List IP} (h : ∀ ip ∈ ips, ¬Internal ip) :
    (dialAddresses site port (withFallback ips)).Safe := by
  rw [withFallback_public h]
  exact safe_dialAddresses h

variable {host : Text}

/-- An address is dialled as it is. -/
theorem dialHost_literal (h : parseAddr host = some ip) : dialHost site host = pure host :=
  if_pos (.inl (isSome_iff_exists.2 ⟨ip, h⟩))

theorem safe_roundTrip {dialing : Net Bool}
    (h : ∀ fails, Benign (.newRequest site host) fails → dialing.Safe) :
    (roundTrip site host dialing).Safe := by
  refine gives_query (o := .newRequest site host) trivial fun fails hfails => ?_
  split_ifs
  · exact safe_pure _
  · refine safe_bind (h fails hfails) fun connected => ?_
    split_ifs
    · refine safe_bind (safe_query (o := .exchange site) trivial) fun answer => ?_
      cases answer <;> exact safe_pure _
    · exact safe_pure _

/-! ## Resolution -/

theorem safe_dial_wellKnown (h : OutsideHost host) : (dial .wellKnown host port).Safe := by
  have hhost : (dialHost .wellKnown host).Gives OutsideHost := by
    unfold dialHost
    split
    · exact ensures_pure h
    · have hquery : Outward (.toASCII .wellKnown host) := trivial
      exact ensures_op hquery fun mapped hmapped => hmapped
  refine gives_bind hhost fun dialled hdialled => ?_
  rw [if_neg hdialled.1]
  unfold lookup
  cases haddr : parseAddr dialled with
  | some ip =>
    have hpublic : ∀ ip' ∈ [ip], ¬Internal ip' := forall_mem_singleton.2 (hdialled.2 ip haddr)
    exact safe_dialFallback hpublic
  | none =>
    refine gives_query (o := .lookupIP .wellKnown dialled) trivial fun answer hanswer => ?_
    cases answer with
    | none => exact safe_pure _
    | some ips => exact safe_dialFallback (hanswer ips rfl)

theorem safe_clientDo (left : Nat) (host : Text) (port : Nat) :
    (clientDo left host port).Safe := by
  induction left generalizing host port with
  | zero => exact safe_pure _
  | succ left ih =>
    refine safe_bind (safe_roundTrip fun _ hhost => safe_dial_wellKnown hhost) fun result => ?_
    cases result with
    | error _ => exact safe_pure _
    | ok reply =>
      dsimp only
      split
      · exact safe_pure _
      · split_ifs
        · exact ih _ _
        · exact safe_pure _
        · exact safe_pure _

theorem safe_wellKnownCacheGet (hostname : Text) : (wellKnownCacheGet hostname).Safe := by
  refine safe_bind (safe_query (o := .wellKnownGet hostname) trivial) fun entry => ?_
  cases entry with
  | none => exact safe_pure _
  | some entry => exact safe_bind (safe_query (o := .now) trivial) safe_pure

theorem safe_resolveWellKnown (hostname : Text) : (resolveWellKnown hostname).Safe := by
  refine safe_bind (safe_wellKnownCacheGet hostname) fun cached => ?_
  cases cached with
  | some entry => exact safe_pure _
  | none =>
    refine safe_bind (safe_clientDo _ _ _) fun reply => ?_
    split
    · refine safe_bind ?_ safe_pure
      exact safe_bind (safe_query (o := .now) trivial) fun _ => safe_query trivial
    · refine safe_bind (safe_query (o := .now) trivial) fun now => ?_
      exact safe_bind (safe_query trivial) safe_pure

/-- A program that resolves a name: nothing is pinned yet. -/
abbrev Net.Resolves (p : Net ResolvedServer) : Prop :=
  p.Gives fun resolved => resolved.pinnedIPs = []

theorem resolves_lookupSRV (service proto hostname serverName : Text) :
    (lookupSRV service proto hostname serverName).Gives
      fun resolved => ∀ r : ResolvedServer, resolved = some r → r.pinnedIPs = [] := by
  have hget : ∀ key, (srvCacheGet key).Safe := by
    intro key
    refine safe_bind (safe_query (o := .srvGet key) trivial) fun entry => ?_
    cases entry with
    | none => exact safe_pure _
    | some entry => exact safe_bind (safe_query (o := .now) trivial) safe_pure
  refine gives_bind (hget _) fun cached _ => ?_
  cases cached with
  | some entry =>
    refine ensures_pure fun r hr => ?_
    split_ifs at hr
    rw [← some.inj hr]
  | none =>
    refine gives_query (o := .lookupSRV service proto hostname) trivial fun answer _ => ?_
    split
    · refine gives_query (o := .now) trivial fun now _ => ?_
      refine gives_bind (safe_query trivial) fun _ _ => ensures_pure fun r hr => ?_
      rw [← some.inj hr]
    · refine gives_query (o := .now) trivial fun now _ => ?_
      exact gives_bind (safe_query trivial) fun _ _ => ensures_pure nofun

theorem resolves_resolveBySRV (hostname serverName : Text) :
    (resolveBySRV hostname serverName).Resolves := by
  refine gives_bind (resolves_lookupSRV _ _ _ _) fun current hcurrent => ?_
  cases current with
  | some resolved => exact ensures_pure (hcurrent resolved rfl)
  | none =>
    refine gives_bind (resolves_lookupSRV _ _ _ _) fun deprecated hdeprecated => ?_
    cases deprecated with
    | some resolved => exact ensures_pure (hdeprecated resolved rfl)
    | none => exact ensures_pure rfl

theorem resolves_resolveServerName (serverName : Text) :
    (resolveServerName serverName).Resolves := by
  unfold resolveServerName
  dsimp only
  split
  · exact ensures_pure rfl
  split
  · exact ensures_pure rfl
  · refine gives_bind (safe_resolveWellKnown _) fun delegated _ => ?_
    cases delegated with
    | some wk =>
      dsimp only
      unfold resolveDelegated
      split
      · exact ensures_pure rfl
      split
      · exact ensures_pure rfl
      · exact resolves_resolveBySRV _ _
    | none => exact resolves_resolveBySRV _ _

/-! ## Requests for keys -/

/-- What `rejectPrivateAddress` lets pass. -/
structure ResolvedServer.Checked (r : ResolvedServer) : Prop where
  literal : r.pinnedIPs = [] → ∃ ip, parseIP r.host = some ip ∧ isPrivateIP ip = false
  pinned : ∀ ip ∈ r.pinnedIPs, isPrivateIP ip = false ∧
    (ip = unspecified6 → parseAddr r.host = some ip)

theorem parseAddr_of_parseIP (h : parseIP host = some ip) :
    parseAddr host = some ip := by
  unfold parseAddr
  split_ifs with hzone hempty
  · unfold parseIP at h
    rw [hzone.1] at h
    simp [hzone.2] at h
  · unfold parseIP at h
    rw [hzone.1] at h
    simp [hzone.2] at h
  · exact h

section Requests

variable {verify : Bytes → Bytes → Bytes → Bool} {f : Fetcher} {site : Site} {host : Text}
  {resolved : ResolvedServer}

theorem benign_newRequest (hsite : site ≠ .wellKnown) {fails : Bool}
    (h : Benign (.newRequest site host) fails) : parseAddr host ≠ some unspecified6 := by
  cases site with
  | wellKnown => exact absurd rfl hsite
  | direct | notary => exact h

theorem benign_lookupIP (hsite : site ≠ .wellKnown) {ips : List IP}
    (h : Benign (.lookupIP site host) (some ips)) : unspecified6 ∉ ips := by
  cases site with
  | wellKnown => exact absurd rfl hsite
  | direct | notary => exact h ips rfl

theorem gives_rejectPrivateAddress (hblock : f.blockPrivateIPs = true) (hsite : site ≠ .wellKnown)
    (hresolved : resolved.pinnedIPs = []) :
    (rejectPrivateAddress f site resolved).Gives
      fun result => ∀ r : ResolvedServer, result = .ok r → r.Checked := by
  unfold rejectPrivateAddress
  rw [if_neg (by simp [hblock])]
  cases hparse : parseIP resolved.host with
  | some ip =>
    refine ensures_pure fun r hr => ?_
    split_ifs at hr with hpriv
    obtain rfl := Except.ok.inj hr
    refine ⟨fun _ => ⟨ip, hparse, Bool.eq_false_iff.2 hpriv⟩, fun ip' hip' => ?_⟩
    rw [hresolved] at hip'
    cases hip'
  | none =>
    -- the addresses that were looked up, and where `::` can come from
    have hlookup : (lookup site resolved.host).Gives fun answer => ∀ ips : List IP,
        answer = some ips → unspecified6 ∈ ips →
        parseAddr resolved.host = some unspecified6 := by
      unfold lookup
      cases haddr : parseAddr resolved.host with
      | some ip =>
        refine ensures_pure fun ips hips hmem => ?_
        cases hips
        rw [mem_singleton.1 hmem]
      | none =>
        have hquery : Outward (.lookupIP site resolved.host) := trivial
        refine ensures_op hquery fun answer hok ips hips hmem => ?_
        obtain rfl : answer = some ips := hips
        exact absurd hmem (benign_lookupIP hsite hok)
    refine gives_bind hlookup fun answer hanswer => ?_
    cases answer with
    | none => exact ensures_pure nofun
    | some ips =>
      refine ensures_pure fun r hr => ?_
      split_ifs at hr with hbad
      obtain rfl := Except.ok.inj hr
      obtain ⟨hne, hany⟩ := not_or.1 hbad
      refine ⟨fun hnil => absurd hnil hne, fun ip hip => ⟨?_, ?_⟩⟩
      · exact Bool.eq_false_iff.2 fun hpriv => hany (any_eq_true.2 ⟨ip, hip, hpriv⟩)
      · rintro rfl
        exact hanswer ips rfl hip

theorem safe_dialResolved (hchecked : resolved.Checked)
    (hhost : parseAddr resolved.host ≠ some unspecified6) : (dialResolved site resolved).Safe := by
  unfold dialResolved
  split_ifs with hnil
  · obtain ⟨ip, hip, hpriv⟩ := hchecked.literal hnil
    have haddr := parseAddr_of_parseIP hip
    have hne : resolved.host ≠ [] := by
      intro hempty
      rw [hempty] at hip
      cases hip
    have hpublic : ∀ ip' ∈ [ip], ¬Internal ip' := forall_mem_singleton.2 fun hinternal => by
      rcases internal_iff.1 hinternal with h | rfl
      · exact absurd h (Bool.eq_false_iff.1 hpriv)
      · exact hhost haddr
    unfold dial
    rw [dialHost_literal haddr]
    show Net.Safe (if resolved.host = [] then _ else _)
    rw [if_neg hne, lookup, haddr]
    exact safe_dialFallback hpublic
  · have hpublic : ∀ ip ∈ resolved.pinnedIPs, ¬Internal ip := by
      intro ip hip hinternal
      obtain ⟨hpriv, horigin⟩ := hchecked.pinned ip hip
      rcases internal_iff.1 hinternal with h | rfl
      · exact absurd h (Bool.eq_false_iff.1 hpriv)
      · exact hhost (horigin rfl)
    refine safe_dialAddresses fun ip hip => ?_
    obtain ⟨pinned, hpinned, hip⟩ := mem_flatMap.1 hip
    have hone : ∀ ip ∈ [pinned], ¬Internal ip := forall_mem_singleton.2 (hpublic pinned hpinned)
    rw [withFallback_public hone] at hip
    exact hone ip hip

theorem safe_requestKeys (hblock : f.blockPrivateIPs = true) (hsite : site ≠ .wellKnown)
    (name : Text) : (requestKeys f site name).Safe := by
  refine gives_bind (resolves_resolveServerName name) fun resolved hresolved => ?_
  refine gives_bind (gives_rejectPrivateAddress hblock hsite hresolved) fun result hres => ?_
  cases result with
  | error e => exact safe_pure _
  | ok resolved =>
    refine safe_bind (safe_roundTrip fun fails hfails => ?_) fun answer => ?_
    · exact safe_dialResolved (hres resolved rfl) (benign_newRequest hsite hfails)
    · cases answer with
      | error e => exact safe_pure _
      | ok reply =>
        dsimp only
        split_ifs
        · exact safe_pure _
        · split
          · exact safe_pure _
          · exact safe_pure _

theorem safe_fetchDirect (hblock : f.blockPrivateIPs = true) (serverName : Text) :
    (fetchDirect verify f serverName).Safe := by
  refine safe_bind (safe_requestKeys hblock (by decide) serverName) fun result => ?_
  cases result with
  | error e => exact safe_pure _
  | ok body => exact safe_bind (safe_query (o := .now) trivial) safe_pure

theorem safe_fetchDirectWithRetry (hblock : f.blockPrivateIPs = true) (serverName : Text)
    (left : Nat) (lastErr : Option FetchError) :
    (fetchDirectWithRetry verify f serverName left lastErr).Safe := by
  induction left generalizing lastErr with
  | zero => exact safe_pure _
  | succ left ih =>
    have hwait : ∀ attempt, (waitBackoff attempt).Safe := by
      intro attempt
      cases attempt with
      | zero => exact safe_pure _
      | succ attempt => exact safe_query (o := .backoff (attempt + 1)) trivial
    refine safe_bind (hwait _) fun ended => ?_
    split
    · exact safe_pure _
    · refine safe_bind (safe_fetchDirect hblock serverName) fun result => ?_
      cases result with
      | ok resp => exact safe_pure _
      | error e =>
        dsimp only
        split_ifs
        · exact safe_pure _
        · exact ih _

theorem safe_fetchFallback (hblock : f.blockPrivateIPs = true) (serverName : Text)
    (fallbacks : List Text) : (fetchFallback verify f serverName fallbacks).Safe := by
  induction fallbacks with
  | nil => exact safe_bind (safe_query trivial) safe_pure
  | cons fallback rest ih =>
    have hfetch : (fetchFromNotary verify f fallback serverName).Safe := by
      refine safe_bind (safe_requestKeys hblock (by decide) fallback) fun result => ?_
      cases result <;> exact safe_pure _
    refine safe_bind hfetch fun result => ?_
    cases result with
    | ok resp => exact safe_bind (safe_query trivial) safe_pure
    | error e => exact ih

theorem safe_fetchServerKeys (hblock : f.blockPrivateIPs = true) (serverName : Text) :
    (fetchServerKeys verify f serverName).Safe := by
  refine safe_bind (safe_query (o := .ctxErr) trivial) fun canceled => ?_
  split
  · exact safe_pure _
  · refine safe_bind (safe_query (o := .allow serverName) trivial) fun allowed => ?_
    split
    · exact safe_pure _
    · refine safe_bind (safe_query (o := .acquire) trivial) fun acquired => ?_
      split
      · exact safe_pure _
      · refine safe_bind (safe_fetchDirectWithRetry hblock serverName _ none) fun result => ?_
        cases result with
        | ok resp => exact safe_bind (safe_query trivial) safe_pure
        | error e => exact safe_fetchFallback hblock serverName _

/-- **Where connections go.**  With private addresses blocked, in every run of `FetchServerKeys` in
which the hosts of well-known requests stand for no internal address and no other host for `::`, no
connection goes to an internal address. -/
theorem outbound_public (hblock : f.blockPrivateIPs = true) {serverName : Text}
    {run : List ((o : NetOp) × o.Answer)} (hrun : ∀ e ∈ run, Benign e.1 e.2) {site : Site} {ip : IP}
    {port : Nat}
    (h : (fetchServerKeys verify f serverName).Performed run (.connect site ip port)) :
    ¬Internal ip := by
  obtain ⟨_, houtward⟩ := (safe_fetchServerKeys hblock serverName).run (fun e he _ => hrun e he) h
  exact houtward

end Requests

/-! ## Runs on samples -/

/-- A network in which every name has these addresses and nobody answers. -/
def sampleEnv (ips : List IP) : (o : NetOp) → o.Answer
  | .ctxErr => false
  | .allow _ => true
  | .acquire => true
  | .recordSuccess _ => ()
  | .recordFailure _ => ()
  | .backoff _ => false
  | .now => (0 : Nat)
  | .wellKnownGet _ => none
  | .wellKnownSet _ _ => ()
  | .srvGet _ => none
  | .srvSet _ _ => ()
  | .lookupSRV _ _ _ => ([], some true)
  | .newRequest _ _ => false
  | .toASCII _ host => host
  | .lookupIP _ _ => some ips
  | .connect _ _ _ => false
  | .exchange _ => .error false

def sampleFetcher : Fetcher := ⟨[], [], 1, 10, true⟩

/-- The fetch of a server's keys in that network. -/
def sampleFetch (serverName : String) : Net (Except FetchError ServerKeysResponse) :=
  fetchServerKeys (fun _ _ _ => false) sampleFetcher serverName.toList

/-- A server with a public address: it is dialled for its well-known document and for its keys. -/
theorem outbound_public_server :
    (sampleFetch "a").Performed (Prog.play (sampleEnv [[8, 8, 8, 8]]) (sampleFetch "a")).1
      (.connect .direct [8, 8, 8, 8] 8448) ∧ ¬Internal [8, 8, 8, 8] := by
  have hops : (play (sampleEnv [[8, 8, 8, 8]]) (sampleFetch "a")).1.map Sigma.fst =
      [.ctxErr, .allow ['a'], .acquire, .wellKnownGet ['a'], .newRequest .wellKnown ['a'],
        .lookupIP .wellKnown ['a'], .connect .wellKnown [8, 8, 8, 8] 443, .now,
        .wellKnownSet ['a'] ⟨[], 0, 0, true, .errTemporary⟩, .srvGet "_matrix-fed._tcp.a".toList,
        .lookupSRV "_matrix-fed".toList "_tcp".toList ['a'], .now,
        .srvSet "_matrix-fed._tcp.a".toList ⟨[], 0, 0, true, true⟩, .srvGet "_matrix._tcp.a".toList,
        .lookupSRV "_matrix".toList "_tcp".toList ['a'], .now,
        .srvSet "_matrix._tcp.a".toList ⟨[], 0, 0, true, true⟩, .lookupIP .direct ['a'],
        .newRequest .direct ['a'], .connect .direct [8, 8, 8, 8] 8448, .recordFailure ['a']] := by
    decide +kernel
  have hdial : (sampleFetch "a").Performed
      (play (sampleEnv [[8, 8, 8, 8]]) (sampleFetch "a")).1
      (.connect .direct [8, 8, 8, 8] 8448) := by
    refine performed_play ?_
    rw [hops]
    simp
  have hpublic : ¬Internal [8, 8, 8, 8] := by
    rw [internal_iff]
    decide
  refine ⟨hdial, outbound_public rfl (fun e he => ?_) hdial⟩
  have hmem : e.1 ∈ (play (sampleEnv [[8, 8, 8, 8]]) (sampleFetch "a")).1.map Sigma.fst :=
    mem_map_of_mem he
  rw [play_answer he]
  rw [hops] at hmem
  generalize e.1 = o at hmem ⊢
  have hnone : parseAddr ['a'] = none := by decide
  simp only [mem_cons, not_mem_nil, or_false] at hmem
  rcases hmem with rfl | rfl | rfl | rfl | rfl | rfl | rfl | rfl | rfl | rfl | rfl | rfl |
    rfl | rfl | rfl | rfl | rfl | rfl | rfl | rfl | rfl
  all_goals first | trivial | skip
  · exact ⟨by decide, by simp [hnone]⟩
  · intro ips hips
    cases hips
    exact forall_mem_singleton.2 hpublic
  · intro ips hips
    cases hips
    decide
  · show parseAddr ['a'] ≠ some unspecified6
    simp [hnone]

/-- **Two ways to an internal address.**  The name of a server that has a private address is dialled
for the well-known document; and a server of the name `[::]` is dialled for its keys, at the address
that the kernel takes for the own host. -/
theorem internal_dialled :
    (∃ run, (sampleFetch "a").Performed run (.connect .wellKnown [10, 0, 0, 1] 443) ∧
      Internal [10, 0, 0, 1]) ∧
    ∃ run, (sampleFetch "[::]").Performed run (.connect .direct unspecified6 8448) ∧
      Internal unspecified6 := by
  have hwellKnown : NetOp.connect .wellKnown [10, 0, 0, 1] 443 ∈
      (play (sampleEnv [[10, 0, 0, 1]]) (sampleFetch "a")).1.map Sigma.fst := by decide +kernel
  have hdirect : NetOp.connect .direct unspecified6 8448 ∈
      (play (sampleEnv []) (sampleFetch "[::]")).1.map Sigma.fst := by decide +kernel
  refine ⟨⟨_, performed_play hwellKnown, ?_⟩, _, performed_play hdirect, ?_⟩
  · exact internal_iff.2 (.inl (by decide))
  · exact internal_iff.2 (.inr rfl)

end MxKeys.Keys
