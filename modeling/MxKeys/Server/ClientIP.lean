/-
# MxKeys.Server.ClientIP — the address that a request counts for.

Requests are limited per client address.  Behind a proxy the address comes from `X-Forwarded-For`: a
client may send any text there, and each proxy adds the address that it was called from.  Seen from
the right, the first address that is no trusted proxy is therefore the client's.

A header may come in several lines, which stand for their elements in order.  The code looks at the
first line only, so a client that sends a line of its own chooses its address whenever the proxies
add theirs below: `forwarded_client_iff`.
-/
import MxKeys.Lib.Utf8
import MxKeys.Keys.Resolver

namespace MxKeys.Server

open MxKeys.Lib
open MxKeys.Lib.NetIP (IP IPNet parseIP parseCIDR cidrMask to4)
open MxKeys.Keys (cutLast trimSpace)
open List Utf8

/-! ## Requests -/

/-- `net.SplitHostPort`. -/
def splitHostPort (hostport : Text) : Option (Text × Text) :=
  match cutLast ':' hostport with
  | none => none
  | some (host, port) =>
    if hostport.head? = some '[' then
      -- the first `]` has to stand just before the last colon
      let bracket := hostport.takeWhile (· ≠ ']')
      if host = bracket ++ [']'] ∧ '[' ∉ hostport.tail ∧ ']' ∉ port then some (bracket.tail, port)
      else none
    else if ':' ∈ host ∨ '[' ∈ hostport ∨ ']' ∈ hostport then none
    else some (host, port)

/-- `textproto.CanonicalMIMEHeaderKey`, for a key of letters and hyphens. -/
def canonicalKey : Bool → Text → Text
  | _, [] => []
  | upper, c :: key => (if upper then c.toUpper else c.toLower) :: canonicalKey (c = '-') key

/-- The lines of every header, under its canonical key. -/
def Header := Text → List Bytes

/-- `Header.Get`: the first line, or nothing. -/
def Header.get (h : Header) (key : String) : Bytes :=
  (h (canonicalKey true key.toList)).headD []

/-- All lines of `X-Forwarded-For`. -/
def Header.forwardedFor (h : Header) : List Bytes := h "X-Forwarded-For".toList

theorem Header.get_forwardedFor (h : Header) :
    h.get "X-Forwarded-For" = h.forwardedFor.headD [] := rfl

/-- What is read of an `http.Request`. -/
structure Request where
  remoteAddr : Text
  header : Header

/-! ## The policy -/

/-- What `ConfigureClientIPPolicy` sets. -/
structure ClientIPPolicy where
  trustForwardedHeaders : Bool
  trustedProxyNetworks : List IPNet
deriving DecidableEq

/-- The network of one entry of the configuration; the error quotes the entry. -/
def proxyNetwork (raw : Text) : Except Text IPNet :=
  match parseIP raw with
  | some ip =>
    let maskBits := if to4 ip = none then 128 else 32
    .ok ⟨ip, cidrMask maskBits maskBits⟩
  | none =>
    match parseCIDR raw with
    | some network => .ok network
    | none => .error raw

/-- `ConfigureClientIPPolicy`: the policy from now on, or an error that leaves the old one. -/
def configureClientIPPolicy (trustForwarded : Bool) (trustedProxies : List Text) :
    Except Text ClientIPPolicy := do
  let networks ← ((trustedProxies.map trimSpace).filter (· ≠ [])).mapM proxyNetwork
  return ⟨trustForwarded, networks⟩

variable (policy : ClientIPPolicy)

/-- `isTrustedProxyIP`. -/
def isTrustedProxyIP (ip : Option IP) : Bool :=
  ip.any fun ip => policy.trustedProxyNetworks.any fun network => network.contains ip

/-- `shouldTrustForwardedHeaders`. -/
def shouldTrustForwardedHeaders (directIP : Option IP) : Bool :=
  policy.trustForwardedHeaders &&
    directIP.any fun ip => policy.trustedProxyNetworks.any fun network => network.contains ip

/-! ## The address of a request -/

/-- `directPeerIP`. -/
def directPeerIP (r : Request) : Option IP :=
  match splitHostPort r.remoteAddr with
  | none => parseIP (trimSpace r.remoteAddr)
  | some (host, _) => parseIP (trimSpace host)

/-- What stands between the commas of a header. -/
def elements (header : Bytes) : List Bytes := header.splitOn 44

/-- The address that an element is read as. -/
def candidateIP (candidate : Bytes) : Option IP := parseIP (trimSpace (decode candidate))

/-- `forwardedIPChain`: what is no address is left out. -/
def forwardedIPChain (header : Bytes) : List IP := (elements header).filterMap candidateIP

/-- The part of `forwardedClientIP` about `X-Forwarded-For`: the last address that is no trusted
proxy, and the first one if all are. -/
def chainClientIP (chain : List IP) : Option IP :=
  (chain.reverse.find? fun ip => !isTrustedProxyIP policy (some ip)).or chain.head?

/-- `forwardedClientIP`. -/
def forwardedClientIP (r : Request) : Option IP :=
  let xff := r.header.get "X-Forwarded-For"
  let xri := trimSpace (decode (r.header.get "X-Real-IP"))
  (if xff ≠ [] then chainClientIP policy (forwardedIPChain xff) else none).or
    (if xri ≠ [] then parseIP xri else none)

/-- `clientIPFromRequest`. -/
def clientIPFromRequest (r : Request) : Text :=
  let directIP := directPeerIP r
  let forwarded :=
    if shouldTrustForwardedHeaders policy directIP then forwardedClientIP policy r else none
  match forwarded with
  | some ip => NetIP.text ip
  | none =>
    match directIP with
    | none => r.remoteAddr
    | some ip => NetIP.text ip

variable {policy} {ip : IP} {line : Bytes} {lines : List Bytes}

theorem clientIP_of_forwarded {r : Request}
    (hpeer : shouldTrustForwardedHeaders policy (directPeerIP r) = true)
    (hip : forwardedClientIP policy r = some ip) :
    clientIPFromRequest policy r = NetIP.text ip := by
  unfold clientIPFromRequest
  dsimp only
  rw [if_pos hpeer, hip]

theorem forwarded_of_chain {r : Request} (hlines : r.header.forwardedFor = line :: lines)
    (hne : line ≠ []) (hip : chainClientIP policy (forwardedIPChain line) = some ip) :
    forwardedClientIP policy r = some ip := by
  unfold forwardedClientIP
  rw [Header.get_forwardedFor, hlines, headD_cons]
  dsimp only
  rw [if_pos hne, hip, Option.some_or]

/-- Trusted proxies on the right are passed over. -/
theorem chainClientIP_append {client proxies : List IP} {c : IP}
    (hc : isTrustedProxyIP policy (some c) = false)
    (hproxies : ∀ ip ∈ proxies, isTrustedProxyIP policy (some ip) = true) :
    chainClientIP policy (client ++ c :: proxies) = some c := by
  have hnone : proxies.reverse.find? (fun ip => !isTrustedProxyIP policy (some ip)) = none := by
    rw [find?_eq_none]
    intro ip hip
    simp [hproxies ip (mem_reverse.1 hip)]
  unfold chainClientIP
  rw [reverse_append, reverse_cons, find?_append, find?_append, hnone]
  simp [hc]

/-- An address alone is the client, trusted or not. -/
theorem chainClientIP_singleton (ip : IP) : chainClientIP policy [ip] = some ip := by
  unfold chainClientIP
  cases h : isTrustedProxyIP policy (some ip) <;> simp [h]

/-! ## Several lines -/

/-- The elements of lines joined with commas are those of the lines. -/
theorem elements_join (h : lines ≠ []) :
    elements ([44].intercalate lines) = lines.flatMap elements := by
  induction lines with
  | nil => exact absurd rfl h
  | cons line lines ih =>
    cases lines with
    | nil => simp
    | cons next lines =>
      have ih := ih (cons_ne_nil _ _)
      rw [intercalate_cons_cons, append_assoc, singleton_append, elements,
        splitOn_append_cons_self, ← elements, ← elements, ih]
      rfl

/-- The number of the line that an element stands in, from 0. -/
def lineOf : List Bytes → Nat → Nat
  | [], _ => 0
  | line :: lines, k =>
    if k < (elements line).length then 0 else lineOf lines (k - (elements line).length) + 1

theorem lineOf_replicate (h : (elements line).length = 1) (last : Bytes) (n : Nat) :
    lineOf (replicate n line ++ [last]) n = n := by
  induction n with
  | zero =>
    have hpos : 0 < (elements last).length := length_pos_of_ne_nil (splitOn_ne_nil _ _)
    rw [replicate_zero, nil_append, lineOf, if_pos hpos]
  | succ n ih =>
    rw [replicate_succ, cons_append, lineOf, h, if_neg (by omega), Nat.add_sub_cancel, ih]

/-- If an element stands in the first line, so does all that comes before it. -/
theorem elements_first {client proxies : List Bytes} {hop : Bytes}
    (hall : (line :: lines).flatMap elements = client ++ hop :: proxies)
    (hfirst : lineOf (line :: lines) client.length = 0) :
    ∃ near far, elements line = client ++ hop :: near ∧ proxies = near ++ far := by
  have hlt : client.length < (elements line).length := by
    by_contra hge
    rw [lineOf, if_neg hge] at hfirst
    exact Nat.succ_ne_zero _ hfirst
  rw [flatMap_cons, append_eq_append_iff] at hall
  rcases hall with ⟨more, hclient, -⟩ | ⟨more, hline, hmore⟩
  · rw [hclient, length_append] at hlt
    omega
  · cases more with
    | nil =>
      rw [hline, append_nil] at hlt
      omega
    | cons first near =>
      rw [cons_append, cons.injEq] at hmore
      obtain ⟨rfl, hproxies⟩ := hmore
      exact ⟨near, _, hline, hproxies⟩

/-! ## What the client can choose -/

/-- What the proxies have added to the client's text: the address `c`, which is no trusted proxy, in
the element `hop`, and then only trusted proxies. -/
structure Hops (policy : ClientIPPolicy) (hop : Bytes) (proxies : List Bytes) (c : IP) :
    Prop where
  comma : ∀ element ∈ hop :: proxies, 44 ∉ element
  address : candidateIP hop = some c
  untrusted : isTrustedProxyIP policy (some c) = false
  trusted : ∀ proxy ∈ proxies, isTrustedProxyIP policy (candidateIP proxy) = true

/-- The lines of `X-Forwarded-For`, joined with commas, are the client's text and then the hops. -/
def Header.Forwards (h : Header) (client : List Bytes) (hop : Bytes)
    (proxies : List Bytes) : Prop :=
  elements ([44].intercalate h.forwardedFor) = client ++ hop :: proxies

section Hops

variable {hop : Bytes} {proxies : List Bytes} {c : IP}

theorem Hops.ne_nil (hops : Hops policy hop proxies c) : hop ≠ [] := by
  rintro rfl
  have h : (none : Option IP) = some c := hops.address
  cases h

variable {client : List Bytes}

/-- A header that says something about the client has a first line, with something in it. -/
theorem Hops.exists_first (hops : Hops policy hop proxies c) {h : Header}
    (hforwards : h.Forwards client hop proxies) :
    ∃ line lines, h.forwardedFor = line :: lines := by
  cases hlines : h.forwardedFor with
  | cons line lines => exact ⟨line, lines, rfl⟩
  | nil =>
    rw [Header.Forwards, hlines] at hforwards
    have hmem : hop ∈ elements [] := by
      rw [show elements [] = client ++ hop :: proxies from hforwards]
      exact mem_append_right _ mem_cons_self
    exact absurd (mem_singleton.1 hmem) hops.ne_nil

/-- The chain of a line with the client's address in it. -/
theorem Hops.chain (hops : Hops policy hop proxies c) {line : Bytes}
    {near far : List Bytes} (hline : elements line = client ++ hop :: near)
    (hnear : proxies = near ++ far) :
    chainClientIP policy (forwardedIPChain line) = some c := by
  unfold forwardedIPChain
  rw [hline, filterMap_append, filterMap_cons_some hops.address]
  apply chainClientIP_append hops.untrusted
  intro ip hip
  obtain ⟨proxy, hproxy, hproxyIP⟩ := mem_filterMap.1 hip
  have h := hops.trusted proxy (hnear ▸ mem_append_left far hproxy)
  rwa [hproxyIP] at h

/-- **The client's text in the first line does not matter.** -/
theorem Hops.client_of_first (hops : Hops policy hop proxies c) {r : Request}
    (hpeer : shouldTrustForwardedHeaders policy (directPeerIP r) = true)
    (hforwards : r.header.Forwards client hop proxies)
    (hfirst : lineOf r.header.forwardedFor client.length = 0) :
    clientIPFromRequest policy r = NetIP.text c := by
  obtain ⟨line, lines, hlines⟩ := hops.exists_first hforwards
  rw [Header.Forwards, hlines, elements_join (cons_ne_nil _ _)] at hforwards
  rw [hlines] at hfirst
  obtain ⟨near, far, hline, hnear⟩ := elements_first hforwards hfirst
  have hne : line ≠ [] := by
    rintro rfl
    have hmem : hop ∈ elements [] := by
      rw [hline]
      exact mem_append_right _ mem_cons_self
    exact hops.ne_nil (mem_singleton.1 hmem)
  exact clientIP_of_forwarded hpeer (forwarded_of_chain hlines hne (hops.chain hline hnear))

end Hops

/-- An address that a client may claim, one of two. -/
def claimed (last : Char) : Bytes := encode ("192.0.2.".toList ++ [last])

/-- The header of a client that sends `n` lines with an address of its choice, to which the proxies
add theirs in a line of its own. -/
def choosing (n : Nat) (last : Char) (hops : List Bytes) : Header := fun key =>
  if key = "X-Forwarded-For".toList then
    replicate n (claimed last) ++ [[44].intercalate hops]
  else []

variable {last : Char}

theorem elements_claimed (h : 44 ∉ claimed last) :
    elements (claimed last) = [claimed last] :=
  splitOn_eq_singleton h

theorem choosing_forwards (n : Nat) (hlast : 44 ∉ claimed last) {hop : Bytes}
    {proxies : List Bytes} (hcomma : ∀ element ∈ hop :: proxies, 44 ∉ element) :
    (choosing n last (hop :: proxies)).Forwards (replicate n (claimed last)) hop proxies := by
  have hhops : elements ([44].intercalate (hop :: proxies)) = hop :: proxies :=
    splitOn_intercalate 44 hcomma (cons_ne_nil _ _)
  have hclaimed : (replicate n (claimed last)).flatMap elements =
      replicate n (claimed last) := by
    induction n with
    | zero => rfl
    | succ n ih => rw [replicate_succ, flatMap_cons, ih, elements_claimed hlast]; rfl
  change elements ([44].intercalate
    (replicate n (claimed last) ++ [[44].intercalate (hop :: proxies)])) = _
  rw [elements_join (by simp), flatMap_append, hclaimed, flatMap_singleton, hhops]

theorem choosing_client {sent : Request} (n : Nat) (hops : List Bytes)
    (hpeer : shouldTrustForwardedHeaders policy (directPeerIP sent) = true)
    (hlast : 44 ∉ claimed last)
    (hip : parseIP (trimSpace ("192.0.2.".toList ++ [last])) = some ip) :
    clientIPFromRequest policy { sent with header := choosing (n + 1) last hops } =
      NetIP.text ip := by
  have hcandidate : candidateIP (claimed last) = some ip := by
    rw [candidateIP, claimed, decode_encode, hip]
  have hchain : forwardedIPChain (claimed last) = [ip] := by
    rw [forwardedIPChain, elements_claimed hlast, filterMap_cons_some hcandidate,
      filterMap_nil]
  have hclient : chainClientIP policy (forwardedIPChain (claimed last)) = some ip := by
    rw [hchain, chainClientIP_singleton]
  have hne : claimed last ≠ [] := encode_ne_nil (by simp)
  exact clientIP_of_forwarded hpeer (forwarded_of_chain rfl hne hclient)

/-- **Who chooses the address.** Whatever text a client sends through a trusted peer, the address
that counts is that of the last hop which is no trusted proxy, exactly if this hop stands in the
first line of `X-Forwarded-For`; below `n` lines of the client, the client chooses. -/
theorem forwarded_client_iff {sent : Request}
    (hpeer : shouldTrustForwardedHeaders policy (directPeerIP sent) = true) {hop : Bytes}
    {proxies : List Bytes} {c : IP} (hops : Hops policy hop proxies c) (n : Nat) :
    (∀ (header : Header) (client : List Bytes), header.Forwards client hop proxies →
      lineOf header.forwardedFor client.length = n →
      clientIPFromRequest policy { sent with header := header } = NetIP.text c) ↔ n = 0 := by
  constructor
  · intro hall
    by_contra hn
    obtain ⟨n, rfl⟩ := Nat.exists_eq_succ_of_ne_zero hn
    have hchosen : ∀ (last : Char) (ip : IP), 44 ∉ claimed last →
        parseIP (trimSpace ("192.0.2.".toList ++ [last])) = some ip →
        NetIP.text ip = NetIP.text c := by
      intro last ip hlast hip
      rw [← choosing_client n (hop :: proxies) hpeer hlast hip]
      apply hall _ _ (choosing_forwards (n + 1) hlast hops.comma)
      rw [length_replicate]
      exact lineOf_replicate (by rw [elements_claimed hlast]; rfl) _ _
    -- the client can have either of two addresses, and `c` is one at most
    have hone := hchosen '1' (NetIP.mapped [192, 0, 2, 1]) (by decide) (by decide)
    have htwo := hchosen '2' (NetIP.mapped [192, 0, 2, 2]) (by decide) (by decide)
    exact absurd (hone.trans htwo.symm) (by decide)
  · rintro rfl header client hforwards hfirst
    exact hops.client_of_first (r := { sent with header := header }) hpeer hforwards hfirst

/-- The policy for `trusted_proxies: 10.0.0.0/8`. -/
def tenPolicy : ClientIPPolicy := ⟨true, [⟨[10, 0, 0, 0], [255, 0, 0, 0]⟩]⟩

/-- A request through the proxy 10.1.2.3. -/
def proxied (lines : List String) : Request where
  remoteAddr := "10.1.2.3:443".toList
  header key :=
    if key = "X-Forwarded-For".toList then lines.map fun line => encode line.toList else []

theorem tenPolicy_hops : Hops tenPolicy (encode "203.0.113.50".toList)
    [encode " 10.1.2.3".toList] (NetIP.mapped [203, 0, 113, 50]) where
  comma := by decide
  address := by
    rw [candidateIP, decode_encode]
    decide
  untrusted := by decide
  trusted := by
    intro proxy hproxy
    rw [mem_singleton.1 hproxy, candidateIP, decode_encode]
    decide

theorem forwarded_client_one_line :
    configureClientIPPolicy true [" 10.0.0.0/8".toList] = .ok tenPolicy ∧
      clientIPFromRequest tenPolicy (proxied ["198.51.100.10,203.0.113.50, 10.1.2.3"]) =
        "203.0.113.50".toList := by
  have hpeer : shouldTrustForwardedHeaders tenPolicy (directPeerIP (proxied [])) = true := by
    decide
  have hclient := (forwarded_client_iff hpeer tenPolicy_hops 0).2 rfl
    (proxied ["198.51.100.10,203.0.113.50, 10.1.2.3"]).header
    [encode "198.51.100.10".toList] (by unfold Header.Forwards; decide) (by decide)
  exact ⟨by decide, hclient⟩

/-- The same elements in two lines, the first of them the client's: the client has the address it
claims. -/
theorem forwarded_client_chosen :
    shouldTrustForwardedHeaders tenPolicy
        (directPeerIP (proxied ["198.51.100.10", "203.0.113.50, 10.1.2.3"])) = true ∧
      Hops tenPolicy (Utf8.encode "203.0.113.50".toList) [Utf8.encode " 10.1.2.3".toList]
        (NetIP.mapped [203, 0, 113, 50]) ∧
      (proxied ["198.51.100.10", "203.0.113.50, 10.1.2.3"]).header.Forwards
        [Utf8.encode "198.51.100.10".toList] (Utf8.encode "203.0.113.50".toList)
        [Utf8.encode " 10.1.2.3".toList] ∧
      NetIP.text (NetIP.mapped [203, 0, 113, 50]) = "203.0.113.50".toList ∧
      clientIPFromRequest tenPolicy (proxied ["198.51.100.10", "203.0.113.50, 10.1.2.3"]) =
        "198.51.100.10".toList := by
  have hchain : chainClientIP tenPolicy (forwardedIPChain (encode "198.51.100.10".toList)) =
      some (NetIP.mapped [198, 51, 100, 10]) := by
    rw [forwardedIPChain]
    decide
  refine ⟨by decide, tenPolicy_hops, by unfold Header.Forwards; decide, by decide, ?_⟩
  exact clientIP_of_forwarded (by decide) (forwarded_of_chain rfl (by decide) hchain)

end MxKeys.Server
