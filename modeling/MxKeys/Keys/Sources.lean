/-
# MxKeys.Keys.Sources — where a fetched response comes from.

`FetchServerKeys` returns what `fetchDirect` accepted of the reply of the server itself, or what
`fetchFromNotary` accepted of the reply of a fallback notary.  `ensures_fetchServerKeys` says so for
any contract with the network: what holds of an accepted response, by what the contract says of
replies and of the clock, holds of the response that is returned.
-/
import MxKeys.Keys.Notary

namespace MxKeys.Keys

open MxKeys.Lib
open MxKeys.Lib.Prog (Ensures ensures_any ensures_ask ensures_bind ensures_pure)

section Net

variable {κ : Type} {c : Prog.Contract NetOp NetOp.Answer κ} {k : κ}

/-- The body of the reply that was just read. -/
def Received (c : Prog.Contract NetOp NetOp.Answer κ) (site : Site) (body : Bytes) (k : κ) :
    Prop :=
  ∃ (k₀ : κ) (reply : HttpReply), c.answers k₀ (.exchange site) (Except.ok reply) ∧
    reply.body = .ok body ∧ k = c.note (.exchange site) (Except.ok reply) k₀

variable (hasks : ∀ k o, c.asks k o)

include hasks in
theorem ensures_roundTrip (site : Site) (host : Text) (dialing : Net Bool) :
    Ensures c (fun result k' => ∀ reply body, result = .ok reply → reply.body = .ok body →
      Received c site body k') (roundTrip site host dialing) k := by
  refine ensures_bind (ensures_any hasks _ k) fun fails k₁ _ => ?_
  cases fails with
  | true => exact ensures_pure fun reply body hresult => nomatch hresult
  | false =>
    refine ensures_bind (ensures_any hasks dialing k₁) fun stands k₂ _ => ?_
    cases stands with
    | false => exact ensures_pure fun reply body hresult => nomatch hresult
    | true =>
      refine ensures_ask (hasks _ _) fun (answer : Except Bool HttpReply) hanswer => ?_
      cases answer with
      | error retryable => exact ensures_pure fun reply body hresult => nomatch hresult
      | ok reply =>
        refine ensures_pure fun reply' body hresult hbody => ?_
        obtain rfl := Except.ok.inj hresult
        exact ⟨k₂, reply, hanswer, hbody, rfl⟩

include hasks in
theorem ensures_requestKeys (f : Fetcher) (site : Site) (name : Text) :
    Ensures c (fun result k' => ∀ body, result = .ok body → Received c site body k')
      (requestKeys f site name) k := by
  refine ensures_bind (ensures_any hasks _ k) fun resolved k₁ _ => ?_
  refine ensures_bind (ensures_any hasks _ k₁) fun checked k₂ _ => ?_
  cases checked with
  | error e => exact ensures_pure fun body hresult => nomatch hresult
  | ok resolved =>
    refine ensures_bind (ensures_roundTrip hasks site _ _) fun result k₃ hreply => ?_
    cases result with
    | error e => exact ensures_pure fun body hresult => nomatch hresult
    | ok reply =>
      show Ensures c _ (if reply.status ≠ 200 then _ else _) k₃
      split
      · exact ensures_pure fun body hresult => nomatch hresult
      · cases hbody : reply.body with
        | error retryable => exact ensures_pure fun body hresult => nomatch hresult
        | ok body =>
          refine ensures_pure fun body' hresult => ?_
          split at hresult
          · cases hresult
          · obtain rfl := Except.ok.inj hresult
            exact hreply reply body rfl hbody

variable {verify : Bytes → Bytes → Bytes → Bool} {f : Fetcher}
  {serverName : Text} {G : ServerKeysResponse → κ → Prop}

/-- What is returned, if anything is, satisfies `G`. -/
def Returns (G : ServerKeysResponse → κ → Prop) {ε : Type} (result : Except ε ServerKeysResponse)
    (k : κ) : Prop := ∀ r, result = .ok r → G r k

theorem returns_error {ε : Type} {e : ε} : Returns G (.error e) k := fun _ h => nomatch h

theorem returns_ok {ε : Type} {r : ServerKeysResponse} (h : G r k) :
    Returns G (.ok r : Except ε ServerKeysResponse) k := fun _ hr => Except.ok.inj hr ▸ h

include hasks in
theorem ensures_fetchDirect
    (hdirect : ∀ k body (now : Nat) r, Received c .direct body k → c.answers k .now now →
      acceptDirect verify f.maxSignatures (now / 1000000) serverName body = .ok r →
      G r (c.note .now now k)) : Ensures c (Returns G) (fetchDirect verify f serverName) k := by
  refine ensures_bind (ensures_requestKeys hasks f .direct serverName) fun result k₁ hbody => ?_
  cases result with
  | error e => exact ensures_pure returns_error
  | ok body =>
    refine ensures_ask (hasks _ _) fun (now : Nat) hnow => ensures_pure fun r hr => ?_
    exact hdirect k₁ body now r (hbody body rfl) hnow hr

include hasks in
theorem ensures_fetchFromNotary {notary : Text}
    (hnotary : ∀ k body r, Received c .notary body k →
      acceptNotary verify f.trustedNotaries notary serverName body = .ok r → G r k) :
    Ensures c (Returns G) (fetchFromNotary verify f notary serverName) k := by
  refine ensures_bind (ensures_requestKeys hasks f .notary notary) fun result k₁ hbody => ?_
  cases result with
  | error e => exact ensures_pure returns_error
  | ok body => exact ensures_pure fun r hr => hnotary k₁ body r (hbody body rfl) hr

include hasks in
theorem ensures_fetchDirectWithRetry
    (hdirect : ∀ k, Ensures c (Returns G) (fetchDirect verify f serverName) k) (left : Nat) :
    ∀ (lastErr : Option FetchError) (k : κ),
      Ensures c (Returns G) (fetchDirectWithRetry verify f serverName left lastErr) k := by
  induction left with
  | zero => exact fun lastErr k => ensures_pure returns_error
  | succ left ih =>
    intro lastErr k
    refine ensures_bind (ensures_any hasks _ k) fun canceled k₁ _ => ?_
    cases canceled with
    | true => exact ensures_pure returns_error
    | false =>
      refine ensures_bind (hdirect k₁) fun result k₂ hresult => ?_
      cases result with
      | ok r => exact ensures_pure hresult
      | error e =>
        show Ensures c _ (if e.isFinal then _ else _) k₂
        split
        · exact ensures_pure returns_error
        · exact ih (some e) k₂

variable (hkeep : ∀ k o answer r, c.answers k o answer → G r k → G r (c.note o answer k))

include hasks hkeep in
theorem ensures_fetchFallback (notaries : List Text)
    (hnotary : ∀ notary ∈ notaries, ∀ k,
      Ensures c (Returns G) (fetchFromNotary verify f notary serverName) k) :
    ∀ k, Ensures c (Returns G) (fetchFallback verify f serverName notaries) k := by
  induction notaries with
  | nil => exact fun k => ensures_ask (hasks _ _) fun _ _ => ensures_pure returns_error
  | cons notary rest ih =>
    intro k
    obtain ⟨hfirst, hrest⟩ := List.forall_mem_cons.1 hnotary
    refine ensures_bind (hfirst k) fun result k₁ hresult => ?_
    cases result with
    | error e => exact ih hrest k₁
    | ok r =>
      refine ensures_ask (hasks _ _) fun answer hanswer => ensures_pure (returns_ok ?_)
      exact hkeep _ _ _ _ hanswer (hresult r rfl)

include hasks hkeep in
/-- **What a fetch returns** was accepted, from the server itself or from a fallback notary. -/
theorem ensures_fetchServerKeys
    (hdirect : ∀ k body (now : Nat) r, Received c .direct body k → c.answers k .now now →
      acceptDirect verify f.maxSignatures (now / 1000000) serverName body = .ok r →
      G r (c.note .now now k))
    (hnotary : ∀ notary ∈ f.fallbackServers, ∀ k body r, Received c .notary body k →
      acceptNotary verify f.trustedNotaries notary serverName body = .ok r → G r k) :
    Ensures c (Returns G) (fetchServerKeys verify f serverName) k := by
  refine ensures_ask (hasks _ _) fun (canceled : Bool) _ => ?_
  cases canceled with
  | true => exact ensures_pure returns_error
  | false =>
    refine ensures_ask (hasks _ _) fun (allowed : Bool) _ => ?_
    cases allowed with
    | false => exact ensures_pure returns_error
    | true =>
      refine ensures_ask (hasks _ _) fun (acquired : Bool) _ => ?_
      cases acquired with
      | false => exact ensures_pure returns_error
      | true =>
        have hretry := ensures_fetchDirectWithRetry hasks
          (fun k => ensures_fetchDirect hasks hdirect (k := k)) f.retryAttempts none
        refine ensures_bind (hretry _) fun result k₁ hresult => ?_
        cases result with
        | ok r =>
          refine ensures_ask (hasks _ _) fun answer hanswer => ensures_pure (returns_ok ?_)
          exact hkeep _ _ _ _ hanswer (hresult r rfl)
        | error e =>
          exact ensures_fetchFallback hasks hkeep _ (fun notary hmem k =>
            ensures_fetchFromNotary hasks (hnotary notary hmem)) k₁

end Net

/-! ## Among the operations of the notary -/

/-- What a contract of the notary says of the network. -/
def onNet {κ : Type} (c : Prog.Contract NotaryOp NotaryOp.Answer κ) :
    Prog.Contract NetOp NetOp.Answer κ :=
  ⟨fun o => c.note (.net o), fun k o => c.asks k (.net o), fun k o => c.answers k (.net o)⟩

theorem ensures_lift {κ α : Type} {c : Prog.Contract NotaryOp NotaryOp.Answer κ}
    {post : α → κ → Prop} {p : Net α} {k : κ} (h : Ensures (onNet c) post p k) :
    Ensures c post p.lift k := by
  induction p generalizing k with
  | ret a => exact h
  | ask o next ih => exact ⟨h.1, fun answer hanswer => ih answer (h.2 answer hanswer)⟩

end MxKeys.Keys
