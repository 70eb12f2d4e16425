/-
# MxKeys.Keys.TrustPolicy — which servers and which responses the notary trusts.

`CheckServer` decides by the name alone, with lists of names and wildcard patterns and with what the
name says of the host; `CheckResponse` looks at a response that is about to be served.  Both are
modelled here as the source computes them, a panic being the outer `none`.

* `matchWildcard_glob_iff` — `matchWildcard` is matching with stars, but for strings in which the
  part before the first star and the part after the last overlap: there it panics;
* `notary_signatures_iff` — `QueryKeys` signs the response before it asks the policy, so that the
  notary's own signature counts as one of the notary signatures that are required, and so does a
  signer without any signature.
-/
import MxKeys.Keys.Notary
import MxKeys.Lib.Duration
import MxKeys.Lib.Glob

namespace MxKeys.Keys

open MxKeys.Lib
open MxKeys.Lib.NetIP (parseIP)
open List Option

/-! ## Wildcards -/

section Wildcard

variable {α : Type} [DecidableEq α] (star : α)

/-- The loop of `matchWildcard` over the parts between the first and the last. -/
def matchParts : List (List α) → List α → Bool
  | [], _ => true
  | part :: parts, remaining =>
    if part = [] then matchParts parts remaining
    else
      match Glob.index part remaining with
      | none => false
      | some idx => matchParts parts (remaining.drop (idx + part.length))

/-- `matchWildcard`, over any alphabet; `none` is the panic of a slice that ends before it starts.
-/
def matchWildcard (pattern s : List α) : Option Bool :=
  if pattern = [star] then some true
  else
    let parts := pattern.splitOn star
    if parts.length = 1 then some (pattern = s)
    else
      let first := parts.headD []
      let lastPart := parts.getLastD []
      if first ≠ [] ∧ ¬first.isPrefixOf s then some false
      else if lastPart ≠ [] ∧ ¬lastPart.isSuffixOf s then some false
      else
        let remaining := if first ≠ [] then s.drop first.length else s
        if lastPart ≠ [] then
          if remaining.length < lastPart.length then none
          else some (matchParts parts.tail.dropLast
            (remaining.take (remaining.length - lastPart.length)))
        else some (matchParts parts.tail.dropLast remaining)

/-- The part of the pattern before its first star and the part after its last star are at the two
ends of the string, and the string is shorter than both together. -/
def Overlaps (pattern s : List α) : Prop :=
  star ∈ pattern ∧ (pattern.splitOn star).headD [] <+: s ∧
    (pattern.splitOn star).getLastD [] <:+ s ∧
    s.length < ((pattern.splitOn star).headD []).length +
      ((pattern.splitOn star).getLastD []).length

variable {star}

theorem matchParts_iff {parts : List (List α)} :
    ∀ {s : List α}, matchParts parts s = true ↔ Glob.InOrder parts s := by
  induction parts with
  | nil => exact iff_of_true rfl trivial
  | cons part parts ih =>
    intro s
    rw [Glob.inOrder_cons, matchParts]
    split_ifs with hpart
    · subst hpart
      -- the source passes over an empty part, which occurs first at the front
      rw [ih, Glob.index_of_isPrefixOf isPrefixOf_nil_left]
      simp
    · cases Glob.index part s with
      | none => simp
      | some i => simp [ih]

theorem length_splitOn (star : α) (pattern : List α) :
    (pattern.splitOn star).length = pattern.count star + 1 := by
  induction pattern with
  | nil => rfl
  | cons c pattern ih =>
    rw [splitOn, splitOnP_cons_eq_if_modifyHead, ← splitOn, count_cons]
    split_ifs with hc
    · rw [length_cons, ih]
    · rw [length_modifyHead, ih, add_zero]

variable {pattern first last : List α} {middle : List (List α)}

/-- A pattern without a star is a string. -/
theorem splitOn_of_not_mem (h : star ∉ pattern) :
    pattern.splitOn star = [pattern] := by
  refine splitOnP_eq_singleton fun c hc => ?_
  simp only [beq_eq_false_iff_ne, ne_eq]
  rintro rfl
  exact h hc

/-- A pattern with a star has a first and a last part. -/
theorem exists_parts (h : star ∈ pattern) :
    ∃ first middle last, pattern.splitOn star = first :: (middle ++ [last]) := by
  have hlength := length_splitOn star pattern
  have hcount := count_pos_iff.2 h
  rcases hparts : pattern.splitOn star with _ | ⟨first, rest⟩
  · rw [hparts, length_nil] at hlength
    omega
  · have hrest : rest ≠ [] := by
      rintro rfl
      rw [hparts, length_singleton] at hlength
      omega
    exact ⟨first, rest.dropLast, rest.getLast hrest, by rw [dropLast_append_getLast]⟩

/-- What `matchWildcard` computes for a pattern with a star. -/
theorem matchWildcard_of_parts (hparts : pattern.splitOn star = first :: (middle ++ [last]))
    (s : List α) :
    matchWildcard star pattern s =
      if ¬(first <+: s ∧ last <:+ s) then some false
      else if s.length < first.length + last.length then none
      else some (matchParts middle
        ((s.drop first.length).take (s.length - first.length - last.length))) := by
  by_cases hstar : pattern = [star]
  · have hnil : first = [] ∧ middle = [] ∧ last = [] := by
      rw [hstar, splitOn, splitOnP_cons_eq_if_modifyHead, if_pos (beq_self_eq_true star),
        splitOnP_nil] at hparts
      cases middle with
      | nil => simpa [eq_comm] using hparts
      | cons part middle => simp at hparts
    obtain ⟨rfl, rfl, rfl⟩ := hnil
    rw [matchWildcard, if_pos hstar]
    simp [matchParts]
  · have hhead : (first :: (middle ++ [last])).headD [] = first := rfl
    have hlast : (first :: (middle ++ [last])).getLastD [] = last := by
      rw [getLastD_cons]
      simp
    have hmiddle : (first :: (middle ++ [last])).tail.dropLast = middle := by simp
    have hlength : ¬(first :: (middle ++ [last])).length = 1 := by simp
    rw [matchWildcard, if_neg hstar]
    simp only [hparts, hhead, hlast, hmiddle, if_neg hlength, isPrefixOf_iff_prefix,
      isSuffixOf_iff_suffix]
    -- an empty part is at both ends of every string
    have hfirst : (first ≠ [] ∧ ¬first <+: s) ↔ ¬first <+: s :=
      and_iff_right_of_imp fun h hnil => h (hnil ▸ nil_prefix)
    have hsuffix : (last ≠ [] ∧ ¬last <:+ s) ↔ ¬last <:+ s :=
      and_iff_right_of_imp fun h hnil => h (hnil ▸ nil_suffix)
    have hremaining : (if first ≠ [] then s.drop first.length else s) = s.drop first.length := by
      split_ifs with hne
      · rfl
      · rw [not_not.1 hne]
        rfl
    rw [hremaining]
    simp only [hfirst, hsuffix, length_drop]
    by_cases hp : first <+: s
    · by_cases hl : last <:+ s
      · have hboth : ¬¬(first <+: s ∧ last <:+ s) := not_not.2 ⟨hp, hl⟩
        have hle := hp.length_le
        rw [if_neg (not_not.2 hp), if_neg (not_not.2 hl), if_neg hboth]
        by_cases hnil : last = []
        · subst hnil
          rw [if_neg (not_not.2 rfl), if_neg (by simpa using hle), length_nil, Nat.sub_zero,
            take_of_length_le (by rw [length_drop])]
        · rw [if_pos hnil]
          congr 1
          rw [eq_iff_iff]
          omega
      · rw [if_neg (not_not.2 hp), if_pos hl, if_pos fun h => hl h.2]
    · rw [if_pos hp, if_pos fun h => hp h.1]

theorem overlaps_iff {s : List α} (hparts : pattern.splitOn star = first :: (middle ++ [last]))
    (hmem : star ∈ pattern) :
    Overlaps star pattern s ↔
      first <+: s ∧ last <:+ s ∧ s.length < first.length + last.length := by
  have hlast : (first :: (middle ++ [last])).getLastD [] = last := by
    rw [getLastD_cons]
    simp
  rw [Overlaps, hparts, hlast]
  exact and_iff_right hmem

/-- **`matchWildcard` returns, and says whether replacing the stars gives the string, exactly when
the two ends of the pattern do not overlap in it.** -/
theorem matchWildcard_glob_iff (star : α) (pattern s : List α) :
    (∃ result, matchWildcard star pattern s = some result ∧
      (result = true ↔ Glob.Matches star pattern s)) ↔ ¬Overlaps star pattern s := by
  by_cases hmem : star ∈ pattern
  · obtain ⟨first, middle, last, hparts⟩ := exists_parts hmem
    rw [matchWildcard_of_parts hparts, Glob.matches_iff_splitOn, hparts,
      Glob.parts_append_singleton, overlaps_iff hparts hmem]
    by_cases hends : first <+: s ∧ last <:+ s
    · rw [if_neg (not_not.2 hends)]
      by_cases hshort : s.length < first.length + last.length
      · rw [if_pos hshort]
        refine iff_of_false ?_ fun h => h ⟨hends.1, hends.2, hshort⟩
        rintro ⟨result, h, -⟩
        cases h
      · rw [if_neg hshort]
        refine iff_of_true ⟨_, rfl, ?_⟩ fun h => hshort h.2.2
        rw [matchParts_iff]
        constructor
        · exact fun h => ⟨_, Glob.eq_ends hends.1 hends.2 (Nat.le_of_not_lt hshort), h⟩
        · rintro ⟨inner, rfl, h⟩
          simpa [Nat.add_assoc, Nat.add_sub_cancel_left] using h
    · rw [if_pos hends]
      refine iff_of_true ⟨false, rfl, ?_⟩ fun h => hends ⟨h.1, h.2.1⟩
      refine iff_of_false Bool.false_ne_true ?_
      rintro ⟨inner, rfl, -⟩
      exact hends ⟨⟨inner ++ last, (append_assoc _ _ _).symm⟩, suffix_append _ _⟩
  · have hstar : pattern ≠ [star] := fun h => hmem (h ▸ mem_singleton_self star)
    have hparts := splitOn_of_not_mem hmem
    refine iff_of_true ⟨decide (pattern = s), ?_, ?_⟩ fun h => hmem h.1
    · rw [matchWildcard, if_neg hstar, hparts]
      rfl
    · rw [decide_eq_true_iff, Glob.matches_iff_splitOn, hparts]
      exact eq_comm

end Wildcard

/-! ## The policy -/

/-- `TrustPolicyConfig`. -/
structure TrustPolicyConfig where
  enabled : Bool
  denyList : List Text
  allowList : List Text
  requireNotarySignatures : Int
  maxKeyAgeHours : Int
  requireWellKnown : Bool
  requireValidTLS : Bool
  blockPrivateIPs : Bool

/-- `TrustPolicy`: the configuration and the patterns of its lists. -/
structure TrustPolicy extends TrustPolicyConfig where
  denyPatterns : List Text
  allowPatterns : List Text

/-- `NewTrustPolicy`, and what `Reload` makes of a policy. -/
def newTrustPolicy (cfg : TrustPolicyConfig) : TrustPolicy where
  toTrustPolicyConfig := cfg
  denyPatterns := cfg.denyList.filter ('*' ∈ ·)
  allowPatterns := cfg.allowList.filter ('*' ∈ ·)

namespace TrustPolicy

variable (tp : TrustPolicy)

/-- Whether one of the patterns matches; the first that does ends the search. -/
def matchesAny (serverName : Text) : List Text → Option Bool
  | [] => some false
  | pattern :: patterns =>
    (matchWildcard '*' pattern serverName).bind fun matched =>
      if matched then some true else matchesAny serverName patterns

/-- A name is in a list as it is, or matches a pattern. -/
def listed (entries patterns : List Text) (serverName : Text) : Option Bool :=
  if entries.any fun entry => '*' ∉ entry ∧ entry = serverName then some true
  else matchesAny serverName patterns

/-- `isDenied`. -/
def isDenied (serverName : Text) : Option Bool :=
  listed tp.denyList tp.denyPatterns serverName

/-- `isAllowed`. -/
def isAllowed (serverName : Text) : Option Bool :=
  listed tp.allowList tp.allowPatterns serverName

/-- The host that `checkPrivateIP` takes from a name. -/
def policyHost (serverName : Text) : Text :=
  let host :=
    match cutLast ':' serverName with
    | some (host, _) => if '[' ∈ serverName then serverName else host
    | none => serverName
  if host.head? = some '[' ∧ ']' ∈ host then (host.takeWhile (· ≠ ']')).tail else host

/-- `checkPrivateIP`. -/
def checkPrivateIP (serverName : Text) : Option PolicyViolation :=
  match parseIP (policyHost serverName) with
  | none => none
  | some ip =>
    if isPrivateIP ip then
      some ⟨"block_private_ips",
        "private IP address " ++ String.ofList (NetIP.text ip) ++ " is blocked"⟩
    else none

/-- `checkRequireWellKnown`. -/
def checkRequireWellKnown (serverName : Text) : Option PolicyViolation :=
  let (host, port, isIP) := parseServerName serverName
  if host = [] then some ⟨"require_well_known", "server name is empty"⟩
  else if isIP then some ⟨"require_well_known", "IP literals bypass well-known delegation"⟩
  else if port ≠ 0 then
    some ⟨"require_well_known", "explicit port bypasses well-known delegation"⟩
  else none

/-- The lower case matters only where it is ASCII. -/
def checkRequireValidTLS (serverName : Text) : Option PolicyViolation :=
  let (host, _, isIP) := parseServerName serverName
  if host = [] then some ⟨"require_valid_tls", "server name is empty"⟩
  else if isIP then
    some ⟨"require_valid_tls",
      "IP literals are not allowed when strict TLS validation is required"⟩
  else
    let normalized := host.map Char.toLower
    if normalized = "localhost".toList ∨ ".localhost".toList.isSuffixOf normalized ∨
        ".local".toList.isSuffixOf normalized then
      some ⟨"require_valid_tls",
        "local hostnames are not allowed when strict TLS validation is required"⟩
    else none

/-- The checks of `CheckServer` after its lists. -/
def checkName (serverName : Text) : Option PolicyViolation :=
  (if tp.blockPrivateIPs then checkPrivateIP serverName else none).orElse fun _ =>
    (if tp.requireWellKnown then checkRequireWellKnown serverName else none).orElse fun _ =>
      if tp.requireValidTLS then checkRequireValidTLS serverName else none

/-- `CheckServer`; `none` is a panic. -/
def checkServer (serverName : Text) : Option (Option PolicyViolation) :=
  if ¬tp.enabled then some none
  else
    (tp.isDenied serverName).bind fun denied =>
      if denied then some (some ⟨"deny_list", "server is on deny list"⟩)
      else
        (if tp.allowList ≠ [] then tp.isAllowed serverName else some true).map
          fun (allowed : Bool) =>
          if ¬allowed then some ⟨"allow_list", "server is not on allow list"⟩
          else tp.checkName serverName

/-- The policy with a deny list and nothing else. -/
def denying (denyList : List Text) : TrustPolicy :=
  newTrustPolicy ⟨true, denyList, [], 0, 0, false, false, false⟩

/-- **A pattern whose ends overlap in the name of a server**: the match panics, and with it the
check of the server. -/
theorem wildcard_overlap_panics :
    matchWildcard '*' "spam*spam.org".toList "spam.org".toList = none ∧
      (denying ["spam*spam.org".toList]).checkServer "spam.org".toList = none := by
  decide +kernel

/-- `countNotarySignatures`. -/
def countNotarySignatures (serverName : Text) (resp : ServerKeysResponse) : Nat :=
  ((resp.signatures.getD []).filter fun e => e.1 ≠ serverName).length

/-- `time.Until(time.UnixMilli(resp.ValidUntilTS))`. -/
def keyAge (now : Nat) (resp : ServerKeysResponse) : Int :=
  Duration.sub (ofMilli resp.validUntilTS) now

/-- `time.Duration(tp.maxKeyAgeHours) * time.Hour`, in 64 bits. -/
def maxAge : Int := (tp.maxKeyAgeHours * Duration.hour).bmod (2 ^ 64)

/-- The response is valid for longer than the policy allows. -/
def exceedsMaxAge (now : Nat) (resp : ServerKeysResponse) : Bool :=
  0 < tp.maxKeyAgeHours ∧ tp.maxAge < keyAge now resp

/-- `CheckResponse`. -/
def checkResponse (now : Nat) (serverName : Text) (resp : ServerKeysResponse) :
    Option PolicyViolation :=
  if ¬tp.enabled then none
  else if tp.exceedsMaxAge now resp then
    some ⟨"max_key_age", "key validity " ++ String.ofList (Duration.text (keyAge now resp)) ++
      " exceeds max " ++ String.ofList (Duration.text tp.maxAge)⟩
  else if 0 < tp.requireNotarySignatures ∧
      countNotarySignatures serverName resp < tp.requireNotarySignatures then
    some ⟨"require_notary_signatures",
      "has " ++ toString (countNotarySignatures serverName resp) ++
        " notary signatures, requires " ++ toString tp.requireNotarySignatures⟩
  else none

end TrustPolicy

/-! ## The notary signatures of what is served -/

section Signatures

variable {scheme : Scheme} {n : Node scheme} {tp : TrustPolicy} {now : Nat}
  {serverKeys : Map (Map KeyCriteria)} {serverName : Text} {response : KeyQueryResponse}
  {r d : ServerKeysResponse} {obtained : List ((o : NotaryOp) × o.Answer)}

/-- The signers that a response names besides its server and the notary. -/
def otherSigners (notaryName serverName : Text) (r : ServerKeysResponse) :
    Map (Map Text) :=
  (r.signatures.getD []).filter fun e => e.1 ≠ serverName ∧ e.1 ≠ notaryName

/-- Those of them of whom there is a signature. -/
def otherSignatures (notaryName serverName : Text) (r : ServerKeysResponse) :
    Map (Map Text) :=
  (otherSigners notaryName serverName r).filter fun e => e.2 ≠ []

/-- The trust policy answers for itself, at one time. -/
def PolicyAnswers (tp : TrustPolicy) (now : Nat) (run : List ((o : NotaryOp) × o.Answer)) : Prop :=
  ∀ serverName resp (violation : Option PolicyViolation),
    (⟨.checkResponse serverName resp, violation⟩ : (o : NotaryOp) × o.Answer) ∈ run →
      violation = tp.checkResponse now serverName resp

variable (n tp now serverKeys serverName response obtained) in
/-- `QueryKeys` appends an element for a name after it has obtained a response for it. -/
def Serves : Prop :=
  ∃ rest next d, Prog.Steps (n.queryServer serverKeys serverName response) (obtained ++ rest)
      (.ret next) ∧
    PolicyAnswers tp now rest ∧ next.serverKeys = response.serverKeys ++ [d]

/-- What is appended is the response, signed by the notary and then checked by the policy. -/
theorem serves_iff (hobtained : Prog.Steps (n.getServerKeysWithCriteria serverName
      (minValidUntil ((Assoc.get serverName serverKeys).getD []))) obtained (.ret (.ok r))) :
    Serves n tp now serverKeys serverName response obtained ↔
      ∃ d, n.deliver (fun d => (tp.checkResponse now serverName d).isSome) r = some d := by
  unfold Serves Node.queryServer Notary.deliver
  simp only [hobtained.bind_iff]
  cases hsigned : n.addNotarySignature (cloneServerKeysResponse r) with
  | none =>
    refine iff_of_false ?_ ?_
    · rintro ⟨rest, next, d, ⟨⟩, -, hnext⟩
      exact absurd (congrArg length hnext) (by simp [KeyQueryResponse.fail])
    · rintro ⟨d, ⟨⟩⟩
  | some signed =>
    dsimp only [bind_some]
    generalize { signed with raw := n.finalRaw signed.raw } = keysForResponse
    constructor
    · rintro ⟨rest, next, d, hsteps, hanswers, hnext⟩
      cases hsteps with
      | answer violation hsteps =>
        have hviolation := hanswers _ _ violation mem_cons_self
        cases violation with
        | some violation =>
          cases hsteps with
          | answer _ h =>
            cases h
            exact absurd (congrArg length hnext) (by simp [KeyQueryResponse.fail])
        | none =>
          exact ⟨keysForResponse, if_neg (hviolation ▸ Bool.false_ne_true)⟩
    · rintro ⟨d, hd⟩
      split_ifs at hd with hnone
      rw [not_isSome_iff_eq_none] at hnone
      refine ⟨[⟨.checkResponse serverName keysForResponse, (none : Option PolicyViolation)⟩,
        ⟨.transparency (.key serverName keysForResponse), ()⟩], _, keysForResponse,
        .answer _ (.answer _ (.refl _)), ?_, rfl⟩
      intro name resp violation hmem
      rcases mem_pair.1 hmem with heq | heq
      · cases heq
        exact hnone.symm
      · cases heq

/-- The signers of the signed response, besides its server. -/
theorem count_setSignature {signatures : Map (Map Text)} (h : Assoc.Sorted signatures)
    (signer keyID sigB64 : Text) :
    ((setSignature signatures signer keyID sigB64).filter fun e => e.1 ≠ serverName).length =
      (signatures.filter fun e => e.1 ≠ serverName ∧ e.1 ≠ signer).length +
        if serverName = signer then 0 else 1 := by
  rw [setSignature, ((Assoc.perm_insert signer _ h).filter _).length_eq, filter_cons,
    Assoc.erase, List.filter_filter]
  have hsame : ∀ {p : Text × Map Text → Bool},
      (∀ e, p e = decide (e.1 ≠ serverName ∧ e.1 ≠ signer)) → (signatures.filter p).length =
        (signatures.filter fun e => e.1 ≠ serverName ∧ e.1 ≠ signer).length :=
    fun h => congrArg length (filter_congr fun e _ => h e)
  by_cases hown : serverName = signer
  · rw [if_pos hown, if_neg (by simp [hown])]
    exact hsame fun e => by simp
  · rw [if_neg hown, if_pos (by simpa using Ne.symm hown), length_cons]
    exact congrArg (· + 1) (hsame fun e => by simp)

/-- The signers that `CheckResponse` counts in what is delivered for a response: all others, and the
notary unless it is the server. -/
def countedSigners (notaryName serverName : Text) (r : ServerKeysResponse) : Nat :=
  (otherSigners notaryName serverName r).length + if serverName = notaryName then 0 else 1

/-- The number that is required lies between the other signers of whom there is a signature and the
signers that are counted. -/
def Miscounted (tp : TrustPolicy) (notaryName serverName : Text) (r : ServerKeysResponse) :
    Prop :=
  (otherSignatures notaryName serverName r).length < tp.requireNotarySignatures ∧
    tp.requireNotarySignatures ≤ countedSigners notaryName serverName r

theorem checkResponse_delivered (hr : r.Proper) (henabled : tp.enabled = true)
    (hrequires : 1 ≤ tp.requireNotarySignatures) {message : Bytes}
    (hd : Delivered n.toNotary r d message) :
    (tp.checkResponse now serverName d).isSome = false ↔
      tp.exceedsMaxAge now r = false ∧
        tp.requireNotarySignatures ≤ countedSigners n.serverName serverName r := by
  have hvalid : d.validUntilTS = r.validUntilTS := congrArg SignedFields.validUntilTS hd.fields
  have hage : tp.exceedsMaxAge now d = tp.exceedsMaxAge now r := by
    rw [TrustPolicy.exceedsMaxAge, TrustPolicy.keyAge, hvalid]
    rfl
  have hcount : TrustPolicy.countNotarySignatures serverName d =
      countedSigners n.serverName serverName r := by
    rw [TrustPolicy.countNotarySignatures, hd.signatures, getD_some,
      count_setSignature hr.ordered.1, countedSigners, otherSigners]
  unfold TrustPolicy.checkResponse
  rw [if_neg (not_not.2 henabled), hage, hcount]
  split_ifs with hold hfew
  · simp [hold]
  · exact iff_of_false nofun fun h => absurd h.2 (not_le.2 hfew.2)
  · refine iff_of_true rfl ⟨Bool.eq_false_iff.2 hold, ?_⟩
    omega

/-- **`QueryKeys` keeps to the number of notary signatures that is required unless it miscounts.**
-/
theorem notary_signatures_iff (hr : r.Proper) (henabled : tp.enabled = true)
    (hrequires : 1 ≤ tp.requireNotarySignatures)
    (hobtained : Prog.Steps (n.getServerKeysWithCriteria serverName
      (minValidUntil ((Assoc.get serverName serverKeys).getD []))) obtained (.ret (.ok r))) :
    (Serves n tp now serverKeys serverName response obtained →
        tp.requireNotarySignatures ≤ (otherSignatures n.serverName serverName r).length) ↔
      ¬Miscounted tp n.serverName serverName r ∨ tp.exceedsMaxAge now r = true ∨
        Canonical.marshal (perspective n.serverName r) = none := by
  rw [serves_iff hobtained]
  constructor
  · intro h
    by_contra hnot
    simp only [not_or, not_not, Bool.not_eq_true] at hnot
    obtain ⟨⟨hshort, hcounted⟩, hage, hmarshal⟩ := hnot
    have hsigned : (Canonical.marshal
        (perspective n.serverName (cloneServerKeysResponse r))).isSome = true := by
      rwa [perspective_clone, isSome_iff_ne_none]
    obtain ⟨d, hdeliver⟩ := exists_deliver hsigned
    obtain ⟨message, hd⟩ := delivered_of_deliver hdeliver
    have hok := (checkResponse_delivered hr henabled hrequires hd).2 ⟨hage, hcounted⟩
    exact absurd (h ⟨d, deliver_iff.2 ⟨hdeliver, hok⟩⟩) (not_le.2 hshort)
  · rintro h ⟨d, hdeliver⟩
    obtain ⟨hdeliver, hok⟩ := deliver_iff.1 hdeliver
    obtain ⟨message, hd⟩ := delivered_of_deliver hdeliver
    obtain ⟨hage, hcounted⟩ := (checkResponse_delivered hr henabled hrequires hd).1 hok
    rcases h with h | h | h
    · exact not_lt.1 fun hshort => h ⟨hshort, hcounted⟩
    · rw [hage] at h
      cases h
    · cases h.symm.trans hd.signed

/-- A policy that requires a number of notary signatures and nothing else. -/
def requiring (number : Int) : TrustPolicy :=
  newTrustPolicy ⟨true, [], [], number, 0, false, false, false⟩

/-- A response of `s` that names the given signers, each with one signature. -/
def signedBy (signers : List Text) : ServerKeysResponse :=
  { sampleResponse [("b".toList, 'B')] with
    signatures := some (signers.map fun signer => (signer, [("b".toList, replicate 86 'C')])) }

/-- The response is found in the memory cache. -/
def cacheRun (r : ServerKeysResponse) : List ((o : NotaryOp) × o.Answer) :=
  [⟨.net .ctxErr, false⟩, ⟨.net .now, (0 : Nat)⟩,
    ⟨.cacheGet "s".toList, (some ⟨0, r, 1⟩ : Option CachedResponse)⟩]

theorem obtained_signedBy {signer : Text} {signers : List Text} :
    Prog.Steps (sampleNode.getServerKeysWithCriteria "s".toList
      (minValidUntil ((Assoc.get "s".toList ([] : Map (Map KeyCriteria))).getD [])))
      (cacheRun (signedBy (signer :: signers))) (.ret (.ok (signedBy (signer :: signers)))) :=
  .answer _ (.answer _ (.answer _ (.refl _)))

/-- Two notaries have signed, and two are required. -/
theorem notary_signatures_two :
    Serves sampleNode (requiring 2) 0 [] "s".toList ⟨[], []⟩
        (cacheRun (signedBy ["l".toList, "m".toList, "s".toList])) ∧
      (requiring 2).requireNotarySignatures ≤ (otherSignatures "n".toList "s".toList
        (signedBy ["l".toList, "m".toList, "s".toList])).length := by
  have hserves : Serves sampleNode (requiring 2) 0 [] "s".toList ⟨[], []⟩
      (cacheRun (signedBy ["l".toList, "m".toList, "s".toList])) :=
    (serves_iff obtained_signedBy).2 (isSome_iff_exists.1 (by decide +kernel))
  have hproper : (signedBy ["l".toList, "m".toList, "s".toList]).Proper := by
    refine ⟨pairwise_singleton _ _, Pairwise.nil, ?_⟩
    rintro _ ⟨⟩
    unfold Ordered Assoc.Sorted
    decide +kernel
  refine ⟨hserves, (notary_signatures_iff hproper rfl (by decide) obtained_signedBy).2 ?_ hserves⟩
  refine .inl ?_
  unfold Miscounted
  decide +kernel

/-- **The only notary signature is the notary's own**: one is required, the response as it was
obtained has none, and it is served. -/
theorem own_signature_counts :
    Prog.Steps (sampleNode.getServerKeysWithCriteria "s".toList 0)
        (cacheRun (signedBy ["s".toList])) (.ret (.ok (signedBy ["s".toList]))) ∧
      Serves sampleNode (requiring 1) 0 [] "s".toList ⟨[], []⟩ (cacheRun (signedBy ["s".toList])) ∧
      otherSignatures "n".toList "s".toList (signedBy ["s".toList]) = [] := by
  refine ⟨obtained_signedBy, (serves_iff obtained_signedBy).2 ?_, by decide⟩
  exact isSome_iff_exists.1 (by decide +kernel)

end Signatures

end MxKeys.Keys
