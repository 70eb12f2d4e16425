/-
# MxKeys.Server.Validation — the names of servers that a request may ask for.

`ValidateServerName` cuts a name into a host and a port and checks both; the resolver and the trust
policy cut it again, each in its own way.  `parsers_agree`: on every name that is accepted they find
the host and the port that were validated.

A name is a byte string, and its text is what Go finds when it ranges over it; the text of a name
that is not valid UTF-8 is looked at only for its length.
-/
import MxKeys.Keys.TrustPolicy

namespace MxKeys.Server

open MxKeys.Lib
open MxKeys.Lib.NetIP (parseIP)
open MxKeys.Keys (cutLast atoiPort isSpace trimSpace trimSpace_of_ends trimSpace_of_forall
  parseServerName isPrivateIP TrustPolicy)
open List Option

/-! ## Validation -/

/-- The value of decimal digits, as the loops of `isValidPort` and `isValidIPv4` add it up. -/
def number (digits : Text) : Nat := Nat.ofDigitChars 10 digits 0

/-- `isValidPort`. -/
def isValidPort (p : Text) : Bool :=
  p ≠ [] ∧ p.length ≤ 5 ∧ p.all Char.isDigit ∧ 0 < number p ∧ number p ≤ 65535

/-- `isValidIPv6`. -/
def isValidIPv6 (ip : Text) : Bool := (parseIP ip).isSome ∧ ':' ∈ ip

/-- One of the four parts of an IPv4 address. -/
def isValidOctet (part : Text) : Bool :=
  part ≠ [] ∧ part.length ≤ 3 ∧ part.all Char.isDigit ∧ number part ≤ 255 ∧
    ¬(1 < part.length ∧ part.head? = some '0')

/-- `isValidIPv4`. -/
def isValidIPv4 (ip : Text) : Bool :=
  let parts := ip.splitOn '.'
  parts.length = 4 ∧ parts.all isValidOctet

/-- A letter, a digit or a hyphen. -/
def isLabelChar (c : Char) : Bool := c.isAlphanum ∨ c = '-'

/-- A label of a host name. -/
def isValidLabel (label : Text) : Bool :=
  label ≠ [] ∧ label.length ≤ 63 ∧ label.head? ≠ some '-' ∧ label.getLast? ≠ some '-' ∧
    label.all isLabelChar

/-- `isASCII`. -/
def isASCII (s : Text) : Bool := s.all fun c => c.toNat ≤ 127

/-- `isValidHostname`; the lengths are those of ASCII text. -/
def isValidHostname (h : Text) : Bool :=
  h ≠ [] ∧ isASCII h ∧ h.length ≤ 253 ∧ h.head? ≠ some '-' ∧ h.head? ≠ some '.' ∧
    h.getLast? ≠ some '-' ∧ h.getLast? ≠ some '.' ∧ (h.splitOn '.').all isValidLabel

/-- The host and the port, if there is one, that `isValidServerNameFormat` finds in a name. -/
def serverNameParts (name : Text) : Option (Text × Option Text) :=
  if name.head? = some '[' then
    if ']' ∈ name then
      let ipv6 := (name.takeWhile (· ≠ ']')).tail
      match (name.dropWhile (· ≠ ']')).tail with
      | [] => some (ipv6, none)
      | ':' :: port => some (ipv6, some port)
      | _ => none
    else none
  else
    match cutLast ':' name with
    | some (potentialHost, potentialPort) =>
      if isValidPort potentialPort then some (potentialHost, some potentialPort)
      else some (name, none)
    | none => some (name, none)

/-- `isValidServerNameFormat`. -/
def isValidServerNameFormat (name : Text) : Bool :=
  match serverNameParts name with
  | none => false
  | some (hostname, port) =>
    (if name.head? = some '[' then isValidIPv6 hostname
      else isValidHostname hostname || isValidIPv4 hostname) && port.all isValidPort

def maxServerNameLength : Int := 255

/-- `ValidateServerName`, with the text of its error. -/
def validateServerName (name : Bytes) (maxLen : Int) : Except String Unit :=
  let maxLen := if maxLen ≤ 0 then maxServerNameLength else maxLen
  let text := Utf8.decode name
  if name = [] then .error "server name is empty"
  else if maxLen < text.length then
    .error ("server name too long: " ++ toString text.length ++ " > " ++ toString maxLen)
  else if Utf8.encode text ≠ name then .error "server name contains invalid UTF-8"
  else if text.any fun c => c.toNat < 32 ∨ c.toNat = 127 then
    .error "server name contains control characters"
  else if ¬isValidServerNameFormat text then
    .error ("invalid server name format: " ++ String.ofList text)
  else .ok ()

theorem format_of_validate {name : Bytes} {maxLen : Int}
    (h : validateServerName name maxLen = .ok ()) :
    isValidServerNameFormat (Utf8.decode name) = true := by
  unfold validateServerName at h
  dsimp only at h
  split_ifs at h <;> assumption

/-! ## Characters -/

/-- The characters of a validated host outside brackets. -/
def isHostChar (c : Char) : Bool := isLabelChar c ∨ c = '.'

variable {c : Char} {s : Text}

theorem isHostChar_toNat (h : isHostChar c = true) : 32 < c.toNat ∧ c.toNat < 127 := by
  simp only [isHostChar, isLabelChar] at h
  delta Char.isAlphanum Char.isAlpha Char.isUpper Char.isLower Char.isDigit at h
  simp only [Bool.or_eq_true, Bool.and_eq_true, decide_eq_true_eq, ge_iff_le,
    UInt32.le_iff_toNat_le] at h
  change (((65 ≤ c.toNat ∧ c.toNat ≤ 90 ∨ 97 ≤ c.toNat ∧ c.toNat ≤ 122) ∨
    48 ≤ c.toNat ∧ c.toNat ≤ 57) ∨ c = '-') ∨ c = '.' at h
  rcases h with (h | rfl) | rfl
  · omega
  · decide
  · decide

theorem isHostChar_space (h : isHostChar c = true) : isSpace c = false := by
  obtain ⟨hlow, hhigh⟩ := isHostChar_toNat h
  simp only [isSpace, mem_cons, not_mem_nil, or_false, decide_eq_false_iff_not]
  omega

theorem isHostChar_of_isDigit (h : c.isDigit = true) : isHostChar c = true := by
  simp [isHostChar, isLabelChar, Char.isAlphanum, h]

theorem isHostChar_ne (h : isHostChar c = true) : c ≠ ':' ∧ c ≠ '[' := by
  constructor <;> rintro rfl <;> revert h <;> decide

theorem mem_splitOn (sep : Char) (h : c ∈ s) :
    c = sep ∨ ∃ part ∈ s.splitOn sep, c ∈ part := by
  induction s with
  | nil => cases h
  | cons d s ih =>
    rw [splitOn, splitOnP_cons_eq_if_modifyHead, ← splitOn]
    obtain ⟨first, rest, hparts⟩ := exists_cons_of_ne_nil (splitOn_ne_nil sep s)
    rw [hparts] at ih ⊢
    split_ifs with hd
    · rcases mem_cons.1 h with rfl | h
      · exact .inl (beq_iff_eq.1 hd)
      · rcases ih h with heq | ⟨part, hpart, hc⟩
        · exact .inl heq
        · exact .inr ⟨part, mem_cons_of_mem _ hpart, hc⟩
    · rw [modifyHead_cons]
      rcases mem_cons.1 h with rfl | h
      · exact .inr ⟨_, mem_cons_self, mem_cons_self⟩
      · rcases ih h with rfl | ⟨part, hpart, hc⟩
        · exact .inl rfl
        · rcases mem_cons.1 hpart with rfl | hpart
          · exact .inr ⟨_, mem_cons_self, mem_cons_of_mem _ hc⟩
          · exact .inr ⟨part, mem_cons_of_mem _ hpart, hc⟩

/-- Only letters, digits, hyphens and dots pass for a host. -/
theorem isHostChar_of_valid {host : Text}
    (h : (isValidHostname host || isValidIPv4 host) = true) (hc : c ∈ host) :
    isHostChar c = true := by
  rcases mem_splitOn '.' hc with rfl | ⟨part, hpart, hc⟩
  · decide
  · rcases Bool.or_eq_true_iff.1 h with h | h
    · have hlabels := (of_decide_eq_true h).2.2.2.2.2.2.2
      have hlabel := of_decide_eq_true (all_eq_true.1 hlabels part hpart)
      exact decide_eq_true (.inl (all_eq_true.1 hlabel.2.2.2.2 c hc))
    · have hoctet := of_decide_eq_true (all_eq_true.1 (of_decide_eq_true h).2 part hpart)
      exact isHostChar_of_isDigit (all_eq_true.1 hoctet.2.2.1 c hc)

/-! ## Cutting -/

theorem dropWhile_ne (h : c ∈ s) :
    s.dropWhile (· ≠ c) = c :: (s.dropWhile (· ≠ c)).tail := by
  obtain ⟨d, rest, hrest⟩ := exists_cons_of_ne_nil
    (show s.dropWhile (· ≠ c) ≠ [] by simpa [dropWhile_eq_nil_iff] using h)
  have hhead := head?_dropWhile_not (· ≠ c) s
  rw [hrest] at hhead ⊢
  obtain rfl : d = c := by simpa using hhead
  rfl

/-- A string is what is before a character, the character and what is behind it. -/
theorem eq_cut (h : c ∈ s) :
    s = s.takeWhile (· ≠ c) ++ c :: (s.dropWhile (· ≠ c)).tail := by
  rw [← dropWhile_ne h, takeWhile_append_dropWhile]

theorem cutLast_some {before behind : Text} (h : cutLast c s = some (before, behind)) :
    s = before ++ c :: behind := by
  unfold cutLast at h
  split_ifs at h with hmem
  cases h
  have hcut := congrArg reverse (eq_cut (mem_reverse.2 hmem))
  rwa [reverse_reverse, reverse_append, reverse_cons, append_assoc] at hcut

theorem atoiPort_of_valid {port : Text} (h : isValidPort port = true) :
    atoiPort port = some (number port) := by
  obtain ⟨hne, -, hdigits, hpos, hle⟩ := of_decide_eq_true h
  have hplus : port.head? ≠ some '+' := by
    intro hhead
    have := all_eq_true.1 hdigits '+' (mem_of_mem_head? hhead)
    exact absurd this (by decide)
  rw [atoiPort]
  simp only [if_neg hplus]
  rw [if_pos ⟨hne, hdigits⟩]
  exact if_pos ⟨hpos, hle⟩

/-! ## Agreement -/

section Agreement

variable {name host : Text} {port : Option Text}

/-- The port that was validated, as a number; 0 when there is none. -/
def portNumber (port : Option Text) : Nat := (port.map number).getD 0

theorem checkPrivateIP_isSome : (TrustPolicy.checkPrivateIP name).isSome = true ↔
    ∃ ip, parseIP (TrustPolicy.policyHost name) = some ip ∧ isPrivateIP ip = true := by
  unfold TrustPolicy.checkPrivateIP
  cases parseIP (TrustPolicy.policyHost name) with
  | none => simp
  | some ip =>
    dsimp only
    split_ifs with hprivate
    · simp [hprivate]
    · simp [hprivate]

theorem policyHost_bracket (hhead : name.head? = some '[') (hclose : ']' ∈ name) :
    TrustPolicy.policyHost name = (name.takeWhile (· ≠ ']')).tail := by
  have hopen : '[' ∈ name := mem_of_mem_head? hhead
  unfold TrustPolicy.policyHost
  cases cutLast ':' name with
  | none => exact if_pos ⟨hhead, hclose⟩
  | some cut => simp only [if_pos hopen, if_pos (And.intro hhead hclose)]

theorem parseServerName_bracket (hhead : name.head? = some '[') (hclose : ']' ∈ name)
    {rest : Text} (hrest : (name.dropWhile (· ≠ ']')).tail = rest)
    (hlast : ∀ c, (']' :: rest).getLast? = some c → isSpace c = false) :
    parseServerName name = ((name.takeWhile (· ≠ ']')).tail,
      if rest.head? = some ':' then (atoiPort rest.tail).getD 0 else 0, true) := by
  have htrim : trimSpace name = name := by
    refine trimSpace_of_ends (fun c hc => ?_) fun c hc => hlast c ?_
    · cases hhead.symm.trans hc
      decide
    · rwa [eq_cut hclose, hrest, getLast?_append_of_ne_nil _ (cons_ne_nil _ _)] at hc
  rw [parseServerName, htrim]
  simp only [if_pos hhead, if_pos hclose, hrest]

/-- The parsers in a name that starts with a bracket. -/
theorem agree_bracket (hhead : name.head? = some '[')
    (hparts : serverNameParts name = some (host, port)) (hhost : isValidIPv6 host = true)
    (hport : port.all isValidPort = true) :
    parseServerName name = (host, portNumber port, (parseIP host).isSome) ∧
      TrustPolicy.policyHost name = host := by
  have hip : (parseIP host).isSome = true := (of_decide_eq_true hhost).1
  rw [serverNameParts, if_pos hhead] at hparts
  split_ifs at hparts with hclose
  rw [policyHost_bracket hhead hclose, hip]
  split at hparts
  · rename_i hrest
    cases hparts
    refine ⟨parseServerName_bracket hhead hclose hrest fun c hc => ?_, rfl⟩
    cases hc
    decide
  · rename_i p hrest
    cases hparts
    have hvalid : isValidPort p = true := hport
    refine ⟨(parseServerName_bracket hhead hclose hrest fun c hc => ?_).trans ?_, rfl⟩
    · -- the last character is a digit of the port
      obtain ⟨hne, -, hdigits, -⟩ := of_decide_eq_true hvalid
      rw [getLast?_cons_cons, getLast?_cons_of_ne_nil hne] at hc
      exact isHostChar_space (isHostChar_of_isDigit
        (all_eq_true.1 hdigits c (mem_of_mem_getLast? hc)))
    · rw [head?_cons, if_pos rfl, tail_cons, atoiPort_of_valid hvalid]
      rfl
  · cases hparts

theorem policyHost_host (hopen : '[' ∉ name) :
    TrustPolicy.policyHost name = ((cutLast ':' name).map Prod.fst).getD name := by
  unfold TrustPolicy.policyHost
  cases hcut : cutLast ':' name with
  | none => exact if_neg fun h => hopen (mem_of_mem_head? h.1)
  | some cut =>
    have hhost : ¬(cut.1.head? = some '[' ∧ ']' ∈ cut.1) := by
      rintro ⟨h, -⟩
      rw [cutLast_some (s := name) hcut] at hopen
      exact hopen (mem_append_left _ (mem_of_mem_head? h))
    simp only [if_neg hopen, if_neg hhost]
    rfl

theorem parseServerName_host (hhead : name.head? ≠ some '[')
    (hspace : ∀ c ∈ name, isSpace c = false) (hcut : cutLast ':' name = none) :
    parseServerName name = (name, 0, (parseIP name).isSome) := by
  rw [parseServerName, trimSpace_of_forall hspace]
  simp only [if_neg hhead, hcut]
  rfl

theorem parseServerName_port (hhead : name.head? ≠ some '[')
    (hspace : ∀ c ∈ name, isSpace c = false) {p : Text}
    (hcut : cutLast ':' name = some (host, p)) (hp : isValidPort p = true) :
    parseServerName name = (host, number p, (parseIP host).isSome) := by
  rw [parseServerName, trimSpace_of_forall hspace]
  simp only [if_neg hhead, hcut, bind_some, atoiPort_of_valid hp, map_some]

/-- The parsers in any other name. -/
theorem agree_host (hhead : name.head? ≠ some '[')
    (hparts : serverNameParts name = some (host, port))
    (hhost : (isValidHostname host || isValidIPv4 host) = true) :
    parseServerName name = (host, portNumber port, (parseIP host).isSome) ∧
      TrustPolicy.policyHost name = host := by
  have hchars : ∀ c ∈ host, isHostChar c = true := fun c hc => isHostChar_of_valid hhost hc
  rw [serverNameParts, if_neg hhead] at hparts
  cases hcut : cutLast ':' name with
  | none =>
    rw [hcut] at hparts
    cases hparts
    have hopen : '[' ∉ name := fun h => (isHostChar_ne (hchars _ h)).2 rfl
    rw [policyHost_host hopen, hcut]
    exact ⟨parseServerName_host hhead (fun c hc => isHostChar_space (hchars c hc)) hcut, rfl⟩
  | some cut =>
    obtain ⟨before, p⟩ := cut
    rw [hcut] at hparts
    dsimp only at hparts
    split_ifs at hparts with hp
    · cases hparts
      have hname := cutLast_some hcut
      have hdigits := (of_decide_eq_true hp).2.2.1
      -- the characters of the name: the host, the colon and the digits of the port
      have hall : ∀ c ∈ name, isHostChar c = true ∨ c = ':' := by
        intro c hc
        rw [hname] at hc
        rcases mem_append.1 hc with hc | hc
        · exact .inl (hchars c hc)
        · rcases mem_cons.1 hc with rfl | hc
          · exact .inr rfl
          · exact .inl (isHostChar_of_isDigit (all_eq_true.1 hdigits c hc))
      have hopen : '[' ∉ name := by
        intro h
        rcases hall _ h with hc | hc
        · exact (isHostChar_ne hc).2 rfl
        · exact absurd hc (by decide)
      have hspace : ∀ c ∈ name, isSpace c = false := by
        intro c hc
        rcases hall c hc with hc | rfl
        · exact isHostChar_space hc
        · decide
      rw [policyHost_host hopen, hcut]
      exact ⟨parseServerName_port hhead hspace hcut hp, rfl⟩
    · -- a colon in a host
      cases hparts
      have hcolon : ':' ∈ name := cutLast_some hcut ▸ mem_append_right _ mem_cons_self
      exact absurd rfl (isHostChar_ne (hchars _ hcolon)).1

/-- **On every name that `ValidateServerName` accepts, the resolver and the trust policy find the
host and the port that were validated.** -/
theorem parsers_agree {name : Bytes} {maxLen : Int}
    (h : validateServerName name maxLen = .ok ()) :
    ∃ host port, serverNameParts (Utf8.decode name) = some (host, port) ∧
      parseServerName (Utf8.decode name) = (host, portNumber port, (parseIP host).isSome) ∧
      (∀ p, port = some p → 1 ≤ portNumber port ∧ portNumber port ≤ 65535) ∧
      ((TrustPolicy.checkPrivateIP (Utf8.decode name)).isSome = true ↔
        ∃ ip, parseIP host = some ip ∧ isPrivateIP ip = true) := by
  have hformat := format_of_validate h
  unfold isValidServerNameFormat at hformat
  split at hformat
  · cases hformat
  · rename_i host port hparts
    obtain ⟨hhost, hport⟩ := Bool.and_eq_true_iff.1 hformat
    have hagree : parseServerName (Utf8.decode name) =
          (host, portNumber port, (parseIP host).isSome) ∧
        TrustPolicy.policyHost (Utf8.decode name) = host := by
      split_ifs at hhost with hhead
      · exact agree_bracket hhead hparts hhost hport
      · exact agree_host hhead hparts hhost
    refine ⟨host, port, hparts, hagree.1, ?_, by rw [checkPrivateIP_isSome, hagree.2]⟩
    rintro p rfl
    obtain ⟨-, -, -, hpos, hle⟩ := of_decide_eq_true hport
    exact ⟨hpos, hle⟩

/-- The loopback address, in brackets and with a port. -/
theorem parsers_agree_loopback :
    validateServerName (Utf8.encode "[::1]:8448".toList) 0 = .ok () ∧
      parseServerName "[::1]:8448".toList = ("::1".toList, 8448, true) ∧
      (TrustPolicy.checkPrivateIP "[::1]:8448".toList).isSome = true := by
  have hvalid : validateServerName (Utf8.encode "[::1]:8448".toList) 0 = .ok () := by
    unfold validateServerName
    rw [Utf8.decode_encode]
    decide +kernel
  obtain ⟨host, port, hparts, hparse, -, hprivate⟩ := parsers_agree hvalid
  rw [Utf8.decode_encode] at hparts hparse hprivate
  obtain ⟨rfl, rfl⟩ : "::1".toList = host ∧ some "8448".toList = port := by
    simpa using (show serverNameParts "[::1]:8448".toList =
      some ("::1".toList, some "8448".toList) by
      decide +kernel).symm.trans hparts
  exact ⟨hvalid, hparse.trans (by decide +kernel), hprivate.2 ⟨_, rfl, by decide +kernel⟩⟩

end Agreement

end MxKeys.Server
