/-
# MxKeys.Lib.Json.Parse — reading JSON text as Go's `encoding/json` does.

A recursive-descent reader over characters. Every function takes what is left of the text and
returns what it read together with the rest. `value` reads one value with fuel for its nesting
(`text.length` is always enough: each recursive call follows a character that was consumed); `parse`
reads a whole text as `json.Unmarshal` does and `parseFirst` the first value of a stream as
`Decoder.Decode` does, both with the nesting limit of the scanner.

A string is read in two steps, as Go unquotes it: the escapes are resolved into characters and
UTF-16 code units (`scanBody`), then the code units are joined, an unpaired surrogate becoming
U+FFFD (`runes`).
-/
import MxKeys.Lib.Json.Tree
import MxKeys.Lib.Hex
import MxKeys.Lib.Utf8
import Mathlib.Data.List.TakeWhile

namespace MxKeys.Lib.Json

open Hex (hexVal)
open List Option

/-! ## Characters -/

/-- White space between tokens. -/
def isSpace (c : Char) : Bool :=
  c == ' ' || c == '\t' || c == '\r' || c == '\n'

/-- What follows the white space. -/
def skipSpace (text : Text) : Text :=
  text.dropWhile isSpace

/-- `getu4`: the code unit of four hexadecimal digits. -/
def getu4 (a b c d : Char) : Option Nat := do
  let a ← hexVal a
  let b ← hexVal b
  let c ← hexVal c
  let d ← hexVal d
  return ((a * 16 + b) * 16 + c) * 16 + d

/-- The character a one-letter escape stands for. -/
def escaped (c : Char) : Option Char :=
  Assoc.get c [('"', '"'), ('\\', '\\'), ('/', '/'), ('b', '\x08'), ('f', '\x0c'), ('n', '\n'),
    ('r', '\r'), ('t', '\t')]

/-! ## Strings -/

/-- A piece of a string body: a character, or the code unit of a `\u` escape. -/
inductive Piece where
  | char (c : Char)
  | unit (u : Nat)
  deriving DecidableEq

/-- Put a piece in front of a string body that was read. -/
def Piece.cons (p : Piece) : List Piece × Text → List Piece × Text :=
  fun (ps, rest) => (p :: ps, rest)

/-- Read a string body up to and including its closing quote. -/
def scanBody : Text → Option (List Piece × Text)
  | [] => none
  | c :: text =>
    if c = '"' then some ([], text)
    else if c = '\\' then
      match text with
      | [] => none
      | e :: text =>
        if e = 'u' then
          match text with
          | h₁ :: h₂ :: h₃ :: h₄ :: text =>
            (getu4 h₁ h₂ h₃ h₄).bind fun u => (scanBody text).map (Piece.unit u).cons
          | _ => none
        else
          (escaped e).bind fun c => (scanBody text).map (Piece.char c).cons
    -- control characters must be escaped
    else if c.toNat < 0x20 then none
    else (scanBody text).map (Piece.char c).cons

/-- `utf16.IsSurrogate`. -/
def isSurrogate (u : Nat) : Bool :=
  0xD800 ≤ u && u < 0xE000

/-- `utf16.DecodeRune`: the character of a surrogate pair. -/
def decodePair (u v : Nat) : Option Char :=
  if 0xD800 ≤ u ∧ u < 0xDC00 ∧ 0xDC00 ≤ v ∧ v < 0xE000 then
    some (Char.ofNat ((u - 0xD800) * 0x400 + (v - 0xDC00) + 0x10000))
  else none

/-- Join the pieces of a string body. The first argument is a surrogate that was read and is not
paired yet: it becomes U+FFFD unless the next piece completes it. -/
def runesFrom : Option Nat → List Piece → Text
  | none, [] => []
  | some _, [] => [Utf8.runeError]
  | none, .char c :: ps => c :: runesFrom none ps
  | some _, .char c :: ps => Utf8.runeError :: c :: runesFrom none ps
  | none, .unit v :: ps =>
    if isSurrogate v then runesFrom (some v) ps else Char.ofNat v :: runesFrom none ps
  | some u, .unit v :: ps =>
    match decodePair u v with
    | some c => c :: runesFrom none ps
    | none =>
      Utf8.runeError ::
        if isSurrogate v then runesFrom (some v) ps else Char.ofNat v :: runesFrom none ps

/-- The characters of a string body. -/
def runes (ps : List Piece) : Text :=
  runesFrom none ps

/-- Read a string after its opening quote. -/
def quoted (text : Text) : Option (Text × Text) :=
  (scanBody text).map fun (ps, rest) => (runes ps, rest)

/-! ## Numbers -/

/-- Read with one scanner and then with another. -/
def andThen (first second : Text → Option (Text × Text)) (text : Text) :
    Option (Text × Text) := do
  let (l₁, rest) ← first text
  let (l₂, rest) ← second rest
  return (l₁ ++ l₂, rest)

/-- The leading digits. -/
def digits (text : Text) : Text × Text :=
  (text.takeWhile Char.isDigit, text.dropWhile Char.isDigit)

/-- One digit or more, after `lead`. -/
def digitsAfter (lead text : Text) : Option (Text × Text) :=
  if (digits text).1 = [] then none else some (lead ++ (digits text).1, (digits text).2)

/-- The sign of a number. -/
def scanSign : Text → Option (Text × Text)
  | [] => some ([], [])
  | c :: text => if c = '-' then some (['-'], text) else some ([], c :: text)

/-- The integer part: `0`, or digits that do not start with it. -/
def scanInt : Text → Option (Text × Text)
  | [] => none
  | c :: text =>
    if c = '0' then some (['0'], text)
    else if c.isDigit then some (c :: (digits text).1, (digits text).2)
    else none

/-- The fraction of a number. -/
def scanFrac : Text → Option (Text × Text)
  | [] => some ([], [])
  | c :: text => if c = '.' then digitsAfter ['.'] text else some ([], c :: text)

/-- The exponent of a number. -/
def scanExp : Text → Option (Text × Text)
  | [] => some ([], [])
  | c :: text =>
    if c = 'e' ∨ c = 'E' then
      match text with
      | [] => none
      | s :: text' =>
        if s = '+' ∨ s = '-' then digitsAfter [c, s] text' else digitsAfter [c] (s :: text')
    else some ([], c :: text)

/-- Read a number. -/
def scanNumber : Text → Option (Text × Text) :=
  andThen scanSign (andThen scanInt (andThen scanFrac scanExp))

/-- `isValidNumber`. -/
def IsNumber (literal : Text) : Prop :=
  scanNumber literal = some (literal, [])

/-! ## Values -/

/-- Read a member name and the colon after it. -/
def readName (text : Text) : Option (Text × Text) :=
  match skipSpace text with
  | [] => none
  | c :: text =>
    if c = '"' then do
      let (name, rest) ← quoted text
      match skipSpace rest with
      | [] => none
      | d :: rest => if d = ':' then some (name, rest) else none
    else none

/-- Read one of the three literal names, whose first letter is `c`. -/
def readLiteral (c : Char) (text : Text) : Option (Json × Text) :=
  if c = 't' ∧ text.take 3 = ['r', 'u', 'e'] then some (.bool true, text.drop 3)
  else if c = 'f' ∧ text.take 4 = ['a', 'l', 's', 'e'] then some (.bool false, text.drop 4)
  else if c = 'n' ∧ text.take 3 = ['u', 'l', 'l'] then some (.null, text.drop 3)
  else none

mutual

/-- Read one value. -/
def value : Nat → Text → Option (Json × Text)
  | 0, _ => none
  | fuel + 1, text =>
    match skipSpace text with
    | [] => none
    | c :: text =>
      if c = '{' then
        match skipSpace text with
        | [] => none
        | d :: rest =>
          if d = '}' then some (.obj [], rest)
          else do
            let (name, rest) ← readName (d :: rest)
            let (v, rest) ← value fuel rest
            let (members, rest) ← moreMembers fuel rest
            return (.obj ((name, v) :: members), rest)
      else if c = '[' then
        match skipSpace text with
        | [] => none
        | d :: rest =>
          if d = ']' then some (.arr [], rest)
          else do
            let (v, rest) ← value fuel (d :: rest)
            let (items, rest) ← moreItems fuel rest
            return (.arr (v :: items), rest)
      else if c = '"' then (quoted text).map fun (s, rest) => (.str s, rest)
      else if c = '-' ∨ c.isDigit then
        (scanNumber (c :: text)).map fun (literal, rest) => (.num literal, rest)
      else readLiteral c text

/-- Read the members after the first one, up to and including the closing brace. -/
def moreMembers : Nat → Text → Option (List (Text × Json) × Text)
  | 0, _ => none
  | fuel + 1, text =>
    match skipSpace text with
    | [] => none
    | c :: rest =>
      if c = '}' then some ([], rest)
      else if c = ',' then do
        let (name, rest) ← readName rest
        let (v, rest) ← value fuel rest
        let (members, rest) ← moreMembers fuel rest
        return ((name, v) :: members, rest)
      else none

/-- Read the items after the first one, up to and including the closing bracket. -/
def moreItems : Nat → Text → Option (List Json × Text)
  | 0, _ => none
  | fuel + 1, text =>
    match skipSpace text with
    | [] => none
    | c :: rest =>
      if c = ']' then some ([], rest)
      else if c = ',' then do
        let (v, rest) ← value fuel rest
        let (items, rest) ← moreItems fuel rest
        return (v :: items, rest)
      else none

end

/-- `maxNestingDepth` of the scanner. -/
def maxNestingDepth : Nat := 10000

/-- `Decoder.Decode`: the first value of a text, whatever follows it. -/
def parseFirst (text : Text) : Option (Json × Text) := do
  let (j, rest) ← value text.length text
  if j.depth ≤ maxNestingDepth then some (j, rest) else none

/-- `json.Unmarshal`: the value of a text that holds nothing else. -/
def parse (text : Text) : Option Json := do
  let (j, rest) ← parseFirst text
  if skipSpace rest = [] then some j else none

/-! ## Numbers are read back

A literal that was read is read again, whatever follows it, as long as that does not continue it. -/

/-- The text does not start with a character of `p`. -/
def NotStarting (p : Char → Bool) (text : Text) : Prop :=
  ∀ c rest, text = c :: rest → p c = false

/-- The characters that continue a number. -/
def continues (c : Char) : Bool :=
  c.isDigit || c == '.' || c == 'e' || c == 'E'

/-- What the scanner read it reads again before any text that does not start in `stop`. -/
def Stable (scan : Text → Option (Text × Text)) (stop : Char → Bool) : Prop :=
  ∀ ⦃text l rest⦄, scan text = some (l, rest) →
    ∀ rest', NotStarting stop rest' → scan (l ++ rest') = some (l, rest')

theorem notStarting_nil (p : Char → Bool) : NotStarting p [] := by
  intro c rest h
  cases h

variable {c : Char} {text rest l : Text}

theorem notStarting_cons {p : Char → Bool} (h : p c = false) (rest : Text) :
    NotStarting p (c :: rest) := by
  intro c' rest' heq
  cases heq
  exact h

theorem NotStarting.mono {p q : Char → Bool} (h : NotStarting p text)
    (hpq : ∀ c, q c = true → p c = true) : NotStarting q text := by
  intro c rest heq
  have hp := h c rest heq
  cases hq : q c with
  | false => rfl
  | true => rw [hpq c hq] at hp; cases hp

theorem digits_append {ds : Text} (hds : ∀ c ∈ ds, c.isDigit = true)
    (hrest : NotStarting Char.isDigit rest) : digits (ds ++ rest) = (ds, rest) := by
  have htake : rest.takeWhile Char.isDigit = [] := by
    cases rest with
    | nil => rfl
    | cons c rest => simp [hrest c rest rfl]
  have hdrop : rest.dropWhile Char.isDigit = rest := by
    cases rest with
    | nil => rfl
    | cons c rest => simp [hrest c rest rfl]
  simp [digits, takeWhile_append_of_pos hds, dropWhile_append_of_pos hds, htake, hdrop]

theorem isDigit_of_mem_digits (h : c ∈ (digits text).1) :
    c.isDigit = true :=
  mem_takeWhile_imp h

theorem digitsAfter_stable (lead : Text) (h : digitsAfter lead text = some (l, rest)) :
    ∃ d ds, l = lead ++ d :: ds ∧ d.isDigit = true ∧ ∀ rest', NotStarting Char.isDigit rest' →
      digitsAfter lead (d :: ds ++ rest') = some (l, rest') := by
  unfold digitsAfter at h
  split at h
  · cases h
  · rename_i hne
    cases h
    obtain ⟨d, ds, hds⟩ := exists_cons_of_ne_nil hne
    have hall : ∀ c ∈ d :: ds, c.isDigit = true := fun c hc => isDigit_of_mem_digits (hds ▸ hc)
    refine ⟨d, ds, by rw [hds], hall d mem_cons_self, fun rest' hrest => ?_⟩
    unfold digitsAfter
    rw [digits_append hall hrest, hds]
    simp

theorem andThen_stable {first second : Text → Option (Text × Text)}
    {stop₁ stop₂ : Char → Bool} (hfirst : Stable first stop₁) (hsecond : Stable second stop₂)
    (hstop : ∀ ⦃text l rest⦄, second text = some (l, rest) →
      ∀ rest', NotStarting stop₂ rest' → NotStarting stop₁ (l ++ rest')) :
    Stable (andThen first second) stop₂ := by
  intro text l rest h rest' hrest
  simp only [andThen, bind, bind_eq_some_iff, pure, some.injEq, Prod.mk.injEq] at h
  obtain ⟨⟨l₁, mid⟩, h₁, ⟨l₂, rest₂⟩, h₂, rfl, -⟩ := h
  have h₁' := hfirst h₁ (l₂ ++ rest') (hstop h₂ rest' hrest)
  have h₂' := hsecond h₂ rest' hrest
  simp [andThen, append_assoc, h₁', h₂']

theorem continues_of_isDigit (h : c.isDigit = true) : continues c = true := by
  simp [continues, h]

theorem NotStarting.isDigit (h : NotStarting continues text) :
    NotStarting Char.isDigit text :=
  h.mono fun _ => continues_of_isDigit

theorem scanExp_of_notStarting (h : NotStarting continues text) :
    scanExp text = some ([], text) := by
  cases text with
  | nil => rfl
  | cons c text =>
    have hc := h c text rfl
    simp only [continues, Bool.or_eq_false_iff, beq_eq_false_iff_ne] at hc
    simp [scanExp, hc]

theorem scanFrac_of_notStarting (h : NotStarting (fun c => c.isDigit || c == '.') text) :
    scanFrac text = some ([], text) := by
  cases text with
  | nil => rfl
  | cons c text =>
    have hc := h c text rfl
    simp only [Bool.or_eq_false_iff, beq_eq_false_iff_ne] at hc
    simp [scanFrac, hc]

/-- An exponent is empty or starts with its letter. -/
theorem scanExp_cases (h : scanExp text = some (l, rest)) :
    l = [] ∨ ∃ c l', l = c :: l' ∧ (c = 'e' ∨ c = 'E') := by
  unfold scanExp at h
  split at h
  · cases h
    exact .inl rfl
  · split at h
    · rename_i c _ hc
      split at h
      · cases h
      · split at h
        all_goals
          obtain ⟨d, ds, rfl, -⟩ := digitsAfter_stable _ h
          exact .inr ⟨c, _, rfl, hc⟩
    · cases h
      exact .inl rfl

/-- A fraction is empty or starts with its point. -/
theorem scanFrac_cases (h : scanFrac text = some (l, rest)) :
    l = [] ∨ ∃ l', l = '.' :: l' := by
  unfold scanFrac at h
  split at h
  · cases h
    exact .inl rfl
  · split at h
    · obtain ⟨d, ds, rfl, -⟩ := digitsAfter_stable _ h
      exact .inr ⟨_, rfl⟩
    · cases h
      exact .inl rfl

theorem scanInt_cases (h : scanInt text = some (l, rest)) :
    ∃ c l', l = c :: l' ∧ c.isDigit = true := by
  unfold scanInt at h
  split at h
  · cases h
  · split at h
    · cases h
      exact ⟨_, _, rfl, by decide⟩
    · split at h
      · rename_i hc
        cases h
        exact ⟨_, _, rfl, hc⟩
      · cases h

theorem scanExp_stable : Stable scanExp continues := by
  intro text l rest h rest' hrest
  unfold scanExp at h
  split at h
  · cases h
    exact scanExp_of_notStarting hrest
  · split at h
    · rename_i c text hc
      split at h
      · cases h
      · rename_i s text'
        split at h
        · rename_i hs
          obtain ⟨d, ds, rfl, -, hds⟩ := digitsAfter_stable _ h
          show scanExp (c :: s :: (d :: ds ++ rest')) = _
          simp only [scanExp, if_pos hc, if_pos hs]
          exact hds rest' hrest.isDigit
        · rename_i hs
          obtain ⟨d, ds, rfl, hd, hds⟩ := digitsAfter_stable _ h
          have hd : ¬(d = '+' ∨ d = '-') := by
            rintro (rfl | rfl) <;> exact absurd hd (by decide)
          show scanExp (c :: d :: (ds ++ rest')) = _
          simp only [scanExp, if_pos hc, if_neg hd]
          exact hds rest' hrest.isDigit
    · cases h
      exact scanExp_of_notStarting hrest

theorem scanFrac_stable : Stable scanFrac (fun c => c.isDigit || c == '.') := by
  intro text l rest h rest' hrest
  unfold scanFrac at h
  split at h
  · cases h
    exact scanFrac_of_notStarting hrest
  · split at h
    · obtain ⟨d, ds, rfl, -, hds⟩ := digitsAfter_stable _ h
      exact hds rest' (hrest.mono fun c hc => by simp [hc])
    · cases h
      exact scanFrac_of_notStarting hrest

theorem scanInt_stable : Stable scanInt Char.isDigit := by
  intro text l rest h rest' hrest
  unfold scanInt at h
  split at h
  · cases h
  · split at h
    · cases h
      rfl
    · split at h
      · rename_i c text hne hc
        cases h
        show scanInt (c :: ((digits text).1 ++ rest')) = _
        simp only [scanInt, if_neg hne, if_pos hc]
        rw [digits_append (fun _ => isDigit_of_mem_digits) hrest]
      · cases h

theorem scanSign_stable : Stable scanSign (· == '-') := by
  intro text l rest h rest' hrest
  have hnone : scanSign rest' = some ([], rest') := by
    cases rest' with
    | nil => rfl
    | cons c rest' =>
      have hc : c ≠ '-' := by simpa using hrest c rest' rfl
      simp [scanSign, hc]
  unfold scanSign at h
  split at h
  · cases h
    exact hnone
  · split at h
    · cases h
      rfl
    · cases h
      exact hnone

/-- **A number is read back** before any text that does not continue it. -/
theorem scanNumber_stable : Stable scanNumber continues := by
  have hexp : Stable (andThen scanFrac scanExp) continues := by
    refine andThen_stable scanFrac_stable scanExp_stable fun text l rest h rest' hrest => ?_
    rcases scanExp_cases h with rfl | ⟨c, l, rfl, rfl | rfl⟩
    · exact hrest.mono fun c hc => by
        simp only [continues]
        simp_all
    · exact notStarting_cons (by decide) _
    · exact notStarting_cons (by decide) _
  have hint : Stable (andThen scanInt (andThen scanFrac scanExp)) continues := by
    refine andThen_stable scanInt_stable hexp fun text l rest h rest' hrest => ?_
    simp only [andThen, bind, bind_eq_some_iff, pure, some.injEq,
      Prod.mk.injEq] at h
    obtain ⟨⟨l₁, mid⟩, h₁, ⟨l₂, rest₂⟩, h₂, rfl, -⟩ := h
    rcases scanFrac_cases h₁ with rfl | ⟨l₁, rfl⟩
    · rcases scanExp_cases h₂ with rfl | ⟨c, l, rfl, rfl | rfl⟩
      · exact hrest.isDigit
      · exact notStarting_cons (by decide) _
      · exact notStarting_cons (by decide) _
    · exact notStarting_cons (by decide) _
  refine andThen_stable scanSign_stable hint fun text l rest h rest' hrest => ?_
  simp only [andThen, bind, bind_eq_some_iff, pure, some.injEq, Prod.mk.injEq] at h
  obtain ⟨⟨l₁, mid⟩, h₁, ⟨l₂, rest₂⟩, h₂, rfl, -⟩ := h
  obtain ⟨c, l₁, rfl, hc⟩ := scanInt_cases h₁
  refine notStarting_cons ?_ _
  rw [beq_eq_false_iff_ne]
  rintro rfl
  exact absurd hc (by decide)

/-- The literal of a number that was read is a number. -/
theorem isNumber_of_scanNumber {literal : Text} (h : scanNumber text = some (literal, rest)) :
    IsNumber literal := by
  simpa [IsNumber] using scanNumber_stable h [] (notStarting_nil _)

/-! ## What is read is well formed -/

/-- Every number of a document is a valid literal. -/
def WellFormed (j : Json) : Prop :=
  Numbers IsNumber j

instance (literal : Text) : Decidable (IsNumber literal) :=
  inferInstanceAs (Decidable (_ = _))

/-- `WellFormed` as a check. -/
def wellFormed : Json → Bool :=
  fold {
    null := true
    bool := fun _ => true
    num := fun literal => decide (IsNumber literal)
    str := fun _ => true
    arr := fun items => items.all id
    obj := fun members => members.all Prod.snd }

theorem wellFormed_iff (j : Json) : wellFormed j = true ↔ WellFormed j := by
  induction j with
  | null | bool _ | num _ | str _ => simp [wellFormed, WellFormed]
  | arr items ih =>
    have harr : wellFormed (.arr items) = (items.map wellFormed).all id := fold_arr _ items
    rw [harr, WellFormed, numbers_arr, List.all_map, List.all_eq_true]
    exact forall₂_congr ih
  | obj members ih =>
    have hobj : wellFormed (.obj members) = (Assoc.mapValues wellFormed members).all Prod.snd :=
      fold_obj _ members
    rw [hobj, WellFormed, numbers_obj, Assoc.mapValues, List.all_map, List.all_eq_true]
    exact forall₂_congr ih

instance (j : Json) : Decidable (WellFormed j) :=
  decidable_of_iff _ (wellFormed_iff j)

variable {j : Json}

theorem readLiteral_wellFormed (h : readLiteral c text = some (j, rest)) : WellFormed j := by
  unfold readLiteral at h
  split_ifs at h <;> cases h <;> simp [WellFormed]

-- One induction on the fuel for the three readers, which call one another with less of it.
theorem read_wellFormed : ∀ fuel,
    (∀ ⦃text j rest⦄, value fuel text = some (j, rest) → WellFormed j) ∧
    (∀ ⦃text members rest⦄, moreMembers fuel text = some (members, rest) →
      ∀ m ∈ members, WellFormed m.2) ∧
    (∀ ⦃text items rest⦄, moreItems fuel text = some (items, rest) →
      ∀ v ∈ items, WellFormed v) := by
  intro fuel
  induction fuel with
  | zero =>
    refine ⟨?_, ?_, ?_⟩ <;> intro text x rest h <;> simp [value, moreMembers, moreItems] at h
  | succ fuel ih =>
    obtain ⟨hvalue, hmembers, hitems⟩ := ih
    refine ⟨?_, ?_, ?_⟩
    · intro text j rest h
      rw [value] at h
      split at h
      · cases h
      rename_i c text' _
      split_ifs at h
      · -- an object
        split at h
        · cases h
        · split_ifs at h
          · cases h
            simp [WellFormed]
          · simp only [bind, bind_eq_some_iff, pure, some.injEq, Prod.mk.injEq] at h
            obtain ⟨⟨name, r₁⟩, -, ⟨v, r₂⟩, hv, ⟨members, r₃⟩, hms, rfl, -⟩ := h
            rw [WellFormed, numbers_obj]
            exact forall_mem_cons.2 ⟨hvalue hv, hmembers hms⟩
      · -- an array
        split at h
        · cases h
        · split_ifs at h
          · cases h
            simp [WellFormed]
          · simp only [bind, bind_eq_some_iff, pure, some.injEq, Prod.mk.injEq] at h
            obtain ⟨⟨v, r₁⟩, hv, ⟨items, r₂⟩, hvs, rfl, -⟩ := h
            rw [WellFormed, numbers_arr]
            exact forall_mem_cons.2 ⟨hvalue hv, hitems hvs⟩
      · -- a string
        obtain ⟨s, -, hs⟩ := map_eq_some_iff.1 h
        cases hs
        simp [WellFormed]
      · -- a number
        obtain ⟨⟨literal, r⟩, hl, hs⟩ := map_eq_some_iff.1 h
        cases hs
        rw [WellFormed, numbers_num]
        exact isNumber_of_scanNumber hl
      · exact readLiteral_wellFormed h
    · intro text members rest h
      rw [moreMembers] at h
      split at h
      · cases h
      split_ifs at h
      · cases h
        simp
      · simp only [bind, bind_eq_some_iff, pure, some.injEq, Prod.mk.injEq] at h
        obtain ⟨⟨name, r₁⟩, -, ⟨v, r₂⟩, hv, ⟨members, r₃⟩, hms, rfl, -⟩ := h
        exact forall_mem_cons.2 ⟨hvalue hv, hmembers hms⟩
    · intro text items rest h
      rw [moreItems] at h
      split at h
      · cases h
      split_ifs at h
      · cases h
        simp
      · simp only [bind, bind_eq_some_iff, pure, some.injEq, Prod.mk.injEq] at h
        obtain ⟨⟨v, r₁⟩, hv, ⟨items, r₂⟩, hvs, rfl, -⟩ := h
        exact forall_mem_cons.2 ⟨hvalue hv, hitems hvs⟩

theorem parseFirst_wellFormed (h : parseFirst text = some (j, rest)) :
    WellFormed j ∧ j.depth ≤ maxNestingDepth := by
  simp only [parseFirst, bind, bind_eq_some_iff] at h
  obtain ⟨⟨j', rest'⟩, hv, h⟩ := h
  split at h
  · cases h
    exact ⟨(read_wellFormed _).1 hv, ‹_›⟩
  · cases h

theorem parseFirst_of_parse (h : parse text = some j) :
    ∃ rest, parseFirst text = some (j, rest) := by
  simp only [parse, bind, bind_eq_some_iff] at h
  obtain ⟨⟨j', rest⟩, hfirst, hrest⟩ := h
  split_ifs at hrest
  cases hrest
  exact ⟨rest, hfirst⟩

theorem parse_wellFormed (h : parse text = some j) :
    WellFormed j ∧ j.depth ≤ maxNestingDepth := by
  obtain ⟨rest, hfirst⟩ := parseFirst_of_parse h
  exact parseFirst_wellFormed hfirst

end MxKeys.Lib.Json
