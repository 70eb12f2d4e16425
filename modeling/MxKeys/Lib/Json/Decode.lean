/-
# MxKeys.Lib.Json.Decode — decoding a document into a Go value of a known type.

`json.Unmarshal` into a struct walks the members of an object in order and stores each one in the
field it is for: the field with exactly that name, or else the one whose name is equal up to the
case of letters. A later member is stored over what an earlier one left. A `null` leaves a string, a
number or a struct as it is and empties a map; an object stored into a map field is merged into the
map that is already there, each of its elements decoded afresh. A value of the wrong kind makes the
whole decoding fail.
-/
import MxKeys.Lib.Json.Parse

namespace MxKeys.Lib.Json

open List Option

/-! ## Numbers -/

/-- `strconv.ParseUint(literal, 10, 64)`. -/
def parseUint (literal : Text) : Option Nat :=
  if literal ≠ [] ∧ literal.all Char.isDigit ∧
    Nat.ofDigitChars 10 literal 0 < 18446744073709551616 then
    some (Nat.ofDigitChars 10 literal 0)
  else none

/-- The value of an integer literal, of any size. -/
def intOf (literal : Text) : Option Int :=
  match literal with
  | [] => none
  | c :: ds =>
    if c = '-' then
      if ds ≠ [] ∧ ds.all Char.isDigit then some (-(Nat.ofDigitChars 10 ds 0 : Int)) else none
    else if literal.all Char.isDigit then some (Nat.ofDigitChars 10 literal 0 : Int)
    else none

/-- `strconv.ParseInt(literal, 10, 64)`. -/
def parseInt (literal : Text) : Option Int :=
  (intOf literal).filter fun n => -9223372036854775808 ≤ n ∧ n < 9223372036854775808

variable {c : Char} {ds : Text}

theorem scanInt_of_digits (hds : ∀ d ∈ ds, d.isDigit = true) (hc : c.isDigit = true)
    (hzero : c = '0' → ds = []) : scanInt (c :: ds) = some (c :: ds, []) := by
  simp only [scanInt]
  split
  · rename_i h0
    rw [h0, hzero h0]
  · have hread := digits_append hds (notStarting_nil _)
    rw [append_nil] at hread
    simp [hread]

/-- Digits that do not start with a superfluous zero are a number. -/
theorem isNumber_of_digits (hc : c.isDigit = true) (hds : ∀ d ∈ ds, d.isDigit = true)
    (hzero : c = '0' → ds = []) : IsNumber (c :: ds) := by
  have hsign : scanSign (c :: ds) = some ([], c :: ds) := by
    have hne : c ≠ '-' := by
      rintro rfl
      exact absurd hc (by decide)
    simp [scanSign, hne]
  simp [IsNumber, scanNumber, andThen, hsign, scanInt_of_digits hds hc hzero, scanFrac, scanExp]

/-- And so they are behind a minus sign. -/
theorem isNumber_neg_of_digits (hc : c.isDigit = true) (hds : ∀ d ∈ ds, d.isDigit = true)
    (hzero : c = '0' → ds = []) : IsNumber ('-' :: c :: ds) := by
  have hsign : scanSign ('-' :: c :: ds) = some (['-'], c :: ds) := rfl
  simp [IsNumber, scanNumber, andThen, hsign, scanInt_of_digits hds hc hzero, scanFrac, scanExp]

/-- The decimal digits of a number start with a zero only for zero. -/
theorem toDigits_head (n : Nat) :
    ∃ c ds, Nat.toDigits 10 n = c :: ds ∧ (c = '0' → n = 0) := by
  induction n using Nat.strongRecOn with
  | ind n ih =>
    by_cases hn : n < 10
    · have hdigit : ∀ m < 10, Nat.digitChar m = '0' → m = 0 := by decide
      exact ⟨_, [], Nat.toDigits_of_lt_base hn, hdigit n hn⟩
    · obtain ⟨c, ds, hds, hzero⟩ := ih (n / 10) (by omega)
      refine ⟨c, ds ++ [Nat.digitChar (n % 10)], ?_, fun hc => ?_⟩
      · rw [Nat.toDigits_of_base_le (by decide) (by omega), hds]
        rfl
      · have := hzero hc
        omega

theorem isDigit_toDigits {n : Nat} (h : c ∈ Nat.toDigits 10 n) : c.isDigit = true :=
  Nat.isDigit_of_mem_toDigits (by decide) (by decide) h

theorem exists_toDigits (n : Nat) : ∃ c ds, Nat.toDigits 10 n = c :: ds ∧ c.isDigit = true ∧
    (∀ d ∈ ds, d.isDigit = true) ∧ (c = '0' → n = 0 ∧ ds = []) := by
  obtain ⟨c, ds, hds, hzero⟩ := toDigits_head n
  have hall : ∀ d ∈ c :: ds, d.isDigit = true := fun d hd => isDigit_toDigits (n := n) (hds ▸ hd)
  refine ⟨c, ds, hds, hall c mem_cons_self, fun d hd => hall d (mem_cons_of_mem _ hd), fun hc => ?_⟩
  rw [hzero hc, Nat.toDigits_zero] at hds
  exact ⟨hzero hc, (List.cons.inj hds).2.symm⟩

/-- The decimal digits of a number are a number literal. -/
theorem isNumber_toDigits (n : Nat) : IsNumber (Nat.toDigits 10 n) := by
  obtain ⟨c, ds, hds, hc, hrest, hzero⟩ := exists_toDigits n
  rw [hds]
  exact isNumber_of_digits hc hrest fun h => (hzero h).2

theorem isNumber_neg_toDigits (n : Nat) : IsNumber ('-' :: Nat.toDigits 10 n) := by
  obtain ⟨c, ds, hds, hc, hrest, hzero⟩ := exists_toDigits n
  rw [hds]
  exact isNumber_neg_of_digits hc hrest fun h => (hzero h).2

theorem parseUint_toDigits {n : Nat} (h : n < 18446744073709551616) :
    parseUint (Nat.toDigits 10 n) = some n := by
  have hall : (Nat.toDigits 10 n).all Char.isDigit = true :=
    List.all_eq_true.2 fun _ => isDigit_toDigits
  have hvalue : Nat.ofDigitChars 10 (Nat.toDigits 10 n) 0 = n := Nat.ofDigitChars_ten_toDigits
  unfold parseUint
  rw [hvalue, if_pos ⟨Nat.toDigits_ne_nil, hall, h⟩]

/-! ## Values of the basic types -/

/-- Into a `string` that holds `old`. -/
def decodeString (old : Text) : Json → Option Text
  | .str s => some s
  | .null => some old
  | _ => none

/-- Into an `int64` that holds `old`. -/
def decodeInt (old : Int) : Json → Option Int
  | .num literal => parseInt literal
  | .null => some old
  | _ => none

/-- Into a `uint64` that holds `old`. -/
def decodeUint (old : Nat) : Json → Option Nat
  | .num literal => parseUint literal
  | .null => some old
  | _ => none

/-- Into a map that holds `old`: the elements are decoded one after another, each into a fresh
value, and stored under their names. -/
def decodeMap {α : Type} (element : Json → Option α) (old : List (Text × α)) :
    Json → Option (List (Text × α))
  | .obj members =>
    members.foldlM (fun m e => (element e.2).map fun v => Assoc.insert e.1 v m) old
  | .null => some []
  | _ => none

/-! ## Structs -/

/-- A field of a struct: the name it has in JSON and how a value is stored in it. -/
structure Field (σ : Type) where
  name : Text
  store : σ → Json → Option σ

/-- `foldRune`: the least character that is equal up to case. Only the characters that can match an
ASCII letter matter for field names, and those are the letters, the long s and the Kelvin sign. -/
def foldRune (c : Char) : Char :=
  if 'a' ≤ c ∧ c ≤ 'z' then Char.ofNat (c.toNat - 32)
  else if c.toNat = 0x17F then 'S'
  else if c.toNat = 0x212A then 'K'
  else c

/-- `foldName`. -/
def foldName (name : Text) : Text :=
  name.map foldRune

/-- The field a member is stored in: by its exact name, or else by its folded one. -/
def fieldFor {σ : Type} (fields : List (Field σ)) (name : Text) : Option (Field σ) :=
  (fields.find? fun f => f.name = name).or (fields.find? fun f => foldName f.name = foldName name)

/-- Store one member; a name that is for no field is skipped. -/
def storeMember {σ : Type} (fields : List (Field σ)) (s : σ) (m : Text × Json) : Option σ :=
  match fieldFor fields m.1 with
  | some f => f.store s m.2
  | none => some s

variable {σ : Type} {fields : List (Field σ)}

/-- What storing a member can do: it is skipped, or stored by a field of that name up to case. -/
theorem storeMember_cases {s s' : σ} {m : Text × Json} (h : storeMember fields s m = some s') :
    s' = s ∨ ∃ f ∈ fields, foldName f.name = foldName m.1 ∧ f.store s m.2 = some s' := by
  unfold storeMember at h
  cases hfor : fieldFor fields m.1 with
  | none =>
    rw [hfor] at h
    cases h
    exact .inl rfl
  | some f =>
    rw [hfor] at h
    rcases or_eq_some_iff.1 hfor with hexact | ⟨-, hfold⟩
    · have hname : f.name = m.1 := by simpa using find?_some hexact
      exact .inr ⟨f, mem_of_find?_eq_some hexact, congrArg foldName hname, h⟩
    · exact .inr ⟨f, mem_of_find?_eq_some hfold, by simpa using find?_some hfold, h⟩

/-- Into a struct that holds `old`. -/
def decodeStruct {σ : Type} (fields : List (Field σ)) (old : σ) : Json → Option σ
  | .obj members => members.foldlM (storeMember fields) old
  | .null => some old
  | _ => none

theorem decodeStruct_obj (fields : List (Field σ)) (old : σ) (members : List (Text × Json)) :
    decodeStruct fields old (.obj members) = members.foldlM (storeMember fields) old := rfl

/-- **The rule for a struct.** What holds before and is kept by every member holds after the last
one. -/
theorem storeMembers_invariant {P : σ → Prop} {members : List (Text × Json)}
    (hstore : ∀ m ∈ members, ∀ s s', P s → storeMember fields s m = some s' → P s') :
    ∀ {s s'}, P s → members.foldlM (storeMember fields) s = some s' → P s' := by
  induction members with
  | nil =>
    intro s s' hs h
    cases h
    exact hs
  | cons m members ih =>
    intro s s' hs h
    simp only [foldlM_cons, bind, bind_eq_some_iff] at h
    obtain ⟨t, ht, h⟩ := h
    exact ih (fun m' hm' => hstore m' (mem_cons_of_mem _ hm'))
      (hstore m mem_cons_self s t hs ht) h

/-- The same, from what every field keeps. -/
theorem decodeStruct_invariant {P : σ → Prop}
    (hstore : ∀ f ∈ fields, ∀ s j s', P s → f.store s j = some s' → P s') {old s : σ} {j : Json}
    (hold : P old) (h : decodeStruct fields old j = some s) : P s := by
  cases j with
  | null => exact some.inj h ▸ hold
  | obj members =>
    refine storeMembers_invariant (fun m _ s s' hs hm => ?_) hold h
    rcases storeMember_cases hm with rfl | ⟨f, hf, -, hm⟩
    · exact hs
    · exact hstore f hf s m.2 s' hs hm
  | _ => cases h

end MxKeys.Lib.Json
