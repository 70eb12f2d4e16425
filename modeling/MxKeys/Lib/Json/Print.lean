/-
# MxKeys.Lib.Json.Print — writing JSON text, and reading it back.

`text` writes a document without white space, the members of an object in the order they stand in.
How a character of a string is written is a parameter: `json.Marshal` escapes more characters than
the JSON grammar asks for, canonical JSON as few as it can. All the reader needs is that the escape
of a character is read as that character (`Escapes`), and then every document is read back from its
text (`parse_text`).
-/
import MxKeys.Lib.Json.Parse

namespace MxKeys.Lib.Json

open List Option

/-! ## Writing -/

/-- A string in quotes, each character written by `esc`. -/
def quote (esc : Char → Text) (s : Text) : Text :=
  '"' :: (s.flatMap esc ++ ['"'])

/-- What follows the first part of a list: the other parts and the closing bracket. -/
def tailText (close : Char) : List Text → Text
  | [] => [close]
  | t :: ts => ',' :: (t ++ tailText close ts)

/-- Parts between brackets, separated by commas. -/
def listText (opening close : Char) : List Text → Text
  | [] => [opening, close]
  | t :: ts => opening :: (t ++ tailText close ts)

/-- A member of an object, its value already written. -/
def memberText (esc : Char → Text) (m : Text × Text) : Text :=
  quote esc m.1 ++ ':' :: m.2

/-- The text of a document. -/
def text (esc : Char → Text) : Json → Text :=
  fold {
    null := ['n', 'u', 'l', 'l']
    bool := fun b => if b then ['t', 'r', 'u', 'e'] else ['f', 'a', 'l', 's', 'e']
    num := fun literal => literal
    str := quote esc
    arr := listText '[' ']'
    obj := fun members => listText '{' '}' (members.map (memberText esc)) }

/-- The `\u` escape of a code unit. -/
def unicodeEscape (u : Nat) : Text :=
  ['\\', 'u', Nat.digitChar (u / 4096), Nat.digitChar (u / 256 % 16), Nat.digitChar (u / 16 % 16),
    Nat.digitChar (u % 16)]

/-- How `json.Marshal` writes a character: with the short escapes, and control characters, the HTML
characters and the two line separators of JavaScript as `\u` escapes. -/
def marshalEscape (c : Char) : Text :=
  if c = '"' then ['\\', '"']
  else if c = '\\' then ['\\', '\\']
  else if c = '\x08' then ['\\', 'b']
  else if c = '\x0c' then ['\\', 'f']
  else if c = '\n' then ['\\', 'n']
  else if c = '\r' then ['\\', 'r']
  else if c = '\t' then ['\\', 't']
  else if c.toNat < 0x20 ∨ c = '<' ∨ c = '>' ∨ c = '&' ∨ c.toNat = 0x2028 ∨ c.toNat = 0x2029 then
    unicodeEscape c.toNat
  else [c]

/-- `json.Marshal` of a document. -/
def marshal (j : Json) : Text :=
  text marshalEscape j

/-! ## Strings are read back -/

/-- The piece of a string body stands for the character. -/
def Piece.Denotes (p : Piece) (c : Char) : Prop :=
  p = .char c ∨ p = .unit c.toNat

/-- The escape of a character is read as that character. -/
def Escapes (esc : Char → Text) : Prop :=
  ∀ c, ∃ p : Piece, p.Denotes c ∧ ∀ rest, scanBody (esc c ++ rest) = (scanBody rest).map p.cons

theorem isSurrogate_toNat (c : Char) : isSurrogate c.toNat = false := by
  have hvalid : c.toNat.isValidChar := c.valid
  unfold Nat.isValidChar at hvalid
  simp only [isSurrogate, Bool.and_eq_false_iff, decide_eq_false_iff_not]
  omega

theorem runes_cons {p : Piece} {c : Char} (h : p.Denotes c) (ps : List Piece) :
    runes (p :: ps) = c :: runes ps := by
  rcases h with rfl | rfl
  · rfl
  · simp [runes, runesFrom, isSurrogate_toNat]

theorem scanBody_quote (rest : Text) : scanBody ('"' :: rest) = some ([], rest) := by
  rw [scanBody.eq_def]
  simp

theorem scanBody_short {e c : Char} (he : escaped e = some c) (hu : e ≠ 'u') (rest : Text) :
    scanBody ('\\' :: e :: rest) = (scanBody rest).map (Piece.char c).cons := by
  rw [scanBody.eq_def]
  simp [hu, he]

theorem scanBody_unicode {u : Nat} (hu : u < 65536) (rest : Text) :
    scanBody (unicodeEscape u ++ rest) = (scanBody rest).map (Piece.unit u).cons := by
  have hget : getu4 (Nat.digitChar (u / 4096)) (Nat.digitChar (u / 256 % 16))
      (Nat.digitChar (u / 16 % 16)) (Nat.digitChar (u % 16)) = some u := by
    simp only [getu4, Hex.hexVal_digitChar (u / 4096) (by omega),
      Hex.hexVal_digitChar (u / 256 % 16) (by omega), Hex.hexVal_digitChar (u / 16 % 16) (by omega),
      Hex.hexVal_digitChar (u % 16) (by omega), bind, bind_some, pure, some.injEq]
    omega
  simp only [unicodeEscape, cons_append, nil_append]
  rw [scanBody.eq_def]
  simp [hget]

theorem scanBody_plain {c : Char} (hq : c ≠ '"') (hb : c ≠ '\\') (hc : ¬c.toNat < 0x20)
    (rest : Text) : scanBody (c :: rest) = (scanBody rest).map (Piece.char c).cons := by
  rw [scanBody.eq_def]
  simp only [if_neg hq, if_neg hb, if_neg hc]

theorem marshalEscape_escapes : Escapes marshalEscape := by
  intro c
  unfold marshalEscape
  split_ifs with hq hb h₁ h₂ h₃ h₄ h₅ hu
  -- the short escapes
  iterate 7
    · subst c
      exact ⟨_, .inl rfl, scanBody_short (by decide) (by decide)⟩
  · have hsmall : c.toNat < 65536 := by
      rcases hu with hu | rfl | rfl | rfl | hu | hu
      · omega
      · decide
      · decide
      · decide
      · omega
      · omega
    exact ⟨_, .inr rfl, scanBody_unicode hsmall⟩
  · exact ⟨_, .inl rfl, scanBody_plain hq hb fun h => hu (.inl h)⟩

/-! ## Documents are read back -/

theorem skipSpace_cons {c : Char} (hc : isSpace c = false) (rest : Text) :
    skipSpace (c :: rest) = c :: rest := by
  simp [skipSpace, hc]

section Text

variable (esc : Char → Text)

@[simp] theorem text_null : text esc .null = ['n', 'u', 'l', 'l'] := fold_null _

@[simp] theorem text_bool (b : Bool) :
    text esc (.bool b) = if b then ['t', 'r', 'u', 'e'] else ['f', 'a', 'l', 's', 'e'] :=
  fold_bool _ b

@[simp] theorem text_num (literal : Text) : text esc (.num literal) = literal :=
  fold_num _ literal

@[simp] theorem text_str (s : Text) : text esc (.str s) = quote esc s := fold_str _ s

@[simp] theorem text_arr (items : List Json) :
    text esc (.arr items) = listText '[' ']' (items.map (text esc)) :=
  fold_arr _ items

@[simp] theorem text_obj (members : List (Text × Json)) :
    text esc (.obj members) =
      listText '{' '}' (members.map fun m => memberText esc (m.1, text esc m.2)) := by
  rw [text, fold_obj]
  simp only [Assoc.mapValues, List.map_map]
  rfl

end Text

theorem isNumber_head {literal : Text} (h : IsNumber literal) :
    ∃ c l, literal = c :: l ∧ (c = '-' ∨ c.isDigit = true) := by
  unfold IsNumber scanNumber at h
  simp only [andThen, bind, bind_eq_some_iff, pure, some.injEq, Prod.mk.injEq] at h
  obtain ⟨⟨l₁, r₁⟩, hsign, ⟨l₂, r₂⟩, ⟨⟨l₃, r₃⟩, hint, _, -, rfl, -⟩, rfl, -⟩ := h
  obtain ⟨d, l₃, rfl, hd⟩ := scanInt_cases hint
  have hsign : l₁ = [] ∨ l₁ = ['-'] := by
    unfold scanSign at hsign
    split at hsign
    · cases hsign
      exact .inl rfl
    · split at hsign <;> cases hsign
      · exact .inr rfl
      · exact .inl rfl
  rcases hsign with rfl | rfl
  · exact ⟨d, _, rfl, .inr hd⟩
  · exact ⟨'-', _, rfl, .inl rfl⟩

theorem ne_of_isDigit {c d : Char} (hc : c.isDigit = true) (hd : d.isDigit = false) : c ≠ d := by
  rintro rfl
  rw [hc] at hd
  cases hd

/-- No text starts with white space or with a closing bracket. -/
theorem text_head (esc : Char → Text) {j : Json} (hj : WellFormed j) :
    ∃ c t, text esc j = c :: t ∧ isSpace c = false ∧ c ≠ ']' := by
  cases j with
  | null => exact ⟨'n', _, text_null esc, by decide, by decide⟩
  | bool b => cases b <;> exact ⟨_, _, text_bool esc _, by decide, by decide⟩
  | num literal =>
    obtain ⟨c, l, rfl, hc⟩ := isNumber_head ((numbers_num literal).1 hj)
    refine ⟨c, l, text_num esc _, ?_⟩
    rcases hc with rfl | hc
    · decide
    · refine ⟨?_, ne_of_isDigit hc (by decide)⟩
      simp [isSpace, ne_of_isDigit hc (show ' '.isDigit = false by decide),
        ne_of_isDigit hc (show '\t'.isDigit = false by decide),
        ne_of_isDigit hc (show '\r'.isDigit = false by decide),
        ne_of_isDigit hc (show '\n'.isDigit = false by decide)]
  | str s => exact ⟨'"', _, text_str esc s, by decide, by decide⟩
  | arr items => cases items <;> exact ⟨'[', _, text_arr esc _, by decide, by decide⟩
  | obj members => cases members <;> exact ⟨'{', _, text_obj esc _, by decide, by decide⟩

theorem notStarting_tailText {close : Char} (h : continues close = false) (ts : List Text)
    (rest : Text) : NotStarting continues (tailText close ts ++ rest) := by
  cases ts with
  | nil => exact notStarting_cons h _
  | cons t ts => exact notStarting_cons (by decide) _

theorem length_memberText (esc : Char → Text) (m : Text × Text) :
    m.2.length < (memberText esc m).length := by
  simp [memberText, quote]
  omega

section ReadBack

variable {esc : Char → Text} (hesc : Escapes esc)
include hesc

theorem quoted_escapes (s rest : Text) :
    quoted (s.flatMap esc ++ '"' :: rest) = some (s, rest) := by
  have hbody : ∃ ps, scanBody (s.flatMap esc ++ '"' :: rest) = some (ps, rest) ∧ runes ps = s := by
    induction s with
    | nil => exact ⟨[], scanBody_quote rest, rfl⟩
    | cons c s ih =>
      obtain ⟨ps, hps, rfl⟩ := ih
      obtain ⟨p, hp, hscan⟩ := hesc c
      refine ⟨p :: ps, ?_, runes_cons hp ps⟩
      rw [flatMap_cons, append_assoc, hscan, hps]
      rfl
  obtain ⟨ps, hps, hrunes⟩ := hbody
  simp [quoted, hps, hrunes]

theorem readName_memberText (m : Text × Text) (rest : Text) :
    readName (memberText esc m ++ rest) = some (m.1, m.2 ++ rest) := by
  have hread := quoted_escapes hesc m.1 (':' :: (m.2 ++ rest))
  simp only [memberText, quote, cons_append, append_assoc, nil_append, readName]
  rw [skipSpace_cons (by decide)]
  simp only [↓reduceIte, hread, bind, bind_some]
  rw [skipSpace_cons (by decide)]
  simp

/-- The reader returns the document and the rest, given enough fuel and a rest that does not
continue a number. -/
def ReadsBack (esc : Char → Text) (j : Json) : Prop :=
  ∀ fuel rest, (text esc j).length ≤ fuel → NotStarting continues rest →
    value fuel (text esc j ++ rest) = some (j, rest)

omit hesc in
theorem moreItems_text {items : List Json} (h : ∀ v ∈ items, ReadsBack esc v) :
    ∀ fuel rest, (tailText ']' (items.map (text esc))).length ≤ fuel →
      moreItems fuel (tailText ']' (items.map (text esc)) ++ rest) = some (items, rest) := by
  induction items with
  | nil =>
    intro fuel rest hfuel
    obtain ⟨fuel, rfl⟩ : ∃ f, fuel = f + 1 := ⟨fuel - 1, by simp [tailText] at hfuel; omega⟩
    simp [tailText, moreItems, skipSpace_cons (c := ']') (by decide)]
  | cons v items ih =>
    intro fuel rest hfuel
    simp only [map_cons, tailText, length_cons, length_append] at hfuel
    obtain ⟨fuel, rfl⟩ : ∃ f, fuel = f + 1 := ⟨fuel - 1, by omega⟩
    have hv := h v mem_cons_self fuel (tailText ']' (items.map (text esc)) ++ rest) (by omega)
      (notStarting_tailText (by decide) _ _)
    have hitems := ih (fun w hw => h w (mem_cons_of_mem _ hw)) fuel rest (by omega)
    simp only [map_cons, tailText, cons_append, append_assoc]
    rw [moreItems, skipSpace_cons (by decide)]
    simp [hv, hitems]

theorem moreMembers_text {members : List (Text × Json)}
    (h : ∀ m ∈ members, ReadsBack esc m.2) :
    ∀ fuel rest,
      (tailText '}' (members.map fun m => memberText esc (m.1, text esc m.2))).length ≤ fuel →
      moreMembers fuel
        (tailText '}' (members.map fun m => memberText esc (m.1, text esc m.2)) ++ rest)
        = some (members, rest) := by
  induction members with
  | nil =>
    intro fuel rest hfuel
    obtain ⟨fuel, rfl⟩ : ∃ f, fuel = f + 1 := ⟨fuel - 1, by simp [tailText] at hfuel; omega⟩
    simp [tailText, moreMembers, skipSpace_cons (c := '}') (by decide)]
  | cons m members ih =>
    intro fuel rest hfuel
    have hlen := length_memberText esc (m.1, text esc m.2)
    simp only [map_cons, tailText, length_cons, length_append] at hfuel
    obtain ⟨fuel, rfl⟩ : ∃ f, fuel = f + 1 := ⟨fuel - 1, by omega⟩
    have hv := h m mem_cons_self fuel
      (tailText '}' (members.map fun m => memberText esc (m.1, text esc m.2)) ++ rest)
      (by simp only at hlen; omega) (notStarting_tailText (by decide) _ _)
    have hmembers := ih (fun w hw => h w (mem_cons_of_mem _ hw)) fuel rest (by omega)
    simp only [map_cons, tailText, cons_append, append_assoc]
    rw [moreMembers, skipSpace_cons (by decide)]
    simp [readName_memberText hesc, hv, hmembers]

/-- **Every document is read back from its text.** -/
theorem readsBack (j : Json) : WellFormed j → ReadsBack esc j := by
  induction j with
  | null =>
    intro _ fuel rest hfuel _
    obtain ⟨fuel, rfl⟩ : ∃ f, fuel = f + 1 := ⟨fuel - 1, by simp at hfuel; omega⟩
    simp [value, skipSpace, isSpace, readLiteral, Char.isDigit]
  | bool b =>
    intro _ fuel rest hfuel _
    cases b <;>
    · obtain ⟨fuel, rfl⟩ : ∃ f, fuel = f + 1 := ⟨fuel - 1, by simp at hfuel; omega⟩
      simp [value, skipSpace, isSpace, readLiteral, Char.isDigit]
  | num literal =>
    intro hj fuel rest hfuel hrest
    have hnumber : IsNumber literal := (numbers_num literal).1 hj
    obtain ⟨c, l, rfl, hc⟩ := isNumber_head hnumber
    have hread : scanNumber (c :: (l ++ rest)) = some (c :: l, rest) :=
      scanNumber_stable hnumber rest hrest
    obtain ⟨c', t, ht, hspace, -⟩ := text_head esc hj
    rw [text_num] at ht hfuel ⊢
    cases ht
    obtain ⟨fuel, rfl⟩ : ∃ f, fuel = f + 1 := ⟨fuel - 1, by simp at hfuel; omega⟩
    have hne : ∀ d, d.isDigit = false → d ≠ '-' → c ≠ d := by
      rintro d hd hd' rfl
      rcases hc with rfl | hc
      · exact hd' rfl
      · rw [hc] at hd
        cases hd
    rw [cons_append, value, skipSpace_cons hspace]
    simp only [if_neg (hne '{' (by decide) (by decide)), if_neg (hne '[' (by decide) (by decide)),
      if_neg (hne '"' (by decide) (by decide)), if_pos hc, hread, map_some]
  | str s =>
    intro _ fuel rest hfuel _
    obtain ⟨fuel, rfl⟩ : ∃ f, fuel = f + 1 := ⟨fuel - 1, by simp [quote] at hfuel; omega⟩
    simp only [text_str, quote, cons_append, append_assoc, nil_append]
    rw [value, skipSpace_cons (by decide)]
    simp [quoted_escapes hesc]
  | arr items ih =>
    intro hj fuel rest hfuel _
    rw [WellFormed, numbers_arr] at hj
    rw [text_arr] at hfuel ⊢
    cases items with
    | nil =>
      obtain ⟨fuel, rfl⟩ : ∃ f, fuel = f + 1 := ⟨fuel - 1, by simp [listText] at hfuel; omega⟩
      simp [listText, value, skipSpace, isSpace]
    | cons v items =>
      simp only [map_cons, listText, length_cons, length_append] at hfuel
      obtain ⟨fuel, rfl⟩ : ∃ f, fuel = f + 1 := ⟨fuel - 1, by omega⟩
      have hv := ih v mem_cons_self (hj v mem_cons_self) fuel
        (tailText ']' (items.map (text esc)) ++ rest) (by omega)
        (notStarting_tailText (by decide) _ _)
      have hitems := moreItems_text
        (fun w hw => ih w (mem_cons_of_mem _ hw) (hj w (mem_cons_of_mem _ hw)))
        fuel rest (by omega)
      obtain ⟨c, t, ht, hspace, hclose⟩ := text_head esc (hj v mem_cons_self)
      rw [ht] at hv
      simp only [map_cons, listText, cons_append, append_assoc, ht]
      rw [value, skipSpace_cons (by decide)]
      simp only [cons_append] at hv
      simp [skipSpace_cons hspace, hclose, hv, hitems]
  | obj members ih =>
    intro hj fuel rest hfuel _
    rw [WellFormed, numbers_obj] at hj
    rw [text_obj] at hfuel ⊢
    cases members with
    | nil =>
      obtain ⟨fuel, rfl⟩ : ∃ f, fuel = f + 1 := ⟨fuel - 1, by simp [listText] at hfuel; omega⟩
      simp [listText, value, skipSpace, isSpace]
    | cons m members =>
      have hlen := length_memberText esc (m.1, text esc m.2)
      simp only [map_cons, listText, length_cons, length_append] at hfuel hlen
      obtain ⟨fuel, rfl⟩ : ∃ f, fuel = f + 1 := ⟨fuel - 1, by omega⟩
      have hv := ih m mem_cons_self (hj m mem_cons_self) fuel
        (tailText '}' (members.map fun m => memberText esc (m.1, text esc m.2)) ++ rest) (by omega)
        (notStarting_tailText (by decide) _ _)
      have hmembers := moreMembers_text hesc
        (fun w hw => ih w (mem_cons_of_mem _ hw) (hj w (mem_cons_of_mem _ hw)))
        fuel rest (by omega)
      have hname := readName_memberText hesc (m.1, text esc m.2)
        (tailText '}' (members.map fun m => memberText esc (m.1, text esc m.2)) ++ rest)
      -- a member starts with a quote, so the object is not taken for an empty one
      obtain ⟨t, ht⟩ : ∃ t, memberText esc (m.1, text esc m.2) = '"' :: t := ⟨_, rfl⟩
      rw [ht] at hname
      simp only [map_cons, listText, cons_append, append_assoc, ht]
      rw [value, skipSpace_cons (by decide)]
      simp only [cons_append] at hname
      simp [skipSpace_cons (c := '"') (by decide), hname, hv, hmembers]

/-- **A text that was written is parsed to the document it was written from.** -/
theorem parse_text {j : Json} (hj : WellFormed j) (hdepth : j.depth ≤ maxNestingDepth) :
    parse (text esc j) = some j := by
  have hread := readsBack hesc j hj (text esc j).length [] le_rfl (notStarting_nil _)
  rw [append_nil] at hread
  have hfirst : parseFirst (text esc j) = some (j, []) := by
    simp only [parseFirst, hread, bind_eq_bind, bind_some]
    exact if_pos hdepth
  simp only [parse, hfirst, bind_eq_bind, bind_some]
  exact if_pos rfl

/-- A text nested beyond the limit is rejected. -/
theorem parse_text_deep {j : Json} (hj : WellFormed j) (hdepth : maxNestingDepth < j.depth) :
    parse (text esc j) = none := by
  have hread := readsBack hesc j hj (text esc j).length [] le_rfl (notStarting_nil _)
  rw [append_nil] at hread
  have hfirst : parseFirst (text esc j) = none := by
    simp only [parseFirst, hread, bind_eq_bind, bind_some]
    exact if_neg (not_le.2 hdepth)
  simp only [parse, hfirst, bind_eq_bind, bind_none]

end ReadBack

end MxKeys.Lib.Json
