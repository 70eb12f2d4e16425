/-
# MxKeys.Canonical.Grammar — canonical JSON is a normal form.

A value is built from null, booleans, integers of magnitude at most `2^53 - 1`, strings, arrays and
objects.  `Grammar` is the grammar of canonical texts, said without the writer: no white space,
names by increasing code point, the escapes that are needed and no others, integers without leading
zeros. The writer succeeds on every value, writes a text of the grammar, and the value is read back
from it; so two values have two texts, and what has been made canonical stays as it is.

The first part ties the writer of the model to the source where the two differ in form: the source
sorts the names of a map by bytes and from any order of iteration, and it has one function for each
Go type of number.
-/
import MxKeys.Canonical.Normal
import MxKeys.Lib.Utf8Order

namespace MxKeys.Canonical

open MxKeys.Lib
open List Option Json

/-! ## The source's writers -/

/-- `writeObject` as the source does it: collect the keys in the order `keys` in which the map is
walked, sort them, and write the member of each. -/
def writeObjectIn (keys : List Text) (obj : List (Text × Option Text)) :
    Option Text :=
  ((Utf8.sortStrings keys).mapM fun k => (Assoc.get k obj).bind fun v => writeMember (k, v)).map
    (listText '{' '}')

/-- The order in which a map is walked does not matter. -/
theorem writeObjectIn_eq {keys : List Text} {members : List (Text × Option Text)}
    (h : keys.Perm ((Assoc.ofEntries members).map Prod.fst)) :
    writeObjectIn keys (Assoc.ofEntries members) = writeObject members := by
  have hsorted := Assoc.sorted_ofEntries members
  unfold writeObjectIn writeObject
  rw [Utf8.sortStrings_of_perm h (pairwise_map.2 hsorted), List.mapM_map]
  congr 1
  refine (mapM_map (h := id) fun e he => ?_).trans (by rw [List.map_id_fun, Option.map_id]; rfl)
  show ((Assoc.get e.1 (Assoc.ofEntries members)).bind fun v => writeMember (e.1, v)) =
    (writeMember e).map id
  rw [Assoc.get_of_mem hsorted he, bind_some, Option.map_id]
  rfl

theorem writeObjectIn_swapped : writeObjectIn [['b'], ['a']] (Assoc.ofEntries
    [(['b'], some ['1']), (['a'], some ['2'])]) =
      writeObject [(['b'], some ['1']), (['a'], some ['2'])] :=
  writeObjectIn_eq (.swap ['a'] ['b'] [])

/-- A `float64`, as far as `writeFloatNumber` looks at it. -/
inductive Float64
  | nan
  | inf
  | fractional
  | whole (n : Int)

/-- A Go value that is written as a number. -/
inductive GoNumber
  | int (n : Int)
  | uint (n : Nat)
  | float (f : Float64)
  | number (literal : Text)

/-- `writeInteger`. -/
def writeInteger (n : Int) : Option Text :=
  if n < -maxSafeInteger ∨ maxSafeInteger < n then none else some (intText n)

/-- The case of `uint64`. -/
def writeUint (n : Nat) : Option Text :=
  if maxSafeInteger < n then none else some (Nat.toDigits 10 n)

/-- `writeFloatNumber`: only whole numbers are written. -/
def writeFloatNumber : Float64 → Option Text
  | .whole n => if n < -maxSafeInteger ∨ maxSafeInteger < n then none else some (intText n)
  | _ => none

/-- The cases of `writeValue` for numbers. -/
def GoNumber.write : GoNumber → Option Text
  | .int n => writeInteger n
  | .uint n => writeUint n
  | .float f => writeFloatNumber f
  | .number literal => writeJSONNumber literal

/-- The integer that a Go value holds. -/
def GoNumber.value : GoNumber → Option Int
  | .int n => some n
  | .uint n => some n
  | .float (.whole n) => some n
  | .float _ => none
  | .number literal =>
    if literal.any (fun c => c == '.' || c == 'e' || c == 'E') then none else intOf literal

theorem writeInteger_eq (n : Int) : writeInteger n = writeJSONNumber (intText n) := by
  unfold writeInteger writeJSONNumber
  rw [plain_intText, if_neg Bool.false_ne_true, intOf_intText, bind_some]
  exact if_congr Or.comm rfl rfl

/-- **All Go numbers are written as the decimal of the integer they hold**, if it is in the range.
-/
theorem GoNumber.write_eq (g : GoNumber) :
    g.write = g.value.bind fun n => writeJSONNumber (intText n) := by
  cases g with
  | int n => exact writeInteger_eq n
  | uint n =>
    refine Eq.trans ?_ (writeInteger_eq n)
    have htext : intText n = Nat.toDigits 10 n := if_neg (by omega)
    unfold GoNumber.write writeUint writeInteger
    rw [htext]
    refine if_congr ?_ rfl rfl
    unfold maxSafeInteger
    omega
  | float f =>
    cases f with
    | whole n => exact writeInteger_eq n
    | _ => rfl
  | number literal =>
    show writeJSONNumber literal = (if literal.any (fun c => c == '.' || c == 'e' || c == 'E')
      then none else intOf literal).bind fun n => writeJSONNumber (intText n)
    have hrange : (fun n => writeJSONNumber (intText n)) = fun n =>
        if maxSafeInteger < n ∨ n < -maxSafeInteger then none else some (intText n) := by
      funext n
      rw [← writeInteger_eq, writeInteger]
      exact if_congr Or.comm rfl rfl
    rw [hrange, writeJSONNumber]
    split_ifs <;> rfl

/-! ## The grammar -/

/-- How a character stands in a string: as it is, or escaped where it has to be. -/
inductive CharText : Char → Text → Prop
  | plain (c : Char) (hc : 0x20 ≤ c.toNat) (hq : c ≠ '"') (hb : c ≠ '\\') : CharText c [c]
  | quote : CharText '"' ['\\', '"']
  | backslash : CharText '\\' ['\\', '\\']
  | backspace : CharText '\x08' ['\\', 'b']
  | formFeed : CharText '\x0c' ['\\', 'f']
  | newline : CharText '\n' ['\\', 'n']
  | carriageReturn : CharText '\r' ['\\', 'r']
  | tab : CharText '\t' ['\\', 't']
  | control (c : Char) (hc : c.toNat < 0x20)
      (hshort : c ∉ ['\x08', '\x0c', '\n', '\r', '\t']) :
      CharText c ['\\', 'u', '0', '0', Nat.digitChar (c.toNat / 16), Nat.digitChar (c.toNat % 16)]

/-- The text of a string. -/
def StringText (s text : Text) : Prop :=
  ∃ parts, List.Forall₂ CharText s parts ∧ text = '"' :: (parts.flatten ++ ['"'])

/-- The shortest text of an integer. -/
inductive IntText : Text → Prop
  | zero : IntText ['0']
  | positive (d : Char) (ds : Text) (hd : d.isDigit = true) (hd0 : d ≠ '0')
      (hds : ∀ c ∈ ds, c.isDigit = true) : IntText (d :: ds)
  | negative (d : Char) (ds : Text) (hd : d.isDigit = true) (hd0 : d ≠ '0')
      (hds : ∀ c ∈ ds, c.isDigit = true) : IntText ('-' :: d :: ds)

/-- **The grammar of canonical JSON.**  The members of an object are given with their names, the
texts of their names and the texts of their values. -/
inductive Grammar : Text → Prop
  | null : Grammar ['n', 'u', 'l', 'l']
  | true : Grammar ['t', 'r', 'u', 'e']
  | false : Grammar ['f', 'a', 'l', 's', 'e']
  | integer {t : Text} (h : IntText t) : Grammar t
  | string {s t : Text} (h : StringText s t) : Grammar t
  | array (items : List Text) (h : ∀ t ∈ items, Grammar t) :
      Grammar (Json.listText '[' ']' items)
  | object (members : List (Text × Text × Text))
      (names : ∀ m ∈ members, StringText m.1 m.2.1) (values : ∀ m ∈ members, Grammar m.2.2)
      (increasing : members.Pairwise fun m m' => m.1 < m'.1) :
      Grammar (Json.listText '{' '}' (members.map fun m => m.2.1 ++ ':' :: m.2.2))

theorem charText_escape (c : Char) : CharText c (escape c) := by
  unfold escape
  split_ifs with hq hb h₁ h₂ h₃ h₄ h₅ hu
  · exact hq ▸ .quote
  · exact hb ▸ .backslash
  · exact h₁ ▸ .backspace
  · exact h₂ ▸ .formFeed
  · exact h₃ ▸ .newline
  · exact h₄ ▸ .carriageReturn
  · exact h₅ ▸ .tab
  · have hdigits : Json.unicodeEscape c.toNat = ['\\', 'u', '0', '0', Nat.digitChar (c.toNat / 16),
        Nat.digitChar (c.toNat % 16)] := by
      have h₀ : c.toNat / 4096 = 0 := by omega
      have h₁ : c.toNat / 256 % 16 = 0 := by omega
      have h₂ : c.toNat / 16 % 16 = c.toNat / 16 := by omega
      simp only [Json.unicodeEscape, h₀, h₁, h₂]
      rfl
    rw [hdigits]
    exact .control c hu (by simp [h₁, h₂, h₃, h₄, h₅])
  · exact .plain c (by omega) hq hb

theorem stringText_quote (s : Text) : StringText s (Json.quote escape s) := by
  refine ⟨s.map escape, ?_, by rw [Json.quote, flatMap_def]⟩
  induction s with
  | nil => exact .nil
  | cons c s ih => exact .cons (charText_escape c) ih

theorem intText_shortest (n : Int) : IntText (intText n) := by
  obtain ⟨d, ds, heq, hd, hds, hzero⟩ := exists_toDigits n.natAbs
  unfold intText
  rw [heq]
  split_ifs with hneg
  · exact .negative d ds hd (fun h => by have := (hzero h).1; omega) hds
  · by_cases hd0 : d = '0'
    · rw [hd0, (hzero hd0).2]
      exact .zero
    · exact .positive d ds hd hd0 hds

/-! ## Values -/

/-- A JSON value: objects are maps, numbers are integers in the range. -/
structure IsValue (v : Json) : Prop where
  normal : v.Normal
  integers : v.Numbers fun literal =>
    ∃ n, -maxSafeInteger ≤ n ∧ n ≤ maxSafeInteger ∧ literal = intText n

theorem IsValue.items {items : List Json} (h : IsValue (.arr items)) {v : Json} (hv : v ∈ items) :
    IsValue v :=
  ⟨(normal_arr items).1 h.normal v hv, (numbers_arr items).1 h.integers v hv⟩

theorem IsValue.members {members : List (Text × Json)} (h : IsValue (.obj members))
    {m : Text × Json} (hm : m ∈ members) : IsValue m.2 :=
  ⟨((normal_obj members).1 h.normal).2 m hm, (numbers_obj members).1 h.integers m hm⟩

theorem IsValue.sorted {members : List (Text × Json)} (h : IsValue (.obj members)) :
    Assoc.Sorted members := ((normal_obj members).1 h.normal).1

/-- A value is its own normal form. -/
theorem IsValue.normalForm {v : Json} (h : IsValue v) : NormalForm v := by
  induction v with
  | null => exact ⟨h.normal, numbers_null, normalize_null⟩
  | bool b => exact ⟨h.normal, numbers_bool b, normalize_bool b⟩
  | str s => exact normalForm_str s
  | num literal =>
    obtain ⟨n, hlow, hhigh, rfl⟩ := (numbers_num literal).1 h.integers
    refine normalForm_intText ?_
    rw [writeJSONNumber_intText ⟨hlow, hhigh⟩]
    rfl
  | arr items ih =>
    have hform := fun v hv => ih v hv (h.items hv)
    refine ⟨h.normal, (numbers_arr items).2 fun v hv => (hform v hv).wellFormed, ?_⟩
    rw [normalize_arr, mapM_of_fixed fun v hv => (hform v hv).fixed]
    rfl
  | obj members ih => exact normalForm_obj h.sorted fun m hm => ih m hm (h.members hm)

/-- The text of a value is of the grammar. -/
theorem IsValue.grammar {v : Json} (h : IsValue v) : Grammar (Json.text escape v) := by
  induction v with
  | null =>
    rw [text_null]
    exact .null
  | bool b =>
    rw [text_bool]
    cases b
    · exact .false
    · exact .true
  | num literal =>
    obtain ⟨n, -, -, rfl⟩ := (numbers_num literal).1 h.integers
    rw [text_num]
    exact .integer (intText_shortest n)
  | str s =>
    rw [text_str]
    exact .string (stringText_quote s)
  | arr items ih =>
    rw [text_arr]
    refine .array _ fun t ht => ?_
    obtain ⟨v, hv, rfl⟩ := List.mem_map.1 ht
    exact ih v hv (h.items hv)
  | obj members ih =>
    have htext : Json.text escape (.obj members) = Json.listText '{' '}'
        ((members.map fun m => (m.1, Json.quote escape m.1, Json.text escape m.2)).map
          fun m => m.2.1 ++ ':' :: m.2.2) := by
      rw [text_obj, List.map_map]
      rfl
    rw [htext]
    refine .object _ ?_ ?_ (pairwise_map.2 h.sorted)
    · intro m hm
      obtain ⟨m', -, rfl⟩ := List.mem_map.1 hm
      exact stringText_quote m'.1
    · intro m hm
      obtain ⟨m', hm', rfl⟩ := List.mem_map.1 hm
      exact ih m' hm' (h.members hm')

theorem IsValue.marshal {v : Json} (h : IsValue v) :
    marshal v = some (Utf8.encode (Json.text escape v)) := by
  rw [marshal_eq, h.normalForm.fixed]
  rfl

/-! ## Reading back -/

/-- A JSON parser without a limit on the nesting: one document and nothing behind it, the last
member of a name standing for it. -/
def decode (bytes : Bytes) : Option Json :=
  let text := Utf8.decode bytes
  (Json.value text.length text).bind fun first =>
    if Json.skipSpace first.2 = [] then some first.1.generic else none

theorem decode_text {v : Json} (h : NormalForm v) :
    decode (Utf8.encode (Json.text escape v)) = some v := by
  have hread := readsBack escape_escapes v h.wellFormed (Json.text escape v).length [] le_rfl
    (notStarting_nil _)
  rw [append_nil] at hread
  unfold decode
  rw [Utf8.decode_encode]
  dsimp only
  rw [hread, bind_some, if_pos (show Json.skipSpace [] = [] from rfl),
    generic_of_normal h.normal]

/-- What `JSON` has written it writes again. -/
theorem json_json {x y : Bytes} (h : json x = some y) : json y = some y := by
  obtain ⟨v, hv, hy⟩ := bind_eq_some_iff.1 h
  obtain ⟨j, hj, rfl⟩ := map_eq_some_iff.1 hv
  have hdepth : j.generic.depth ≤ Json.maxNestingDepth :=
    (depth_generic_le j).trans (parse_wellFormed hj).2
  obtain ⟨k, hk, hform, -, hparse⟩ := exists_of_marshal hy hdepth
  have hin : input y = some k := by
    rw [input, hparse, map_some, generic_of_normal hform.normal]
  rw [json, hin, bind_some, ← hy]
  exact marshal_congr (hform.fixed.trans hk.symm)

/-- **Canonical JSON is a normal form.**  Every value is written, in a text of the grammar, and read
back from its bytes, by Go's parser too if it is not nested more deeply than that parser reads; two
values have two canonical forms; and what `JSON` has written it writes again. -/
theorem canonical_normal_form :
    (∀ v, IsValue v → ∃ text, marshal v = some (Utf8.encode text) ∧ Grammar text ∧
      decode (Utf8.encode text) = some v ∧
      (v.depth ≤ Json.maxNestingDepth → input (Utf8.encode text) = some v)) ∧
    (∀ v w, IsValue v → IsValue w → marshal v = marshal w → v = w) ∧
    ∀ x y, json x = some y → json y = some y := by
  refine ⟨fun v hv => ⟨_, hv.marshal, hv.grammar, decode_text hv.normalForm, fun hdepth => ?_⟩,
    fun v w hv hw heq => ?_, fun x y h => json_json h⟩
  · rw [input, Utf8.decode_encode, parse_text escape_escapes hv.normalForm.wellFormed hdepth,
      map_some, generic_of_normal hv.normal]
  · rw [hv.marshal, hw.marshal, some.injEq] at heq
    have hback := decode_text hv.normalForm
    rw [heq, decode_text hw.normalForm] at hback
    exact (some.inj hback).symm

/-- An object with a name of two bytes after one of a single byte. -/
def sampleValue : Json :=
  .obj [(['a'], .arr [.num ['-', '1'], .null, .bool true]), (['é'], .str ['"', '\n'])]

theorem canonical_normal_form_sample :
    IsValue sampleValue ∧ ∃ text, marshal sampleValue = some (Utf8.encode text) ∧ Grammar text ∧
      decode (Utf8.encode text) = some sampleValue ∧
      (sampleValue.depth ≤ Json.maxNestingDepth → input (Utf8.encode text) = some sampleValue) := by
  have hvalue : IsValue sampleValue := by
    refine ⟨?_, ?_⟩
    · have hnull : Json.null.Normal := by simp [Json.Normal]
      have hbool : (Json.bool true).Normal := by simp [Json.Normal]
      simp only [sampleValue, normal_obj, forall_mem_cons, normal_arr, normal_num,
        normal_str, hnull, hbool]
      exact ⟨pairwise_pair.2 (by decide), ⟨trivial, trivial, trivial, forall_mem_nil _⟩, trivial,
        forall_mem_nil _⟩
    · simp only [sampleValue, numbers_obj, forall_mem_cons, numbers_arr,
        numbers_num, numbers_null, numbers_bool, numbers_str]
      exact ⟨⟨⟨-1, by decide, by decide, by decide⟩, trivial, trivial, forall_mem_nil _⟩, trivial,
        forall_mem_nil _⟩
  exact ⟨hvalue, canonical_normal_form.1 _ hvalue⟩

end MxKeys.Canonical
