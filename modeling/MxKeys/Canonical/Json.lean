/-
# MxKeys.Canonical.Json — Matrix canonical JSON.

The bytes that signatures are made over: no white space, the members of an object by increasing
name, integers between `-2^53 + 1` and `2^53 - 1` in decimal and no other numbers, and in strings
only the escapes that the grammar asks for.  `writeValue` writes a generic value, `marshal` is
`Marshal` and `json` is `JSON`, which reads its input first.
-/
import MxKeys.Lib.Json.Decode
import MxKeys.Lib.Json.Print

namespace MxKeys.Canonical

open MxKeys.Lib
open Json

/-- The largest integer that is written, `2^53 - 1`. -/
def maxSafeInteger : Int := 9007199254740991

/-- An integer in decimal. -/
def intText (n : Int) : Text :=
  if n < 0 then '-' :: Nat.toDigits 10 n.natAbs else Nat.toDigits 10 n.natAbs

/-- `writeJSONNumber`: fractions and exponents are refused, and integers outside the range. -/
def writeJSONNumber (literal : Text) : Option Text :=
  if literal.any (fun c => c == '.' || c == 'e' || c == 'E') then none
  else
    (intOf literal).bind fun n =>
      if maxSafeInteger < n ∨ n < -maxSafeInteger then none else some (intText n)

/-- How `writeString` writes a character. -/
def escape (c : Char) : Text :=
  if c = '"' then ['\\', '"']
  else if c = '\\' then ['\\', '\\']
  else if c = '\x08' then ['\\', 'b']
  else if c = '\x0c' then ['\\', 'f']
  else if c = '\n' then ['\\', 'n']
  else if c = '\r' then ['\\', 'r']
  else if c = '\t' then ['\\', 't']
  else if c.toNat < 0x20 then unicodeEscape c.toNat
  else [c]

/-- `writeArray`, the items already written. -/
def writeArray (items : List (Option Text)) : Option Text :=
  (items.mapM id).map (listText '[' ']')

/-- One member of an object, its value already written. -/
def writeMember (m : Text × Option Text) : Option Text :=
  m.2.map fun t => memberText escape (m.1, t)

/-- `writeObject`, the values already written: the members by increasing name. -/
def writeObject (members : List (Text × Option Text)) : Option Text :=
  ((Assoc.ofEntries members).mapM writeMember).map (listText '{' '}')

/-- `writeValue`. -/
def writeValue : Json → Option Text :=
  fold {
    null := some ['n', 'u', 'l', 'l']
    bool := fun b => some (if b then ['t', 'r', 'u', 'e'] else ['f', 'a', 'l', 's', 'e'])
    num := writeJSONNumber
    str := fun s => some (quote escape s)
    arr := writeArray
    obj := writeObject }

/-- `canonical.Marshal` of a generic value. -/
def marshal (v : Json) : Option Bytes := (writeValue v).map Utf8.encode

/-- The generic value that `canonical.JSON` reads: one document and nothing behind it. -/
def input (bytes : Bytes) : Option Json := (parse (Utf8.decode bytes)).map generic

/-- `canonical.JSON`. -/
def json (bytes : Bytes) : Option Bytes := (input bytes).bind marshal

/-- What `json.Marshal` writes of a generic value is read back. -/
theorem input_marshal {v : Json} (hv : v.Normal) (hwf : v.WellFormed)
    (hdepth : v.depth ≤ maxNestingDepth) : input (Utf8.encode v.marshal) = some v := by
  unfold input
  rw [Utf8.decode_encode, Json.marshal, parse_text marshalEscape_escapes hwf hdepth,
    Option.map_some, generic_of_normal hv]

end MxKeys.Canonical
