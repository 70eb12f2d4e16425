/-
# MxKeys.Lib.Utf8 — text and its bytes, with the replacement rule of Go's `unicode/utf8`.

`encode` writes a text as UTF-8. `decode` reads bytes the way Go ranges over a string or unquotes a
JSON string: a valid encoding gives its character, and every byte that does not start one gives
U+FFFD and is skipped alone. The two are inverse on texts, and `decode` never fails, so a document
that arrives as bytes has one text.

The encoding of a single character and the fact that it is read back are the standard library's.
-/
import Mathlib.Data.List.Basic

namespace MxKeys.Lib

/-- Go's `[]byte`. -/
abbrev Bytes := List UInt8

/-- The code points of a string. -/
abbrev Text := List Char

namespace Utf8

open List

/-- The bytes of a text. -/
def encode (text : Text) : Bytes :=
  text.flatMap String.utf8EncodeChar

/-- `utf8.RuneError`, what an invalid byte is read as. -/
def runeError : Char := Char.ofNat 0xFFFD

/-- `utf8.DecodeRune`: the character the bytes start with, if they start with a valid encoding. No
encoding is longer than four bytes (`utf8.UTFMax`). -/
def decodeRune (bytes : Bytes) : Option Char :=
  (bytes.take 4).toByteArray.utf8DecodeChar? 0

/-- The loop over the bytes, with fuel for one step a byte. -/
def decodeLoop : Nat → Bytes → Text
  | 0, _ => []
  | _ + 1, [] => []
  | fuel + 1, b :: bytes =>
    match decodeRune (b :: bytes) with
    | some c => c :: decodeLoop fuel ((b :: bytes).drop c.utf8Size)
    | none => runeError :: decodeLoop fuel bytes

/-- The text of a byte string. -/
def decode (bytes : Bytes) : Text :=
  decodeLoop bytes.length bytes

@[simp] theorem encode_nil : encode [] = [] := rfl

@[simp] theorem encode_cons (c : Char) (text : Text) :
    encode (c :: text) = String.utf8EncodeChar c ++ encode text := rfl

@[simp] theorem encode_append (a b : Text) : encode (a ++ b) = encode a ++ encode b :=
  flatMap_append

theorem encode_ne_nil {text : Text} (h : text ≠ []) : encode text ≠ [] := by
  cases text with
  | nil => exact absurd rfl h
  | cons c text => simp [String.utf8EncodeChar_ne_nil]

theorem decodeRune_encode (c : Char) (bytes : Bytes) :
    decodeRune (String.utf8EncodeChar c ++ bytes) = some c := by
  have hlen : (String.utf8EncodeChar c).length ≤ 4 := by
    rw [String.length_utf8EncodeChar]
    exact Char.utf8Size_le_four c
  unfold decodeRune
  rw [take_append, take_of_length_le hlen, toByteArray_append]
  exact ByteArray.utf8DecodeChar?_utf8EncodeChar_append

theorem decodeLoop_encode (text : Text) :
    ∀ fuel, (encode text).length ≤ fuel → decodeLoop fuel (encode text) = text := by
  induction text with
  | nil =>
    intro fuel _
    cases fuel <;> rfl
  | cons c text ih =>
    intro fuel hfuel
    have hpos : 0 < c.utf8Size := Char.utf8Size_pos c
    have hsize := String.length_utf8EncodeChar c
    rw [encode_cons, length_append, hsize] at hfuel
    obtain ⟨fuel, rfl⟩ : ∃ f, fuel = f + 1 := ⟨fuel - 1, by omega⟩
    -- the encoding of `c` is not empty, so the loop takes its third branch on it
    obtain ⟨b, bytes, hb⟩ := exists_cons_of_ne_nil
      (l := encode (c :: text)) (encode_ne_nil (by simp))
    have hrune : decodeRune (b :: bytes) = some c := by
      rw [← hb, encode_cons]
      exact decodeRune_encode c _
    have hdrop : (b :: bytes).drop c.utf8Size = encode text := by
      rw [← hb, encode_cons, ← hsize]
      simp
    rw [hb]
    simp only [decodeLoop, hrune, hdrop]
    rw [ih fuel (by omega)]

/-- **A text is read back from its bytes.** -/
@[simp] theorem decode_encode (text : Text) : decode (encode text) = text :=
  decodeLoop_encode text _ (Nat.le_refl _)

end Utf8

end MxKeys.Lib
