/-
# MxKeys.Lib.Base64 — the standard encoding without padding of Go's `encoding/base64`.

`rawStdDecode` is `RawStdEncoding.DecodeString`: line breaks are skipped wherever they stand, every
other character must be in the alphabet, and a last group of two or three characters gives one or
two bytes whatever its unused bits are.  `rawStdEncode` is `EncodeToString`.
-/
import Mathlib.Data.List.Basic
import MxKeys.Lib.Utf8

namespace MxKeys.Lib.Base64

open List

/-- The value of a character of the alphabet. -/
def sextet (c : Char) : Option Nat :=
  if 'A' ≤ c ∧ c ≤ 'Z' then some (c.toNat - 'A'.toNat)
  else if 'a' ≤ c ∧ c ≤ 'z' then some (c.toNat - 'a'.toNat + 26)
  else if '0' ≤ c ∧ c ≤ '9' then some (c.toNat - '0'.toNat + 52)
  else if c = '+' then some 62
  else if c = '/' then some 63
  else none

/-- The bytes of the groups of four values, the last of which may be short. -/
def decodeQuanta : List Nat → Option Bytes
  | [] => some []
  | [_] => none
  | [a, b] => some [UInt8.ofNat (a * 4 + b / 16)]
  | [a, b, c] => some [UInt8.ofNat (a * 4 + b / 16), UInt8.ofNat (b % 16 * 16 + c / 4)]
  | a :: b :: c :: d :: rest =>
    (decodeQuanta rest).map fun bytes =>
      UInt8.ofNat (a * 4 + b / 16) :: UInt8.ofNat (b % 16 * 16 + c / 4) ::
        UInt8.ofNat (c % 4 * 64 + d) :: bytes

/-- `base64.RawStdEncoding.DecodeString`. -/
def rawStdDecode (s : Text) : Option Bytes := do
  let values ← (s.filter fun c => c ≠ '\r' ∧ c ≠ '\n').mapM sextet
  decodeQuanta values

/-- The character of a value below `64`. -/
def sextetChar (n : Nat) : Char :=
  if n < 26 then Char.ofNat ('A'.toNat + n)
  else if n < 52 then Char.ofNat ('a'.toNat + (n - 26))
  else if n < 62 then Char.ofNat ('0'.toNat + (n - 52))
  else if n = 62 then '+'
  else '/'

/-- `base64.RawStdEncoding.EncodeToString`. -/
def rawStdEncode : Bytes → Text
  | [] => []
  | [x] => [sextetChar (x.toNat / 4), sextetChar (x.toNat % 4 * 16)]
  | [x, y] =>
    [sextetChar (x.toNat / 4), sextetChar (x.toNat % 4 * 16 + y.toNat / 16),
      sextetChar (y.toNat % 16 * 4)]
  | x :: y :: z :: rest =>
    sextetChar (x.toNat / 4) :: sextetChar (x.toNat % 4 * 16 + y.toNat / 16) ::
      sextetChar (y.toNat % 16 * 4 + z.toNat / 64) :: sextetChar (z.toNat % 64) :: rawStdEncode rest

/-! ## Encoded bytes are read back -/

theorem sextet_sextetChar : ∀ n < 64, sextet (sextetChar n) = some n := by
  decide

theorem sextetChar_ne_break : ∀ n < 64, sextetChar n ≠ '\r' ∧ sextetChar n ≠ '\n' := by
  decide

/-- The values of the characters that bytes are encoded in. -/
def sextets : Bytes → List Nat
  | [] => []
  | [x] => [x.toNat / 4, x.toNat % 4 * 16]
  | [x, y] => [x.toNat / 4, x.toNat % 4 * 16 + y.toNat / 16, y.toNat % 16 * 4]
  | x :: y :: z :: rest =>
    x.toNat / 4 :: (x.toNat % 4 * 16 + y.toNat / 16) :: (y.toNat % 16 * 4 + z.toNat / 64) ::
      z.toNat % 64 :: sextets rest

theorem rawStdEncode_eq (bytes : Bytes) : rawStdEncode bytes = (sextets bytes).map sextetChar := by
  fun_induction sextets bytes with
  | case1 => rfl
  | case2 => rfl
  | case3 => rfl
  | case4 x y z rest ih => simp [rawStdEncode, ih]

theorem sextets_lt (bytes : Bytes) : ∀ n ∈ sextets bytes, n < 64 := by
  fun_induction sextets bytes with
  | case1 => nofun
  | case2 x =>
    have hx := x.toNat_lt
    simp only [mem_cons, not_mem_nil, or_false]
    omega
  | case3 x y =>
    have hx := x.toNat_lt
    have hy := y.toNat_lt
    simp only [mem_cons, not_mem_nil, or_false]
    omega
  | case4 x y z rest ih =>
    have hx := x.toNat_lt
    have hy := y.toNat_lt
    have hz := z.toNat_lt
    simp only [mem_cons]
    rintro n (rfl | rfl | rfl | rfl | hn)
    · omega
    · omega
    · omega
    · omega
    · exact ih n hn

theorem decodeQuanta_sextets (bytes : Bytes) : decodeQuanta (sextets bytes) = some bytes := by
  have hbyte : ∀ {n : Nat} {x : UInt8}, n = x.toNat → UInt8.ofNat n = x := by
    rintro n x rfl
    exact UInt8.ofNat_toNat
  fun_induction sextets bytes with
  | case1 => rfl
  | case2 x =>
    have hx := x.toNat_lt
    simp only [decodeQuanta]
    rw [hbyte (show x.toNat / 4 * 4 + x.toNat % 4 * 16 / 16 = x.toNat by omega)]
  | case3 x y =>
    have hx := x.toNat_lt
    have hy := y.toNat_lt
    simp only [decodeQuanta]
    rw [hbyte (x := x) (by omega), hbyte (x := y) (by omega)]
  | case4 x y z rest ih =>
    have hx := x.toNat_lt
    have hy := y.toNat_lt
    have hz := z.toNat_lt
    simp only [decodeQuanta, ih, Option.map_some]
    rw [hbyte (x := x) (by omega), hbyte (x := y) (by omega), hbyte (x := z) (by omega)]

theorem rawStdDecode_encode (bytes : Bytes) : rawStdDecode (rawStdEncode bytes) = some bytes := by
  have hlt := sextets_lt bytes
  have hfilter : ((sextets bytes).map sextetChar).filter (fun c => c ≠ '\r' ∧ c ≠ '\n') =
      (sextets bytes).map sextetChar := by
    refine filter_eq_self.2 fun c hc => ?_
    obtain ⟨n, hn, rfl⟩ := mem_map.1 hc
    exact decide_eq_true (sextetChar_ne_break n (hlt n hn))
  have hvalues : ∀ {ns : List Nat}, (∀ n ∈ ns, n < 64) →
      (ns.map sextetChar).mapM sextet = some ns := by
    intro ns hns
    induction ns with
    | nil => rfl
    | cons n ns ih =>
      rw [map_cons, mapM_cons, sextet_sextetChar n (hns n mem_cons_self),
        ih fun k hk => hns k (mem_cons_of_mem _ hk)]
      rfl
  rw [rawStdDecode, rawStdEncode_eq, hfilter, hvalues hlt]
  exact decodeQuanta_sextets bytes

end MxKeys.Lib.Base64
