/-
# MxKeys.Lib.Hex — hexadecimal text as Go's `encoding/hex` reads and writes it.

`decode` is `hex.DecodeString`: an even number of digits of either case.  `encode` is
`hex.EncodeToString`, in lower case.
-/
import Mathlib.Data.List.Basic
import MxKeys.Lib.Utf8

namespace MxKeys.Lib.Hex

/-- The value of a hexadecimal digit. -/
def hexVal (c : Char) : Option Nat :=
  if '0' ≤ c ∧ c ≤ '9' then some (c.toNat - '0'.toNat)
  else if 'a' ≤ c ∧ c ≤ 'f' then some (c.toNat - 'a'.toNat + 10)
  else if 'A' ≤ c ∧ c ≤ 'F' then some (c.toNat - 'A'.toNat + 10)
  else none

theorem hexVal_digitChar : ∀ d < 16, hexVal (Nat.digitChar d) = some d := by
  decide

/-- `hex.EncodeToString`. -/
def encode (bytes : Bytes) : Text :=
  bytes.flatMap fun b => [Nat.digitChar (b.toNat / 16), Nat.digitChar (b.toNat % 16)]

/-- `hex.DecodeString`. -/
def decode : Text → Option Bytes
  | [] => some []
  | [_] => none
  | high :: low :: rest => do
    let h ← hexVal high
    let l ← hexVal low
    let bytes ← decode rest
    return UInt8.ofNat (h * 16 + l) :: bytes

@[simp] theorem decode_encode (bytes : Bytes) : decode (encode bytes) = some bytes := by
  induction bytes with
  | nil => rfl
  | cons b bytes ih =>
    have hb := b.toNat_lt
    have hjoin : UInt8.ofNat (b.toNat / 16 * 16 + b.toNat % 16) = b := by
      rw [Nat.div_add_mod', UInt8.ofNat_toNat]
    show decode (_ :: _ :: encode bytes) = _
    simp only [decode, hexVal_digitChar _ (show b.toNat / 16 < 16 by omega),
      hexVal_digitChar _ (show b.toNat % 16 < 16 by omega), ih, bind, Option.bind_some, pure, hjoin]

theorem encode_injective : Function.Injective encode := by
  intro x y h
  have hdecode := congrArg decode h
  rwa [decode_encode, decode_encode, Option.some.injEq] at hdecode

end MxKeys.Lib.Hex
