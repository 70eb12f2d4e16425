/-
# MxKeys.Lib.Digest — CRC-32C, SHA-256 and HMAC-SHA256 over lists of bytes.

Reference definitions of the three functions the log is sealed with.  Of the hash functions only the
length of the code is used; the test vectors pin the definitions down.  A checksum detects the
change of a single byte (`crc32c_ne`): every step of the computation is injective, in the state and
in the byte.
-/
import Mathlib.Data.List.Basic
import MxKeys.Lib.Utf8

namespace MxKeys.Lib.Digest

open List

/-! ## Words as bytes -/

/-- A number below 2^32, least significant byte first. -/
def le32 (n : Nat) : Bytes :=
  [UInt8.ofNat n, UInt8.ofNat (n / 256), UInt8.ofNat (n / 65536), UInt8.ofNat (n / 16777216)]

/-- The number of four bytes, least significant first. -/
def ofLe32 (bytes : Bytes) : Nat :=
  bytes.foldr (fun b n => b.toNat + 256 * n) 0

/-- A number below 2^64, least significant byte first. -/
def le64 (n : Nat) : Bytes :=
  le32 n ++ le32 (n / 4294967296)

/-- The number of eight bytes, least significant first. -/
def ofLe64 (bytes : Bytes) : Nat :=
  ofLe32 (bytes.take 4) + 4294967296 * ofLe32 (bytes.drop 4)

/-- A word, most significant byte first. -/
def be32 (w : UInt32) : Bytes :=
  [(w >>> 24).toUInt8, (w >>> 16).toUInt8, (w >>> 8).toUInt8, w.toUInt8]

/-- The word of bytes, most significant first. -/
def ofBe32 (bytes : Bytes) : UInt32 :=
  bytes.foldl (fun w b => (w <<< 8) ||| b.toUInt32) 0

@[simp] theorem length_le32 (n : Nat) : (le32 n).length = 4 := rfl

@[simp] theorem length_le64 (n : Nat) : (le64 n).length = 8 := rfl

theorem ofLe32_le32_mod (n : Nat) : ofLe32 (le32 n) = n % 4294967296 := by
  simp only [ofLe32, le32, foldr_cons, foldr_nil, UInt8.toNat_ofNat']
  omega

variable {n i : Nat} {bytes : Bytes} {α : Type*}

theorem ofLe32_le32 (h : n < 4294967296) : ofLe32 (le32 n) = n := by
  rw [ofLe32_le32_mod, Nat.mod_eq_of_lt h]

theorem le32_ofLe32 (h : bytes.length = 4) : le32 (ofLe32 bytes) = bytes := by
  match bytes, h with
  | [a, b, c, d], _ =>
    have ha := a.toNat_lt
    have hb := b.toNat_lt
    have hc := c.toNat_lt
    have hd := d.toNat_lt
    simp only [le32, ofLe32, foldr_cons, foldr_nil, cons.injEq, and_true,
      ← UInt8.toNat_inj, UInt8.toNat_ofNat']
    omega

theorem ofLe64_le64 (h : n < 18446744073709551616) : ofLe64 (le64 n) = n := by
  show ofLe32 (le32 n) + 4294967296 * ofLe32 (le32 (n / 4294967296)) = n
  rw [ofLe32_le32_mod, ofLe32_le32_mod]
  omega

/-! ## CRC-32C -/

/-- One bit of the reflected Castagnoli polynomial. -/
def crcBit (crc : UInt32) : UInt32 :=
  if crc &&& 1 = 1 then (crc >>> 1) ^^^ 0x82F63B78 else crc >>> 1

/-- One byte. -/
def crcByte (crc : UInt32) (b : UInt8) : UInt32 :=
  (range 8).foldl (fun crc _ => crcBit crc) (crc ^^^ b.toUInt32)

/-- `crc32.Checksum` with the Castagnoli table. -/
def crc32c (bytes : Bytes) : UInt32 :=
  bytes.foldl crcByte 0xFFFFFFFF ^^^ 0xFFFFFFFF

/-- `crc32.Update`: a running checksum takes in more bytes. -/
def crcUpdate (crc : UInt32) (bytes : Bytes) : UInt32 :=
  bytes.foldl crcByte (crc ^^^ 0xFFFFFFFF) ^^^ 0xFFFFFFFF

/-- The checksum of what was taken in so far. -/
theorem crcUpdate_crc32c (bytes more : Bytes) :
    crcUpdate (crc32c bytes) more = crc32c (bytes ++ more) := by
  rw [crcUpdate, crc32c, crc32c, UInt32.xor_assoc, UInt32.xor_self, UInt32.xor_zero,
    foldl_append]

theorem crc32c_nil : crc32c [] = 0 := by
  decide

example : crc32c [0x31, 0x32, 0x33, 0x34, 0x35, 0x36, 0x37, 0x38, 0x39] = 0xE3069283 := by
  decide +kernel

theorem low_bit_iff (c : UInt32) : c &&& 1 = 1 ↔ c.toNat % 2 = 1 := by
  rw [← UInt32.toNat_inj, UInt32.toNat_and]
  exact Eq.congr (Nat.and_one_is_mod _) rfl

theorem toNat_shiftRight_one (c : UInt32) : (c >>> 1).toNat = c.toNat / 2 := by
  rw [UInt32.toNat_shiftRight]
  exact Nat.shiftRight_eq_div_pow _ 1

/-- The polynomial has its top bit set, and a shift clears that of its operand. -/
theorem shift_xor_ne (a b : UInt32) : (a >>> 1) ^^^ (0x82F63B78 : UInt32) ≠ b >>> 1 := by
  intro h
  have hbound : ∀ c : UInt32, (c >>> 1).toNat < 2 ^ 31 := by
    intro c
    have := c.toNat_lt
    rw [toNat_shiftRight_one]
    omega
  have hpoly : (a >>> 1) ^^^ (b >>> 1) = 0x82F63B78 := by
    rw [← h, ← UInt32.xor_assoc, UInt32.xor_self, UInt32.zero_xor]
  have hlt := Nat.xor_lt_two_pow (hbound a) (hbound b)
  rw [← UInt32.toNat_xor, hpoly] at hlt
  exact absurd hlt (by decide)

theorem crcBit_injective : Function.Injective crcBit := by
  intro a b h
  have hshift : a >>> 1 = b >>> 1 → a.toNat % 2 = b.toNat % 2 → a = b := by
    intro hs hlow
    have hs := congrArg UInt32.toNat hs
    rw [toNat_shiftRight_one, toNat_shiftRight_one] at hs
    exact UInt32.toNat_inj.1 (by omega)
  unfold crcBit at h
  split_ifs at h with ha hb hb
  · rw [low_bit_iff] at ha hb
    exact hshift ((UInt32.xor_left_inj _).1 h) (by omega)
  · exact absurd h (shift_xor_ne a b)
  · exact absurd h.symm (shift_xor_ne b a)
  · rw [low_bit_iff] at ha hb
    exact hshift h (by omega)

/-- A fold of injective steps is injective in its start. -/
theorem foldl_injective {β : Type*} {step : β → α → β}
    (h : ∀ a, Function.Injective fun b => step b a) (l : List α) :
    Function.Injective fun b => l.foldl step b := by
  induction l with
  | nil => exact Function.injective_id
  | cons a l ih => exact ih.comp (h a)

theorem crcByte_injective_left (b : UInt8) : Function.Injective fun crc => crcByte crc b := by
  intro x y h
  have h := foldl_injective (fun _ => crcBit_injective) (range 8) h
  exact (UInt32.xor_left_inj _).1 h

theorem crcByte_injective (crc : UInt32) : Function.Injective (crcByte crc) := by
  intro x y h
  have h := foldl_injective (fun _ => crcBit_injective) (range 8) h
  have h := congrArg UInt32.toNat ((UInt32.xor_right_inj crc).1 h)
  rw [UInt8.toNat_toUInt32, UInt8.toNat_toUInt32] at h
  exact UInt8.toNat_inj.1 h

/-- **A checksum detects the change of a single byte.** -/
theorem crc32c_ne (before after : Bytes) {x y : UInt8} (h : x ≠ y) :
    crc32c (before ++ x :: after) ≠ crc32c (before ++ y :: after) := by
  intro heq
  unfold crc32c at heq
  rw [UInt32.xor_left_inj, foldl_append, foldl_append, foldl_cons,
    foldl_cons] at heq
  exact h (crcByte_injective _ (foldl_injective crcByte_injective_left after heq))

theorem set_ne_self {l : List α} {a : α} (hi : i < l.length) (ha : l[i]? ≠ some a) :
    l.set i a ≠ l := by
  intro h
  rw [← h, getElem?_set_self hi] at ha
  exact ha rfl

variable {b : UInt8}

theorem crc32c_set_ne (hi : i < bytes.length) (hb : bytes[i]? ≠ some b) :
    crc32c (bytes.set i b) ≠ crc32c bytes := by
  have hbytes : bytes = bytes.take i ++ bytes[i] :: bytes.drop (i + 1) := by
    rw [getElem_cons_drop, take_append_drop]
  have hset : bytes.set i b = bytes.take i ++ b :: bytes.drop (i + 1) :=
    set_eq_take_append_cons_drop.trans (if_pos hi)
  have hne : b ≠ bytes[i] := fun h => hb (by rw [getElem?_eq_getElem hi, h])
  intro heq
  rw [hset] at heq
  nth_rewrite 3 [hbytes] at heq
  exact crc32c_ne _ _ hne heq

theorem ofLe32_set_ne (hlen : bytes.length = 4) (hi : i < bytes.length) (hb : bytes[i]? ≠ some b) :
    ofLe32 (bytes.set i b) ≠ ofLe32 bytes := by
  intro heq
  have h := congrArg le32 heq
  rw [le32_ofLe32 hlen, le32_ofLe32 (by rw [length_set, hlen])] at h
  exact set_ne_self hi hb h

/-! ## SHA-256 -/

/-- The eight words of the hash state. -/
structure HashState where
  a : UInt32
  b : UInt32
  c : UInt32
  d : UInt32
  e : UInt32
  f : UInt32
  g : UInt32
  h : UInt32

/-- The initial state. -/
def initial : HashState :=
  ⟨0x6a09e667, 0xbb67ae85, 0x3c6ef372, 0xa54ff53a, 0x510e527f, 0x9b05688c, 0x1f83d9ab, 0x5be0cd19⟩

/-- The round constants. -/
def roundConstants : List UInt32 :=
  [0x428a2f98, 0x71374491, 0xb5c0fbcf, 0xe9b5dba5, 0x3956c25b, 0x59f111f1, 0x923f82a4, 0xab1c5ed5,
   0xd807aa98, 0x12835b01, 0x243185be, 0x550c7dc3, 0x72be5d74, 0x80deb1fe, 0x9bdc06a7, 0xc19bf174,
   0xe49b69c1, 0xefbe4786, 0x0fc19dc6, 0x240ca1cc, 0x2de92c6f, 0x4a7484aa, 0x5cb0a9dc, 0x76f988da,
   0x983e5152, 0xa831c66d, 0xb00327c8, 0xbf597fc7, 0xc6e00bf3, 0xd5a79147, 0x06ca6351, 0x14292967,
   0x27b70a85, 0x2e1b2138, 0x4d2c6dfc, 0x53380d13, 0x650a7354, 0x766a0abb, 0x81c2c92e, 0x92722c85,
   0xa2bfe8a1, 0xa81a664b, 0xc24b8b70, 0xc76c51a3, 0xd192e819, 0xd6990624, 0xf40e3585, 0x106aa070,
   0x19a4c116, 0x1e376c08, 0x2748774c, 0x34b0bcb5, 0x391c0cb3, 0x4ed8aa4a, 0x5b9cca4f, 0x682e6ff3,
   0x748f82ee, 0x78a5636f, 0x84c87814, 0x8cc70208, 0x90befffa, 0xa4506ceb, 0xbef9a3f7, 0xc67178f2]

/-- Rotation to the right. -/
def rotr (x n : UInt32) : UInt32 :=
  (x >>> n) ||| (x <<< (32 - n))

/-- Extend the message schedule by `n` words; the newest word stands first. -/
def schedule : Nat → List UInt32 → List UInt32
  | 0, ws => ws
  | n + 1, ws =>
    let w₁₅ := ws.getD 14 0
    let w₂ := ws.getD 1 0
    let s₀ := rotr w₁₅ 7 ^^^ rotr w₁₅ 18 ^^^ (w₁₅ >>> 3)
    let s₁ := rotr w₂ 17 ^^^ rotr w₂ 19 ^^^ (w₂ >>> 10)
    schedule n ((ws.getD 15 0 + s₀ + ws.getD 6 0 + s₁) :: ws)

/-- One round, with its constant and its word. -/
def round (s : HashState) (kw : UInt32 × UInt32) : HashState :=
  let s₁ := rotr s.e 6 ^^^ rotr s.e 11 ^^^ rotr s.e 25
  let ch := (s.e &&& s.f) ^^^ (~~~s.e &&& s.g)
  let t₁ := s.h + s₁ + ch + kw.1 + kw.2
  let s₀ := rotr s.a 2 ^^^ rotr s.a 13 ^^^ rotr s.a 22
  let maj := (s.a &&& s.b) ^^^ (s.a &&& s.c) ^^^ (s.b &&& s.c)
  ⟨t₁ + (s₀ + maj), s.a, s.b, s.c, s.d + t₁, s.e, s.f, s.g⟩

/-- The sixteen words of a block, the last one first. -/
def blockWords (block : Bytes) : List UInt32 :=
  ((range 16).map fun i => ofBe32 ((block.drop (4 * i)).take 4)).reverse

/-- Work a block into the state. -/
def compress (s : HashState) (block : Bytes) : HashState :=
  let ws := (schedule 48 (blockWords block)).reverse
  let t := (roundConstants.zip ws).foldl round s
  ⟨s.a + t.a, s.b + t.b, s.c + t.c, s.d + t.d, s.e + t.e, s.f + t.f, s.g + t.g, s.h + t.h⟩

/-- The message with its padding and its length in bits. -/
def pad (message : Bytes) : Bytes :=
  message ++ 0x80 :: replicate ((119 - message.length % 64) % 64) 0 ++
    be32 (UInt32.ofNat (message.length * 8 / 4294967296)) ++
      be32 (UInt32.ofNat (message.length * 8))

/-- `sha256.Sum256`. -/
def sha256 (message : Bytes) : Bytes :=
  let padded := pad message
  let blocks := (range (padded.length / 64)).map fun i => (padded.drop (64 * i)).take 64
  let s := blocks.foldl compress initial
  be32 s.a ++ be32 s.b ++ be32 s.c ++ be32 s.d ++ be32 s.e ++ be32 s.f ++ be32 s.g ++ be32 s.h

example : (sha256 [0x61, 0x62, 0x63]).take 4 = [0xba, 0x78, 0x16, 0xbf] := by
  decide +kernel

/-- `hmac.New(sha256.New, key)` over a message. -/
def hmacSHA256 (key message : Bytes) : Bytes :=
  let key := if key.length > 64 then sha256 key else key
  let key := key ++ replicate (64 - key.length) 0
  sha256 (key.map (· ^^^ 0x5c) ++ sha256 (key.map (· ^^^ 0x36) ++ message))

@[simp] theorem length_hmacSHA256 (key message : Bytes) :
    (hmacSHA256 key message).length = 32 := rfl

end MxKeys.Lib.Digest
