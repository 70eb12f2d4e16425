/-
# MxKeys.Lib.NetIP — IP addresses: reading them, and what kind they are.

An address is a list of 4 or 16 bytes; an IPv4 address may also stand in 16 bytes, after ten zeros
and two bytes `ff`, and every test looks through that (`to4`).  The parser is that of Go: four
decimals without leading zeros, or up to eight groups of hexadecimal digits with one `::` and
perhaps an IPv4 address at the end.
-/
import MxKeys.Lib.Hex
import Mathlib.Algebra.Group.Nat.Defs

namespace MxKeys.Lib.NetIP

open List

/-- An address as Go holds it. -/
abbrev IP := Bytes

/-! ## Reading -/

/-- The 16 bytes of an IPv4 address. -/
def mapped (v4 : Bytes) : IP := replicate 10 0 ++ [0xff, 0xff] ++ v4

/-- One of the four fields: digits without a leading zero, at most 255. -/
def octet (s : Text) : Option UInt8 :=
  if s = [] ∨ ¬s.all Char.isDigit ∨ (1 < s.length ∧ s.head? = some '0') then none
  else if 255 < Nat.ofDigitChars 10 s 0 then none
  else some (UInt8.ofNat (Nat.ofDigitChars 10 s 0))

/-- The dotted form. -/
def parseIPv4 (s : Text) : Option Bytes :=
  let fields := s.splitOn '.'
  if fields.length = 4 then fields.mapM octet else none

def isHex (c : Char) : Bool := (Hex.hexVal c).isSome

/-- The two bytes of a group of hexadecimal digits. -/
def group (hex : Text) : Bytes :=
  let n := hex.foldl (fun n c => n * 16 + (Hex.hexVal c).getD 0) 0
  [UInt8.ofNat (n / 256), UInt8.ofNat n]

/-- The end of `parseIPv6`: zeros at the place of `::`, which has to stand for at least one group.
-/
def expand (ip : Bytes) (ellipsis : Option Nat) : Option IP :=
  if ip.length < 16 then
    ellipsis.map fun e => ip.take e ++ replicate (16 - ip.length) 0 ++ ip.drop e
  else if ellipsis.isSome then none
  else some ip

/-- The loop of `parseIPv6`, with room for `n` more groups. -/
def groups : Nat → Text → Bytes → Option Nat → Option IP
  | 0, s, ip, ellipsis => if s = [] then expand ip ellipsis else none
  | n + 1, s, ip, ellipsis =>
    let hex := s.takeWhile isHex
    let rest := s.dropWhile isHex
    if hex = [] ∨ 4 < hex.length then none
    else
      match rest with
      | [] => expand (ip ++ group hex) ellipsis
      | '.' :: _ =>
        -- an IPv4 address at the end
        if (ellipsis = none ∧ ip.length ≠ 12) ∨ 16 < ip.length + 4 then none
        else (parseIPv4 s).bind fun v4 => expand (ip ++ v4) ellipsis
      | [':'] => none
      | ':' :: ':' :: more =>
        if ellipsis.isSome then none
        else if more = [] then expand (ip ++ group hex) (some (ip.length + 2))
        else groups n more (ip ++ group hex) (some (ip.length + 2))
      | ':' :: more => groups n more (ip ++ group hex) ellipsis
      | _ => none

/-- The form with colons. -/
def parseIPv6 : Text → Option IP
  | [':', ':'] => some (replicate 16 0)
  | ':' :: ':' :: s => groups 8 s [] (some 0)
  | s => groups 8 s [] none

/-- `net.ParseIP`: which kind it is depends on the first `.` or `:`. -/
def parseIP (s : Text) : Option IP :=
  match s.find? fun c => c = '.' ∨ c = ':' ∨ c = '%' with
  | some '.' => (parseIPv4 s).map mapped
  | some ':' => if '%' ∈ s then none else parseIPv6 s
  | _ => none

/-- The address that a host stands for without asking anybody: as above, and an IPv6 address may
have a zone. -/
def parseAddr (s : Text) : Option IP :=
  if s.find? (fun c => c = '.' ∨ c = ':' ∨ c = '%') = some ':' ∧ '%' ∈ s then
    if s.dropWhile (· ≠ '%') = ['%'] then none else parseIPv6 (s.takeWhile (· ≠ '%'))
  else parseIP s

/-! ## Kinds -/

/-- `To4`. -/
def to4 (ip : IP) : Option Bytes :=
  if ip.length = 4 then some ip
  else if ip.length = 16 ∧ ip.take 12 = replicate 10 0 ++ [0xff, 0xff] then some (ip.drop 12)
  else none

/-- The byte at a place. -/
def byte (ip : Bytes) (i : Nat) : UInt8 := ip.getD i 0

/-- A test for the IPv4 and one for the IPv6 addresses. -/
def test (v4 v6 : Bytes → Bool) (ip : IP) : Bool :=
  match to4 ip with
  | some ip4 => v4 ip4
  | none => ip.length = 16 && v6 ip

/-- `IsUnspecified`. -/
def isUnspecified : IP → Bool :=
  test (fun a => a == [0, 0, 0, 0]) fun a => a == replicate 16 0

/-- `IsLoopback`. -/
def isLoopback : IP → Bool :=
  test (fun a => byte a 0 == 127) fun a => a == replicate 15 0 ++ [1]

/-- RFC 1918, and the unique local addresses. -/
def isPrivate : IP → Bool :=
  test (fun a => byte a 0 == 10 || (byte a 0 == 172 && byte a 1 &&& 0xf0 == 16) ||
      (byte a 0 == 192 && byte a 1 == 168))
    fun a => byte a 0 &&& 0xfe == 0xfc

/-- `IsLinkLocalUnicast`. -/
def isLinkLocalUnicast : IP → Bool :=
  test (fun a => byte a 0 == 169 && byte a 1 == 254)
    fun a => byte a 0 == 0xfe && byte a 1 &&& 0xc0 == 0x80

/-- `IsLinkLocalMulticast`. -/
def isLinkLocalMulticast : IP → Bool :=
  test (fun a => byte a 0 == 224 && byte a 1 == 0 && byte a 2 == 0)
    fun a => byte a 0 == 0xff && byte a 1 &&& 0x0f == 0x02

/-- An IPv4 network: its number and its mask. -/
structure Network where
  number : Bytes
  mask : Bytes

/-- `network.Contains(ip)`, for an IPv4 network. -/
def Network.contains (n : Network) : IP → Bool :=
  test (fun a => zipWith (· &&& ·) a n.mask == zipWith (· &&& ·) n.number n.mask)
    fun _ => false

/-- A network of either kind, as `net.IPNet` holds it. -/
structure IPNet where
  ip : IP
  mask : Bytes
deriving DecidableEq

/-- `networkNumberAndMask`: both in 4 or both in 16 bytes, or both nil. -/
def IPNet.numberAndMask (n : IPNet) : Bytes × Bytes :=
  let number := (to4 n.ip).getD n.ip
  if number.length = 4 then
    if n.mask.length = 4 then (number, n.mask)
    else if n.mask.length = 16 then (number, n.mask.drop 12)
    else ([], [])
  else if number.length = 16 ∧ n.mask.length = 16 then (number, n.mask)
  else ([], [])

/-- `IPNet.Contains`. -/
def IPNet.contains (n : IPNet) (ip : IP) : Bool :=
  let (number, mask) := n.numberAndMask
  let ip := (to4 ip).getD ip
  ip.length = number.length ∧
    zipWith (· &&& ·) number mask = zipWith (· &&& ·) ip mask

/-- `net.CIDRMask`: ones and then zeros, `bits` of them. -/
def cidrMask (ones bits : Nat) : Bytes :=
  (range (bits / 8)).map fun i => UInt8.ofNat (256 - 2 ^ (8 - min 8 (ones - 8 * i)))

/-- `net.ParseCIDR`: the network.  Its mask has the length of the address as it was written, so an
IPv4 address among those of IPv6 has a mask of 16 bytes. -/
def parseCIDR (s : Text) : Option IPNet :=
  let addr := s.takeWhile (· ≠ '/')
  let ones := (s.dropWhile (· ≠ '/')).tail
  let bits := if addr.find? (fun c => c = '.' ∨ c = ':') = some '.' then 32 else 128
  if '/' ∈ s ∧ ones ≠ [] ∧ ones.all Char.isDigit ∧ Nat.ofDigitChars 10 ones 0 ≤ bits then
    (parseIP addr).map fun ip =>
      let mask := cidrMask (Nat.ofDigitChars 10 ones 0) bits
      ⟨zipWith (· &&& ·) (if bits = 32 then ip.drop 12 else ip) mask, mask⟩
  else none

/-- The unspecified addresses: the one of IPv6 and, in 4 or 16 bytes, the one of IPv4. -/
theorem isUnspecified_iff {ip : IP} : isUnspecified ip = true ↔
    ip = replicate 16 0 ∨ to4 ip = some [0, 0, 0, 0] := by
  unfold isUnspecified test
  cases h : to4 ip with
  | some ip4 =>
    constructor
    · intro heq
      exact .inr (congrArg some (by simpa using heq))
    · rintro (rfl | heq)
      · cases h
      · rw [Option.some.inj heq]
        rfl
  | none => simp +contextual

/-! ## Writing -/

/-- The eight groups of an IPv6 address. -/
def words : Bytes → List Nat
  | a :: b :: ip => (a.toNat * 256 + b.toNat) :: words ip
  | _ => []

/-- Where zero groups that are left out start, and how many they are: the first of the longest runs
of at least two. -/
def zeroRun (groups : List Nat) : Nat × Nat :=
  (range 8).foldl (fun (best : Nat × Nat) i =>
    let run := ((groups.drop i).takeWhile (· == 0)).length
    if 2 ≤ run ∧ best.2 < run then (i, run) else best) (8, 0)

/-- Groups in hexadecimal, with a colon between them. -/
def wordsText (groups : List Nat) : Text := [':'].intercalate (groups.map (Nat.toDigits 16))

/-- `IP.String`, for an address of 4 or 16 bytes. -/
def text (ip : IP) : Text :=
  match to4 ip with
  | some ip4 => ['.'].intercalate (ip4.map fun b => Nat.toDigits 10 b.toNat)
  | none =>
    let groups := words ip
    let (start, run) := zeroRun groups
    if run = 0 then wordsText groups
    else wordsText (groups.take start) ++ "::".toList ++ wordsText (groups.drop (start + run))

/-! ## Samples -/

example : parseIP "127.0.0.1".toList = some (mapped [127, 0, 0, 1]) := by decide
example : parseIP "::ffff:10.1.2.3".toList = some (mapped [10, 1, 2, 3]) := by decide
example : parseIP "fe80::1%eth0".toList = none := by decide
example : parseCIDR "10.7.0.0/12".toList = some ⟨[10, 0, 0, 0], [255, 240, 0, 0]⟩ := by decide
example : (parseIP "FE80:0::0:1".toList).map text = some "fe80::1".toList := by decide +kernel
example : (parseIP "::".toList).map text = some "::".toList := by decide +kernel

end MxKeys.Lib.NetIP
