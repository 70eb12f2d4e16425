/-
# MxKeys.Lib.Duration — Go's durations.

A `time.Duration` is a number of nanoseconds in 64 bits.  `Time.Sub` cuts differences off at the
ends of that range, and `Duration.String` writes hours, minutes and seconds without leading zero
units, or a fraction of one smaller unit below a second.
-/
import MxKeys.Lib.Rfc3339

namespace MxKeys.Lib.Duration

/-- `Time.Sub`. -/
def sub (t u : Int) : Int := max (-9223372036854775808) (min 9223372036854775807 (t - u))

/-- `time.Hour`. -/
def hour : Int := 3600000000000

/-- `fmtFrac`: the last digits of a number as a fraction, without its last zeros. -/
def fractionText (v digits : Nat) : Text :=
  if v % 10 ^ digits = 0 then []
  else '.' :: ((Rfc3339.fixed digits (v % 10 ^ digits)).reverse.dropWhile (· == '0')).reverse

/-- A number of units, with a fraction of the given digits. -/
def unitText (v digits : Nat) (unit : Text) : Text :=
  Nat.toDigits 10 (v / 10 ^ digits) ++ fractionText v digits ++ unit

/-- The hours and minutes before a number of seconds, as far as there are any. -/
def minutesText (minutes : Nat) : Text :=
  if minutes = 0 then []
  else
    (if minutes / 60 = 0 then [] else Nat.toDigits 10 (minutes / 60) ++ ['h']) ++
      Nat.toDigits 10 (minutes % 60) ++ ['m']

/-- `Duration.String`. -/
def text (d : Int) : Text :=
  let u := d.natAbs
  (if d < 0 then ['-'] else []) ++
    if u = 0 then "0s".toList
    else if u < 1000 then unitText u 0 "ns".toList
    else if u < 1000000 then unitText u 3 "µs".toList
    else if u < 1000000000 then unitText u 6 "ms".toList
    else minutesText (u / 60000000000) ++ unitText (u % 60000000000) 9 "s".toList

example : text 90061000000500 = "25h1m1.0000005s".toList := by decide +kernel
example : text (-1500) = "-1.5µs".toList := by decide +kernel

end MxKeys.Lib.Duration
