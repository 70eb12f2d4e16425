/-
# MxKeys.Lib.Rfc3339 — an instant in a time zone as text.

`format` is Go's `Format(time.RFC3339Nano)`: the date and time of the zone, the fraction of the
second without its last zeros, and the offset of the zone.  An instant is a number of nanoseconds
since 1970-01-01T00:00:00Z, an offset a number of minutes.

`format_injective`: the text determines the instant and the offset.  Every field ends at the first
character that is no digit, so the text can be read off from the left, and the date determines the
number of the day.
-/
import Mathlib.Algebra.Group.Nat.Defs
import Mathlib.Data.List.TakeWhile
import MxKeys.Lib.Utf8

namespace MxKeys.Lib.Rfc3339

open List

/-! ## Decimal fields -/

/-- The last `width` decimal digits. -/
def fixed : Nat → Nat → Text
  | 0, _ => []
  | width + 1, n => fixed width (n / 10) ++ [Nat.digitChar (n % 10)]

/-- `appendInt`: in decimal, with zeros in front up to a width. -/
def appendInt (n width : Nat) : Text :=
  if n < 10 ^ width then fixed width n else Nat.toDigits 10 n

/-- Only digits. -/
def Digits (text : Text) : Prop := ∀ c ∈ text, c.isDigit = true

theorem digits_fixed (width n : Nat) : Digits (fixed width n) := by
  induction width generalizing n with
  | zero => exact nofun
  | succ width ih =>
    intro c hc
    rcases mem_append.1 hc with hc | hc
    · exact ih (n / 10) c hc
    · rw [mem_singleton.1 hc, Nat.isDigit_digitChar]
      exact decide_eq_true (Nat.mod_lt n (by decide))

theorem length_fixed (width n : Nat) : (fixed width n).length = width := by
  induction width generalizing n with
  | zero => rfl
  | succ width ih => rw [fixed, length_append, ih]; rfl

theorem toNat_digitChar : ∀ d < 10, (Nat.digitChar d).toNat - '0'.toNat = d := by decide

variable {width n m : Nat} {s t : Text}

theorem value_fixed (h : n < 10 ^ width) :
    Nat.ofDigitChars 10 (fixed width n) 0 = n := by
  induction width generalizing n with
  | zero =>
    have hzero : n = 0 := Nat.lt_one_iff.1 h
    rw [hzero]
    rfl
  | succ width ih =>
    have hlt : n / 10 < 10 ^ width := by
      rw [pow_succ] at h
      exact Nat.div_lt_of_lt_mul (by rwa [mul_comm])
    rw [fixed, Nat.ofDigitChars_append, ih hlt, Nat.ofDigitChars_cons,
      toNat_digitChar _ (Nat.mod_lt n (by decide))]
    show 10 * (n / 10) + n % 10 = n
    exact Nat.div_add_mod n 10

theorem digits_appendInt (n width : Nat) : Digits (appendInt n width) := by
  unfold appendInt
  split_ifs
  · exact digits_fixed width n
  · intro c hc
    exact Nat.isDigit_of_mem_toDigits (by decide) (by decide) hc

theorem value_appendInt (n width : Nat) : Nat.ofDigitChars 10 (appendInt n width) 0 = n := by
  unfold appendInt
  split_ifs with h
  · exact value_fixed h
  · exact Nat.ofDigitChars_ten_toDigits

theorem appendInt_injective (h : appendInt m width = appendInt n width) :
    m = n := by
  rw [← value_appendInt m width, h, value_appendInt]

/-- A field ends at the first character that is no digit. -/
theorem eq_of_digits_append {a b : Text} {x y : Char} (ha : Digits a) (hb : Digits b)
    (hx : x.isDigit = false) (hy : y.isDigit = false) (h : a ++ x :: s = b ++ y :: t) :
    a = b ∧ x :: s = y :: t := by
  induction a generalizing b with
  | nil =>
    cases b with
    | nil => exact ⟨rfl, h⟩
    | cons c b =>
      have hc := hb c mem_cons_self
      rw [← (cons.inj h).1, hx] at hc
      cases hc
  | cons c a ih =>
    cases b with
    | nil =>
      have hc := ha c mem_cons_self
      rw [(cons.inj h).1, hy] at hc
      cases hc
    | cons d b =>
      obtain ⟨rfl, hrest⟩ := cons.inj h
      obtain ⟨rfl, htail⟩ := ih (fun e he => ha e (mem_cons_of_mem _ he))
        (fun e he => hb e (mem_cons_of_mem _ he)) hrest
      exact ⟨rfl, htail⟩

/-- So does the text of a number. -/
theorem appendInt_append {x y : Char} (hx : x.isDigit = false) (hy : y.isDigit = false)
    (h : appendInt m width ++ x :: s = appendInt n width ++ y :: t) :
    m = n ∧ x :: s = y :: t :=
  (eq_of_digits_append (digits_appendInt _ _) (digits_appendInt _ _) hx hy h).imp_left
    appendInt_injective

/-! ## The calendar -/

/-- Leap years of the Gregorian calendar. -/
def isLeap (year : Int) : Bool := year % 4 = 0 ∧ (year % 100 ≠ 0 ∨ year % 400 = 0)

/-- `daysBefore`: the days of a year before each month, without a leap day. -/
def daysBefore : List Nat := [0, 31, 59, 90, 120, 151, 181, 212, 243, 273, 304, 334, 365]

/-- The month and the day of a day of a year without a leap day. -/
def commonMonthDay (yday : Nat) : Nat × Nat :=
  let month := yday / 31
  let next := daysBefore.getD (month + 1) 365
  if next ≤ yday then (month + 2, yday - next + 1)
  else (month + 1, yday - daysBefore.getD month 0 + 1)

/-- The month and the day of a day of the year. -/
def monthDay (leap : Bool) (yday : Nat) : Nat × Nat :=
  if leap then
    if yday = 59 then (2, 29)
    else commonMonthDay (if 59 < yday then yday - 1 else yday)
  else commonMonthDay yday

/-- The day of the year of a month and a day. -/
def dayOfYear (leap : Bool) (month day : Nat) : Nat :=
  daysBefore.getD (month - 1) 0 + (day - 1) + if leap ∧ 2 < month then 1 else 0

theorem dayOfYear_monthDay (leap : Bool) {yday : Nat} (h : yday < 366)
    (hleap : leap = false → yday < 365) :
    dayOfYear leap (monthDay leap yday).1 (monthDay leap yday).2 = yday := by
  have hall : ∀ yday < 366,
      dayOfYear true (monthDay true yday).1 (monthDay true yday).2 = yday := by
    decide +kernel
  have hcommon : ∀ yday < 365,
      dayOfYear false (monthDay false yday).1 (monthDay false yday).2 = yday := by
    decide +kernel
  cases leap with
  | true => exact hall yday h
  | false => exact hcommon yday (hleap rfl)

/-- A year and a day of it, from 0. -/
structure YearDay where
  year : Int
  yday : Int

/-- The year and the day of the year of a day that is counted from 0001-01-01, by whole cycles of
400, 100 and 4 years; the last cycle of 100 years in one of 400 and the last year in one of 4 are
longer. -/
def yearDay (d : Int) : YearDay :=
  let n400 := d / 146097
  let d := d % 146097
  let n100 := d / 36524 - d / 36524 / 4
  let d := d - 36524 * n100
  let n4 := d / 1461
  let d := d % 1461
  let n := d / 365 - d / 365 / 4
  ⟨400 * n400 + 100 * n100 + 4 * n4 + n + 1, d - 365 * n⟩

/-- The number of a day of a year. -/
def dayNumber (year yday : Int) : Int :=
  let y := year - 1
  146097 * (y / 400) + 36524 * (y % 400 / 100) + 1461 * (y % 100 / 4) + 365 * (y % 4) + yday

/-- The cycles of a day. -/
structure Cycles (d n400 n100 n4 n yday : Int) : Prop where
  day : d = 146097 * n400 + 36524 * n100 + 1461 * n4 + 365 * n + yday
  n100_range : 0 ≤ n100 ∧ n100 ≤ 3
  n4_range : 0 ≤ n4 ∧ n4 ≤ 24
  n_range : 0 ≤ n ∧ n ≤ 3
  yday_range : 0 ≤ yday ∧ yday ≤ 365
  last : yday = 365 → n = 3 ∧ (n4 = 24 → n100 = 3)

theorem exists_cycles (d : Int) : ∃ n400 n100 n4 n yday, Cycles d n400 n100 n4 n yday ∧
    yearDay d = ⟨400 * n400 + 100 * n100 + 4 * n4 + n + 1, yday⟩ := by
  refine ⟨_, _, _, _, _, ?_, rfl⟩
  have h₁ : d = 146097 * (d / 146097) + d % 146097 ∧ 0 ≤ d % 146097 ∧ d % 146097 < 146097 := by
    omega
  generalize d / 146097 = n400, d % 146097 = d₁ at h₁ ⊢
  have h₂ : 0 ≤ d₁ / 36524 - d₁ / 36524 / 4 ∧ d₁ / 36524 - d₁ / 36524 / 4 ≤ 3 ∧
      0 ≤ d₁ - 36524 * (d₁ / 36524 - d₁ / 36524 / 4) ∧
      d₁ - 36524 * (d₁ / 36524 - d₁ / 36524 / 4) ≤ 36524 ∧
      (d₁ - 36524 * (d₁ / 36524 - d₁ / 36524 / 4) = 36524 →
        d₁ / 36524 - d₁ / 36524 / 4 = 3) := by
    omega
  generalize d₁ / 36524 - d₁ / 36524 / 4 = n100 at h₂ ⊢
  obtain ⟨d₂, hd₂⟩ : ∃ d₂, d₁ - 36524 * n100 = d₂ := ⟨_, rfl⟩
  rw [hd₂] at h₂ ⊢
  have h₃ : d₂ = 1461 * (d₂ / 1461) + d₂ % 1461 ∧ 0 ≤ d₂ % 1461 ∧ d₂ % 1461 < 1461 ∧
      0 ≤ d₂ / 1461 ∧ d₂ / 1461 ≤ 24 := by
    omega
  generalize d₂ / 1461 = n4, d₂ % 1461 = d₃ at h₃ ⊢
  have h₄ : 0 ≤ d₃ / 365 - d₃ / 365 / 4 ∧ d₃ / 365 - d₃ / 365 / 4 ≤ 3 ∧
      0 ≤ d₃ - 365 * (d₃ / 365 - d₃ / 365 / 4) ∧ d₃ - 365 * (d₃ / 365 - d₃ / 365 / 4) ≤ 365 ∧
      (d₃ - 365 * (d₃ / 365 - d₃ / 365 / 4) = 365 → d₃ / 365 - d₃ / 365 / 4 = 3) := by
    omega
  generalize d₃ / 365 - d₃ / 365 / 4 = n at h₄ ⊢
  constructor <;> omega

theorem dayNumber_yearDay (d : Int) : dayNumber (yearDay d).year (yearDay d).yday = d := by
  obtain ⟨n400, n100, n4, n, yday, hc, heq⟩ := exists_cycles d
  obtain ⟨hday, h100, h4, hn, -, -⟩ := hc
  rw [heq, dayNumber]
  have hyear : 400 * n400 + 100 * n100 + 4 * n4 + n + 1 - 1 =
      400 * n400 + 100 * n100 + 4 * n4 + n := by omega
  rw [hyear]
  have q400 : (400 * n400 + 100 * n100 + 4 * n4 + n) / 400 = n400 := by omega
  have q100 : (400 * n400 + 100 * n100 + 4 * n4 + n) % 400 / 100 = n100 := by omega
  have q4 : (400 * n400 + 100 * n100 + 4 * n4 + n) % 100 / 4 = n4 := by omega
  have q : (400 * n400 + 100 * n100 + 4 * n4 + n) % 4 = n := by omega
  rw [q400, q100, q4, q, hday]

theorem yearDay_bounds (d : Int) : 0 ≤ (yearDay d).yday ∧ (yearDay d).yday < 366 ∧
    (isLeap (yearDay d).year = false → (yearDay d).yday < 365) := by
  obtain ⟨n400, n100, n4, n, yday, hc, heq⟩ := exists_cycles d
  obtain ⟨-, h100, h4, hn, hrange, hlast⟩ := hc
  rw [heq]
  dsimp only
  refine ⟨by omega, by omega, fun hleap => ?_⟩
  by_contra hlong
  obtain ⟨rfl, hn100⟩ := hlast (by omega)
  refine Bool.false_ne_true (hleap.symm.trans (decide_eq_true ⟨by omega, ?_⟩))
  by_cases h24 : n4 = 24
  · right
    have := hn100 h24
    omega
  · left
    omega

/-- The date of a day, counted from 1970-01-01. -/
def date (days : Int) : Int × Nat × Nat :=
  let yd := yearDay (days + 719162)
  (yd.year, monthDay (isLeap yd.year) yd.yday.toNat)

theorem date_injective : Function.Injective date := by
  intro a b h
  have hyear : (yearDay (a + 719162)).year = (yearDay (b + 719162)).year := congrArg Prod.fst h
  have hmonthDay : monthDay (isLeap (yearDay (a + 719162)).year) (yearDay (a + 719162)).yday.toNat =
      monthDay (isLeap (yearDay (b + 719162)).year) (yearDay (b + 719162)).yday.toNat :=
    congrArg Prod.snd h
  have hday : ∀ d, (dayOfYear (isLeap (yearDay d).year)
      (monthDay (isLeap (yearDay d).year) (yearDay d).yday.toNat).1
      (monthDay (isLeap (yearDay d).year) (yearDay d).yday.toNat).2 : Int) = (yearDay d).yday := by
    intro d
    obtain ⟨hnonneg, hlt, hcommon⟩ := yearDay_bounds d
    rw [dayOfYear_monthDay _ (by omega) fun hleap => by have := hcommon hleap; omega]
    omega
  have hyday : (yearDay (a + 719162)).yday = (yearDay (b + 719162)).yday := by
    have ha := hday (a + 719162)
    rw [hmonthDay, hyear] at ha
    exact ha.symm.trans (hday (b + 719162))
  have hnumber := dayNumber_yearDay (a + 719162)
  rw [hyear, hyday, dayNumber_yearDay] at hnumber
  omega

/-! ## The text -/

/-- A year; before year 0 with a sign. -/
def yearText (year : Int) : Text :=
  if year < 0 then '-' :: appendInt year.natAbs 4 else appendInt year.natAbs 4

/-- The fraction of a second, of nine digits, without the last zeros; nothing for a whole second. -/
def fraction (nanos : Nat) : Text :=
  if nanos = 0 then []
  else '.' :: ((fixed 9 nanos).reverse.dropWhile (· == '0')).reverse

/-- The offset of a zone, in minutes. -/
def zoneText (offset : Int) : Text :=
  if offset = 0 then ['Z']
  else (if offset < 0 then '-' else '+') ::
    (appendInt (offset.natAbs / 60) 2 ++ ':' :: appendInt (offset.natAbs % 60) 2)

/-- The time of a day, from its nanoseconds. -/
def clockText (nanos : Nat) : Text :=
  appendInt (nanos / 3600000000000) 2 ++ ':' :: (appendInt (nanos / 60000000000 % 60) 2 ++
    ':' :: appendInt (nanos / 1000000000 % 60) 2)

/-- `Format(time.RFC3339Nano)` of an instant in a zone. -/
def format (instant offset : Int) : Text :=
  let t := instant + offset * 60000000000
  let d := date (t / 86400000000000)
  let nanos := (t % 86400000000000).toNat
  yearText d.1 ++ '-' :: (appendInt d.2.1 2 ++ '-' :: (appendInt d.2.2 2 ++ 'T' ::
    (clockText nanos ++ (fraction (nanos % 1000000000) ++ zoneText offset))))

/-! ## Reading the text -/

theorem appendInt_ne_nil (n : Nat) (hw : 0 < width) : appendInt n width ≠ [] := by
  intro hnil
  have hvalue := value_appendInt n width
  rw [hnil] at hvalue
  have hzero : appendInt 0 width = fixed width 0 := if_pos (Nat.pow_pos (by decide))
  rw [← show 0 = n from hvalue, hzero] at hnil
  have hlength := length_fixed width 0
  rw [hnil] at hlength
  exact absurd hlength (ne_of_lt hw)

variable {a b : Int}

/-- A year ends where its digits do. -/
theorem yearText_append (h : yearText a ++ '-' :: s = yearText b ++ '-' :: t) : a = b ∧ s = t := by
  have hminus : '-'.isDigit = false := by decide
  -- a sign is not taken for a digit
  have hsign : ∀ {n : Nat} {u v : Text}, '-' :: u ≠ appendInt n 4 ++ '-' :: v := by
    intro n u v heq
    have hnil := (eq_of_digits_append (a := []) (nofun)
      (digits_appendInt n 4) hminus hminus heq).1
    exact appendInt_ne_nil n (by decide) hnil.symm
  have hdigits : ∀ {m n : Nat} {u v : Text},
      appendInt m 4 ++ '-' :: u = appendInt n 4 ++ '-' :: v → m = n ∧ u = v := by
    intro m n u v heq
    exact (appendInt_append hminus hminus heq).imp_right fun huv => (cons.inj huv).2
  unfold yearText at h
  split_ifs at h with ha hb hb
  · obtain ⟨hab, hst⟩ := hdigits (cons.inj h).2
    exact ⟨by omega, hst⟩
  · exact absurd h hsign
  · exact absurd h.symm hsign
  · obtain ⟨hab, hst⟩ := hdigits h
    exact ⟨by omega, hst⟩

/-- The last zeros can be put back. -/
theorem eq_of_trim {a b : Text} (hlen : a.length = b.length)
    (h : (a.reverse.dropWhile (· == '0')).reverse = (b.reverse.dropWhile (· == '0')).reverse) :
    a = b := by
  have hdrop : a.reverse.dropWhile (· == '0') = b.reverse.dropWhile (· == '0') :=
    reverse_inj.1 h
  have hzeros : ∀ l : Text, l.takeWhile (· == '0') =
      replicate (l.takeWhile (· == '0')).length '0' := fun l =>
    eq_replicate_of_mem fun c hc =>
      eq_of_beq (mem_takeWhile_imp (p := fun x => x == '0') hc)
  have hsplit := fun l : Text => @takeWhile_append_dropWhile _ (· == '0') l
  have hcount : (a.reverse.takeWhile (· == '0')).length =
      (b.reverse.takeWhile (· == '0')).length := by
    have ha := congrArg length (hsplit a.reverse)
    have hb := congrArg length (hsplit b.reverse)
    rw [length_append, length_reverse] at ha hb
    rw [hdrop] at ha
    omega
  refine reverse_inj.1 ?_
  rw [← hsplit a.reverse, ← hsplit b.reverse, hdrop, hzeros a.reverse, hzeros b.reverse, hcount]

theorem fraction_injective (hm : m < 1000000000) (hn : n < 1000000000)
    (h : fraction m = fraction n) :
    m = n := by
  unfold fraction at h
  split_ifs at h with hm0 hn0 hn0
  · rw [hm0, hn0]
  · have hfixed : fixed 9 m = fixed 9 n :=
      eq_of_trim (by rw [length_fixed, length_fixed]) (cons.inj h).2
    have hvalue : ∀ {k : Nat}, k < 10 ^ 9 →
        Nat.ofDigitChars 10 (fixed 9 k) 0 = k := value_fixed
    rw [← hvalue hm, hfixed, hvalue hn]

theorem digits_trim (n : Nat) : Digits ((fixed 9 n).reverse.dropWhile (· == '0')).reverse := by
  intro c hc
  exact digits_fixed 9 n c
    (mem_reverse.1 ((dropWhile_sublist _).mem (mem_reverse.1 hc)))

/-- A zone starts with a character that belongs to no fraction. -/
theorem zoneText_cons (offset : Int) :
    ∃ x rest, zoneText offset = x :: rest ∧ x ≠ '.' ∧ x.isDigit = false := by
  unfold zoneText
  split_ifs
  · exact ⟨'Z', [], rfl, by decide, by decide⟩
  · exact ⟨'-', _, rfl, by decide, by decide⟩
  · exact ⟨'+', _, rfl, by decide, by decide⟩

theorem zoneText_injective : Function.Injective zoneText := by
  have hdigits : ∀ {m n : Nat}, appendInt (m / 60) 2 ++ ':' :: appendInt (m % 60) 2 =
      appendInt (n / 60) 2 ++ ':' :: appendInt (n % 60) 2 → m = n := by
    intro m n heq
    obtain ⟨hdiv, hminutes⟩ := appendInt_append (by decide) (by decide) heq
    have hmod := appendInt_injective (cons.inj hminutes).2
    omega
  intro a b h
  unfold zoneText at h
  split_ifs at h <;> simp only [cons.injEq, Char.reduceEq, false_and, true_and] at h
  · omega
  · have := hdigits h
    omega
  · have := hdigits h
    omega

/-- The fraction ends where the zone starts. -/
theorem fraction_append (h : fraction m ++ zoneText a = fraction n ++ zoneText b) :
    fraction m = fraction n ∧ zoneText a = zoneText b := by
  obtain ⟨x, s, hx, hxdot, hxdigit⟩ := zoneText_cons a
  obtain ⟨y, t, hy, hydot, hydigit⟩ := zoneText_cons b
  rw [hx, hy] at h ⊢
  unfold fraction at h ⊢
  split_ifs at h ⊢
  · exact ⟨rfl, h⟩
  · exact absurd (cons.inj h).1 hxdot
  · exact absurd (cons.inj h).1.symm hydot
  · obtain ⟨hdigits, hzone⟩ := eq_of_digits_append (digits_trim m) (digits_trim n) hxdigit hydigit
      (cons.inj h).2
    exact ⟨by rw [hdigits], hzone⟩

theorem fraction_zone_cons (n : Nat) (offset : Int) :
    ∃ x rest, fraction n ++ zoneText offset = x :: rest ∧ x.isDigit = false := by
  obtain ⟨x, s, hx, -, hdigit⟩ := zoneText_cons offset
  unfold fraction
  split_ifs
  · exact ⟨x, s, hx, hdigit⟩
  · exact ⟨'.', _, rfl, by decide⟩

/-- The time of the day ends where the fraction or the zone starts. -/
theorem clockText_append {x y : Char} (hx : x.isDigit = false) (hy : y.isDigit = false)
    (h : clockText m ++ x :: s = clockText n ++ y :: t) :
    m / 1000000000 = n / 1000000000 ∧ x :: s = y :: t := by
  simp only [clockText, append_assoc, cons_append] at h
  obtain ⟨hhour, h⟩ := appendInt_append (by decide) (by decide) h
  obtain ⟨hminute, h⟩ := appendInt_append (by decide) (by decide) (cons.inj h).2
  obtain ⟨hsecond, h⟩ := appendInt_append hx hy (cons.inj h).2
  exact ⟨by omega, h⟩

/-- **The text determines the instant and the offset.** -/
theorem format_injective {o p : Int} (h : format a o = format b p) : a = b ∧ o = p := by
  unfold format at h
  obtain ⟨hyear, h⟩ := yearText_append h
  obtain ⟨hmonth, h⟩ := appendInt_append (by decide) (by decide) h
  obtain ⟨hday, h⟩ := appendInt_append (by decide) (by decide) (cons.inj h).2
  have htime := (cons.inj h).2
  obtain ⟨x, s, hx, hxdigit⟩ := fraction_zone_cons
    (((a + o * 60000000000) % 86400000000000).toNat % 1000000000) o
  obtain ⟨y, t, hy, hydigit⟩ := fraction_zone_cons
    (((b + p * 60000000000) % 86400000000000).toNat % 1000000000) p
  rw [hx, hy] at htime
  obtain ⟨hseconds, htail⟩ := clockText_append hxdigit hydigit htime
  rw [← hx, ← hy] at htail
  obtain ⟨hfraction, hzone⟩ := fraction_append htail
  have hnanos := fraction_injective (Nat.mod_lt _ (by decide)) (Nat.mod_lt _ (by decide)) hfraction
  obtain rfl := zoneText_injective hzone
  have hdays := date_injective (Prod.ext hyear (Prod.ext hmonth hday))
  refine ⟨?_, rfl⟩
  generalize o * 60000000000 = shift at hseconds hnanos hdays
  omega

/-- Only digits and the separators of the format. -/
theorem format_chars {instant offset : Int} {c : Char} (h : c ∈ format instant offset) :
    c.isDigit = true ∨ c ∈ ['-', 'T', ':', '.', 'Z', '+'] := by
  have hint : ∀ {n width : Nat}, c ∈ appendInt n width → c.isDigit = true := fun hc =>
    digits_appendInt _ _ c hc
  have hyear : ∀ {y : Int}, c ∈ yearText y → c = '-' ∨ c.isDigit = true := by
    intro y hc
    unfold yearText at hc
    split_ifs at hc
    · exact (mem_cons.1 hc).imp_right hint
    · exact .inr (hint hc)
  have hclock : ∀ {n : Nat}, c ∈ clockText n → c = ':' ∨ c.isDigit = true := by
    intro n hc
    simp only [clockText, mem_append, mem_cons] at hc
    rcases hc with hc | hc | hc | hc | hc
    exacts [.inr (hint hc), .inl hc, .inr (hint hc), .inl hc, .inr (hint hc)]
  have hfraction : ∀ {n : Nat}, c ∈ fraction n → c = '.' ∨ c.isDigit = true := by
    intro n hc
    unfold fraction at hc
    split_ifs at hc
    · cases hc
    · exact (mem_cons.1 hc).imp_right (digits_trim n c)
  have hzone : c ∈ zoneText offset → c = 'Z' ∨ c = '-' ∨ c = '+' ∨ c = ':' ∨ c.isDigit = true := by
    intro hc
    unfold zoneText at hc
    split_ifs at hc <;> simp only [mem_append, mem_cons, not_mem_nil, or_false] at hc
    · exact .inl hc
    · rcases hc with hc | hc | hc | hc
      exacts [.inr (.inl hc), by simp [hint hc], by simp [hc], by simp [hint hc]]
    · rcases hc with hc | hc | hc | hc
      exacts [by simp [hc], by simp [hint hc], by simp [hc], by simp [hint hc]]
  simp only [format, mem_append, mem_cons] at h
  rcases h with h | h | h | h | h | h | h | h | h
  · rcases hyear h with h | h <;> simp [h]
  · simp [h]
  · simp [hint h]
  · simp [h]
  · simp [hint h]
  · simp [h]
  · rcases hclock h with h | h <;> simp [h]
  · rcases hfraction h with h | h <;> simp [h]
  · rcases hzone h with h | h | h | h | h <;> simp [h]

example : format 1782089440123456000 150 = "2026-06-22T03:20:40.123456+02:30".toList := by
  decide +kernel

example : format (-1) 0 = "1969-12-31T23:59:59.999999999Z".toList := by decide +kernel

end MxKeys.Lib.Rfc3339
