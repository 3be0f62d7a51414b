/-!
# Instants

An instant is a number of seconds since the start of 1970, in universal time, and a fraction of a
second in nanoseconds.  Its text is a date and a time of day; the fraction is left out if it is
zero and otherwise has three, six or nine digits, the fewest that lose nothing.  A leap second is
the second before it with a fraction of a second or more.
-/

set_option autoImplicit false

namespace Uplift

/-- An instant of universal time. -/
structure Instant where
  /-- Seconds since the start of 1970. -/
  seconds : Int
  /-- Nanoseconds into the second. -/
  nanoseconds : Nat
  deriving DecidableEq, Repr, Inhabited

namespace Instant

/-! ## The calendar -/

/-- A day of the calendar. -/
structure Date where
  year : Int
  month : Nat
  day : Nat
  deriving DecidableEq, Repr

/-- Whether a year has a 29th of February. -/
def isLeapYear (year : Int) : Bool :=
  year % 4 = 0 && (year % 100 ≠ 0 || year % 400 = 0)

/-- The number of days in a month. -/
def daysInMonth (year : Int) (month : Nat) : Nat :=
  if month = 2 then if isLeapYear year then 29 else 28
  else if month = 4 ∨ month = 6 ∨ month = 9 ∨ month = 11 then 30
  else 31

/-- Whether a date is in the calendar. -/
def Date.isValid (date : Date) : Bool :=
  1 ≤ date.month && date.month ≤ 12 && 1 ≤ date.day && date.day ≤ daysInMonth date.year date.month

/-- The days of a year that starts in March before its `month`-th month, March being month 0.
The lengths of these months repeat every five months, with 153 days. -/
def daysBeforeMonth (month : Nat) : Nat :=
  (153 * month + 2) / 5

/-- The number of days from the first of January 1970 to a date.  Years are counted from March, so
that the 29th of February is the last day of its year. -/
def Date.toDays (date : Date) : Int :=
  let year := if date.month ≤ 2 then date.year - 1 else date.year
  let month := (date.month + 9) % 12
  365 * year + year / 4 - year / 100 + year / 400 + daysBeforeMonth month + date.day - 719469

/-- The date that is a number of days after the first of January 1970. -/
def Date.ofDays (days : Int) : Date :=
  let shifted := days + 719468
  let era := shifted / 146097
  let inEra := (shifted % 146097).toNat
  let yearOfEra := (inEra - inEra / 1460 + inEra / 36524 - inEra / 146096) / 365
  let inYear := inEra - (365 * yearOfEra + yearOfEra / 4 - yearOfEra / 100)
  let monthFromMarch := (5 * inYear + 2) / 153
  let day := inYear - daysBeforeMonth monthFromMarch + 1
  let month := if monthFromMarch < 10 then monthFromMarch + 3 else monthFromMarch - 9
  let year := era * 400 + yearOfEra
  ⟨if month ≤ 2 then year + 1 else year, month, day⟩

/-- The number of seconds in a day. -/
def secondsPerDay : Nat := 86400

/-! ## Text -/

/-- A number with at least `width` digits. -/
def padded (width n : Nat) : String :=
  let digits := Nat.toDigits 10 n
  String.ofList (List.replicate (width - digits.length) '0' ++ digits)

/-- A year: four digits, or a sign and more if they do not suffice. -/
def yearText (year : Int) : String :=
  if 0 ≤ year ∧ year ≤ 9999 then padded 4 year.toNat
  else (if year < 0 then "-" else "+") ++ padded 4 year.natAbs

/-- A fraction of a second with the fewest groups of three digits. -/
def fractionText (nanoseconds : Nat) : String :=
  if nanoseconds = 0 then ""
  else if nanoseconds % 1000000 = 0 then "." ++ padded 3 (nanoseconds / 1000000)
  else if nanoseconds % 1000 = 0 then "." ++ padded 6 (nanoseconds / 1000)
  else "." ++ padded 9 nanoseconds

/-- The text of an instant. -/
def text (instant : Instant) : String :=
  let date := Date.ofDays (instant.seconds / secondsPerDay)
  let inDay := (instant.seconds % secondsPerDay).toNat
  let leap := instant.nanoseconds / 1000000000
  yearText date.year ++ "-" ++ padded 2 date.month ++ "-" ++ padded 2 date.day ++ "T" ++
    padded 2 (inDay / 3600) ++ ":" ++ padded 2 (inDay / 60 % 60) ++ ":" ++
    padded 2 (inDay % 60 + leap) ++ fractionText (instant.nanoseconds % 1000000000) ++ "Z"

/-! ## Reading -/

/-- The value of a digit. -/
def digit? (c : Char) : Option Nat :=
  if c.isDigit then some (c.toNat - '0'.toNat) else none

/-- Reads a number of exactly `width` digits. -/
def readNumber? : Nat → List Char → Option (Nat × List Char)
  | 0, rest => some (0, rest)
  | width + 1, c :: rest => do
    let digit ← digit? c
    let (low, rest) ← readNumber? width rest
    some (digit * Nat.pow 10 width + low, rest)
  | _ + 1, [] => none

/-- Reads one of some characters. -/
def readMark? (marks : List Char) : List Char → Option (List Char)
  | c :: rest => if marks.contains c then some rest else none
  | [] => none

/-- Reads an optional fraction; digits after the ninth count for nothing. -/
def readFraction? : List Char → Option (Nat × List Char)
  | '.' :: rest =>
    let digits := rest.takeWhile Char.isDigit
    if digits.isEmpty then none
    else do
      let kept := digits.take 9
      let (value, _) ← readNumber? kept.length kept
      some (value * Nat.pow 10 (9 - kept.length), rest.dropWhile Char.isDigit)
  | rest => some (0, rest)

/-- Reads the distance from universal time, in seconds, at the end of a text. -/
def readOffset? : List Char → Option Int
  | ['Z'] => some 0
  | ['z'] => some 0
  | sign :: rest => do
    let factor : Int ← if sign = '+' then some 1
      else if sign = '-' ∨ sign = '−' then some (-1) else none
    let (hours, rest) ← readNumber? 2 rest
    let (minutes, rest) ← readNumber? 2 (← readMark? [':'] rest)
    if hours < 24 ∧ minutes < 60 ∧ rest.isEmpty then
      some (factor * (hours * 3600 + minutes * 60))
    else none
  | [] => none

/-- Reads the date at the start of a text. -/
def readDate? (text : List Char) : Option (Date × List Char) := do
  let (year, rest) ← readNumber? 4 text
  let (month, rest) ← readNumber? 2 (← readMark? ['-'] rest)
  let (day, rest) ← readNumber? 2 (← readMark? ['-'] rest)
  let date : Date := ⟨year, month, day⟩
  if date.isValid then some (date, rest) else none

/-- The instant that a text spells: a date, a time of day and the distance from universal time. -/
def parse? (text : String) : Option Instant := do
  let (date, rest) ← readDate? text.toList
  let (hours, rest) ← readNumber? 2 (← readMark? ['T', 't', ' '] rest)
  let (minutes, rest) ← readNumber? 2 (← readMark? [':'] rest)
  let (seconds, rest) ← readNumber? 2 (← readMark? [':'] rest)
  let (fraction, rest) ← readFraction? rest
  let offset ← readOffset? rest
  if hours < 24 ∧ minutes < 60 ∧ seconds ≤ 60 then
    let leap : Nat := if seconds = 60 then 1 else 0
    some ⟨date.toDays * secondsPerDay + (hours * 3600 + minutes * 60 + (seconds - leap)) - offset,
      leap * 1000000000 + fraction⟩
  else none

end Instant

end Uplift
