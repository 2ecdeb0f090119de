import TimedStreams.Decimal.Layout
import TimedStreams.Decimal.Reading
import TimedStreams.Text

/-!
# Points in calendar time

The wall-clock time at which an evaluation started, in universal time. It is written as date, `T`, time and `Z`, with a fraction of three, six or nine digits if the seconds are not whole. It is read from a date and a time with an offset, between which blanks may stand; a sixtieth second is a leap second.
-/

namespace TimedStreams

structure Timestamp where
  /-- Seconds since the first day of 1970. -/
  seconds : Int
  /-- Nanoseconds of the second, more than a second's worth in a leap second. -/
  nanos : Nat
  deriving DecidableEq, Repr

namespace Timestamp

/-! ### The calendar -/

def secondsPerDay : Int := 86400

/-- The number of days from the first day of 1970 to a date. Years are counted from March, so that the leap day comes last. -/
def daysOfDate (year : Int) (month day : Nat) : Int :=
  let y := if month ≤ 2 then year - 1 else year
  let era := y / 400
  let yearOfEra := y % 400
  let dayOfYear : Int := ((153 * ((month + 9) % 12) + 2) / 5 + day - 1 : Nat)
  era * 146097 + (yearOfEra * 365 + yearOfEra / 4 - yearOfEra / 100 + dayOfYear) - 719468

def dateOfDays (days : Int) : Int × Nat × Nat :=
  let z := days + 719468
  let dayOfEra := (z % 146097).toNat
  let yearOfEra := (dayOfEra - dayOfEra / 1460 + dayOfEra / 36524 - dayOfEra / 146096) / 365
  let dayOfYear := dayOfEra - (365 * yearOfEra + yearOfEra / 4 - yearOfEra / 100)
  let shifted := (5 * dayOfYear + 2) / 153
  let month := (shifted + 2) % 12 + 1
  (z / 146097 * 400 + yearOfEra + (if month ≤ 2 then 1 else 0), month, dayOfYear - (153 * shifted + 2) / 5 + 1)

def isLeapYear (year : Int) : Bool :=
  year % 4 == 0 && (year % 100 != 0 || year % 400 == 0)

def daysInMonth (year : Int) (month : Nat) : Nat :=
  if month = 2 then (if isLeapYear year then 29 else 28)
  else if month = 4 ∨ month = 6 ∨ month = 9 ∨ month = 11 then 30
  else 31

/-! ### Writing -/

def padded (width n : Nat) : List Char :=
  let ds := Decimal.digits n
  Decimal.zeros (width - ds.length) ++ ds

/-- A year of four digits, or one with a sign. -/
def spellYear (year : Int) : List Char :=
  if 0 ≤ year ∧ year ≤ 9999 then padded 4 year.toNat
  else (if year < 0 then '-' else '+') :: padded 4 year.natAbs

def spellFraction (nanos : Nat) : List Char :=
  if nanos = 0 then []
  else if nanos % 1000000 = 0 then '.' :: padded 3 (nanos / 1000000)
  else if nanos % 1000 = 0 then '.' :: padded 6 (nanos / 1000)
  else '.' :: padded 9 nanos

def render (t : Timestamp) : String :=
  let (year, month, day) := dateOfDays (t.seconds / secondsPerDay)
  let second := (t.seconds % secondsPerDay).toNat
  String.ofList (spellYear year ++ '-' :: (padded 2 month ++ '-' :: (padded 2 day ++ 'T' ::
    (padded 2 (second / 3600) ++ ':' :: (padded 2 (second / 60 % 60) ++ ':' ::
      (padded 2 (second % 60 + t.nanos / Nat.pow 10 9) ++ spellFraction (t.nanos % Nat.pow 10 9) ++ ['Z']))))))

/-! ### Reading -/

/-- A number of at least one and at most `width` digits after blanks. -/
def readNumber? (width : Nat) (s : List Char) : Option (Nat × List Char) :=
  let s := Text.skipBlanks s
  let ds := (s.take width).takeWhile Decimal.isDigit
  if ds = [] then none else some (Decimal.ofDigits 0 ds, s.drop ds.length)

/-- A year of at most four digits, or of any number of digits with a sign. -/
def readYear? (s : List Char) : Option (Int × List Char) :=
  match Text.skipBlanks s with
  | '-' :: rest => if rest.head?.any Decimal.isDigit then (readNumber? rest.length rest).map fun (n, r) => (-(n : Int), r) else none
  | '+' :: rest => if rest.head?.any Decimal.isDigit then (readNumber? rest.length rest).map fun (n, r) => ((n : Int), r) else none
  | s => (readNumber? 4 s).map fun (n, r) => ((n : Int), r)

/-- A mark after blanks. -/
def readMark? (mark : Char) (s : List Char) : Option (List Char) :=
  match Text.skipBlanks s with
  | c :: rest => if c = mark then some rest else none
  | [] => none

/-- The nanoseconds of an optional fraction, digits beyond the ninth being dropped. -/
def readFraction? : List Char → Option (Nat × List Char)
  | '.' :: rest =>
    let (ds, last) := Decimal.spanDigits rest
    let kept := ds.take 9
    if ds = [] then none else some (Decimal.ofDigits 0 kept * Nat.pow 10 (9 - kept.length), last)
  | s => some (0, s)

/-- Two hours digits, a separator of colons and blanks, and two digits of minutes: an offset in seconds. -/
def readClockOffset? (s : List Char) : Option (Int × List Char) := do
  let h₁ :: h₂ :: afterHours := s | none
  let m₁ :: m₂ :: rest := afterHours.dropWhile (fun c => c == ':' || Text.isBlank c) | none
  if [h₁, h₂, m₁, m₂].all Decimal.isDigit && m₁ < '6' then
    return (Decimal.ofDigits 0 [h₁, h₂] * 3600 + Decimal.ofDigits 0 [m₁, m₂] * 60, rest)
  else none

def readOffset? (s : List Char) : Option (Int × List Char) :=
  match Text.skipBlanks s with
  | 'z' :: rest | 'Z' :: rest => some (0, rest)
  | '+' :: rest => readClockOffset? rest
  | '-' :: rest | '−' :: rest => (readClockOffset? rest).map fun (offset, r) => (-offset, r)
  | u :: t :: c :: rest => if [u, t, c].map Char.toLower = "utc".toList then some (0, rest) else none
  | _ => none

def read? (s : List Char) : Option Timestamp := do
  let (year, s) ← readYear? s
  let (month, s) ← readNumber? 2 (← readMark? '-' s)
  let (day, s) ← readNumber? 2 (← readMark? '-' s)
  let separator :: s := s | none
  if separator ≠ 'T' ∧ separator ≠ 't' ∧ separator ≠ ' ' then none
  let (hour, s) ← readNumber? 2 s
  let (minute, s) ← readNumber? 2 (← readMark? ':' s)
  let (second, s) ← readNumber? 2 (← readMark? ':' s)
  let (nanos, s) ← readFraction? s
  let (offset, s) ← readOffset? s
  let valid := -262143 ≤ year ∧ year ≤ 262142 ∧ 1 ≤ month ∧ month ≤ 12 ∧ 1 ≤ day ∧ day ≤ daysInMonth year month ∧
    hour < 24 ∧ minute < 60 ∧ second ≤ 60 ∧ offset.natAbs < 86400 ∧ Text.skipBlanks s = []
  if valid then
    let whole := daysOfDate year month day * secondsPerDay + (hour * 3600 + minute * 60 + min second 59 : Nat) - offset
    return ⟨whole, if second = 60 then nanos + Nat.pow 10 9 else nanos⟩
  else none

end Timestamp

end TimedStreams
