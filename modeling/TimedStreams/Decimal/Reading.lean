import TimedStreams.Binary64

/-!
# Reading decimals

The reader of the factors in settings and on the command line: a sign, then digits with an optional point and an optional exponent, or the words `inf`, `infinity` and `nan` in any case. Digits must stand on at least one side of the point. The value is the double nearest to the decimal, however many digits it has.
-/

namespace TimedStreams.Decimal

/-- Why a text is not a number. -/
inductive Malformed where
  | empty
  | invalid
  deriving DecidableEq, Repr

def Malformed.message : Malformed → String
  | empty => "cannot parse float from empty string"
  | invalid => "invalid float literal"

def isDigit (c : Char) : Bool :=
  '0' ≤ c && c ≤ '9'

def digitValue (c : Char) : Nat :=
  c.toNat - '0'.toNat

/-- The number that a run of digits spells, continuing from `n`. -/
def ofDigits (n : Nat) (ds : List Char) : Nat :=
  ds.foldl (fun n d => 10 * n + digitValue d) n

def spanDigits (s : List Char) : List Char × List Char :=
  (s.takeWhile isDigit, s.dropWhile isDigit)

def spanSign : List Char → Bool × List Char
  | '-' :: s => (true, s)
  | '+' :: s => (false, s)
  | s => (false, s)

/-- The double nearest to `coefficient * 10 ^ exponent`. Below the least double and above the greatest the power of ten is not computed. -/
def nearest (coefficient : Nat) (exponent : Int) : Float :=
  let size := exponent + (Nat.toDigits 10 coefficient).length
  if coefficient = 0 ∨ size < -330 then 0.0
  else if 310 < size then 1.0 / 0.0
  else Float.ofScientific coefficient (exponent < 0) exponent.natAbs

/-- The exponent at the end of a number, zero if there is none. -/
def readExponent? : List Char → Option Int
  | [] => some 0
  | c :: s =>
    if c = 'e' ∨ c = 'E' then
      let (negative, s) := spanSign s
      let (ds, rest) := spanDigits s
      if ds ≠ [] ∧ rest = [] then some (if negative then -ofDigits 0 ds else ofDigits 0 ds) else none
    else none

/-- Digits around an optional point, then an optional exponent. -/
def readMagnitude? (s : List Char) : Option Float :=
  let (whole, afterWhole) := spanDigits s
  let (part, afterPart) := match afterWhole with
    | '.' :: s => spanDigits s
    | s => ([], s)
  if whole = [] ∧ part = [] then none
  else (readExponent? afterPart).map fun exponent => nearest (ofDigits (ofDigits 0 whole) part) (exponent - part.length)

/-- One of the words for what is not a finite number. -/
def readWord? (s : List Char) : Option Float :=
  let word := s.map Char.toLower
  if word = "inf".toList ∨ word = "infinity".toList then some (1.0 / 0.0)
  else if word = "nan".toList then some (0.0 / 0.0)
  else none

def read (s : List Char) : Except Malformed Float :=
  if s = [] then .error .empty
  else
    let (negative, magnitude) := spanSign s
    match (readMagnitude? magnitude).or (readWord? magnitude) with
    | some x => .ok (if negative then -x else x)
    | none => .error .invalid

end TimedStreams.Decimal
