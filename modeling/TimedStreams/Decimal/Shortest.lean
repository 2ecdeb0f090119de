import TimedStreams.Binary64

/-!
# Shortest decimals

The decimal that stands for a double in a text: of all decimals that read back as the double, one with the fewest digits, and of those the nearest to it. The numbers that read back form an interval around the double, reaching half way to its neighbours, with the ends included exactly if its mantissa is even. For each count of digits the two decimals next to the double are tried; the first count at which one of them lies in the interval decides. When both do and are equally near, the `Tie` says which one is taken.

Everything is computed with exact fractions.
-/

namespace TimedStreams.Decimal

/-- Which of two equally near decimals is taken. -/
inductive Tie where
  /-- The larger one. -/
  | up
  /-- The one whose last digit is even. -/
  | even
  deriving DecidableEq, Repr

/-- The number `coefficient * 10 ^ exponent`. -/
structure Scientific where
  coefficient : Nat
  exponent : Int
  deriving DecidableEq, Repr

def digits (n : Nat) : List Char :=
  Nat.toDigits 10 n

/-- The power of ten of the first digit of `num / den`, for a positive fraction. -/
def leadingExponent (num den : Nat) : Int :=
  if den ≤ num then ((digits (num / den)).length : Int) - 1 else -((digits ((den - 1) / num)).length : Int)

/-- The numbers that read back as a positive double, and the double itself, as numerators over one denominator. -/
structure Reach where
  low : Nat
  value : Nat
  high : Nat
  denominator : Nat
  /-- Whether the ends read back as well. -/
  closed : Bool

/-- The lower neighbour of a power of two is nearer than the upper one, save at the lowest exponent. -/
def Reach.of (mantissa : Nat) (exponent : Int) : Reach :=
  let below := if mantissa = Nat.pow 2 52 ∧ exponent ≠ -1074 then 1 else 2
  let part (quarters : Nat) := (Binary64.fraction quarters (exponent - 2)).1
  { low := part (4 * mantissa - below)
    value := part (4 * mantissa)
    high := part (4 * mantissa + 2)
    denominator := (Binary64.fraction 0 (exponent - 2)).2
    closed := mantissa % 2 == 0 }

/-- The decimal of the grid of multiples of `10 ^ exponent` that is taken, if a neighbour of the double on that grid reads back. -/
def Reach.nearest? (r : Reach) (tie : Tie) (exponent : Int) : Option Nat :=
  let unit := r.denominator * Nat.pow 10 exponent.toNat
  let scale := Nat.pow 10 (-exponent).toNat
  let down := r.value * scale / unit
  let past := r.value * scale % unit
  let reachesDown := if r.closed then r.low * scale ≤ down * unit else r.low * scale < down * unit
  let reachesUp := if r.closed then (down + 1) * unit ≤ r.high * scale else (down + 1) * unit < r.high * scale
  let upIsNearer := unit < 2 * past || (unit == 2 * past && (tie == .up || down % 2 == 1))
  if reachesUp && (upIsNearer || !reachesDown) then some (down + 1)
  else if reachesDown then some down
  else none

/-- The shortest decimal of the positive double `mantissa * 2 ^ exponent`; seventeen digits always suffice. -/
def shortest (tie : Tie) (mantissa : Nat) (exponent : Int) : Scientific :=
  let r := Reach.of mantissa exponent
  let leading := leadingExponent r.value r.denominator
  let found := (List.range 17).findSome? fun (n : Nat) =>
    (r.nearest? tie (leading - n)).map fun c => Scientific.mk c (leading - n)
  match found with
  | some ⟨10, e⟩ => ⟨1, e + 1⟩
  | some s => s
  | none => ⟨0, 0⟩

end TimedStreams.Decimal
