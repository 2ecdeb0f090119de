/-!
# Doubles as exact numbers

Times and factors are doubles. This module takes a double apart into the exact number it stands for, which is what the writers of decimals and the conversion to nanoseconds compute with, and gives the total order by which times are sorted: negative before positive, a zero with a minus sign before one without, infinities outside all numbers, and "not a number" last.

Here and in the other modules of the program powers are written `Nat.pow`, since the operator stands for the power of a monoid wherever Mathlib is imported.
-/

namespace TimedStreams.Binary64

/-- What a double stands for; the number of `finite` is `mantissa * 2 ^ exponent`, negated if `negative`. -/
inductive Shape where
  | nan
  | infinite (negative : Bool)
  | finite (negative : Bool) (mantissa : Nat) (exponent : Int)
  deriving DecidableEq, Repr

def isNegative (x : Float) : Bool :=
  Nat.pow 2 63 ≤ x.toBits.toNat

/-- The eleven bits that select the power of two. -/
def exponentField (x : Float) : Nat :=
  x.toBits.toNat / Nat.pow 2 52 % Nat.pow 2 11

/-- The fifty-two bits behind the point. -/
def fractionField (x : Float) : Nat :=
  x.toBits.toNat % Nat.pow 2 52

def shape (x : Float) : Shape :=
  if exponentField x = Nat.pow 2 11 - 1 then
    if fractionField x = 0 then .infinite (isNegative x) else .nan
  else if exponentField x = 0 then .finite (isNegative x) (fractionField x) (-1074)
  else .finite (isNegative x) (Nat.pow 2 52 + fractionField x) (exponentField x - 1075)

/-- The place of a double in the total order of times. -/
def rank (x : Float) : Int :=
  if isNegative x then -(x.toBits.toNat - Nat.pow 2 63 : Int) - 1 else x.toBits.toNat

/-- The later of two times in the total order, the second of two that are equal. -/
def laterOf (x y : Float) : Float :=
  if rank y < rank x then x else y

/-- `mantissa * 2 ^ exponent` as a fraction. -/
def fraction (mantissa : Nat) (exponent : Int) : Nat × Nat :=
  (mantissa * Nat.pow 2 exponent.toNat, Nat.pow 2 (-exponent).toNat)

/-- The natural number nearest to `num / den`, and of two equally near ones the even. -/
def roundDivEven (num den : Nat) : Nat :=
  let quotient := num / den
  let twice := 2 * (num % den)
  if twice < den || (twice == den && quotient % 2 == 0) then quotient else quotient + 1

end TimedStreams.Binary64
