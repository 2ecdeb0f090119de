import TimedStreams.Decimal.Layout
import TimedStreams.Json.Reader

/-!
# Numbers in JSON documents

Doubles are written with the fewest digits that read back, a half going to the even digit; whole numbers end in `.0`, an exponent is written below `1e-5` and from `1e16` on, and what is not finite becomes `null`.

Reading a double is quicker than it is exact (`Literal.toFloat?`): the digits are taken as one integer of 64 bits, those that no longer fit are dropped, and the integer is scaled by a power of ten in double arithmetic. The result can differ from the nearest double in its last bits. A number too large for a double is refused. A number without point and exponent is read as an integer of 64 bits where one is asked for, except that `-0` is no integer.
-/

namespace TimedStreams.Json

/-- How doubles are laid out. -/
def floatLayout : Decimal.Layout :=
  ⟨.even, some (-5), some 15, true, true⟩

def float (x : Float) : Json :=
  if x.isFinite then number (floatLayout.write x) else null

def int (n : Int64) : Json :=
  number (Decimal.withSign (n.toInt < 0) (Decimal.digits n.toInt.natAbs))

structure Literal where
  negative : Bool
  /-- The digits before the point. -/
  whole : List Char
  /-- The digits behind the point. -/
  part : List Char
  /-- The sign and the digits of the exponent. -/
  exponent : Option (Bool × List Char)

def Literal.of (s : List Char) : Literal :=
  let (negative, magnitude) := Decimal.spanSign s
  let (whole, afterWhole) := Decimal.spanDigits magnitude
  let (part, afterPart) := match afterWhole with
    | '.' :: rest => Decimal.spanDigits rest
    | rest => ([], rest)
  { negative, whole, part
    exponent := match afterPart with
      | [] => none
      | _ :: rest => some (Decimal.spanSign rest) }

/-- The integer of 64 bits that a number is, if it is one. -/
def Literal.toInt64? (l : Literal) : Option Int64 :=
  let n := Decimal.ofDigits 0 l.whole
  if l.part ≠ [] ∨ l.exponent.isSome then none
  else if l.negative then
    if 0 < n ∧ n ≤ Nat.pow 2 63 then some (Int64.ofInt (-n)) else none
  else if n < Nat.pow 2 63 then some (Int64.ofInt n)
  else none

/-- Appends digits to a significand as long as it stays below `2 ^ 64`; gives the digits that are left. -/
def appendDigits (significand : Nat) : List Char → Nat × List Char
  | [] => (significand, [])
  | d :: ds =>
    let next := 10 * significand + Decimal.digitValue d
    if next < Nat.pow 2 64 then appendDigits next ds else (significand, d :: ds)

/-- The significand of a number and the power of ten by which its digits stand apart from it. -/
def Literal.significand (l : Literal) : Nat × Int :=
  let (whole, droppedWhole) := appendDigits 0 l.whole
  let (all, droppedPart) := appendDigits whole l.part
  (all, (droppedWhole.length : Int) - (l.part.length - droppedPart.length : Nat))

/-- The greatest exponent that can be written. -/
def maxExponent : Nat := Nat.pow 2 31 - 1

def powerOfTen (n : Nat) : Float :=
  Float.ofScientific 1 false n

/-- Scales a double by a power of ten, in steps of `1e-308` if the power is smaller than a double can be; refuses what becomes too large. -/
def scale? (x : Float) (exponent : Int) : Option Float :=
  if exponent.natAbs ≤ 308 then
    if 0 ≤ exponent then
      let y := x * powerOfTen exponent.natAbs
      if y.isInf then none else some y
    else some (x / powerOfTen exponent.natAbs)
  else if x == 0.0 then some x
  else if 0 ≤ exponent then none
  else scale? (x / powerOfTen 308) (exponent + 308)
termination_by exponent.natAbs

/-- The double that a number is read as. -/
def Literal.toFloat? (l : Literal) : Option Float :=
  let (significand, shift) := l.significand
  let magnitude? : Option Float :=
    match l.exponent with
    | none => scale? (Float.ofNat significand) shift
    | some (negative, ds) =>
      let exponent := Decimal.ofDigits 0 ds
      if maxExponent < exponent then
        if significand ≠ 0 ∧ !negative then none else some 0.0
      else scale? (Float.ofNat significand) (if negative then shift - exponent else shift + exponent)
  magnitude?.map fun x => if l.negative then -x else x

def toInt64? : Json → Option Int64
  | number literal => (Literal.of literal).toInt64?
  | _ => none

def toFloat? : Json → Option Float
  | number literal => (Literal.of literal).toFloat?
  | _ => none

end TimedStreams.Json
