/-!
# Identifiers of 128 bits

Events and nodes are told apart by identifiers of 128 bits. They are written as five groups of hexadecimal digits in lower case; they are read in that form, in either case, also without hyphens, in braces or after `urn:uuid:`. Fresh ones begin with the time of their creation and are drawn from an `IdSupply`.
-/

namespace TimedStreams

structure Uuid where
  bits : BitVec 128
  deriving DecidableEq, Repr

namespace Uuid

def ofNat (n : Nat) : Uuid :=
  ⟨BitVec.ofNat 128 n⟩

def toNat (u : Uuid) : Nat :=
  u.bits.toNat

/-- The thirty-two hexadecimal digits, the most significant first. -/
def hexDigits (u : Uuid) : List Char :=
  (List.range 32).map fun i => Nat.digitChar (u.toNat / Nat.pow 16 (31 - i) % 16)

/-- Eight digits, three times four and twelve, with hyphens between the groups. -/
def hyphenate (ds : List Char) : List Char :=
  ds.take 8 ++ '-' :: ((ds.drop 8).take 4 ++ '-' :: ((ds.drop 12).take 4 ++ '-' :: ((ds.drop 16).take 4 ++ '-' :: ds.drop 20)))

def spell (u : Uuid) : List Char :=
  hyphenate u.hexDigits

def render (u : Uuid) : String :=
  String.ofList u.spell

def hexValue? (c : Char) : Option Nat :=
  if '0' ≤ c ∧ c ≤ '9' then some (c.toNat - '0'.toNat)
  else if 'a' ≤ c ∧ c ≤ 'f' then some (c.toNat - 'a'.toNat + 10)
  else if 'A' ≤ c ∧ c ≤ 'F' then some (c.toNat - 'A'.toNat + 10)
  else none

def ofHexDigits? (n : Nat) : List Char → Option Nat
  | [] => some n
  | c :: cs => (hexValue? c).bind fun d => ofHexDigits? (16 * n + d) cs

def readSimple? (s : List Char) : Option Uuid :=
  if s.length = 32 then (ofHexDigits? 0 s).map ofNat else none

def readHyphenated? (s : List Char) : Option Uuid :=
  let ds := s.filter (· ≠ '-')
  if hyphenate ds = s then readSimple? ds else none

/-- An identifier in any of the four forms. -/
def read? (s : List Char) : Option Uuid :=
  match s with
  | '\x7b' :: rest => if rest.getLast? = some '\x7d' then readHyphenated? rest.dropLast else none
  | 'u' :: 'r' :: 'n' :: ':' :: 'u' :: 'u' :: 'i' :: 'd' :: ':' :: rest => readHyphenated? rest
  | _ => (readSimple? s).or (readHyphenated? s)

def version (u : Uuid) : Nat :=
  u.toNat / Nat.pow 2 76 % Nat.pow 2 4

/-- An identifier of version 7: forty-eight bits of milliseconds, then seventy-four that tell apart those of one millisecond. -/
def timeOrdered (millis serial : Nat) : Uuid :=
  ofNat (millis % Nat.pow 2 48 * Nat.pow 2 80 + 7 * Nat.pow 2 76 +
    serial / Nat.pow 2 62 % Nat.pow 2 12 * Nat.pow 2 64 + Nat.pow 2 63 + serial % Nat.pow 2 62)

end Uuid

/-- A source of fresh identifiers: the current millisecond and the serial number of the next one. -/
structure IdSupply where
  millis : Nat
  serial : Nat

def freshId : StateM IdSupply Uuid := fun supply =>
  (Uuid.timeOrdered supply.millis supply.serial, { supply with serial := supply.serial + 1 })

end TimedStreams
