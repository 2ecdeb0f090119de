import TimedStreams.Decimal.Shortest

/-!
# Writing decimals

Doubles are written in two ways: with the fewest digits that read back, laid out as a `Layout` says, or with a fixed number of decimal places, rounded exactly and to the even digit when half way.
-/

namespace TimedStreams.Decimal

/-- How the shortest digits of a double are laid out. -/
structure Layout where
  tie : Tie
  /-- The least power of ten of a first digit for which no exponent is written. -/
  lowest : Option Int
  /-- The greatest power of ten of a first digit for which no exponent is written. -/
  highest : Option Int
  /-- Whether a whole number ends in `.0`. -/
  pointed : Bool
  /-- Whether a positive exponent has a sign. -/
  signedExponent : Bool

/-- All digits in place and never an exponent: the layout of messages. -/
def Layout.plain : Layout :=
  ⟨.up, none, none, false, false⟩

def Layout.isPositional (layout : Layout) (leading : Int) : Bool :=
  layout.lowest.all (· ≤ leading) && layout.highest.all (leading ≤ ·)

def zeros (n : Nat) : List Char :=
  List.replicate n '0'

/-- The digits of a number with the point in place. -/
def Layout.positional (layout : Layout) (s : Scientific) : List Char :=
  let ds := digits s.coefficient
  let leading := s.exponent + ds.length - 1
  if 0 ≤ s.exponent then ds ++ zeros s.exponent.toNat ++ (if layout.pointed then ['.', '0'] else [])
  else if 0 ≤ leading then ds.take (leading.toNat + 1) ++ '.' :: ds.drop (leading.toNat + 1)
  else '0' :: '.' :: (zeros (-leading - 1).toNat ++ ds)

/-- The first digit, a point if more follow, and the power of ten. -/
def Layout.exponential (layout : Layout) (s : Scientific) : List Char :=
  let ds := digits s.coefficient
  let leading := s.exponent + ds.length - 1
  let sign := if leading < 0 then ['-'] else if layout.signedExponent then ['+'] else []
  ds.take 1 ++ (if ds.length = 1 then [] else '.' :: ds.drop 1) ++ 'e' :: (sign ++ digits leading.natAbs)

def Layout.magnitude (layout : Layout) (mantissa : Nat) (exponent : Int) : List Char :=
  if mantissa = 0 then layout.positional ⟨0, 0⟩
  else
    let s := shortest layout.tie mantissa exponent
    if layout.isPositional (s.exponent + (digits s.coefficient).length - 1) then layout.positional s
    else layout.exponential s

def withSign (negative : Bool) (s : List Char) : List Char :=
  if negative then '-' :: s else s

def Layout.write (layout : Layout) (x : Float) : List Char :=
  match Binary64.shape x with
  | .nan => "NaN".toList
  | .infinite negative => withSign negative "inf".toList
  | .finite negative mantissa exponent => withSign negative (layout.magnitude mantissa exponent)

def plain (x : Float) : String :=
  String.ofList (Layout.plain.write x)

/-- The digits of `n / 10 ^ places`. -/
def placed (places n : Nat) : List Char :=
  let behind := digits (n % Nat.pow 10 places)
  digits (n / Nat.pow 10 places) ++ '.' :: (zeros (places - behind.length) ++ behind)

/-- The text of a double with `places` decimal places. -/
def fixed (places : Nat) (x : Float) : String :=
  String.ofList <| match Binary64.shape x with
  | .nan => "NaN".toList
  | .infinite negative => withSign negative "inf".toList
  | .finite negative mantissa exponent =>
    let (num, den) := Binary64.fraction mantissa exponent
    withSign negative (placed places (Binary64.roundDivEven (num * Nat.pow 10 places) den))

end TimedStreams.Decimal
