import TimedStreams.Decimal.Layout
import TimedStreams.Uuid

/-!
# Timed events

An event is one occurrence on a timeline: an identity, a time in seconds, a color for whoever draws it, and a payload. In a recorded input its time counts from the origin of the input; in the output of an evaluation it is the reported time.

A combinator that joins two events into one keeps both halves, so that what it puts out can be traced back to the inputs it came from. Identities and payloads of events are therefore binary trees: a leaf for what an input recorded, a pair for what a combinator joined, left first. The time of a joined event is zero until it is reported.
-/

namespace TimedStreams

inductive Paired (α : Type) where
  | single (a : α)
  | pair (left right : Paired α)
  deriving DecidableEq, Repr

namespace Paired

variable {α : Type}

def leaves : Paired α → List α
  | single a => [a]
  | pair left right => left.leaves ++ right.leaves

/-- A leaf as `leaf` writes it; a pair in parentheses. -/
def spell (leaf : α → List Char) : Paired α → List Char
  | single a => leaf a
  | pair left right => '(' :: (left.spell leaf ++ ", ".toList ++ right.spell leaf ++ [')'])

end Paired

/-- What an input can record: a 64-bit integer or a text. -/
inductive Scalar where
  | int (n : Int64)
  | text (s : String)
  deriving DecidableEq, Repr

def Scalar.spell : Scalar → List Char
  | int n => Decimal.withSign (n.toInt < 0) (Decimal.digits n.toInt.natAbs)
  | text s => s.toList

abbrev Value := Paired Scalar

def Value.render (v : Value) : String :=
  String.ofList (Paired.spell Scalar.spell v)

abbrev EventId := Paired Uuid

def EventId.render (id : EventId) : String :=
  String.ofList (Paired.spell Uuid.spell id)

/-- The identities of the recorded events that an event was made from, left to right. -/
abbrev EventId.sources (id : EventId) : List Uuid :=
  Paired.leaves id

/-- A hint for drawing; no combinator looks at it. -/
inductive Color where
  | red
  | green
  | blue
  deriving DecidableEq, Repr

def Color.name : Color → String
  | red => "red"
  | green => "green"
  | blue => "blue"

def Color.ofName? : String → Option Color
  | "red" => some red
  | "green" => some green
  | "blue" => some blue
  | _ => none

structure Event where
  id : EventId
  time : Float
  color : Color := .green
  value : Value
  deriving DecidableEq, Repr

namespace Event

/-- An event under a fresh identity. -/
def fresh (time : Float) (value : Scalar) : StateM IdSupply Event := do
  return { id := .single (← freshId), time, value := .single value }

/-- The event that joins two others, left first. -/
def combined (left right : Event) : Event where
  id := .pair left.id right.id
  time := 0.0
  color := .blue
  value := .pair left.value right.value

def withTime (e : Event) (time : Float) : Event :=
  { e with time }

def withColor (e : Event) (color : Color) : Event :=
  { e with color }

/-- Whether the first event is not after the second in the total order of times. -/
def notAfter (e f : Event) : Bool :=
  Binary64.rank e.time ≤ Binary64.rank f.time

def compareTime (e f : Event) : Ordering :=
  compare (Binary64.rank e.time) (Binary64.rank f.time)

/-- Whether two events agree, with their times compared as numbers: the two zeros agree, and "not a number" agrees with nothing. -/
def agrees (e f : Event) : Bool :=
  e.id == f.id && e.time == f.time && e.color == f.color && e.value == f.value

/-- The event as a line of a trace shows it. -/
def render (e : Event) : String :=
  "t=" ++ Decimal.fixed 3 e.time ++ " " ++ e.value.render ++ " (" ++ e.color.name ++ ")"

end Event

end TimedStreams
