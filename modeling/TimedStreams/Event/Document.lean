import TimedStreams.Event.Basic
import TimedStreams.Json.Fields
import TimedStreams.Json.Number

/-!
# Events as documents

The written form of payloads, identities, colors and events. A pair is tagged `Combined`; a leaf is tagged by what it is.
-/

namespace TimedStreams

open Json

/-- A leaf as `leaf` writes it, a pair as an array of two. -/
def Paired.toJson {α : Type} (leaf : α → Json) : Paired α → Json
  | single a => leaf a
  | pair left right => tagged "Combined" (array [left.toJson leaf, right.toJson leaf])

/-- Reads a pair, or a leaf by its tag. -/
def Paired.ofJson? {α : Type} (leaf : String → Json → Option α) : Nat → Json → Option (Paired α)
  | depth + 2, object [(some "Combined", array [left, right])] =>
    (Paired.ofJson? leaf depth left).bind fun l => (Paired.ofJson? leaf depth right).map fun r => pair l r
  | _ + 1, object [(some tag, content)] => if tag = "Combined" then none else (leaf tag content).map single
  | _, _ => none

def Scalar.toJson : Scalar → Json
  | int n => tagged "Int" (Json.int n)
  | text s => tagged "String" (Json.text s)

def Scalar.ofJson? : String → Json → Option Scalar
  | "Int", j => j.toInt64?.map int
  | "String", j => j.toString?.map text
  | _, _ => none

def Value.toJson (v : Value) : Json :=
  Paired.toJson Scalar.toJson v

def Value.ofJson? (depth : Nat) (j : Json) : Option Value :=
  Paired.ofJson? Scalar.ofJson? depth j

def EventId.toJson (id : EventId) : Json :=
  Paired.toJson (fun u => tagged "Single" (uuid u)) id

def EventId.ofJson? (depth : Nat) (j : Json) : Option EventId :=
  Paired.ofJson? (fun tag j => if tag = "Single" then j.toUuid? else none) depth j

def Color.toJson (c : Color) : Json :=
  Json.text c.name

def Color.ofJson? (depth : Nat) (j : Json) : Option Color :=
  (unit? depth j).bind Color.ofName?

def Event.toJson (e : Event) : Json :=
  record [("id", EventId.toJson e.id), ("time", float e.time), ("color", e.color.toJson), ("value", Value.toJson e.value)]

def Event.ofJson? : Nat → Json → Option Event
  | 0, _ => none
  | depth + 1, j => do
    let [some id, some time, some color, some value] ← fields? ["id", "time", "color", "value"] j | none
    return {
      id := ← EventId.ofJson? depth id
      time := ← time.toFloat?
      color := ← Color.ofJson? depth color
      value := ← Value.ofJson? depth value }

end TimedStreams
