import TimedStreams.Expr.Basic
import TimedStreams.Json.Fields

/-!
# Expressions as documents

The written form of expressions: every node is tagged by its combinator, whose operands are its content. A node is an expression under an identifier, by which its results are found again.
-/

namespace TimedStreams

open Json

/-- The tag of a join, which is also the name of the task that works it. -/
def Join.tag : Join → String
  | .merge => "merge"
  | .chain => "chain"
  | .zip => "zip"
  | .combineLatest => "combine_latest"

def Join.ofTag? : String → Option Join
  | "merge" => some .merge
  | "chain" => some .chain
  | "zip" => some .zip
  | "combine_latest" => some .combineLatest
  | _ => none

def Input.tag : Input → String
  | .first => "first"
  | .second => "second"

def Input.ofTag? : String → Option Input
  | "first" => some .first
  | "second" => some .second
  | _ => none

namespace Expr

def toJson : Expr → Json
  | input source => tagged "input" (text source.tag)
  | join kind left right => tagged kind.tag (array [left.toJson, right.toJson])
  | adjacentPairs source => tagged "adjacent_pairs" source.toJson

def ofJson? : Nat → Json → Option Expr
  | depth + 2, object [(some tag, array [left, right])] => do
    let kind ← Join.ofTag? tag
    return join kind (← ofJson? depth left) (← ofJson? depth right)
  | depth + 1, object [(some tag, content)] =>
    if tag = "input" then (unit? depth content).bind fun name => (Input.ofTag? name).map input
    else if tag = "adjacent_pairs" then (ofJson? depth content).map adjacentPairs
    else none
  | _, _ => none

end Expr

/-- An expression with the identifier under which its results are found. -/
structure Node where
  id : Uuid
  expr : Expr
  deriving DecidableEq, Repr

namespace Node

def toJson (n : Node) : Json :=
  record [("id", uuid n.id), ("tree", n.expr.toJson)]

def ofJson? : Nat → Json → Option Node
  | 0, _ => none
  | depth + 1, j => do
    let [some id, some tree] ← fields? ["id", "tree"] j | none
    return ⟨← id.toUuid?, ← Expr.ofJson? depth tree⟩

def fresh (expr : Expr) : StateM IdSupply Node := do
  return ⟨← freshId, expr⟩

end Node

end TimedStreams
