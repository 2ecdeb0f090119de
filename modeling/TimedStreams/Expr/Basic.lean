/-!
# Combinator expressions

An expression says how the two recorded inputs are combined into one stream. It is plain data: a finite tree whose leaves name an input, whose binary nodes join two streams, and whose unary node pairs every event of a stream with the one before it. `Expr.render` writes the pretty form, which `TimedStreams.Expr.Reader` reads back.
-/

namespace TimedStreams

inductive Input where
  | first
  | second
  deriving DecidableEq, Repr

/-- The ways to join two streams into one. -/
inductive Join where
  /-- Every event of both, in the order of their stamps. -/
  | merge
  /-- All of the left, then all of the right. -/
  | chain
  /-- The n-th event of the left with the n-th event of the right. -/
  | zip
  /-- On every event, the latest of the left with the latest of the right. -/
  | combineLatest
  deriving DecidableEq, Repr

inductive Expr where
  | input (source : Input)
  | join (kind : Join) (left right : Expr)
  | adjacentPairs (source : Expr)
  deriving DecidableEq, Repr

def Input.name : Input → String
  | .first => "input1"
  | .second => "input2"

def Join.name : Join → String
  | .merge => "merge"
  | .chain => "chain"
  | .zip => "zip"
  | .combineLatest => "combineLatest"

namespace Expr

/-- The name of the outermost node. -/
def kind : Expr → String
  | input source => source.name
  | join kind _ _ => kind.name
  | adjacentPairs _ => "adjacentPairs"

/-- The number of nodes on the longest path to a leaf. -/
def depth : Expr → Nat
  | input _ => 1
  | join _ left right => 1 + max left.depth right.depth
  | adjacentPairs source => 1 + source.depth

/-- The characters of the pretty form: joins are written as calls, `adjacentPairs` as a suffix. -/
def spell : Expr → List Char
  | input source => source.name.toList
  | join kind left right => kind.name.toList ++ '(' :: (left.spell ++ ", ".toList ++ right.spell ++ [')'])
  | adjacentPairs source => source.spell ++ ".adjacentPairs()".toList

def render (e : Expr) : String :=
  String.ofList e.spell

end Expr

end TimedStreams
