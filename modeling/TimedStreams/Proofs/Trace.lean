import TimedStreams.Expr.Basic
import TimedStreams.Proofs.Replayable
import TimedStreams.Proofs.Sequence

/-!
# What expressions stand for

`Context.trace` says what an expression stands for, without any tasks: the list of its events, each
with the instant at which it happens, and the instant at which it completes, combinator by
combinator. `Context.untimed` is the same without instants: stamps order the events, and a chain
raises its right operand to the last stamp of its left, not to the instant at which the left
completed.

Both are only what an evaluation does if the left operands of its chains are of a certain shape:
without `zip` for the trace (`Expr.ZipFree`), and built from inputs, merges and chains for the
untimed meaning (`Expr.Plain`).
-/

namespace TimedStreams

open Stamped

/-! ### Shapes of expressions -/

namespace Expr

def ZipFree : Expr → Prop
  | input _ => True
  | join kind left right => kind ≠ .zip ∧ left.ZipFree ∧ right.ZipFree
  | adjacentPairs source => source.ZipFree

/-- The expression is built from inputs, merges and chains. -/
def Plain : Expr → Prop
  | input _ => True
  | join kind left right => (kind = .merge ∨ kind = .chain) ∧ left.Plain ∧ right.Plain
  | adjacentPairs _ => False

/-- The left operand of every chain in the expression satisfies `shape`. -/
def ChainsAfter (shape : Expr → Prop) : Expr → Prop
  | input _ => True
  | join kind left right => (kind = .chain → shape left) ∧ left.ChainsAfter shape ∧ right.ChainsAfter shape
  | adjacentPairs source => source.ChainsAfter shape

/-- The left operand of every chain below a `merge` or a `combineLatest` satisfies `shape`. -/
def Orderly (shape : Expr → Prop) : Expr → Prop
  | input _ => True
  | join kind left right =>
    (kind = .merge ∨ kind = .combineLatest → left.ChainsAfter shape ∧ right.ChainsAfter shape) ∧
      left.Orderly shape ∧ right.Orderly shape
  | adjacentPairs source => source.Orderly shape

end Expr

/-! ### Meanings -/

/-- Events with the instants at which they happen, and the instant at which all completes. -/
structure Trace where
  events : List Stamped
  finish : Nat

namespace Trace

/-- Each event happens at its deadline, or with the one before it should its own be earlier. -/
def ofSchedule (schedule : List Stamped) : Trace where
  events := climb 0 schedule
  finish := lastStamp (climb 0 schedule)

def join (kind : Join) (left right : Trace) : Trace :=
  match kind with
  | .merge => ⟨merge left.events right.events, max left.finish right.finish⟩
  | .chain => ⟨left.events ++ raiseAll left.finish right.events, max left.finish right.finish⟩
  | .zip => ⟨zip left.events right.events, zipEnd left.events right.events left.finish right.finish⟩
  | .combineLatest => ⟨latestPairs {} (interleave left.events right.events), max left.finish right.finish⟩

def adjacentPairs (source : Trace) : Trace :=
  ⟨pairsAfter none source.events, source.finish⟩

end Trace

namespace Context

/-- The trace that an expression stands for. -/
def trace (context : Context) : Expr → Trace
  | .input source => .ofSchedule ((context.timeline source).schedule context.speed)
  | .join kind left right => .join kind (context.trace left) (context.trace right)
  | .adjacentPairs source => (context.trace source).adjacentPairs

/-- The stamped events that an expression stands for. -/
def untimed (context : Context) : Expr → List Stamped
  | .input source => climb 0 ((context.timeline source).schedule context.speed)
  | .join .merge left right => merge (context.untimed left) (context.untimed right)
  | .join .chain left right =>
    context.untimed left ++ raiseAll (lastStamp (context.untimed left)) (context.untimed right)
  | .join .zip left right => zip (context.untimed left) (context.untimed right)
  | .join .combineLatest left right =>
    latestPairs {} (interleave (context.untimed left) (context.untimed right))
  | .adjacentPairs source => pairsAfter none (context.untimed source)

end Context

end TimedStreams
