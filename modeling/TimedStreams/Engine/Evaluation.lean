import TimedStreams.Engine.Context
import TimedStreams.Engine.Report
import TimedStreams.Expr.Document
import TimedStreams.Signal.Basic

/-!
# Evaluation

An engine evaluates expressions on a context: every leaf becomes the replay of its input, and every combinator a task over the live signals of its operands. Whoever reads the outermost signal reports each event at the time at which it is taken, in elapsed seconds times the reporting factor; the times that the events carried are replaced.

Several nodes are evaluated beside each other on one clock (`Evaluation`). The clock stands still while any task can run. When all are idle it jumps to the next due time, until nothing is due any more.
-/

namespace TimedStreams

/-- The live output of an expression. -/
def Context.signal (context : Context) : Expr → Signal
  | .input source => .ofAgenda ((context.timeline source).agenda context.speed)
  | .join kind left right => .ofJoin kind (context.signal left) (context.signal right)
  | .adjacentPairs source => .ofAdjacentPairs (context.signal source)

/-- The time reported for an event that is taken `now`. -/
def reportedTime (reporting : Float) (now : Nat) : Float :=
  Instant.toSeconds now * reporting

/-- A reader that takes all events of a signal as soon as they are there. -/
structure Collector where
  signal : Signal
  events : List Event := []

/-- Settles the signal and takes its events. -/
def Collector.collect (clock : Clock) (reporting : Float) (now : Nat) (c : Collector) : Collector :=
  let settled := c.signal.settle clock now
  { signal := settled.withQueue []
    events := c.events ++ (Signal.eventsOf settled.outlet.queue).map fun e => e.withTime (reportedTime reporting now) }

/-- Evaluations that share a clock. -/
structure Evaluation where
  now : Nat := 0
  /-- The number of sleeps that have ended. -/
  wakeups : Nat := 0
  collectors : List Collector

namespace Evaluation

/-- Moves the clock to `now` and lets every task run until all are idle. -/
def runAt (clock : Clock) (reporting : Float) (now : Nat) (v : Evaluation) : Evaluation where
  now := now
  wakeups := v.wakeups + v.collectors.foldr (fun c due => c.signal.dueCount clock now + due) 0
  collectors := v.collectors.map (Collector.collect clock reporting now)

def nextWake (clock : Clock) (v : Evaluation) : Option Nat :=
  v.collectors.foldl (fun next c => next.merge min (c.signal.nextWake clock)) none

def unplayed (v : Evaluation) : Nat :=
  v.collectors.foldr (fun c events => c.signal.unplayed + events) 0

/-- Passes through at most `jumps` due times. -/
def advance (clock : Clock) (reporting : Float) : Nat → Evaluation → Evaluation
  | 0, v => v
  | jumps + 1, v =>
    match v.nextWake clock with
    | none => v
    | some due => advance clock reporting jumps (v.runAt clock reporting due)

/-- Evaluates signals side by side until nothing is due. -/
def complete (clock : Clock) (reporting : Float) (signals : List Signal) : Evaluation :=
  let start : Evaluation := { collectors := signals.map fun signal => { signal } }
  (start.runAt clock reporting 0).advance clock reporting start.unplayed

end Evaluation

structure Engine where
  config : Config
  clock : Clock := .exact

/-- The outcome of evaluating one expression. -/
structure Run where
  /-- The reported events, in order. -/
  events : List Event
  /-- The instant at which the evaluation completed. -/
  finish : Nat
  wakeups : Nat

/-- The outcome of evaluating several nodes. -/
structure Survey where
  report : Report
  /-- The instant at which the last evaluation completed. -/
  finish : Nat
  wakeups : Nat

namespace Engine

def make (config : Config) (clock : Clock := .exact) : Except Fault Engine := do
  config.validate
  return { config, clock }

def run (engine : Engine) (e : Expr) (context : Context) : Run :=
  let v := Evaluation.complete engine.clock engine.config.reporting [context.signal e]
  { events := v.collectors.flatMap Collector.events, finish := v.now, wakeups := v.wakeups }

/-- The first identifier of a list that occurs earlier in it. -/
def firstRepeated? (seen : List Uuid) : List Uuid → Option Uuid
  | [] => none
  | id :: rest => if seen.contains id then some id else firstRepeated? (id :: seen) rest

/-- Evaluates all nodes on one clock. Nothing is started if two of them share an identifier. -/
def runAll (engine : Engine) (startedAt : Timestamp) (nodes : List Node) (context : Context) : Except Fault Survey :=
  match firstRepeated? [] (nodes.map Node.id) with
  | some id => .error (.duplicateNode id)
  | none =>
    let v := Evaluation.complete engine.clock engine.config.reporting (nodes.map fun node => context.signal node.expr)
    .ok {
      report := Report.ofTraces startedAt context.latestInputTime
        ((nodes.map Node.id).zip (v.collectors.map Collector.events))
      finish := v.now
      wakeups := v.wakeups }

end Engine

end TimedStreams
