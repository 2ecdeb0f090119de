import TimedStreams.Expr.Basic
import TimedStreams.Signal.Interleave

/-!
# The tasks behind joins

A join is worked by a task that receives the updates of its two operands, one at a time and in any order of arrival, and answers each with the updates to be sent on. What it sends:

- `merge`: every event, in the order of stamps, left first on equal stamps;
- `chain`: all of the left, and once the left has completed, all of the right;
- `zip`: the n-th event of the left joined with the n-th of the right, stamped with the later of both stamps; it finishes as soon as one side has completed and all its events have found a partner;
- `combineLatest`: on every event in the order of `merge`, the latest of the left joined with the latest of the right, once there are both.

Each also passes on how far its operands have got, so that readers further on are never held back by it.
-/

namespace TimedStreams

inductive ChainStage where
  | left
  | right
  | finished
  deriving DecidableEq, Repr

/-- The latest event of each side. -/
structure Latest where
  left : Option Event := none
  right : Option Event := none
  deriving DecidableEq, Repr

namespace Latest

def replace (l : Latest) : Side → Event → Latest
  | .left, e => { l with left := some e }
  | .right, e => { l with right := some e }

def joined? (l : Latest) : Option Event :=
  l.left.bind fun left => l.right.map fun right => Event.combined left right

/-- Passes promises on, and answers every event with the join of the latest two. -/
def react (l : Latest) : List Released → List Update × Latest
  | [] => ([], l)
  | .promise stamp :: rest =>
    let (updates, last) := l.react rest
    (.progress stamp :: updates, last)
  | .event side s :: rest =>
    let (updates, last) := (l.replace side s.event).react rest
    match (l.replace side s.event).joined? with
    | none => (updates, last)
    | some e => (.event ⟨e, s.stamp⟩ :: updates, last)

end Latest

def Released.update : Released → Update
  | promise stamp => .progress stamp
  | event _ s => .event s

/-- Two events joined, stamped with the later of their stamps. -/
def Stamped.join (left right : Stamped) : Stamped :=
  ⟨Event.combined left.event right.event, max left.stamp right.stamp⟩

namespace Operands

/-- All pairs of first events that are there, and what is left of the operands. -/
def pairUp (p : Operands) : List Stamped × Operands :=
  let n := min p.left.pending.length p.right.pending.length
  (List.zipWith Stamped.join p.left.pending p.right.pending,
    { left := { p.left with pending := p.left.pending.drop n }
      right := { p.right with pending := p.right.pending.drop n } })

def unpairable (p : Operands) : Bool :=
  p.left.exhausted || p.right.exhausted

/-- The promise that a future pair is no earlier than the later of both horizons. -/
def pairPromise (p : Operands) : List Update :=
  if p.unpairable then [] else (p.left.horizon.later p.right.horizon).stamp?.toList.map .progress

end Operands

inductive Task where
  | merge (operands : Operands)
  | chain (stage : ChainStage)
  | zip (operands : Operands)
  | combineLatest (operands : Operands) (latest : Latest)
  deriving DecidableEq, Repr

namespace Task

/-- The task of a join before anything has arrived. -/
def start : Join → Task
  | .merge => merge {}
  | .chain => chain .left
  | .zip => zip {}
  | .combineLatest => combineLatest {} {}

def finished : Task → Bool
  | merge p => p.finished
  | chain stage => stage == .finished
  | zip p => p.unpairable
  | combineLatest p _ => p.finished

def wants (task : Task) (side : Side) : Bool :=
  !task.finished && match task, side with
    | merge p, side | zip p, side | combineLatest p _, side => p.isOpen side
    | chain .left, .left | chain .right, .right => true
    | chain _, _ => false

/-- Receives an update of one side, or its end; gives what is to be sent, and the task afterwards. -/
def receive : Task → Side → Option Update → List Update × Task
  | merge p, side, update =>
    let (released, q) := (p.receive side update).drain
    (released.map Released.update, merge q)
  | chain stage, _, some update => ([update], chain stage)
  | chain .left, _, none => ([], chain .right)
  | chain _, _, none => ([], chain .finished)
  | zip p, side, update =>
    let (pairs, q) := (p.receive side update).pairUp
    (pairs.map .event ++ q.pairPromise, zip q)
  | combineLatest p latest, side, update =>
    let (released, q) := (p.receive side update).drain
    let (updates, newest) := latest.react released
    (updates, combineLatest q newest)

end Task

end TimedStreams
