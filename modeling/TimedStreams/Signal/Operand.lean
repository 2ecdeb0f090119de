import TimedStreams.Signal.Outlet

/-!
# The read side of a signal

A combinator does not act on an update when it arrives. It keeps the events of each of its operands until their turn comes, and it knows from the stamps how far the operand has got, its horizon: nothing that is still to come from the operand is stamped before it. The horizon of an operand is the stamp of the first event that is kept, or else the latest stamp received; it is `unknown` before the first update, and `done` once the operand has completed and nothing is kept.
-/

namespace TimedStreams

inductive Horizon where
  | unknown
  | known (stamp : Nat)
  | done
  deriving DecidableEq, Repr

namespace Horizon

/-- The order of horizons: `unknown` is before all stamps, `done` after them. -/
def notAfter : Horizon → Horizon → Bool
  | unknown, _ => true
  | _, done => true
  | known s, known t => s ≤ t
  | _, _ => false

def earlier (h k : Horizon) : Horizon :=
  if h.notAfter k then h else k

def later (h k : Horizon) : Horizon :=
  if h.notAfter k then k else h

def stamp? : Horizon → Option Nat
  | known stamp => some stamp
  | unknown | done => none

end Horizon

structure Operand where
  /-- The events received and not yet used, the oldest first. -/
  pending : List Stamped := []
  /-- The latest stamp received. -/
  reached : Option Nat := none
  /-- Whether more may arrive. -/
  isOpen : Bool := true
  deriving DecidableEq, Repr

namespace Operand

def receive (o : Operand) : Option Update → Operand
  | some (.event s) => { o with pending := o.pending ++ [s], reached := some (raisedTo o.reached s.stamp) }
  | some (.progress stamp) => { o with reached := some (raisedTo o.reached stamp) }
  | none => { o with isOpen := false }

def horizon (o : Operand) : Horizon :=
  match o.pending, o.isOpen, o.reached with
  | s :: _, _, _ => .known s.stamp
  | [], false, _ => .done
  | [], true, some stamp => .known stamp
  | [], true, none => .unknown

def exhausted (o : Operand) : Bool :=
  !o.isOpen && o.pending.isEmpty

end Operand

inductive Side where
  | left
  | right
  deriving DecidableEq, Repr

structure Operands where
  left : Operand := {}
  right : Operand := {}
  deriving DecidableEq, Repr

namespace Operands

def receive (p : Operands) : Side → Option Update → Operands
  | .left, update => { p with left := p.left.receive update }
  | .right, update => { p with right := p.right.receive update }

def isOpen (p : Operands) : Side → Bool
  | .left => p.left.isOpen
  | .right => p.right.isOpen

end Operands

end TimedStreams
