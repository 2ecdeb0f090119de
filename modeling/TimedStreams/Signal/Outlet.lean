import TimedStreams.Timeline

/-!
# The write side of a signal

A producer tells its reader two kinds of things: events, each with the instant at which it logically happens, and progress, a promise that nothing sent later is stamped earlier. The outlet of a signal holds what has been sent and not yet read, and the latest stamp sent so far, its frontier. It keeps the promises of its producer: an event stamped before the frontier is raised to it, and progress that does not move past the frontier is not sent. Stamps therefore never decrease along a signal.
-/

namespace TimedStreams

inductive Update where
  | event (s : Stamped)
  | progress (stamp : Nat)
  deriving DecidableEq, Repr

def Update.stamp : Update → Nat
  | event s => s.stamp
  | progress stamp => stamp

/-- The instant to which a frontier raises a stamp. -/
def raisedTo (frontier : Option Nat) (stamp : Nat) : Nat :=
  frontier.elim stamp (max · stamp)

/-- Whether progress to `stamp` would say nothing new. -/
def covers (frontier : Option Nat) (stamp : Nat) : Bool :=
  frontier.any (stamp ≤ ·)

structure Outlet where
  /-- What has been sent and not yet read, the oldest first. -/
  queue : List Update := []
  frontier : Option Nat := none
  deriving DecidableEq, Repr

namespace Outlet

def emit (out : Outlet) (s : Stamped) : Outlet where
  queue := out.queue ++ [.event { s with stamp := raisedTo out.frontier s.stamp }]
  frontier := some (raisedTo out.frontier s.stamp)

def advance (out : Outlet) (stamp : Nat) : Outlet :=
  if covers out.frontier stamp then out else ⟨out.queue ++ [.progress stamp], some stamp⟩

def send (out : Outlet) : Update → Outlet
  | .event s => out.emit s
  | .progress stamp => out.advance stamp

def sendAll (out : Outlet) (updates : List Update) : Outlet :=
  updates.foldl send out

end Outlet

end TimedStreams
