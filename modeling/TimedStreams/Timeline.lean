import TimedStreams.Fault
import TimedStreams.Instant

/-!
# Timelines

A timeline is a recorded input in replay order: its events sorted by time, those of equal time in the order in which they were given. Replayed at some speed, an event is due `time / speed` seconds after the origin, at once if that is negative. `Timeline.check` refuses a timeline that holds an event due beyond the horizon; `Timeline.agenda` lists the events with the instants at which they are due, up to the first that has none.
-/

namespace TimedStreams

structure Timeline where
  events : List Event
  sorted : events.Pairwise fun e f => e.notAfter f

/-- An event and the instant at which it logically happens. -/
structure Stamped where
  event : Event
  stamp : Nat
  deriving DecidableEq, Repr

namespace Timeline

def ofEvents (events : List Event) : Timeline where
  events := events.mergeSort Event.notAfter
  sorted := List.pairwise_mergeSort
    (fun e f g hef hfg => by simp only [Event.notAfter, decide_eq_true_eq] at hef hfg ⊢; omega)
    (fun e f => by simp only [Event.notAfter, Bool.or_eq_true, decide_eq_true_eq]; omega) events

def ofFiniteEvents (events : List Event) : Except Fault Timeline :=
  match events.find? fun e => !e.time.isFinite with
  | some bad => .error (.timeNotFinite bad.id bad.time)
  | none => .ok (ofEvents events)

def check (timeline : Timeline) (speed : Float) : Except Fault Unit :=
  match timeline.events.find? fun e => Instant.horizonSeconds < e.time / speed with
  | some bad => .error (.beyondHorizon bad.id bad.time speed)
  | none => .ok ()

/-- The instant at which an event recorded at `time` is due. -/
def deadline? (time speed : Float) : Option Nat :=
  Instant.ofSeconds? (time / speed)

/-- The events with the instants at which they are due, up to the first that has none. -/
def agendaOf (speed : Float) : List Event → List Stamped
  | [] => []
  | e :: rest =>
    match deadline? e.time speed with
    | none => []
    | some due => ⟨e, due⟩ :: agendaOf speed rest

def agenda (timeline : Timeline) (speed : Float) : List Stamped :=
  agendaOf speed timeline.events

end Timeline

end TimedStreams
