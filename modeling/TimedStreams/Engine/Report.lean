import TimedStreams.Event.Document
import TimedStreams.Timestamp

/-!
# Reports

The outcome of evaluating several nodes: when it started, the latest recorded time of the inputs, and for each node its reported events in the order of emission. A report has one trace for each identifier.
-/

namespace TimedStreams

open Json

structure Report where
  startedAt : Timestamp
  latestInputTime : Option Float
  traces : List (Uuid × List Event)

namespace Report

/-- Adds a trace, in the place of one of the same identifier. -/
def setTrace (traces : List (Uuid × List Event)) (id : Uuid) (events : List Event) : List (Uuid × List Event) :=
  if traces.any (·.1 == id) then traces.map fun entry => if entry.1 == id then (id, events) else entry
  else traces ++ [(id, events)]

/-- The traces of a list in which a later trace takes the place of an earlier one. -/
def ofTraces (startedAt : Timestamp) (latestInputTime : Option Float) (traces : List (Uuid × List Event)) : Report where
  startedAt := startedAt
  latestInputTime := latestInputTime
  traces := traces.foldl (fun kept entry => setTrace kept entry.1 entry.2) []

def trace? (r : Report) (id : Uuid) : Option (List Event) :=
  (r.traces.find? (·.1 == id)).map Prod.snd

def eventCount (r : Report) : Nat :=
  r.traces.foldr (fun entry count => entry.2.length + count) 0

/-- All times that a drawing of the report has to hold. -/
def times (r : Report) : List Float :=
  (r.traces.flatMap fun entry => entry.2.map Event.time) ++ r.latestInputTime.toList

/-- The largest of all times, or one if there is none. -/
def duration (r : Report) : Float :=
  match r.times with
  | [] => 1.0
  | t :: ts => ts.foldl Binary64.laterOf t

/-! ### Reports as documents -/

def toJson (r : Report) : Json :=
  record [
    ("started_at", text r.startedAt.render),
    ("latest_input_time", r.latestInputTime.elim null float),
    ("traces", record (r.traces.map fun entry => (entry.1.render, array (entry.2.map Event.toJson))))]

def render (r : Report) : String :=
  String.ofList r.toJson.pretty

def traceOfJson? (depth : Nat) (key : Option String) (j : Json) : Option (Uuid × List Event) :=
  match depth, key, j with
  | depth + 1, some key, array items => do
    return (← Uuid.read? key.toList, ← items.mapM (Event.ofJson? depth))
  | _, _, _ => none

/-- An optional time: it may be missing or `null`. -/
def timeOfJson? : Option Json → Option (Option Float)
  | none | some null => some none
  | some j => j.toFloat?.map some

def ofJson? : Nat → Json → Option Report
  | depth + 2, j => do
    let [some startedAt, latest, some (object members)] ← fields? ["started_at", "latest_input_time", "traces"] j | none
    let startedAt ← Timestamp.read? (← startedAt.toString?).toList
    return ofTraces startedAt (← timeOfJson? latest) (← members.mapM fun (key, trace) => traceOfJson? depth key trace)
  | _, _ => none

end Report

end TimedStreams
