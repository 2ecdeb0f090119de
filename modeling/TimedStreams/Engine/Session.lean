import TimedStreams.Engine.Evaluation

/-!
# Sessions

A session observes one live signal step by step. Its producers can be replays of inputs, expressions of an engine, or manual ones, for which the session itself sends events and progress; its reader can poll, wait, let time pass, or drop the signal, and has a full turn for each reading. Between any two steps all tasks run until they are idle.

A manual producer outlives its signal: once a combinator has let go of the signal, or the reader has dropped it, sending fails, but only if there is something to send.
-/

namespace TimedStreams

/-- What a session observes. -/
inductive Blueprint where
  | manual (name : String)
  /-- A timeline replayed as it is, unchecked. -/
  | timeline (timeline : Timeline) (speed : Float)
  | expr (e : Expr)
  | join (kind : Join) (left right : Blueprint)
  | adjacentPairs (source : Blueprint)

namespace Blueprint

def signal (context : Context) : Blueprint → Signal
  | manual name => .manual {} name
  | timeline t speed => .ofAgenda (t.agenda speed)
  | expr e => context.signal e
  | join kind left right => .ofJoin kind (left.signal context) (right.signal context)
  | adjacentPairs source => .ofAdjacentPairs (source.signal context)

def names : Blueprint → List String
  | manual name => [name]
  | timeline _ _ | expr _ => []
  | join _ left right => left.names ++ right.names
  | adjacentPairs source => source.names

/-- The name of the outermost producer. -/
def label : Blueprint → String
  | manual _ => "manual"
  | timeline _ _ => "replay"
  | expr (.input _) => "replay"
  | expr (.join kind _ _) | join kind _ _ => kind.tag
  | expr (.adjacentPairs _) | adjacentPairs _ => "adjacent_pairs"

end Blueprint

namespace Signal

/-- Whether the signal still has a running manual producer of that name. -/
def hasManual (name : String) : Signal → Bool
  | manual _ n => n == name
  | adjacentPairs _ _ source => source.hasManual name
  | join _ _ left right => left.hasManual name || right.hasManual name
  | replay _ _ _ | ended _ => false

def mapManual (name : String) (f : Outlet → Signal) : Signal → Signal
  | manual out n => if n == name then f out else manual out n
  | adjacentPairs out previous source => adjacentPairs out previous (source.mapManual name f)
  | join out task left right => join out task (left.mapManual name f) (right.mapManual name f)
  | replay out next rest => replay out next rest
  | ended out => ended out

end Signal

/-- The write side of a manual producer, which outlives the signal. -/
structure Emitter where
  name : String
  /-- The latest stamp asked for. -/
  frontier : Option Nat := none
  isOpen : Bool := true

structure Session where
  now : Nat := 0
  wakeups : Nat := 0
  /-- The signal, until it is dropped. -/
  signal : Option Signal
  label : String
  /-- The factor of reported times; events keep their own times without one. -/
  reporting : Option Float
  emitters : List Emitter

inductive Sending where
  | sent
  | refused (fault : Fault)
  /-- The emitter was closed before. -/
  | closed

inductive Waiting where
  | event (e : Event)
  | done
  /-- No event will come unless a manual producer sends one. -/
  | stuck
  | dropped

/-- What reading to the end gives. -/
structure Remainder where
  events : List Event
  /-- Whether the signal completed. -/
  complete : Bool

namespace Session

/-- How doubles are laid out in a description. -/
def descriptionLayout : Decimal.Layout :=
  ⟨.up, some (-4), some 15, true, false⟩

/-- Moves the clock to `now` and lets every task run until all are idle. -/
def runAt (now : Nat) (s : Session) : Session :=
  { s with
    now
    wakeups := s.wakeups + s.signal.elim 0 (Signal.dueCount .exact now)
    signal := s.signal.map (Signal.settle .exact now) }

/-- Lets every task run until all are idle. -/
def settle (s : Session) : Session :=
  s.runAt s.now

def start (context : Context) (blueprint : Blueprint) (reporting : Option Float) : Session :=
  settle {
    signal := some (blueprint.signal context)
    label := blueprint.label
    reporting
    emitters := blueprint.names.map fun name => { name } }

/-! ### Writing -/

def send (name : String) (update : Update) (s : Session) : Sending × Session :=
  match s.emitters.find? (·.name == name) with
  | some ⟨_, frontier, true⟩ =>
    let moved := s.emitters.map fun e =>
      if e.name == name then { e with frontier := some (raisedTo e.frontier update.stamp) } else e
    let signal := s.signal.map (Signal.mapManual name fun out => .manual (out.send update) name)
    let silent := match update with
      | .event _ => false
      | .progress stamp => covers frontier stamp
    let answer := if silent || s.signal.any (Signal.hasManual name) then Sending.sent else .refused .consumerGone
    (answer, settle { s with emitters := moved, signal })
  | _ => (.closed, s)

def close (name : String) (s : Session) : Sending × Session :=
  match s.emitters.find? (·.name == name) with
  | some ⟨_, _, true⟩ =>
    let closed := s.emitters.map fun e => if e.name == name then { e with isOpen := false } else e
    (.sent, settle { s with emitters := closed, signal := s.signal.map (Signal.mapManual name .ended) })
  | _ => (.closed, s)

/-! ### Reading -/

/-- The event as the reader sees it. -/
def observed (s : Session) (e : Event) : Event :=
  s.reporting.elim e fun factor => e.withTime (reportedTime factor s.now)

/-- Reads once, without waiting and in a full turn; nothing if the signal was dropped. -/
def poll (s : Session) : Option Reading × Session :=
  match s.signal with
  | none => (none, s)
  | some signal =>
    let (reading, rest) := signal.read
    let seen := match reading with
      | .event e => .event (s.observed e)
      | other => other
    (some seen, { s with signal := some rest })

def nextWake (s : Session) : Option Nat :=
  s.signal.bind (Signal.nextWake .exact)

def unplayed (s : Session) : Nat :=
  s.signal.elim 0 Signal.unplayed

/-- Waits for an event through at most `jumps` due times. -/
def waitFor : Nat → Session → Waiting × Session
  | jumps, s =>
    match s.poll with
    | (none, s) => (.dropped, s)
    | (some (.event e), s) => (.event e, s)
    | (some .done, s) => (.done, s)
    | (some .pending, s) =>
      match jumps, s.nextWake with
      | jumps + 1, some due => waitFor jumps (s.runAt due)
      | _, _ => (.stuck, s)

/-- Waits for an event, moving the clock from one due time to the next. -/
def receive (s : Session) : Waiting × Session :=
  s.waitFor s.unplayed

def takeAll (s : Session) : List Event × Session :=
  match s.signal with
  | none => ([], s)
  | some signal => ((Signal.eventsOf signal.outlet.queue).map s.observed, { s with signal := some (signal.withQueue []) })

/-- Takes all events through at most `jumps` due times. -/
def takeThrough : Nat → Session → List Event × Session
  | 0, s => s.takeAll
  | jumps + 1, s =>
    let (events, s) := s.takeAll
    match s.nextWake with
    | none => (events, s)
    | some due =>
      let (later, last) := takeThrough jumps (s.runAt due)
      (events ++ later, last)

/-- Reads until the signal completes or nothing is due any more; nothing if the signal was dropped. -/
def readRest (s : Session) : Option Remainder × Session :=
  match s.signal with
  | none => (none, s)
  | some _ =>
    let (events, last) := s.takeThrough s.unplayed
    (some ⟨events, last.signal.any Signal.hasEnded⟩, last)

/-- Moves the clock to `target`, stopping at no more than `jumps` due times on the way. -/
def passUntil (target : Nat) : Nat → Session → Session
  | 0, s => s.runAt target
  | jumps + 1, s =>
    match s.nextWake with
    | some due => if due ≤ target then passUntil target jumps (s.runAt due) else s.runAt target
    | none => s.runAt target

def sleep (nanos : Nat) (s : Session) : Session :=
  s.passUntil (s.now + nanos) s.unplayed

def drop (s : Session) : Session :=
  { s with signal := none }

def describe? (s : Session) : Option String :=
  s.signal.map fun _ =>
    let inner := "EventSignal \x7b label: \"" ++ s.label ++ "\", .. \x7d"
    match s.reporting with
    | none => inner
    | some factor =>
      "ReportedSignal \x7b inner: " ++ inner ++ ", reporting_factor: " ++ String.ofList (descriptionLayout.write factor)
        ++ ", .. \x7d"

end Session

end TimedStreams
