import TimedStreams.Signal.Task

/-!
# Live signals

A live signal is a producer with its outlet, and a producer owns the signals it reads: a whole evaluation is one tree. At the leaves an agenda of events is replayed against the clock, or a driver outside sends what it likes; in between, tasks turn the updates of their operands into their own. A signal whose producer has finished is only its outlet: the operands are gone with the producer, and with them everything below.

Every wait of an evaluation is for a due time, a time on the clock at which a replay wakes. A `Clock` says when a sleep towards a deadline ends. `Signal.settle` lets every task run until all are idle, operands before the tasks that read them; nothing that a task does can change its operands, so one pass suffices.
-/

namespace TimedStreams

/-- When a sleep towards a deadline ends. -/
structure Clock where
  wakeAt : Nat → Nat

def Clock.exact : Clock := ⟨id⟩

/-- The clock on which sleeps end at whole milliseconds. -/
def Clock.millisecond : Clock := ⟨Instant.ceilMillisecond⟩

inductive Signal where
  /-- A replay that has announced the stamp of the next event and sleeps towards it. -/
  | replay (out : Outlet) (next : Stamped) (rest : List Stamped)
  /-- A producer outside the evaluation, known by its name. -/
  | manual (out : Outlet) (name : String)
  | adjacentPairs (out : Outlet) (previous : Option Event) (source : Signal)
  | join (out : Outlet) (task : Task) (left right : Signal)
  /-- A signal whose producer has finished. -/
  | ended (out : Outlet)
  deriving DecidableEq, Repr

namespace Signal

def outlet : Signal → Outlet
  | replay out _ _ | manual out _ | adjacentPairs out _ _ | join out _ _ _ | ended out => out

def withOutlet (signal : Signal) (out : Outlet) : Signal :=
  match signal with
  | replay _ next rest => replay out next rest
  | manual _ name => manual out name
  | adjacentPairs _ previous source => adjacentPairs out previous source
  | join _ task left right => join out task left right
  | ended _ => ended out

def hasEnded : Signal → Bool
  | ended _ => true
  | _ => false

def withQueue (signal : Signal) (queue : List Update) : Signal :=
  signal.withOutlet { signal.outlet with queue }

/-- All that a reader can receive now: the unread updates, and then the end if the producer has finished. -/
def readable (signal : Signal) : List (Option Update) :=
  signal.outlet.queue.map some ++ (if signal.hasEnded then [none] else [])

/-! ### Starting -/

/-- Announces the next event of an agenda, or ends the signal. -/
def announce (out : Outlet) : List Stamped → Signal
  | [] => ended out
  | s :: rest => replay (out.advance s.stamp) s rest

/-- The replay of an agenda. -/
def ofAgenda (agenda : List Stamped) : Signal :=
  announce {} agenda

def ofJoin (kind : Join) (left right : Signal) : Signal :=
  join {} (Task.start kind) left right

def ofAdjacentPairs (source : Signal) : Signal :=
  adjacentPairs {} none source

/-! ### Running -/

/-- Replays every event whose sleep has ended. -/
def replayDue (clock : Clock) (now : Nat) (out : Outlet) (next : Stamped) : List Stamped → Signal
  | [] => if clock.wakeAt next.stamp ≤ now then ended (out.emit next) else replay out next []
  | s :: rest =>
    if clock.wakeAt next.stamp ≤ now then replayDue clock now ((out.emit next).advance s.stamp) s rest
    else replay out next (s :: rest)

def pairWith (previous : Option Event) : Update → Update
  | .progress stamp => .progress stamp
  | .event s =>
    match previous with
    | none => .progress s.stamp
    | some e => .event ⟨Event.combined e s.event, s.stamp⟩

/-- The event before the next one, after an update. -/
def newestAfter (previous : Option Event) : Update → Option Event
  | .progress _ => previous
  | .event s => some s.event

def pairAll (out : Outlet) (previous : Option Event) : List Update → Outlet × Option Event
  | [] => (out, previous)
  | update :: rest => pairAll (out.send (pairWith previous update)) (newestAfter previous update) rest

/-- A task with its outlet, as it receives the updates of its operands. -/
structure Worker where
  task : Task
  out : Outlet

/-- Receives an update of a side, or its end, if the task waits for it. -/
def Worker.hear (side : Side) (w : Worker) (update : Option Update) : Worker :=
  if w.task.wants side then
    let (updates, task) := w.task.receive side update
    ⟨task, w.out.sendAll updates⟩
  else w

/-- Receives all that an operand has to say, if the task waits for that side; gives the operand as it is left. -/
def Worker.hearAll (side : Side) (w : Worker) (operand : Signal) : Worker × Signal :=
  if w.task.wants side then (operand.readable.foldl (Worker.hear side) w, operand.withQueue []) else (w, operand)

/-- Lets every task run until all are idle. -/
def settle (clock : Clock) (now : Nat) : Signal → Signal
  | replay out next rest => replayDue clock now out next rest
  | manual out name => manual out name
  | adjacentPairs out previous source =>
    let source := source.settle clock now
    let (out, previous) := pairAll out previous source.outlet.queue
    if source.hasEnded then ended out else adjacentPairs out previous (source.withQueue [])
  | join out task left right =>
    let (w, left) := Worker.hearAll .left ⟨task, out⟩ (left.settle clock now)
    let (w, right) := w.hearAll .right (right.settle clock now)
    if w.task.finished then ended w.out else join w.out w.task left right
  | ended out => ended out

/-- The number of sleeps that end when the signal is settled. -/
def dueCount (clock : Clock) (now : Nat) : Signal → Nat
  | replay _ next rest => ((next :: rest).takeWhile fun s => clock.wakeAt s.stamp ≤ now).length
  | adjacentPairs _ _ source => source.dueCount clock now
  | join _ _ left right => left.dueCount clock now + right.dueCount clock now
  | manual _ _ | ended _ => 0

/-- The next time at which a sleep ends. -/
def nextWake (clock : Clock) : Signal → Option Nat
  | replay _ next _ => some (clock.wakeAt next.stamp)
  | adjacentPairs _ _ source => source.nextWake clock
  | join _ _ left right => (left.nextWake clock).merge min (right.nextWake clock)
  | manual _ _ | ended _ => none

/-- The number of events that are still to be replayed. At each due time there is one less, so it bounds the number of due times. -/
def unplayed : Signal → Nat
  | replay _ _ rest => rest.length + 1
  | adjacentPairs _ _ source => source.unplayed
  | join _ _ left right => left.unplayed + right.unplayed
  | manual _ _ | ended _ => 0

/-! ### Reading -/

def eventsOf (updates : List Update) : List Event :=
  updates.filterMap fun
    | .event s => some s.event
    | .progress _ => none

def firstEvent? : List Update → Option (Event × List Update)
  | [] => none
  | .event s :: rest => some (s.event, rest)
  | .progress _ :: rest => firstEvent? rest

end Signal

inductive Reading where
  | event (e : Event)
  /-- There is no event now, but there may be later. -/
  | pending
  /-- There will be no more events. -/
  | done
  deriving DecidableEq, Repr

/-- Reads once, without waiting, within a turn of so many updates, the end among them; progress is passed over. A reader whose turn is over is told that there is nothing now, and may take another turn at once. -/
def Signal.readWithin (turn : Nat) (signal : Signal) : Reading × Signal :=
  let queue := signal.outlet.queue
  match firstEvent? (queue.take turn) with
  | some (e, rest) => (.event e, signal.withQueue (rest ++ queue.drop turn))
  | none => (if signal.hasEnded ∧ queue.length < turn then .done else .pending, signal.withQueue (queue.drop turn))

/-- A turn that is long enough for all that there is to read. -/
def Signal.fullTurn (signal : Signal) : Nat :=
  signal.outlet.queue.length + 1

/-- Reads once, in a full turn. -/
def Signal.read (signal : Signal) : Reading × Signal :=
  signal.readWithin signal.fullTurn

end TimedStreams
