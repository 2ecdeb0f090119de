import TimedStreams.Engine.Session
import TimedStreams.Proofs.EngineRuns

/-!
# Observation does not influence the evaluation

A reader may take the events of an evaluation when it likes: it may poll, wait, or let time pass, and
what it has not taken piles up in the outermost outlet. `Signal.Owes` says what such a reader still
has before it: a fixed list of events with their stamps, of which those that have been sent are
stamped up to the present and all others from the present on, and the instant of completion. No step
of a task changes it, reading only takes from its front, and time may pass over it as long as all
tasks are idle.

`Watched` is an evaluation with its reader, in which tasks and reader may act in any order; the clock
stands still as long as any of them can. A runtime may ration how much a task receives in one turn:
here every reading is made within a turn of its own, of any length, and only what an answer says about
the future asks for a turn that is longer than what has been sent (`Watched.Faithful`). A `Session` is
the same with all tasks idle between any two requests of the reader and full turns (`Signal.fullTurn`),
and there the answers are known in advance (`Cursor`).
-/

namespace TimedStreams

open Relation Stamped Update

/-- The instant of the next event, or the completion if there is none. -/
def Stamped.nextInstant (finish : Nat) : List Stamped → Nat
  | [] => finish
  | s :: _ => s.stamp

namespace Signal

/-- The reader of a signal still has these events before it, and the signal completes at `finish`. -/
structure Owes (events : List Stamped) (finish now : Nat) (signal : Signal) : Prop where
  coherent : signal.Coherent
  steady : signal.Steady (OnTime now)
  timely : signal.Timely now
  remaining_eq : signal.remaining = events
  future_from : From now signal.future
  finish_eq : max now signal.finish = max now finish

variable {events : List Stamped} {finish now low : Nat} {signal signal' : Signal}

theorem Step.exists_future {due : Nat → Prop} (hstep : signal.Step due signal')
    (hremaining : signal'.remaining = signal.remaining) : ∃ sent, signal.future = sent ++ signal'.future := by
  obtain ⟨us, hus⟩ := hstep.outlet
  obtain ⟨sent, hsent, -⟩ := signal.outlet.queue_sendAll us
  refine ⟨stampedOf sent, ?_⟩
  rw [remaining_eq, remaining_eq, hus, hsent, stampedOf_append, List.append_assoc] at hremaining
  exact (List.append_cancel_left hremaining).symm

theorem Step.owes (hstep : signal.Step (· ≤ now) signal') (howes : signal.Owes events finish now) :
    signal'.Owes events finish now := by
  obtain ⟨hcoherent, hsteady, htimely, hremaining, hfuture, hfinish⟩ := howes
  obtain ⟨hsame, hsteady'⟩ := hstep.remaining (firm_onTime now) hcoherent hsteady
  obtain ⟨sent, hsent⟩ := hstep.exists_future hsame
  refine ⟨hstep.coherent hcoherent, hsteady', hstep.timely hcoherent hsteady htimely, hsame.trans hremaining, ?_, ?_⟩
  · rw [hsent, from_append] at hfuture
    exact hfuture.2
  · exact (hstep.finish hcoherent hsteady htimely).trans hfinish

theorem owes_of_run (hrun : ReflTransGen (Step (· ≤ now)) signal signal') (howes : signal.Owes events finish now) :
    signal'.Owes events finish now := by
  induction hrun with
  | refl => exact howes
  | tail _ hstep ih => exact hstep.owes ih

/-- Reading an update takes its event, if it is one, from the front. -/
theorem Reads.owes {u : Update} (hreads : signal.Reads (some u) signal') (howes : signal.Owes events finish now) :
    ∃ rest, events = stampedOf [u] ++ rest ∧ UpTo now (stampedOf [u]) ∧ signal'.Owes rest finish now := by
  obtain ⟨hcoherent, hsteady, htimely, hremaining, hfuture, hfinish⟩ := howes
  obtain ⟨htimely', hupTo⟩ := hreads.timely htimely
  have hnext := hreads.remaining hcoherent.sound
  have hfuture' : signal'.future = signal.future := by
    cases hreads with
    | update hqueue => exact future_withQueue _ _
  exact ⟨signal'.remaining, hremaining.symm.trans hnext.now_eq, hupTo, hreads.coherent hcoherent,
    hreads.steady hsteady, htimely', rfl, hfuture' ▸ hfuture, by rw [hreads.finish, hfinish]⟩

theorem Owes.pass (howes : signal.Owes events finish now) (hidle : signal.Idle (· ≤ low)) (hlow : now ≤ low) :
    signal.Owes events finish (low + 1) := by
  obtain ⟨hcoherent, hsteady, htimely, hremaining, hfuture, hfinish⟩ := howes
  refine ⟨hcoherent, hsteady.jump hcoherent hidle hlow, htimely.mono (hlow.trans (Nat.le_succ low)),
    hremaining, ?_, ?_⟩
  · rcases hcoherent.beyond hidle with hended | hbeyond
    · rw [eq_ended_of_hasEnded hended]
      exact from_nil _
    · exact signal.future_from.mono hbeyond.reach
  · rcases hcoherent.beyond hidle with hended | hbeyond
    · rw [eq_ended_of_hasEnded hended] at hfinish ⊢
      simp only [Signal.finish] at hfinish ⊢
      omega
    · have hend := hbeyond.finish
      omega

/-! ### Reading once -/

theorem Owes.readAll {us rest : List Update} (howes : signal.Owes events finish now)
    (hqueue : signal.outlet.queue = us ++ rest) :
    ∃ left, events = stampedOf us ++ left ∧ UpTo now (stampedOf us) ∧ (signal.withQueue rest).Owes left finish now := by
  induction us generalizing signal events with
  | nil => exact ⟨events, rfl, upTo_nil now, (withQueue_of_queue_eq hqueue).symm ▸ howes⟩
  | cons u us ih =>
    obtain ⟨left, rfl, hu, howes'⟩ := Reads.owes (.update hqueue) howes
    obtain ⟨left', rfl, hus, howes''⟩ := ih howes' (outlet_withQueue _ _ ▸ rfl)
    rw [withQueue_withQueue] at howes''
    refine ⟨left', ?_, ?_, howes''⟩
    · rw [← List.append_assoc, ← stampedOf_append, List.singleton_append]
    · rw [← List.singleton_append, stampedOf_append]
      exact upTo_append.2 ⟨hu, hus⟩

theorem firstEvent?_of_stampedOf_eq_nil {us : List Update} (hus : stampedOf us = []) : firstEvent? us = none := by
  induction us with
  | nil => rfl
  | cons u rest ih =>
    cases u with
    | progress stamp => exact ih hus
    | event s => cases hus

theorem exists_firstEvent? {us : List Update} {s : Stamped} {later : List Stamped}
    (hus : stampedOf us = s :: later) :
    ∃ before rest, us = before ++ rest ∧ stampedOf before = [s] ∧ firstEvent? us = some (s.event, rest) := by
  induction us with
  | nil => cases hus
  | cons u rest ih =>
    cases u with
    | progress stamp =>
      obtain ⟨before, rest', rfl, hbefore, hfirst⟩ := ih hus
      exact ⟨.progress stamp :: before, rest', rfl, hbefore, hfirst⟩
    | event t =>
      obtain ⟨rfl, -⟩ := List.cons.inj hus
      exact ⟨[.event t], rest, rfl, rfl, rfl⟩

/-- Reading gives the next event and leaves the others, or it finds none and leaves all of them. -/
theorem Owes.readWithin (howes : signal.Owes events finish now) (turn : Nat) :
    (∃ s rest, events = s :: rest ∧ s.stamp ≤ now ∧ (signal.readWithin turn).1 = .event s.event ∧
      (signal.readWithin turn).2.Owes rest finish now) ∨
    (stampedOf (signal.outlet.queue.take turn) = [] ∧
      (signal.readWithin turn).1 =
        (if signal.hasEnded ∧ signal.outlet.queue.length < turn then .done else .pending) ∧
      (signal.readWithin turn).2.Owes events finish now) := by
  have hqueue := (List.take_append_drop turn signal.outlet.queue).symm
  cases hevents : stampedOf (signal.outlet.queue.take turn) with
  | nil =>
    obtain ⟨left, hleft, -, howes'⟩ := howes.readAll hqueue
    rw [hevents, List.nil_append] at hleft
    rw [Signal.readWithin, firstEvent?_of_stampedOf_eq_nil hevents]
    exact .inr ⟨rfl, rfl, hleft ▸ howes'⟩
  | cons s later =>
    obtain ⟨before, rest, htaken, hbefore, hfirst⟩ := exists_firstEvent? hevents
    rw [htaken, List.append_assoc] at hqueue
    obtain ⟨left, rfl, hupTo, hleft⟩ := howes.readAll hqueue
    rw [hbefore] at hupTo ⊢
    rw [Signal.readWithin, hfirst]
    exact .inl ⟨s, left, rfl, (upTo_cons.1 hupTo).1, rfl, hleft⟩

theorem length_lt_fullTurn (signal : Signal) : signal.outlet.queue.length < signal.fullTurn :=
  Nat.lt_succ_self _

theorem Owes.read (howes : signal.Owes events finish now) :
    (∃ s rest, events = s :: rest ∧ s.stamp ≤ now ∧ signal.read.1 = .event s.event ∧
      signal.read.2.Owes rest finish now) ∨
    (stampedOf signal.outlet.queue = [] ∧ signal.read.1 = (if signal.hasEnded then .done else .pending) ∧
      signal.read.2.Owes events finish now) := by
  simpa only [Signal.read, List.take_of_length_le signal.length_lt_fullTurn.le, signal.length_lt_fullTurn, and_true]
    using howes.readWithin signal.fullTurn

/-- All turns that are long enough are alike. -/
theorem readWithin_of_lt {turn : Nat} (hturn : signal.outlet.queue.length < turn) :
    signal.readWithin turn = signal.read := by
  have hfull := signal.length_lt_fullTurn
  simp only [Signal.read, Signal.readWithin, List.take_of_length_le hturn.le, List.take_of_length_le hfull.le,
    List.drop_of_length_le hturn.le, List.drop_of_length_le hfull.le, hturn, hfull]

theorem exists_append_of_firstEvent? {us : List Update} {found : Event × List Update}
    (hfound : firstEvent? us = some found) : ∃ before, us = before ++ found.2 := by
  induction us with
  | nil => cases hfound
  | cons u us ih =>
    cases u with
    | event s => exact ⟨[.event s], by rw [← Option.some.inj hfound]; rfl⟩
    | progress stamp =>
      obtain ⟨before, hbefore⟩ := ih hfound
      exact ⟨.progress stamp :: before, congrArg _ hbefore⟩

theorem read_eq_withQueue (signal : Signal) :
    ∃ us rest, signal.outlet.queue = us ++ rest ∧ signal.read.2 = signal.withQueue rest := by
  rw [read, readWithin]
  cases hfound : firstEvent? (signal.outlet.queue.take signal.fullTurn) with
  | none => exact ⟨_, _, (List.take_append_drop signal.fullTurn _).symm, rfl⟩
  | some found =>
    obtain ⟨us, hus⟩ := exists_append_of_firstEvent? hfound
    refine ⟨us, found.2 ++ signal.outlet.queue.drop signal.fullTurn, ?_, rfl⟩
    rw [← List.append_assoc, ← hus, List.take_append_drop]

theorem Idle.read {due : Nat → Prop} (hidle : signal.Idle due) : signal.read.2.Idle due := by
  obtain ⟨-, rest, -, hread⟩ := signal.read_eq_withQueue
  exact hread ▸ hidle.withQueue rest

theorem unplayed_read (signal : Signal) : signal.read.2.unplayed = signal.unplayed := by
  obtain ⟨-, rest, -, hread⟩ := signal.read_eq_withQueue
  rw [hread, unplayed_withQueue]

/-- What has not been sent when all tasks are idle lies beyond all instants before the next deadline. -/
theorem Owes.beyond_of_idle (howes : signal.Owes events finish now) (hidle : signal.Idle (· ≤ low)) (hlow : now ≤ low)
    (hqueue : stampedOf signal.outlet.queue = []) :
    (signal.hasEnded = true ∧ events = [] ∧ finish ≤ now) ∨
      (signal.hasEnded = false ∧ From (low + 1) events ∧ low < finish) := by
  obtain ⟨hcoherent, -, -, hremaining, -, hfinish⟩ := howes
  rw [Signal.remaining_eq, hqueue, List.nil_append] at hremaining
  rcases hcoherent.beyond hidle with hended | hbeyond
  · rw [eq_ended_of_hasEnded hended] at hremaining hfinish
    refine .inl ⟨hended, hremaining.symm, ?_⟩
    simp only [Signal.finish] at hfinish
    omega
  · have hlate := hbeyond.finish
    have hopen : signal.hasEnded = false := by
      refine Bool.eq_false_iff.2 fun hended => ?_
      rw [eq_ended_of_hasEnded hended] at hlate
      exact Nat.not_lt_zero _ hlate
    exact .inr ⟨hopen, hremaining ▸ signal.future_from.mono hbeyond.reach, by omega⟩

/-- A reader that reads once at an idle point learns how matters stand. -/
theorem Owes.answers_of_idle (howes : signal.Owes events finish now) (hidle : signal.Idle (· ≤ now)) :
    (signal.read.1 = .pending ↔ now < nextInstant finish events) ∧
      (signal.read.1 = .done ↔ events = [] ∧ finish ≤ now) := by
  rcases howes.read with ⟨s, rest, rfl, hstamp, hread, -⟩ | ⟨hqueue, hread, -⟩
  · simpa [hread, nextInstant] using hstamp
  · rcases howes.beyond_of_idle hidle le_rfl hqueue with ⟨hended, rfl, hfinish⟩ | ⟨hopen, hfrom, hfinish⟩
    · simp [hread, hended, nextInstant, hfinish]
    · have hnext : now < nextInstant finish events := by
        cases events with
        | nil => exact hfinish
        | cons s rest => exact (from_cons.1 hfrom).1
      simp [hread, hopen, hnext, hfinish]

end Signal

/-! ### An evaluation and its reader -/

/-- What the reader sees of a reading that is made `now`. -/
def Reading.reported (reporting : Float) (now : Nat) : Reading → Reading
  | event e => event (e.withTime (reportedTime reporting now))
  | pending => pending
  | done => done

def Reading.isEvent : Reading → Bool
  | event _ => true
  | pending | done => false

/-- What the reader was told, when it had asked, and when it was told. -/
structure Answer where
  asked : Nat
  given : Nat
  reading : Reading

inductive Attention where
  /-- It may read, or turn away for some time. -/
  | free
  /-- It waits for an event, or for the end. -/
  | waiting (since : Nat)
  | asleep (due : Nat)

structure Watched where
  now : Nat
  signal : Signal
  reader : Attention
  answers : List Answer

namespace Watched

def start (signal : Signal) : Watched where
  now := 0
  signal := signal
  reader := .free
  answers := []

def seen (w : Watched) : List Answer :=
  w.answers.filter fun answer => answer.reading.isEvent

def reading (reporting : Float) (turn : Nat) (w : Watched) : Reading :=
  (w.signal.readWithin turn).1.reported reporting w.now

/-- The reader, who asked at some time, reads once. -/
def tell (reporting : Float) (turn asked : Nat) (w : Watched) : Watched :=
  { w with
    signal := (w.signal.readWithin turn).2
    reader := .free
    answers := w.answers ++ [⟨asked, w.now, w.reading reporting turn⟩] }

/-- The reader can do nothing before `later`. Whoever waits has another turn as long as there is something to receive. -/
def Held (later : Nat) (w : Watched) : Prop :=
  match w.reader with
  | .free => False
  | .waiting _ => w.signal.read.1 = .pending
  | .asleep due => later ≤ due

/-- One thing happens, or time passes because nothing can. -/
inductive Moves (reporting : Float) : Watched → Watched → Prop
  | work {w : Watched} {signal' : Signal} (hstep : w.signal.Step (· ≤ w.now) signal') :
      Moves reporting w { w with signal := signal' }
  | poll {w : Watched} (turn : Nat) (hfree : w.reader = .free) : Moves reporting w (w.tell reporting turn w.now)
  | wait {w : Watched} (hfree : w.reader = .free) : Moves reporting w { w with reader := .waiting w.now }
  /-- Whoever waits passes over progress. -/
  | look {w : Watched} {turn since : Nat} (hwaits : w.reader = .waiting since)
      (hnone : (w.signal.readWithin turn).1 = .pending) :
      Moves reporting w { w with signal := (w.signal.readWithin turn).2 }
  | answer {w : Watched} {turn since : Nat} (hwaits : w.reader = .waiting since)
      (hready : (w.signal.readWithin turn).1 ≠ .pending) : Moves reporting w (w.tell reporting turn since)
  | sleep {w : Watched} (nanos : Nat) (hfree : w.reader = .free) :
      Moves reporting w { w with reader := .asleep (w.now + nanos) }
  | wake {w : Watched} {due : Nat} (hasleep : w.reader = .asleep due) (hdue : due ≤ w.now) :
      Moves reporting w { w with reader := .free }
  /-- The clock never passes over a deadline. -/
  | pass {w : Watched} {later : Nat} (hidle : w.signal.Idle (· ≤ w.now)) (hheld : w.Held later)
      (hnext : ∀ due, w.signal.nextWake .exact = some due → later ≤ due) (hlater : w.now < later) :
      Moves reporting w { w with now := later }

end Watched

/-- An answer brings an event, at the later of its instant and the instant at which the reader asked. -/
structure Answer.Brings (reporting : Float) (answer : Answer) (s : Stamped) : Prop where
  given_eq : answer.given = max s.stamp answer.asked
  reading_eq : answer.reading = .event (s.event.withTime (reportedTime reporting answer.given))

namespace Watched

variable {reporting : Float} {run left : List Stamped} {finish : Nat} {w w' : Watched}

/-- The reader has been told the front of `run`, and `left` is still to come. -/
structure Follows (reporting : Float) (run left : List Stamped) (finish : Nat) (w : Watched) : Prop where
  told : ∃ front, run = front ++ left ∧ List.Forall₂ (Answer.Brings reporting) w.seen front
  owes : w.signal.Owes left finish w.now
  /-- Nothing of what is left could have been had earlier. -/
  patient : ∀ since, w.reader = .waiting since → since = w.now ∨ since < w.now ∧ From w.now left

theorem seen_tell (reporting : Float) (turn asked : Nat) (w : Watched) :
    (w.tell reporting turn asked).seen
      = w.seen ++ if (w.signal.readWithin turn).1.isEvent then [⟨asked, w.now, w.reading reporting turn⟩] else [] := by
  rw [seen, tell, List.filter_append, ← seen, List.filter_singleton, reading]
  cases (w.signal.readWithin turn).1 <;> rfl

/-- What the reader is told is what comes next, and when it comes. -/
theorem Follows.tell {turn asked : Nat} (hw : w.Follows reporting run left finish)
    (hasked : asked = w.now ∨ asked < w.now ∧ From w.now left) :
    ∃ left', (w.tell reporting turn asked).Follows reporting run left' finish := by
  obtain ⟨⟨front, rfl, hfront⟩, howes, -⟩ := hw
  rcases howes.readWithin turn with ⟨s, rest, rfl, hstamp, hread, howes'⟩ | ⟨-, hread, howes'⟩
  · have hgiven : w.now = max s.stamp asked := by
      rcases hasked with rfl | ⟨hlt, hfrom⟩
      · exact (Nat.max_eq_right hstamp).symm
      · have hle := (from_cons.1 hfrom).1
        omega
    refine ⟨rest, ⟨front ++ [s], by simp, ?_⟩, howes', fun since hsince => by cases hsince⟩
    rw [seen_tell, reading, hread]
    exact List.rel_append hfront (.cons ⟨hgiven, rfl⟩ .nil)
  · refine ⟨left, ⟨front, rfl, ?_⟩, howes', fun since hsince => by cases hsince⟩
    have hnone : (w.signal.readWithin turn).1.isEvent = false := by
      rw [hread]
      split <;> rfl
    rw [seen_tell, hnone]
    simpa using hfront

theorem Moves.follows (hmoves : Moves reporting w w') (hw : w.Follows reporting run left finish) :
    ∃ left', w'.Follows reporting run left' finish := by
  obtain ⟨htold, howes, hpatient⟩ := id hw
  cases hmoves with
  | work hstep => exact ⟨left, htold, hstep.owes howes, hpatient⟩
  | poll turn hfree => exact hw.tell (.inl rfl)
  | wait hfree =>
    refine ⟨left, htold, howes, ?_⟩
    intro since hsince
    exact .inl (Attention.waiting.inj hsince).symm
  | @look turn since hwaits hnone =>
    rcases howes.readWithin turn with ⟨s, rest, -, -, hread, -⟩ | ⟨-, -, howes'⟩
    · exact absurd (hnone.symm.trans hread) (by simp)
    · exact ⟨left, htold, howes', hpatient⟩
  | answer hwaits hready => exact hw.tell (hpatient _ hwaits)
  | sleep nanos hfree => exact ⟨left, htold, howes, fun since hsince => by cases hsince⟩
  | wake hasleep hdue => exact ⟨left, htold, howes, fun since hsince => by cases hsince⟩
  | @pass later hidle hheld hnext hlater =>
    obtain ⟨low, rfl⟩ : ∃ low, later = low + 1 := ⟨later - 1, by omega⟩
    have hquiet := hidle.before hnext (Nat.lt_succ_self low)
    have hlow := Nat.le_of_lt_succ hlater
    refine ⟨left, htold, howes.pass hquiet hlow, ?_⟩
    intro since hsince
    have hnone : w.signal.read.1 = .pending := by
      rw [Held, show w.reader = .waiting since from hsince] at hheld
      exact hheld
    have hbefore : since < low + 1 := by
      rcases hpatient since hsince with rfl | ⟨hlt, -⟩ <;> omega
    rcases howes.read with ⟨s, rest, -, -, hread, -⟩ | ⟨hqueue, hread, -⟩
    · exact absurd (hnone.symm.trans hread) (by simp)
    · rcases howes.beyond_of_idle hquiet hlow hqueue with ⟨hended, -⟩ | ⟨-, hfrom, -⟩
      · exact absurd (hnone.symm.trans hread) (by simp [hended])
      · exact .inr ⟨hbefore, hfrom⟩

theorem Follows.of_run (hrun : ReflTransGen (Moves reporting) w w') (hw : w.Follows reporting run left finish) :
    ∃ left', w'.Follows reporting run left' finish := by
  induction hrun with
  | refl => exact ⟨left, hw⟩
  | tail _ hmoves ih =>
    obtain ⟨left', hfollows⟩ := ih
    exact hmoves.follows hfollows

/-- The events that the reader has been told are the first of `run`, each at the later of its instant and
the instant at which the reader asked, and an idle evaluation answers by what is due next, if the turn is
long enough. -/
structure Faithful (reporting : Float) (run : List Stamped) (finish : Nat) (w : Watched) : Prop where
  seen : List.Forall₂ (Answer.Brings reporting) w.seen (run.take w.seen.length)
  pending_iff : ∀ turn, w.signal.outlet.queue.length < turn → w.signal.Idle (· ≤ w.now) →
    (w.reading reporting turn = .pending ↔ w.now < nextInstant finish (run.drop w.seen.length))
  done_iff : ∀ turn, w.signal.outlet.queue.length < turn → w.signal.Idle (· ≤ w.now) →
    (w.reading reporting turn = .done ↔ run.drop w.seen.length = [] ∧ finish ≤ w.now)

theorem Follows.faithful (hw : w.Follows reporting run left finish) : w.Faithful reporting run finish := by
  obtain ⟨⟨front, rfl, hfront⟩, howes, -⟩ := hw
  have hlength := hfront.length_eq
  refine ⟨?_, fun turn hturn hidle => ?_, fun turn hturn hidle => ?_⟩
  · rwa [hlength, List.take_left]
  · rw [hlength, List.drop_left, ← (howes.answers_of_idle hidle).1, reading, Signal.readWithin_of_lt hturn]
    cases w.signal.read.1 <;> simp [Reading.reported]
  · rw [hlength, List.drop_left, ← (howes.answers_of_idle hidle).2, reading, Signal.readWithin_of_lt hturn]
    cases w.signal.read.1 <;> simp [Reading.reported]

end Watched

end TimedStreams
