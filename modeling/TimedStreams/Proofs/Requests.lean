import TimedStreams.Proofs.Observation

/-!
# What a session answers

A reader may ask a session for three things, as often and in any order as it likes: to read without
waiting, to wait for an event, and to let some time pass. A `Cursor` answers the same requests
without any evaluation: it goes through a list of events that is known in advance, together with the
instant of completion, and all it has to compare is the time. A session that evaluates an expression
answers as the cursor over what the engine's own run delivers (`Engine.observe_run`).

Between two requests all tasks are idle, so a session `Presents` its cursor: it owes the same events.
Whatever is still to come can only come at a deadline, and at each deadline there is one event less to
be replayed, so no request goes on forever.
-/

namespace TimedStreams

open Relation Stamped

inductive Request where
  | poll
  | receive
  | sleep (nanos : Nat)

inductive Reply where
  /-- The reader reads once; nothing if the signal was dropped. -/
  | polled (reading : Option Reading)
  | received (waiting : Waiting)
  | slept

namespace Session

def serve (request : Request) (s : Session) : Reply × Session :=
  match request with
  | .poll => (.polled s.poll.1, s.poll.2)
  | .receive => (.received s.receive.1, s.receive.2)
  | .sleep nanos => (.slept, s.sleep nanos)

def serveAll : List Request → Session → List (Reply × Nat)
  | [], _ => []
  | request :: rest, s => ((s.serve request).1, (s.serve request).2.now) :: (s.serve request).2.serveAll rest

end Session

/-- A place in a run that is known in advance. -/
structure Cursor where
  now : Nat
  /-- The events that have not been read. -/
  left : List Stamped

namespace Cursor

def reported (reporting : Float) (now : Nat) (s : Stamped) : Event :=
  s.event.withTime (reportedTime reporting now)

def poll (reporting : Float) (finish : Nat) : Cursor → Reading × Cursor
  | ⟨now, []⟩ => (if finish ≤ now then .done else .pending, ⟨now, []⟩)
  | ⟨now, s :: rest⟩ =>
    if s.stamp ≤ now then (.event (reported reporting now s), ⟨now, rest⟩) else (.pending, ⟨now, s :: rest⟩)

def receive (reporting : Float) (finish : Nat) : Cursor → Waiting × Cursor
  | ⟨now, []⟩ => (.done, ⟨max now finish, []⟩)
  | ⟨now, s :: rest⟩ => (.event (reported reporting (max now s.stamp) s), ⟨max now s.stamp, rest⟩)

def serve (reporting : Float) (finish : Nat) (request : Request) (c : Cursor) : Reply × Cursor :=
  match request with
  | .poll => (.polled (some (c.poll reporting finish).1), (c.poll reporting finish).2)
  | .receive => (.received (c.receive reporting finish).1, (c.receive reporting finish).2)
  | .sleep nanos => (.slept, { c with now := c.now + nanos })

def serveAll (reporting : Float) (finish : Nat) : List Request → Cursor → List (Reply × Nat)
  | [], _ => []
  | request :: rest, c =>
    ((c.serve reporting finish request).1, (c.serve reporting finish request).2.now) ::
      (c.serve reporting finish request).2.serveAll reporting finish rest

/-- Waiting goes on where it was interrupted. -/
theorem receive_of_le {reporting : Float} {finish now later : Nat} {left : List Stamped} (hlater : now ≤ later)
    (hnext : later ≤ nextInstant finish left) :
    receive reporting finish ⟨later, left⟩ = receive reporting finish ⟨now, left⟩ := by
  cases left with
  | nil =>
    have hfinish : later ≤ finish := hnext
    rw [receive, receive, Nat.max_eq_right hfinish, Nat.max_eq_right (hlater.trans hfinish)]
  | cons s rest =>
    have hstamp : later ≤ s.stamp := hnext
    rw [receive, receive, Nat.max_eq_right hstamp, Nat.max_eq_right (hlater.trans hstamp)]

theorem poll_of_pending {reporting : Float} {finish : Nat} {c : Cursor}
    (hpending : (c.poll reporting finish).1 = .pending) :
    (c.poll reporting finish).2 = c ∧ c.now < nextInstant finish c.left := by
  obtain ⟨now, _ | ⟨s, rest⟩⟩ := c
  · by_cases hfinish : finish ≤ now
    · simp [poll, hfinish] at hpending
    · exact ⟨rfl, Nat.lt_of_not_le hfinish⟩
  · by_cases hstamp : s.stamp ≤ now
    · simp [poll, hstamp] at hpending
    · rw [poll, if_neg hstamp]
      exact ⟨rfl, Nat.lt_of_not_le hstamp⟩

theorem receive_of_event {reporting : Float} {finish : Nat} {c : Cursor} {e : Event}
    (hevent : (c.poll reporting finish).1 = .event e) :
    c.receive reporting finish = (.event e, (c.poll reporting finish).2) := by
  obtain ⟨now, _ | ⟨s, rest⟩⟩ := c
  · by_cases hfinish : finish ≤ now <;> simp [poll, hfinish] at hevent
  · by_cases hstamp : s.stamp ≤ now
    · rw [poll, if_pos hstamp] at hevent ⊢
      rw [receive, Nat.max_eq_left hstamp, Reading.event.inj hevent]
    · simp [poll, hstamp] at hevent

theorem receive_of_done {reporting : Float} {finish : Nat} {c : Cursor} (hdone : (c.poll reporting finish).1 = .done) :
    c.receive reporting finish = (.done, (c.poll reporting finish).2) := by
  obtain ⟨now, _ | ⟨s, rest⟩⟩ := c
  · by_cases hfinish : finish ≤ now
    · rw [receive, Nat.max_eq_left hfinish, poll]
    · simp [poll, hfinish] at hdone
  · by_cases hstamp : s.stamp ≤ now <;> simp [poll, hstamp] at hdone

end Cursor

namespace Session

variable {reporting : Float} {finish : Nat} {c : Cursor} {s : Session}

/-- A session at rest in which the reader has got as far as the cursor. -/
structure Presents (reporting : Float) (finish : Nat) (c : Cursor) (s : Session) : Prop where
  now_eq : s.now = c.now
  reporting_eq : s.reporting = some reporting
  signal : ∃ signal, s.signal = some signal ∧ signal.Owes c.left finish c.now ∧ signal.Idle (· ≤ c.now)

theorem Presents.runAt {later : Nat} (hs : s.Presents reporting finish c) (hlater : c.now ≤ later)
    (hnext : ∀ due, s.nextWake = some due → later ≤ due) :
    (s.runAt later).Presents reporting finish { c with now := later } := by
  obtain ⟨-, hreporting, signal, hsignal, howes, hidle⟩ := hs
  have howes' : signal.Owes c.left finish later := by
    rcases hlater.eq_or_lt with rfl | hlt
    · exact howes
    · obtain ⟨low, rfl⟩ : ∃ low, later = low + 1 := ⟨later - 1, by omega⟩
      refine howes.pass (hidle.before (fun due hdue => hnext due ?_) (Nat.lt_succ_self low)) (by omega)
      rw [nextWake, hsignal]
      exact hdue
  refine ⟨rfl, hreporting, signal.settle .exact later, ?_, ?_, Signal.idle_settle .exact later signal⟩
  · rw [Session.runAt, hsignal]
    rfl
  · exact Signal.owes_of_run (Signal.settle_run .exact later howes.coherent) howes'

theorem poll_eq {signal : Signal} (hsignal : s.signal = some signal) (hreporting : s.reporting = some reporting) :
    s.poll = (some (signal.read.1.reported reporting s.now), { s with signal := some signal.read.2 }) := by
  rw [poll, hsignal]
  cases hread : signal.read.1 <;> simp [hread, Reading.reported, observed, hreporting]

theorem Presents.poll (hs : s.Presents reporting finish c) :
    s.poll.1 = some (c.poll reporting finish).1 ∧ s.poll.2.Presents reporting finish (c.poll reporting finish).2 := by
  obtain ⟨hnow, hreporting, signal, hsignal, howes, hidle⟩ := hs
  obtain ⟨now, left⟩ := c
  obtain rfl : s.now = now := hnow
  rw [poll_eq hsignal hreporting]
  rcases howes.read with ⟨e, rest, hleft, hstamp, hread, howes'⟩ | ⟨hqueue, hread, howes'⟩
  · obtain rfl : left = e :: rest := hleft
    rw [Cursor.poll, if_pos hstamp, hread]
    exact ⟨rfl, rfl, hreporting, signal.read.2, rfl, howes', hidle.read⟩
  · have hrest : ({ s with signal := some signal.read.2 } : Session).Presents reporting finish ⟨s.now, left⟩ :=
      ⟨rfl, hreporting, signal.read.2, rfl, howes', hidle.read⟩
    rcases howes.beyond_of_idle hidle le_rfl hqueue with ⟨hended, hleft, hfinish⟩ | ⟨hopen, hfrom, hfinish⟩
    · obtain rfl : left = [] := hleft
      rw [Cursor.poll, if_pos hfinish, hread, hended]
      exact ⟨rfl, hrest⟩
    · rw [hread, hopen]
      cases left with
      | nil =>
        rw [Cursor.poll, if_neg (Nat.not_le.2 hfinish)]
        exact ⟨rfl, hrest⟩
      | cons e rest =>
        rw [Cursor.poll, if_neg (Nat.not_le.2 (from_cons.1 hfrom).1)]
        exact ⟨rfl, hrest⟩

theorem unplayed_poll (s : Session) : s.poll.2.unplayed = s.unplayed := by
  rw [poll]
  cases hsignal : s.signal with
  | none => rfl
  | some signal => simp only [unplayed, hsignal, Option.elim_some, Signal.unplayed_read]

theorem unplayed_runAt_lt {due : Nat} (hnext : s.nextWake = some due) : (s.runAt due).unplayed < s.unplayed := by
  obtain ⟨signal, hsignal, hdue⟩ := Option.bind_eq_some_iff.1 hnext
  rw [unplayed, runAt, unplayed, hsignal]
  exact Signal.unplayed_settle_lt hdue

theorem Presents.lt_nextWake {due : Nat} (hs : s.Presents reporting finish c) (hnext : s.nextWake = some due) :
    c.now < due := by
  obtain ⟨-, -, signal, hsignal, -, hidle⟩ := hs
  rw [nextWake, hsignal] at hnext
  exact hidle.lt_nextWake hnext

/-- Whoever is told that there is nothing now waits for a deadline, and nothing comes before it. -/
theorem Presents.exists_due (hs : s.Presents reporting finish c) (hpending : c.now < nextInstant finish c.left) :
    ∃ due, s.nextWake = some due ∧ c.now ≤ due ∧ due ≤ nextInstant finish c.left := by
  obtain ⟨-, -, signal, hsignal, howes, hidle⟩ := hs
  rw [nextWake, hsignal]
  rcases howes.read with ⟨e, rest, hleft, hstamp, -, -⟩ | ⟨hqueue, -, -⟩
  · rw [hleft] at hpending
    exact absurd hpending (Nat.not_lt.2 hstamp)
  · cases hnext : signal.nextWake .exact with
    | none =>
      have hended := howes.coherent.hasEnded_of_idle fun due => hidle.of_nextWake_none hnext
      rcases howes.beyond_of_idle hidle le_rfl hqueue with ⟨-, hleft, hfinish⟩ | ⟨hopen, -⟩
      · rw [hleft] at hpending
        exact absurd hpending (Nat.not_lt.2 hfinish)
      · exact absurd hended (by simp [hopen])
    | some due =>
      have hlate := hidle.lt_nextWake hnext
      obtain ⟨low, rfl⟩ : ∃ low, due = low + 1 := ⟨due - 1, by omega⟩
      refine ⟨low + 1, hnext, hlate.le, ?_⟩
      have hquiet := hidle.until hnext (Nat.lt_succ_self low)
      rcases howes.beyond_of_idle hquiet (Nat.le_of_lt_succ hlate) hqueue with ⟨-, hleft, hfinish⟩ | ⟨-, hfrom, hfinish⟩
      · rw [hleft] at hpending
        exact absurd hpending (Nat.not_lt.2 hfinish)
      · cases hleft : c.left with
        | nil => exact hfinish
        | cons e rest => exact (from_cons.1 (hleft ▸ hfrom)).1

theorem waitFor_of_event {e : Event} (hpoll : s.poll.1 = some (.event e)) (jumps : Nat) :
    s.waitFor jumps = (.event e, s.poll.2) := by
  rw [waitFor, ← Prod.mk.eta (p := s.poll), hpoll]

theorem waitFor_of_done (hpoll : s.poll.1 = some .done) (jumps : Nat) : s.waitFor jumps = (.done, s.poll.2) := by
  rw [waitFor, ← Prod.mk.eta (p := s.poll), hpoll]

theorem waitFor_of_pending {due : Nat} (hpoll : s.poll.1 = some .pending) (hnext : s.poll.2.nextWake = some due)
    (jumps : Nat) : s.waitFor (jumps + 1) = (s.poll.2.runAt due).waitFor jumps := by
  rw [waitFor, ← Prod.mk.eta (p := s.poll), hpoll]
  simp only [hnext]

/-- Waiting gives what comes next, and there are enough jumps for it. -/
theorem Presents.waitFor {jumps : Nat} (hjumps : s.unplayed ≤ jumps) (hs : s.Presents reporting finish c) :
    (s.waitFor jumps).1 = (c.receive reporting finish).1 ∧
      (s.waitFor jumps).2.Presents reporting finish (c.receive reporting finish).2 := by
  induction jumps using Nat.strong_induction_on generalizing s c with
  | _ jumps ih =>
    obtain ⟨hreply, hrest⟩ := hs.poll
    cases hread : (c.poll reporting finish).1 with
    | event e =>
      rw [waitFor_of_event (hreply.trans (congrArg some hread)), Cursor.receive_of_event hread]
      exact ⟨rfl, hrest⟩
    | done =>
      rw [waitFor_of_done (hreply.trans (congrArg some hread)), Cursor.receive_of_done hread]
      exact ⟨rfl, hrest⟩
    | pending =>
      obtain ⟨hsame, hlate⟩ := Cursor.poll_of_pending hread
      rw [hsame] at hrest
      obtain ⟨due, hnext, hdue, hbefore⟩ := hrest.exists_due hlate
      have hless := unplayed_runAt_lt hnext
      rw [unplayed_poll] at hless
      obtain ⟨fewer, rfl⟩ : ∃ fewer, jumps = fewer + 1 := ⟨jumps - 1, by omega⟩
      rw [waitFor_of_pending (hreply.trans (congrArg some hread)) hnext, ← Cursor.receive_of_le hdue hbefore]
      refine ih fewer (Nat.lt_succ_self fewer) (by omega) (hrest.runAt hdue fun wake hwake => ?_)
      exact (Option.some.inj (hnext.symm.trans hwake)).le

/-- Time passes from one deadline to the next. Whatever that keeps is kept until the target. -/
theorem passUntil_induction (kept : Nat → Session → Prop)
    (hrun : ∀ {now later : Nat} {s : Session}, kept now s → now ≤ later →
      (∀ wake, s.nextWake = some wake → later ≤ wake) → kept later (s.runAt later))
    (hlate : ∀ {now due : Nat} {s : Session}, kept now s → s.nextWake = some due → now < due) {now target jumps : Nat}
    (htarget : now ≤ target) (hjumps : s.unplayed ≤ jumps) (hs : kept now s) :
    kept target (s.passUntil target jumps) := by
  induction jumps generalizing s now with
  | zero =>
    refine hrun hs htarget fun due hnext => ?_
    exact absurd (unplayed_runAt_lt hnext) (by omega)
  | succ jumps ih =>
    rw [Session.passUntil]
    cases hnext : s.nextWake with
    | none => exact hrun hs htarget fun due hdue => absurd (hnext.symm.trans hdue) (by simp)
    | some due =>
      have honly : ∀ wake, s.nextWake = some wake → wake = due := fun wake hwake =>
        Option.some.inj (hwake.symm.trans hnext)
      simp only
      split
      · next hdue =>
        have hless := unplayed_runAt_lt hnext
        have hthere := hrun hs (hlate hs hnext).le fun wake hwake => (honly wake hwake).ge
        exact ih hdue (by omega) hthere
      · next hdue => exact hrun hs htarget fun wake hwake => (honly wake hwake) ▸ (Nat.lt_of_not_le hdue).le

theorem Presents.passUntil {target jumps : Nat} (htarget : c.now ≤ target) (hjumps : s.unplayed ≤ jumps)
    (hs : s.Presents reporting finish c) :
    (s.passUntil target jumps).Presents reporting finish { c with now := target } :=
  passUntil_induction (fun now s => s.Presents reporting finish { c with now })
    (fun hkept hlater hnext => hkept.runAt hlater hnext) (fun hkept hnext => hkept.lt_nextWake hnext) htarget hjumps hs

theorem Presents.serve (hs : s.Presents reporting finish c) (request : Request) :
    (s.serve request).1 = (c.serve reporting finish request).1 ∧
      (s.serve request).2.Presents reporting finish (c.serve reporting finish request).2 := by
  cases request with
  | poll => exact ⟨congrArg Reply.polled hs.poll.1, hs.poll.2⟩
  | receive =>
    obtain ⟨hreply, hrest⟩ := hs.waitFor le_rfl
    exact ⟨congrArg Reply.received hreply, hrest⟩
  | sleep nanos =>
    refine ⟨rfl, ?_⟩
    rw [Session.serve, Session.sleep, hs.now_eq]
    exact hs.passUntil (Nat.le_add_right _ _) le_rfl

theorem Presents.serveAll (hs : s.Presents reporting finish c) (requests : List Request) :
    s.serveAll requests = c.serveAll reporting finish requests := by
  induction requests generalizing s c with
  | nil => rfl
  | cons request rest ih =>
    obtain ⟨hreply, hrest⟩ := hs.serve request
    rw [Session.serveAll, Cursor.serveAll, hreply, hrest.now_eq, ih hrest]

end Session

namespace Engine

variable {context : Context} {config : Config} {engine : Engine} {e : Expr}

/-- The live output of an expression owes what the engine delivers. -/
theorem owes_signal (haccepted : context.Accepted) (hengine : Engine.make config = .ok engine)
    (he : e.ChainsAfter Expr.ZipFree) :
    (context.signal e).Owes (engine.deliveries e context) (engine.run e context).finish 0 := by
  obtain rfl := eq_of_make hengine
  obtain ⟨hevents, hfinish⟩ := complete_eq_trace haccepted he
  obtain ⟨hcoherent, hsteady, htimely, -, -, -⟩ := context.tracks_signal haccepted he
  refine ⟨hcoherent, hsteady, htimely, ?_, from_zero _, ?_⟩
  · rw [Context.remaining_eq_trace haccepted he, deliveries, hevents]
  · rw [Context.finish_eq_trace haccepted he, finish_run, hfinish]

/-- Whatever a reader does between its readings, it reads what the engine's own run delivers. -/
theorem observe_run (haccepted : context.Accepted) (hengine : Engine.make config = .ok engine)
    (he : e.ChainsAfter Expr.ZipFree) :
    (engine.run e context).events = reports config.reporting (engine.deliveries e context) ∧
      (∀ w, ReflTransGen (Watched.Moves config.reporting) (.start (context.signal e)) w →
        w.Faithful config.reporting (engine.deliveries e context) (engine.run e context).finish) ∧
      ∀ requests, (Session.start context (.expr e) (some config.reporting)).serveAll requests
        = Cursor.serveAll config.reporting (engine.run e context).finish requests ⟨0, engine.deliveries e context⟩ := by
  have howes := owes_signal haccepted hengine he
  refine ⟨?_, fun w hrun => ?_, fun requests => ?_⟩
  · obtain rfl := eq_of_make hengine
    exact events_run _ e context
  · have hstart : (Watched.start (context.signal e)).Follows config.reporting (engine.deliveries e context)
        (engine.deliveries e context) (engine.run e context).finish :=
      ⟨⟨[], rfl, .nil⟩, howes, fun since hsince => by cases hsince⟩
    obtain ⟨left, hfollows⟩ := hstart.of_run hrun
    exact hfollows.faithful
  · refine Session.Presents.serveAll ⟨rfl, rfl, (context.signal e).settle .exact 0, rfl, ?_, ?_⟩ requests
    · exact Signal.owes_of_run (Signal.settle_run .exact 0 howes.coherent) howes
    · exact Signal.idle_settle .exact 0 _

/-- Any readings of the pairs of `run_eq_trace_crossed`. -/
theorem observe_run_crossed :
    Context.outlasted.Accepted ∧ Engine.make {} = .ok { config := {} } ∧
      (Session.start .outlasted (.expr .crossed) (some ({} : Config).reporting)).serveAll
          [.poll, .sleep 95000000000, .poll, .receive]
        = Cursor.serveAll ({} : Config).reporting (Engine.run { config := {} } .crossed .outlasted).finish
          [.poll, .sleep 95000000000, .poll, .receive] ⟨0, Engine.deliveries { config := {} } .crossed .outlasted⟩ := by
  have hshape : Expr.crossed.ChainsAfter Expr.ZipFree := by
    simp [Expr.crossed, Expr.chained, Expr.ChainsAfter, Expr.ZipFree]
  have hengine : Engine.make {} = .ok { config := {} } := rfl
  exact ⟨Context.accepted_outlasted, hengine, (observe_run Context.accepted_outlasted hengine hshape).2.2 _⟩

end Engine

end TimedStreams
