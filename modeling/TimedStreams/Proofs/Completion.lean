import TimedStreams.Engine.Evaluation
import TimedStreams.Proofs.Ordering
import TimedStreams.Proofs.Settling

/-!
# An evaluation is one of its runs

`Evaluation.complete` settles all tasks, lets the reader take everything, moves the clock to the
next due time and starts again. On one signal this is a run of the live evaluation: on the exact
clock a run of `Live.ExactStep`, and on any clock that never wakes a sleeper early a run of
`Live.LateStep`. The bound on the number of due times is enough for the run to go on until the
evaluation has finished (`Live.complete_run`). What all runs end in is therefore what the engine
returns (`Ends.complete`).
-/

namespace TimedStreams

open Relation Stamped Update

/-- What is reported for the events taken. -/
def reports (reporting : Float) (taken : List Stamped) : List Event :=
  taken.map fun s => s.event.withTime (reportedTime reporting s.stamp)

def Clock.NeverEarly (clock : Clock) : Prop :=
  ∀ deadline, deadline ≤ clock.wakeAt deadline

theorem Clock.neverEarly_exact : Clock.exact.NeverEarly := fun _ => le_rfl

theorem Clock.neverEarly_millisecond : Clock.millisecond.NeverEarly := Instant.le_ceilMillisecond

theorem Signal.Step.mono {due due' : Nat → Prop} {signal signal' : Signal} (hstep : signal.Step due signal')
    (hdue : ∀ stamp, due stamp → due' stamp) : signal.Step due' signal' := by
  induction hstep with
  | wake hwake => exact .wake (hdue _ hwake)
  | pair hreads => exact .pair hreads
  | close hreads => exact .close hreads
  | hear hwants hhears => exact .hear hwants hhears
  | source _ ih => exact .source ih
  | left _ ih => exact .left ih
  | right _ ih => exact .right ih

namespace Live

/-- On this clock no task can do anything, and the reader has taken everything. -/
structure Settled (clock : Clock) (live : Live) : Prop where
  idle : live.signal.Idle fun stamp => clock.wakeAt stamp ≤ live.now
  queue_eq : live.signal.outlet.queue = []

variable {clock : Clock} {step : Live → Live → Prop} {reporting : Float} {live live' : Live}

theorem Finished.not_acts (hfinished : live.Finished) : ¬ live.Acts live' := by
  intro hacts
  cases hacts with
  | work hstep => exact absurd hfinished.ended (by simp [hstep.hasEnded])
  | take hreads =>
    cases hreads with
    | update hqueue => exact absurd (hqueue.symm.trans hfinished.queue_eq) (List.cons_ne_nil _ _)

theorem Finished.atTime (hfinished : live.Finished) (now : Nat) : (live.atTime now).Finished :=
  ⟨hfinished.ended, hfinished.queue_eq⟩

theorem Finished.not_exactStep (hfinished : live.Finished) : ¬ live.ExactStep live' := by
  intro hstep
  cases hstep with
  | now hacts => exact hfinished.not_acts hacts
  | jump hstill hnext hacts => exact (hfinished.atTime _).not_acts hacts

theorem Finished.not_lateStep (hfinished : live.Finished) : ¬ live.LateStep live' := by
  intro hstep
  obtain ⟨-, hacts⟩ := hstep
  exact (hfinished.atTime _).not_acts hacts

/-- The steps allow all that can happen now, and once all is settled, all that can happen at the
next due time. -/
structure Drives (clock : Clock) (step : Live → Live → Prop) : Prop where
  now : ∀ {live live' : Live}, live.Acts live' → step live live'
  jump : ∀ {live live' : Live} {due : Nat}, live.Settled clock →
    live.signal.nextWake clock = some due → live.now ≤ due →
    (live.atTime due).Acts live' → step live live'
  stop : ∀ {live live' : Live}, live.Finished → ¬ step live live'

theorem Settled.still (hsettled : live.Settled .exact) : live.Still := by
  intro other hother
  cases hother with
  | work hstep => exact hsettled.idle _ hstep
  | take hreads =>
    cases hreads with
    | update hqueue => exact absurd (hqueue.symm.trans hsettled.queue_eq) (List.cons_ne_nil _ _)

theorem drives_exact : Drives .exact ExactStep where
  now := .now
  jump := fun hsettled hnext _ hacts => .jump hsettled.still hnext hacts
  stop := Finished.not_exactStep

theorem drives_late (clock : Clock) : Drives clock LateStep where
  now := .after le_rfl
  jump := fun _ _ hle hacts => .after hle hacts
  stop := Finished.not_lateStep

theorem Acts.coherent (hacts : live.Acts live') (hlive : live.signal.Coherent) : live'.signal.Coherent := by
  cases hacts with
  | work hstep => exact hstep.coherent hlive
  | take hreads => exact hreads.coherent hlive

/-! ### One due time -/

def settleAt (clock : Clock) (now : Nat) (live : Live) : Live where
  now := now
  signal := (live.signal.settle clock now).withQueue []
  taken := live.taken ++ (live.signal.settle clock now).outlet.queue.flatMap (noted now)

theorem take_run (now : Nat) (signal : Signal) (taken : List Stamped) :
    ReflTransGen Acts ⟨now, signal, taken⟩
      ⟨now, signal.withQueue [], taken ++ signal.outlet.queue.flatMap (noted now)⟩ := by
  induction hqueue : signal.outlet.queue generalizing signal taken with
  | nil =>
    rw [Signal.withQueue_of_queue_eq hqueue, List.flatMap_nil, List.append_nil]
  | cons u rest ih =>
    have hrest := ih (signal.withQueue rest) (taken ++ noted now u) (by simp)
    rw [Signal.withQueue_withQueue, List.append_assoc, ← List.flatMap_cons] at hrest
    exact .head (.take (.update hqueue)) hrest

theorem settleAt_run (hclock : clock.NeverEarly) (hlive : live.signal.Coherent) (now : Nat) :
    ReflTransGen Acts (live.atTime now) (live.settleAt clock now) := by
  have hsettle := Signal.settle_run clock now hlive
  have hwork := ReflTransGen.lift (Live.mk now · live.taken)
    (fun _ _ hstep => Acts.work (hstep.mono fun stamp hdue => (hclock stamp).trans hdue)) _ _ hsettle
  exact hwork.trans (take_run now _ _)

theorem settled_settleAt (clock : Clock) (now : Nat) (live : Live) : (live.settleAt clock now).Settled clock :=
  ⟨(Signal.idle_settle clock now live.signal).withQueue [], by simp [settleAt]⟩

theorem coherent_of_run (hrun : ReflTransGen Acts live live') (hlive : live.signal.Coherent) :
    live'.signal.Coherent := by
  induction hrun with
  | refl => exact hlive
  | tail _ hacts ih => exact hacts.coherent ih

/-- From one due time to the next is a run of steps. -/
theorem Settled.run (hsettled : live.Settled clock) (hdrives : Drives clock step) (hclock : clock.NeverEarly)
    (hlive : live.signal.Coherent) {due : Nat} (hnext : live.signal.nextWake clock = some due) :
    ReflTransGen step live (live.settleAt clock due) := by
  have hle : live.now ≤ due := by
    refine Nat.le_of_not_lt fun hdue => ?_
    obtain ⟨signal', hstep⟩ := Signal.exists_step_of_nextWake (fun stamp => clock.wakeAt stamp ≤ live.now) hnext
      fun stamp hstamp => hstamp ▸ hdue.le
    exact hsettled.idle signal' hstep
  obtain ⟨signal', hstep⟩ := Signal.exists_step_of_nextWake (fun stamp => clock.wakeAt stamp ≤ due) hnext
    fun stamp hstamp => hstamp.le
  rcases ReflTransGen.cases_head (settleAt_run hclock hlive due) with heq | ⟨next, hfirst, hrest⟩
  · -- Nothing would have happened, although a replay is due.
    have hidle := (settled_settleAt clock due live).idle
    rw [← heq] at hidle
    exact absurd hstep (hidle signal')
  · exact .head (hdrives.jump hsettled hnext hle hfirst)
      (ReflTransGen.mono (fun _ _ hacts => hdrives.now hacts) _ _ hrest)

/-! ### The whole evaluation -/

/-- The evaluation of one signal is at this point of a run. -/
structure Mirrors (reporting : Float) (v : Evaluation) (live : Live) : Prop where
  now_eq : v.now = live.now
  collectors_eq : v.collectors = [⟨live.signal, reports reporting live.taken⟩]

theorem reports_noted (reporting : Float) (now : Nat) (updates : List Update) :
    reports reporting (updates.flatMap (noted now))
      = (Signal.eventsOf updates).map fun e => e.withTime (reportedTime reporting now) := by
  induction updates with
  | nil => rfl
  | cons u rest ih =>
    rw [List.flatMap_cons, reports, List.map_append, ← reports, ← reports, ih]
    cases u <;> rfl

def collector (reporting : Float) (live : Live) : Collector :=
  ⟨live.signal, reports reporting live.taken⟩

theorem collect_collector (clock : Clock) (reporting : Float) (now : Nat) (live : Live) :
    (live.collector reporting).collect clock reporting now = (live.settleAt clock now).collector reporting := by
  have htaken : reports reporting (live.settleAt clock now).taken = reports reporting live.taken
      ++ reports reporting ((live.signal.settle clock now).outlet.queue.flatMap (noted now)) := List.map_append
  rw [collector, collector, htaken, reports_noted]
  rfl

theorem Mirrors.runAt {v : Evaluation} (hv : Mirrors reporting v live) (now : Nat) :
    Mirrors reporting (v.runAt clock reporting now) (live.settleAt clock now) := by
  refine ⟨rfl, ?_⟩
  rw [Evaluation.runAt, hv.collectors_eq]
  exact congrArg (fun c => [c]) (collect_collector clock reporting now live)

theorem Mirrors.nextWake {v : Evaluation} (hv : Mirrors reporting v live) :
    v.nextWake clock = live.signal.nextWake clock := by
  rw [Evaluation.nextWake, hv.collectors_eq, List.foldl_cons, List.foldl_nil, Option.merge_none_left]

def advance (clock : Clock) : Nat → Live → Live
  | 0, live => live
  | jumps + 1, live =>
    match live.signal.nextWake clock with
    | none => live
    | some due => advance clock jumps (live.settleAt clock due)

/-- The evaluation once nothing is due any more. -/
def resume (clock : Clock) (live : Live) : Live :=
  advance clock live.signal.unplayed (live.settleAt clock live.now)

def complete (clock : Clock) (signal : Signal) : Live :=
  resume clock (start signal)

theorem Mirrors.advance {v : Evaluation} (hv : Mirrors reporting v live) (jumps : Nat) :
    Mirrors reporting (v.advance clock reporting jumps) (live.advance clock jumps) := by
  induction jumps generalizing v live with
  | zero => exact hv
  | succ jumps ih =>
    rw [Evaluation.advance, Live.advance, hv.nextWake]
    cases live.signal.nextWake clock with
    | none => exact hv
    | some due => exact ih (hv.runAt due)

theorem mirrors_start (reporting : Float) (signal : Signal) :
    Mirrors reporting { now := 0, collectors := [{ signal }] } (start signal) :=
  ⟨rfl, rfl⟩

theorem mirrors_complete (clock : Clock) (reporting : Float) (signal : Signal) :
    Mirrors reporting (Evaluation.complete clock reporting [signal]) (complete clock signal) :=
  (Mirrors.runAt (mirrors_start reporting signal) 0).advance signal.unplayed

theorem advance_run (hdrives : Drives clock step) (hclock : clock.NeverEarly) (jumps : Nat)
    (hsettled : live.Settled clock) (hlive : live.signal.Coherent) (hjumps : live.signal.unplayed ≤ jumps) :
    ReflTransGen step live (live.advance clock jumps) ∧ (live.advance clock jumps).Finished := by
  have hfinished : ∀ {live : Live}, live.Settled clock → live.signal.Coherent →
    live.signal.nextWake clock = none →
      live.Finished := fun hsettled hlive hnext =>
    ⟨hlive.hasEnded_of_idle fun _ => hsettled.idle.of_nextWake_none hnext, hsettled.queue_eq⟩
  induction jumps generalizing live with
  | zero =>
    refine ⟨.refl, hfinished hsettled hlive ?_⟩
    rw [Option.eq_none_iff_forall_ne_some]
    intro due hnext
    exact absurd hjumps (Nat.not_le.2 ((Nat.zero_le _).trans_lt (Signal.unplayed_settle_lt hnext)))
  | succ jumps ih =>
    rw [advance]
    cases hnext : live.signal.nextWake clock with
    | none => exact ⟨.refl, hfinished hsettled hlive hnext⟩
    | some due =>
      have hless := Signal.unplayed_settle_lt hnext
      have hunplayed : (live.settleAt clock due).signal.unplayed = (live.signal.settle clock due).unplayed :=
        Signal.unplayed_withQueue _ _
      have hcoherent := coherent_of_run (settleAt_run hclock hlive due) hlive
      obtain ⟨hrun, hlast⟩ := ih (settled_settleAt clock due live) hcoherent (by omega)
      exact ⟨(hsettled.run hdrives hclock hlive hnext).trans hrun, hlast⟩

/-- From wherever a run has got to, going on as the engine does finishes it. -/
theorem resume_run (hdrives : Drives clock step) (hclock : clock.NeverEarly) (hlive : live.signal.Coherent) :
    ReflTransGen step live (live.resume clock) ∧ (live.resume clock).Finished := by
  have hfirst := settleAt_run hclock hlive live.now
  have hunplayed : (live.settleAt clock live.now).signal.unplayed ≤ live.signal.unplayed :=
    (Signal.unplayed_withQueue _ _).le.trans (Signal.unplayed_settle_le clock live.now live.signal)
  obtain ⟨hrun, hlast⟩ := advance_run hdrives hclock live.signal.unplayed (settled_settleAt clock live.now live)
    (coherent_of_run hfirst hlive) hunplayed
  exact ⟨(ReflTransGen.mono (fun _ _ hacts => hdrives.now hacts) _ _ hfirst).trans hrun, hlast⟩

theorem complete_run (hdrives : Drives clock step) (hclock : clock.NeverEarly) {signal : Signal}
    (hsignal : signal.Coherent) :
    ReflTransGen step (start signal) (complete clock signal) ∧ (complete clock signal).Finished :=
  resume_run hdrives hclock hsignal

end Live

namespace Engine

/-- The events that the engine takes from an expression, each with the instant at which it is taken. -/
def deliveries (engine : Engine) (e : Expr) (context : Context) : List Stamped :=
  (Live.complete engine.clock (context.signal e)).taken

variable {engine : Engine} {context : Context} {e : Expr}

theorem events_run (engine : Engine) (e : Expr) (context : Context) :
    (engine.run e context).events = reports engine.config.reporting (engine.deliveries e context) := by
  have hmirrors := Live.mirrors_complete engine.clock engine.config.reporting (context.signal e)
  rw [run, hmirrors.collectors_eq, List.flatMap_singleton, deliveries]

theorem finish_run (engine : Engine) (e : Expr) (context : Context) :
    (engine.run e context).finish = (Live.complete engine.clock (context.signal e)).now :=
  (Live.mirrors_complete engine.clock engine.config.reporting (context.signal e)).now_eq

end Engine

/-- What every run ends in is what the engine comes to. -/
theorem Ends.complete {clock : Clock} {step : Live → Live → Prop} {good : Live → Prop} {signal : Signal}
    (hends : Ends step good (.start signal)) (hdrives : Live.Drives clock step) (hclock : clock.NeverEarly)
    (hsignal : signal.Coherent) : good (Live.complete clock signal) := by
  obtain ⟨hrun, hlast⟩ := Live.complete_run hdrives hclock hsignal
  exact hends.good_of_run hrun fun _ => hdrives.stop hlast

end TimedStreams
