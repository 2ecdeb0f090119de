import TimedStreams.Proofs.Abreast
import TimedStreams.Proofs.Choices

/-!
# The engine returns what an expression stands for

On the exact clock, and as long as no `zip` occurs in the left operand of a chain, the engine
returns the trace of an expression: the same events, each reported for its instant, and the same
instant of completion (`Engine.run_eq_trace`). This does not depend on the order in which the tasks
are stepped, since every run of the live evaluation ends in the same way. For such expressions, and
altogether if and only if its operands are abreast, `merge` interleaves by instant what each of them
delivers on its own (`Engine.deliveries_merge`).

On a clock that may wake sleepers late, and as long as the left operands of chains are built from
inputs, merges and chains, the identities and payloads of the events are still those of its untimed
meaning, in that order (`Engine.run_eq_untimed`).

All of this is about one thing. A `zip` ends when one of its sides is used up, but by then it may
have passed on what the other side had promised for later, and how much of that depends on which
side it heard first. A chain takes its floor from this promise: it holds back its right operand
although its left has ended. `Engine.deliveries_merge_late` shows the law of `merge` failing over
such a chain, and `Engine.order_of_run_relayed` that the order of the events then depends on the
schedule. Where neither a `merge` nor a `combineLatest` reads from such a chain the order is still
the same in all runs (`Engine.order_of_run`).
-/

namespace TimedStreams

open Relation Stamped

/-! ### Two small contexts -/

/-- A recorded event whose payload is the number of its identity. -/
def Event.tick (id : Nat) (time : Float) : Event where
  id := .single (.ofNat id)
  time := time
  value := .single (.int (Int64.ofNat id))

/-- What identifies an event, and what it carries. -/
def Event.content (e : Event) : EventId × Value :=
  (e.id, e.value)

def Stamped.content (s : Stamped) : EventId × Value :=
  s.event.content

theorem Stamped.map_content {xs ys : List Stamped} (hevents : xs.map event = ys.map event) :
    xs.map content = ys.map content := by
  have hcontents := congrArg (List.map Event.content) hevents
  rw [List.map_map, List.map_map] at hcontents
  exact hcontents

namespace Context

/-- The second input goes on after the first has ended. -/
def outlasted : Context where
  first := ⟨[.tick 1 5], by decide +kernel⟩
  second := ⟨[.tick 2 1, .tick 3 9], by decide +kernel⟩
  speed := 1.0

theorem accepted_outlasted : outlasted.Accepted := by
  refine accepted_of rfl ?_ ?_
  · intro source
    cases source <;> decide +kernel
  · intro source
    cases source <;> decide +kernel

/-- Both inputs begin at the same instant, and the first goes on. -/
def tied : Context where
  first := ⟨[.tick 1 5, .tick 2 9], by decide +kernel⟩
  second := ⟨[.tick 3 5], by decide +kernel⟩
  speed := 1.0

theorem accepted_tied : tied.Accepted := by
  refine accepted_of rfl ?_ ?_
  · intro source
    cases source <;> decide +kernel
  · intro source
    cases source <;> decide +kernel

end Context

namespace Expr

def chained : Expr :=
  .join .chain (.input .first) (.input .second)

def paired : Expr :=
  .join .zip (.input .first) (.input .second)

/-- The n-th event of both inputs, one after the other, with the n-th pair of neighbours of their merge. -/
def crossed : Expr :=
  .join .zip chained (.adjacentPairs (.join .merge (.input .first) (.input .second)))

def afterPairs (next : Expr) : Expr :=
  .join .chain paired next

end Expr

/-- At the chain that is the right operand of a merge: the second input of its pairs wakes and is
read to its end, and only then the first. -/
def Choice.secondFirst : List Choice :=
  [.inside .right (.inside .left (.inside .right (.here .left))),
    .inside .right (.inside .left (.here .right)),
    .inside .right (.inside .left (.here .right)),
    .inside .right (.inside .left (.inside .left (.here .left))),
    .inside .right (.inside .left (.here .left))]

namespace Engine

variable {context : Context} {config : Config} {clock : Clock} {engine : Engine} {e left right : Expr}

theorem eq_of_make (hengine : Engine.make config clock = .ok engine) : engine = ⟨config, clock⟩ := by
  obtain ⟨_, -, hengine⟩ := Fault.of_bind_eq_ok hengine
  exact (Except.ok.inj hengine).symm

/-! ### On the exact clock -/

theorem complete_eq_trace (haccepted : context.Accepted) (he : e.ChainsAfter Expr.ZipFree) :
    (Live.complete .exact (context.signal e)).taken = (context.trace e).events ∧
      (Live.complete .exact (context.signal e)).now = (context.trace e).finish := by
  have hends := (context.tracks_signal haccepted he).ends
  exact (hends.complete Live.drives_exact Clock.neverEarly_exact (context.coherent_signal e)).2

/-- Every run of an expression, and the engine's, gives its trace. -/
theorem run_eq_trace (haccepted : context.Accepted) (hengine : Engine.make config = .ok engine)
    (he : e.ChainsAfter Expr.ZipFree) :
    Ends Live.ExactStep
        (fun last => last.Finished ∧ last.taken = (context.trace e).events ∧ last.now = (context.trace e).finish)
        (.start (context.signal e)) ∧
      (engine.run e context).events = reports config.reporting (context.trace e).events ∧
      (engine.run e context).finish = (context.trace e).finish := by
  obtain rfl := eq_of_make hengine
  obtain ⟨hevents, hfinish⟩ := complete_eq_trace haccepted he
  refine ⟨(Context.tracks_signal haccepted he).ends, ?_, ?_⟩
  · rw [events_run, deliveries, hevents]
  · rw [finish_run, hfinish]

/-- Pairing a chain of both inputs with the adjacent pairs of their merge gives what the trace says. -/
theorem run_eq_trace_crossed :
    Context.outlasted.Accepted ∧ Engine.make {} = .ok { config := {} } ∧
      (Engine.run { config := {} } .crossed .outlasted).events
        = reports ({} : Config).reporting (Context.outlasted.trace .crossed).events := by
  have hshape : Expr.crossed.ChainsAfter Expr.ZipFree := by
    simp [Expr.crossed, Expr.chained, Expr.ChainsAfter, Expr.ZipFree]
  have hengine : Engine.make {} = .ok { config := {} } := rfl
  exact ⟨Context.accepted_outlasted, hengine, (run_eq_trace Context.accepted_outlasted hengine hshape).2.1⟩

/-- Merging two expressions interleaves by instant, left first, what each of them delivers on its own, if
and only if they are abreast, and where no `zip` occurs in the left operand of a chain they always are. -/
theorem deliveries_merge (hengine : Engine.make config = .ok engine) :
    (engine.deliveries (.join .merge left right) context
        = merge (engine.deliveries left context) (engine.deliveries right context) ↔
      (context.signal left).Abreast (context.signal right)) ∧
    ((context.signal left).Abreast (context.signal right) →
      (engine.run (.join .merge left right) context).events
        = reports config.reporting
          (merge (engine.deliveries left context) (engine.deliveries right context))) ∧
    (left.ChainsAfter Expr.ZipFree → right.ChainsAfter Expr.ZipFree →
      (context.signal left).Abreast (context.signal right)) := by
  obtain rfl := eq_of_make hengine
  have hleft := context.fresh_signal left
  have hright := context.fresh_signal right
  have hmerge : Engine.deliveries ⟨config, .exact⟩ (.join .merge left right) context
        = merge (Engine.deliveries ⟨config, .exact⟩ left context)
          (Engine.deliveries ⟨config, .exact⟩ right context) ↔
      (context.signal left).Abreast (context.signal right) :=
    Live.complete_merge_iff hleft hright
  refine ⟨hmerge, fun habreast => ?_, fun heLeft heRight => ?_⟩
  · rw [events_run, hmerge.2 habreast]
  · exact Signal.abreast_of_punctual hleft hright (context.punctual_signal heLeft)
      (context.punctual_signal heRight)

/-- The chain of the inputs, merged with their pairs. -/
theorem deliveries_merge_chained :
    Engine.make {} = .ok { config := {} } ∧ Expr.chained.ChainsAfter Expr.ZipFree ∧
      Expr.paired.ChainsAfter Expr.ZipFree ∧
      Engine.deliveries { config := {} } (.join .merge .chained .paired) .outlasted
        = merge (Engine.deliveries { config := {} } .chained .outlasted)
            (Engine.deliveries { config := {} } .paired .outlasted) := by
  have hchained : Expr.chained.ChainsAfter Expr.ZipFree := by
    simp [Expr.chained, Expr.ChainsAfter, Expr.ZipFree]
  have hpaired : Expr.paired.ChainsAfter Expr.ZipFree := by simp [Expr.paired, Expr.ChainsAfter]
  have hengine : Engine.make {} = .ok { config := {} } := rfl
  obtain ⟨hmerge, -, habreast⟩ := deliveries_merge hengine
  exact ⟨hengine, hchained, hpaired, hmerge.2 (habreast hchained hpaired)⟩

/-- The chain passes on event 1 at an instant at which neither operand delivers it in its own run. -/
theorem deliveries_merge_late :
    Context.outlasted.Accepted ∧ Engine.make {} = .ok { config := {} } ∧
      (Engine.run { config := {} } (.join .merge (.input .second) (.afterPairs (.input .first)))
          .outlasted).events
        ≠ reports ({} : Config).reporting
          (merge (Engine.deliveries { config := {} } (.input .second) .outlasted)
            (Engine.deliveries { config := {} } (.afterPairs (.input .first)) .outlasted)) := by
  refine ⟨Context.accepted_outlasted, rfl, fun hevents => ?_⟩
  have hlate : Event.tick 1 90 ∈
      (Engine.run { config := {} } (.join .merge (.input .second) (.afterPairs (.input .first)))
        .outlasted).events := by
    rw [events_run]
    decide +kernel
  rw [hevents, reports, List.mem_map] at hlate
  simp only [mem_merge, or_and_right, exists_or] at hlate
  revert hlate
  decide +kernel

/-! ### On a late clock -/

theorem content_run {xs : List Stamped}
    (hevents : (engine.deliveries e context).map Stamped.event = xs.map Stamped.event) :
    (engine.run e context).events.map Event.content = xs.map content := by
  rw [← map_content hevents, events_run, reports, List.map_map]
  rfl

/-- Whenever the sleepers wake, every run of an expression, and the engine's, gives its untimed meaning. -/
theorem run_eq_untimed (haccepted : context.Accepted) (hengine : Engine.make config clock = .ok engine)
    (hclock : clock.NeverEarly) (he : e.ChainsAfter Expr.Plain) :
    Ends Live.LateStep
        (fun last => last.Finished ∧ last.taken.map Stamped.event = (context.untimed e).map Stamped.event)
        (.start (context.signal e)) ∧
      (engine.run e context).events.map Event.content = (context.untimed e).map content := by
  obtain rfl := eq_of_make hengine
  have hends := (context.orders_untimed haccepted he).ends_late
  exact ⟨hends, content_run (hends.complete (Live.drives_late clock) hclock (context.coherent_signal e)).2⟩

/-- On the clock that rounds up to milliseconds, for the expression of `run_eq_trace_crossed`. -/
theorem run_eq_untimed_crossed :
    Context.outlasted.Accepted ∧ Engine.make {} .millisecond = .ok { config := {}, clock := .millisecond } ∧
      Clock.NeverEarly .millisecond ∧
      (Engine.run { config := {}, clock := .millisecond } .crossed .outlasted).events.map Event.content
        = (Context.outlasted.untimed .crossed).map content := by
  have hshape : Expr.crossed.ChainsAfter Expr.Plain := by
    simp [Expr.crossed, Expr.chained, Expr.ChainsAfter, Expr.Plain]
  have hengine : Engine.make {} .millisecond = .ok { config := {}, clock := .millisecond } := rfl
  have hclock : Clock.NeverEarly .millisecond := Clock.neverEarly_millisecond
  exact ⟨Context.accepted_outlasted, hengine, hclock,
    (run_eq_untimed Context.accepted_outlasted hengine hclock hshape).2⟩

/-! ### On both clocks -/

/-- However the tasks are stepped, the events are those of the engine's own run, in the same order. -/
theorem order_of_run (hengine : Engine.make config = .ok engine) (he : e.Orderly Expr.ZipFree) :
    Ends Live.ExactStep
        (fun last => last.Finished ∧ last.taken.map content = (engine.run e context).events.map Event.content)
        (.start (context.signal e)) ∧
      (e.Orderly Expr.Plain → ∀ clock : Clock, clock.NeverEarly →
        Ends Live.LateStep
            (fun last => last.Finished ∧ last.taken.map content = (engine.run e context).events.map Event.content)
            (.start (context.signal e)) ∧
          (Engine.run ⟨config, clock⟩ e context).events.map Event.content
            = (engine.run e context).events.map Event.content) := by
  obtain rfl := eq_of_make hengine
  have hexact := (context.orders_signal (fun _ => Context.onTime_signal) he).ends_exact
  have hrun : (Engine.run ⟨config, .exact⟩ e context).events.map Event.content
    = (context.signal e).remaining.map content :=
    content_run (hexact.complete Live.drives_exact Clock.neverEarly_exact (context.coherent_signal e)).2
  refine ⟨hexact.mono fun last hlast => ⟨hlast.1, ?_⟩, fun hplain clock hclock => ?_⟩
  · rw [hrun, map_content hlast.2]
  · have hlate := (context.orders_signal (fun _ => Context.backed_signal) hplain).ends_late
    have hlateRun : (Engine.run ⟨config, clock⟩ e context).events.map Event.content
        = (context.signal e).remaining.map content :=
      content_run (hlate.complete (Live.drives_late clock) hclock (context.coherent_signal e)).2
    refine ⟨hlate.mono fun last hlast => ⟨hlast.1, ?_⟩, ?_⟩
    · rw [hrun, map_content hlast.2]
    · rw [hrun, hlateRun]

/-- A chain may come after the pairs where nothing looks at its stamps. -/
theorem order_of_run_resumed :
    Engine.make {} = .ok { config := {} } ∧ (Expr.afterPairs .chained).Orderly Expr.ZipFree ∧
      (Expr.afterPairs .chained).Orderly Expr.Plain ∧ Clock.NeverEarly .millisecond ∧
      (Engine.run ⟨{}, .millisecond⟩ (.afterPairs .chained) .outlasted).events.map Event.content
        = (Engine.run { config := {} } (.afterPairs .chained) .outlasted).events.map Event.content := by
  have hengine : Engine.make {} = .ok { config := {} } := rfl
  have hzipFree : (Expr.afterPairs .chained).Orderly Expr.ZipFree := by
    simp [Expr.afterPairs, Expr.chained, Expr.paired, Expr.Orderly]
  have hplain : (Expr.afterPairs .chained).Orderly Expr.Plain := by
    simp [Expr.afterPairs, Expr.chained, Expr.paired, Expr.Orderly]
  have hclock : Clock.NeverEarly .millisecond := Clock.neverEarly_millisecond
  exact ⟨hengine, hzipFree, hplain, hclock, ((order_of_run hengine hzipFree).2 hplain .millisecond hclock).2⟩

/-- If the pairs are told of the second input first, the chain goes on before the first input does. -/
theorem order_of_run_relayed :
    Context.tied.Accepted ∧ Engine.make {} = .ok { config := {} } ∧
      ∃ last, ReflTransGen Live.ExactStep
          (.start (Context.tied.signal (.join .merge (.input .first) (.afterPairs (.input .second))))) last ∧
        last.Finished ∧
        last.taken.map content
          ≠ (Engine.run { config := {} } (.join .merge (.input .first) (.afterPairs (.input .second)))
              .tied).events.map Event.content := by
  let e : Expr := .join .merge (.input .first) (.afterPairs (.input .second))
  let start : Live := .start (Context.tied.signal e)
  have hnext : (start.settleAt .exact start.now).signal.nextWake .exact = some 5000000000 := by
    decide +kernel
  have hdetour : (((start.settleAt .exact start.now).atTime 5000000000).follow Choice.secondFirst).map
      (fun live => (live.resume .exact).taken.map fun s => s.content.1.sources)
        = some [[.ofNat 1], [.ofNat 1, .ofNat 3], [.ofNat 3], [.ofNat 2]] := by
    decide +kernel
  have hown : (Engine.deliveries { config := {} } e .tied).map (fun s => s.content.1.sources)
      = [[.ofNat 1], [.ofNat 1, .ofNat 3], [.ofNat 2], [.ofNat 3]] := by
    decide +kernel
  obtain ⟨live, hfollow, hother⟩ := Option.map_eq_some_iff.1 hdetour
  have hcoherent : start.signal.Coherent := Context.tied.coherent_signal e
  obtain ⟨hrun, hfinished⟩ := Live.detour_run hcoherent hnext hfollow
  refine ⟨Context.accepted_tied, rfl, live.resume .exact, hrun, hfinished, fun hsame => ?_⟩
  rw [content_run rfl] at hsame
  have hsources := congrArg (List.map fun c : EventId × Value => c.1.sources) hsame
  rw [List.map_map, List.map_map] at hsources
  have hlists := hother.symm.trans (hsources.trans hown)
  revert hlists
  decide +kernel

end Engine

end TimedStreams
