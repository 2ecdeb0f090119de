import Mathlib.Data.List.Induction
import Mathlib.Data.List.Infix
import Mathlib.Data.List.TakeWhile
import TimedStreams.Proofs.Driving
import TimedStreams.Proofs.EngineRuns

/-!
# What driven joins have sent when they are idle

However the two producers of a join are driven, and whatever its task and its reader do in between,
at every point at which the task is idle its output is a function of what the producers have sent:

- of a `merge` the settled beginning of the interleaving (`Driven.merge_of_idle`);
- of a `combineLatest` the latest of both sides for every event of that beginning from which on
  there are both (`Driven.combineLatest_of_idle`);
- of a `zip` all pairs (`Driven.zip_of_idle`).

The arrival order of the updates of the two sides is no part of it. A `zip` that has completed has
let go of its producers, and what they do changes nothing any more.
-/

namespace TimedStreams

open Relation Stamped Update

/-! ### The latest of both sides -/

namespace Latest

/-- The latest event of one side. -/
def eventOf (side : Side) (history : List (Side × Stamped)) : Option Event :=
  (history.filter (·.1 = side)).getLast?.map (·.2.event)

/-- The latest of both sides joined at the end of a history, stamped with the event that ends it. -/
def join? (history : List (Side × Stamped)) : Option Stamped :=
  history.getLast?.bind fun trigger => (eventOf .left history).bind fun left =>
    (eventOf .right history).map fun right => ⟨Event.combined left right, trigger.2.stamp⟩

theorem eventOf_concat (side : Side) (history : List (Side × Stamped)) (x : Side × Stamped) :
    eventOf side (history ++ [x]) = if x.1 = side then some x.2.event else eventOf side history := by
  rw [eventOf, List.filter_append]
  by_cases hside : x.1 = side <;> simp [hside, eventOf]

theorem after_eq (history : List (Side × Stamped)) :
    Latest.after {} history = ⟨eventOf .left history, eventOf .right history⟩ := by
  induction history using List.reverseRecOn with
  | nil => rfl
  | append_singleton history x ih =>
    obtain ⟨side, s⟩ := x
    rw [after_append, ih, eventOf_concat, eventOf_concat]
    cases side <;> rfl

theorem join?_concat (history : List (Side × Stamped)) (x : Side × Stamped) :
    join? (history ++ [x]) = (Latest.after {} (history ++ [x])).joined?.map (⟨·, x.2.stamp⟩) := by
  rw [join?, List.getLast?_concat, after_eq, joined?]
  cases eventOf .left (history ++ [x]) <;> cases eventOf .right (history ++ [x]) <;> rfl

/-- For every event the latest of both sides joined, read off the history up to that event. -/
theorem latestPairs_eq_filterMap (history : List (Side × Stamped)) :
    latestPairs {} history = history.inits.filterMap join? := by
  induction history using List.reverseRecOn with
  | nil => rfl
  | append_singleton history x ih =>
    have hlast : latestPairs (Latest.after {} history) [x] = (join? (history ++ [x])).toList := by
      rw [join?_concat, after_append]
      exact List.append_nil _
    rw [latestPairs_append, ih, hlast, List.inits_append, List.filterMap_append]
    cases hjoin : join? (history ++ [x]) <;> simp [hjoin]

end Latest

namespace Producer

variable {first second : Producer}

theorem releasable_of_closed (hfirst : first.isOpen = false) (hsecond : second.isOpen = false) :
    releasable first second = interleave first.events second.events := by
  refine List.takeWhile_eq_self_iff.2 ?_
  rintro ⟨side, s⟩ -
  cases side with
  | left => simp [settled, reaches, hsecond]
  | right => simp [settled, passes, hfirst]

end Producer

namespace Driven

variable {d d' : Driven} {side : Side}

/-! ### When a join has ended -/

/-- An idle join has ended with its whole answer sent, or its task waits for more. -/
theorem Accounted.idle_cases (hd : d.Accounted) (hidle : d.Idle) :
    (d.signal.hasEnded = true ∧ d.kind.Completes d.left d.right ∧
        d.output = (Task.start d.kind).answer d.left.events d.right.events 0) ∨
      (d.signal.hasEnded = false ∧ ∃ (out : Outlet) (task : Task) (left right : Signal), task.kind = d.kind ∧
        task.Serves out d.taken d.left d.right left right ∧ task.Waits left right ∧
        d.output = stampedOf (d.taken ++ out.queue)) := by
  have hnone := hidle fun _ => True
  cases hd with
  | finished hsignal houtput hcompletes => exact .inl ⟨by rw [hsignal]; rfl, hcompletes, houtput⟩
  | running hsignal hkind hmore hserves =>
    rw [hsignal] at hnone
    refine .inr ⟨by rw [hsignal]; rfl, _, _, _, _, hkind, hserves, ?_, by rw [output, hsignal]; rfl⟩
    exact ⟨hmore, hnone.left_readUp.2, hnone.right_readUp.2⟩

theorem Accounted.hasEnded_iff (hd : d.Accounted) (hidle : d.Idle) :
    d.signal.hasEnded = true ↔ d.kind.Completes d.left d.right := by
  rcases hd.idle_cases hidle with ⟨hended, hcompletes, -⟩ |
    ⟨hopen, out, task, left, right, hkind, hserves, hwaits, -⟩
  · exact iff_of_true hended hcompletes
  · exact iff_of_false (by simp [hopen]) (hkind ▸ hserves.not_completes hwaits)

theorem Moves.ended (hmoves : Moves d d') (hended : d.signal.hasEnded = true) :
    d'.signal.hasEnded = true ∧ d'.output = d.output := by
  have hsignal := Signal.eq_ended_of_hasEnded hended
  have hdrive : ∀ (side : Side) (producer : Producer) (f : Outlet → Signal),
      (d.drive side producer f).signal.hasEnded = true ∧ (d.drive side producer f).output = d.output := by
    intro side producer f
    have hsame : (d.drive side producer f).signal = d.signal := by
      rw [signal_drive, hsignal]
      rfl
    rw [output, output, hsame]
    exact ⟨hended, rfl⟩
  cases hmoves with
  | send u hopen => exact hdrive _ _ _
  | close hopen => exact hdrive _ _ _
  | work hstep => exact absurd hstep.hasEnded (by simp [hended])
  | take hreads =>
    cases hreads with
    | @update u rest hqueue =>
      refine ⟨by rw [Signal.hasEnded_withQueue, hended], ?_⟩
      rw [output, output, hqueue, Signal.outlet_withQueue, List.append_assoc, List.singleton_append]

theorem ended_of_run (hrun : ReflTransGen Moves d d') (hended : d.signal.hasEnded = true) :
    d'.signal.hasEnded = true ∧ d'.output = d.output := by
  induction hrun with
  | refl => exact ⟨hended, rfl⟩
  | tail _ hmoves ih =>
    obtain ⟨hbetween, houtput⟩ := ih
    obtain ⟨hafter, hsame⟩ := hmoves.ended hbetween
    exact ⟨hafter, hsame.trans houtput⟩

/-! ### A small drive -/

/-- Both producers send an event at one instant, the right one first, and then the left one completes. -/
def tied (kind : Join) : Driven :=
  ((((start kind).send .right (.event ⟨.tick 2 0, 5⟩)).send .left (.event ⟨.tick 1 0, 5⟩)).close .left).settle

theorem tied_run {kind : Join} (hkind : kind ≠ .chain) :
    ReflTransGen Moves (start kind) (tied kind) ∧ (tied kind).Idle := by
  have hdriven : ReflTransGen Moves (start kind)
      ((((start kind).send .right (.event ⟨.tick 2 0, 5⟩)).send .left (.event ⟨.tick 1 0, 5⟩)).close .left) :=
    ((ReflTransGen.single (.send _ rfl)).tail (.send _ rfl)).tail (.close rfl)
  have hd := (accounted_of_run hkind hdriven).1
  exact ⟨hdriven.trans hd.settle_run, hd.idle_settle⟩

theorem releasable_tied (kind : Join) : Producer.releasable (tied kind).left (tied kind).right
    = [(.left, ⟨.tick 1 0, 5⟩), (.right, ⟨.tick 2 0, 5⟩)] := by
  have hleft : (tied kind).left.events = [⟨.tick 1 0, 5⟩] := rfl
  have hright : (tied kind).right.events = [⟨.tick 2 0, 5⟩] := rfl
  rw [Producer.releasable, hleft, hright, interleave_cons_left (by simp), interleave_nil_left]
  rfl

/-! ### Merging -/

/-- An idle merge has sent the settled beginning of what its producers have sent, in the order of
stamps and left first on equal stamps, and has ended if and only if both have completed. -/
theorem merge_of_idle (hrun : ReflTransGen Moves (start .merge) d) (hidle : d.Idle) :
    d.output = (Producer.releasable d.left d.right).map Prod.snd ∧
      (d.signal.hasEnded = true ↔ d.left.isOpen = false ∧ d.right.isOpen = false) := by
  obtain ⟨hd, hkind⟩ := accounted_of_run (by decide) hrun
  have hended := hd.hasEnded_iff hidle
  rw [hkind] at hended
  refine ⟨?_, hended⟩
  rcases hd.idle_cases hidle with ⟨-, hcompletes, houtput⟩ |
    ⟨-, out, task, left, right, htask, hserves, hwaits, houtput⟩
  · rw [hkind] at hcompletes houtput
    rw [houtput, Producer.releasable_of_closed hcompletes.1 hcompletes.2]
    rfl
  · rw [houtput, hserves.output_merge hwaits (htask.trans hkind)]

theorem merge_of_idle_tied :
    ReflTransGen Moves (start .merge) (tied .merge) ∧ (tied .merge).Idle ∧
      (tied .merge).output = [⟨.tick 1 0, 5⟩, ⟨.tick 2 0, 5⟩] ∧ (tied .merge).signal.hasEnded = false := by
  obtain ⟨hrun, hidle⟩ := tied_run (show Join.merge ≠ .chain by decide)
  obtain ⟨houtput, hended⟩ := merge_of_idle hrun hidle
  refine ⟨hrun, hidle, ?_, Bool.eq_false_iff.2 fun hdone => ?_⟩
  · rw [houtput, releasable_tied]
    rfl
  · exact absurd (hended.1 hdone).2 (by decide +kernel)

/-! ### The latest of both -/

/-- For every event of the settled beginning of both sides, in the order of stamps and left first on
equal stamps, an idle `combineLatest` has sent the latest events of both sides joined, left first,
from the first event on by which there are both. -/
theorem combineLatest_of_idle (hrun : ReflTransGen Moves (start .combineLatest) d) (hidle : d.Idle) :
    d.output = (Producer.releasable d.left d.right).inits.filterMap Latest.join? ∧
      (d.signal.hasEnded = true ↔ d.left.isOpen = false ∧ d.right.isOpen = false) := by
  obtain ⟨hd, hkind⟩ := accounted_of_run (by decide) hrun
  have hended := hd.hasEnded_iff hidle
  rw [hkind] at hended
  refine ⟨?_, hended⟩
  rw [← Latest.latestPairs_eq_filterMap]
  rcases hd.idle_cases hidle with ⟨-, hcompletes, houtput⟩ |
    ⟨-, out, task, left, right, htask, hserves, hwaits, houtput⟩
  · rw [hkind] at hcompletes houtput
    rw [houtput, Producer.releasable_of_closed hcompletes.1 hcompletes.2]
    rfl
  · rw [houtput, hserves.output_combineLatest hwaits (htask.trans hkind)]

theorem combineLatest_of_idle_tied :
    ReflTransGen Moves (start .combineLatest) (tied .combineLatest) ∧ (tied .combineLatest).Idle ∧
      (tied .combineLatest).output = [⟨Event.combined (.tick 1 0) (.tick 2 0), 5⟩] ∧
      (tied .combineLatest).signal.hasEnded = false := by
  obtain ⟨hrun, hidle⟩ := tied_run (show Join.combineLatest ≠ .chain by decide)
  obtain ⟨houtput, hended⟩ := combineLatest_of_idle hrun hidle
  refine ⟨hrun, hidle, ?_, Bool.eq_false_iff.2 fun hdone => ?_⟩
  · rw [houtput, releasable_tied]
    rfl
  · exact absurd (hended.1 hdone).2 (by decide +kernel)

/-! ### Pairing -/

/-- An idle `zip` has sent all pairs, each stamped with the later of both stamps, and has ended if and
only if one side has completed and all its events have found a partner. From then on its producers
are refused, and its output stays as it is. -/
theorem zip_of_idle (hrun : ReflTransGen Moves (start .zip) d) (hidle : d.Idle) :
    d.output.length = min d.left.events.length d.right.events.length ∧
      (∀ (k : Nat) (s t : Stamped), d.left.events[k]? = some s → d.right.events[k]? = some t →
        d.output[k]? = some ⟨Event.combined s.event t.event, max s.stamp t.stamp⟩) ∧
      (d.signal.hasEnded = true ↔
        d.left.isOpen = false ∧ d.left.events.length ≤ d.right.events.length ∨
          d.right.isOpen = false ∧ d.right.events.length ≤ d.left.events.length) ∧
      (d.signal.hasEnded = true → ∀ d', ReflTransGen Moves d d' → d'.output = d.output ∧
        ∀ (side : Side) (s : Stamped), (d'.producer side).isOpen = true →
          (d'.session.send side.name (.event s)).1 = .refused .consumerGone) := by
  obtain ⟨hd, hkind⟩ := accounted_of_run (by decide) hrun
  have hended := hd.hasEnded_iff hidle
  rw [hkind] at hended
  have houtput : d.output = Stamped.zip d.left.events d.right.events := by
    rcases hd.idle_cases hidle with ⟨-, -, houtput⟩ |
      ⟨-, out, task, left, right, htask, hserves, hwaits, houtput⟩
    · rw [hkind] at houtput
      exact houtput
    · rw [houtput, hserves.output_zip hwaits (htask.trans hkind)]
  refine ⟨?_, ?_, hended, ?_⟩
  · rw [houtput, Stamped.zip, List.length_zipWith]
  · intro k s t hs ht
    rw [houtput, Stamped.zip, List.getElem?_zipWith, hs, ht]
    rfl
  · intro hdone d' hlater
    obtain ⟨hstill, hsame⟩ := ended_of_run hlater hdone
    exact ⟨hsame, fun side s hopen => session_send_refused hopen hstill s⟩

theorem zip_of_idle_tied :
    ReflTransGen Moves (start .zip) (tied .zip) ∧ (tied .zip).Idle ∧
      (tied .zip).output[0]? = some ⟨Event.combined (.tick 1 0) (.tick 2 0), 5⟩ ∧
      (tied .zip).output.length = 1 ∧ (tied .zip).signal.hasEnded = true ∧
      ∀ s, ((tied .zip).session.send Side.right.name (.event s)).1 = .refused .consumerGone := by
  obtain ⟨hrun, hidle⟩ := tied_run (show Join.zip ≠ .chain by decide)
  obtain ⟨hlength, hpairs, hended, hafter⟩ := zip_of_idle hrun hidle
  have hdone : (tied .zip).signal.hasEnded = true := hended.2 (.inl ⟨rfl, le_rfl⟩)
  exact ⟨hrun, hidle, hpairs 0 _ _ rfl rfl, hlength, hdone, fun s => (hafter hdone _ .refl).2 .right s rfl⟩

end Driven

end TimedStreams
