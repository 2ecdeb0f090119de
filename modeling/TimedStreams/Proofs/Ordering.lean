import TimedStreams.Proofs.LateClock

/-!
# The order of the events

A `zip` in the left operand of a chain unsettles the stamps of what follows, but not its order: a
chain passes on its left and then its right, and `zip` and `adjacentPairs` go by position. Only
`merge` and `combineLatest` look at the stamps of what they read. As long as that is steady, all
runs bring the same events in the same order, although not with the same stamps. `Signal.Orderly` is
this condition, and `Live.Orders` is the invariant of a run on either clock.
-/

namespace TimedStreams

open Stamped Update

namespace Stamped

theorem map_event_zip (xs ys : List Stamped) :
    (zip xs ys).map event = List.zipWith Event.combined (xs.map event) (ys.map event) := by
  rw [zip, List.map_zipWith, List.zipWith_map]
  rfl

theorem map_event_pairsAfter {xs ys : List Stamped} (hevents : xs.map event = ys.map event)
    (previous : Option Event) :
    (pairsAfter previous xs).map event = (pairsAfter previous ys).map event := by
  induction xs generalizing ys previous with
  | nil =>
    obtain rfl := List.map_eq_nil_iff.1 hevents.symm
    rfl
  | cons s rest ih =>
    obtain ⟨t, rest', rfl, ht, hrest⟩ := List.map_eq_cons_iff.1 hevents.symm
    cases previous with
    | none => simp only [pairsAfter, ht, ih hrest.symm]
    | some e => simp only [pairsAfter, List.map_cons, ht, ih hrest.symm]

end Stamped

namespace Task

/-- The task looks at the stamps of what it reads. -/
def Interleaves : Task → Prop
  | merge _ | combineLatest _ _ => True
  | chain _ | zip _ => False

variable {task : Task} {side : Side} {update : Option Update} {left right left' right' : List Stamped}

theorem Interleaves.of_receive (hafter : (task.receive side update).2.Interleaves) : task.Interleaves := by
  cases task with
  | merge p => trivial
  | combineLatest p latest => trivial
  | zip p => exact hafter
  | chain stage => cases update <;> cases stage <;> exact hafter

/-- Unless it interleaves, a task answers the same events with the same events, whatever their stamps. -/
theorem map_event_answer (hsame : task.Interleaves → left' = left ∧ right' = right)
    (hleft : left'.map Stamped.event = left.map Stamped.event)
    (hright : right'.map Stamped.event = right.map Stamped.event) (top top' : Nat) :
    (task.answer left' right' top').map Stamped.event = (task.answer left right top).map Stamped.event := by
  cases task with
  | merge p =>
    obtain ⟨rfl, rfl⟩ := hsame trivial
    rfl
  | combineLatest p latest =>
    obtain ⟨rfl, rfl⟩ := hsame trivial
    rfl
  | zip p => simp only [answer, Operands.pairing, map_event_zip, List.map_append, hleft, hright]
  | chain stage =>
    cases stage with
    | left => simp only [answer, List.map_append, map_event_raiseAll, hleft, hright]
    | right => exact hright
    | finished => rfl

end Task

namespace Signal

/-- What is read by a task that looks at stamps is steady. -/
def Orderly (firm : Signal → Prop) : Signal → Prop
  | replay _ _ _ | manual _ _ | ended _ => True
  | adjacentPairs _ _ source => source.Orderly firm
  | join _ task left right =>
    (task.Interleaves → left.Steady firm ∧ right.Steady firm) ∧ left.Orderly firm ∧ right.Orderly firm

variable {due : Nat → Prop} {firm : Signal → Prop} {signal signal' left right left' right' : Signal} {side : Side}
  {update : Option Update}

theorem Steady.orderly (hsteady : signal.Steady firm) : signal.Orderly firm := by
  induction signal with
  | manual out name => trivial
  | ended out => trivial
  | replay out next rest => trivial
  | adjacentPairs out previous source ih => exact ih hsteady
  | join out task left right ihleft ihright =>
    obtain ⟨-, hleft, hright⟩ := hsteady
    exact ⟨fun _ => ⟨hleft, hright⟩, ihleft hleft, ihright hright⟩

theorem Reads.orderly (hreads : signal.Reads update signal') (horderly : signal.Orderly firm) :
    signal'.Orderly firm := by
  cases hreads with
  | done hended hqueue => exact horderly
  | update hqueue => cases signal <;> exact horderly

theorem orderly_hear {out : Outlet} {task : Task} (horderly : (join out task left right).Orderly firm)
    (hwants : task.wants side = true) (hhears : Hears update side left right left' right') :
    ((Worker.hear side ⟨task, out⟩ update).signal left' right').Orderly firm := by
  obtain ⟨hsteady, hleft, hright⟩ := horderly
  rw [Worker.signal_hear hwants]
  split
  · trivial
  · refine ⟨fun hafter => ?_, ?_⟩
    · obtain ⟨hsteadyLeft, hsteadyRight⟩ := hsteady hafter.of_receive
      cases hhears with
      | left hreads => exact ⟨hreads.steady hsteadyLeft, hsteadyRight⟩
      | right hreads => exact ⟨hsteadyLeft, hreads.steady hsteadyRight⟩
    · cases hhears with
      | left hreads => exact ⟨hreads.orderly hleft, hright⟩
      | right hreads => exact ⟨hleft, hreads.orderly hright⟩

/-- A step anywhere in an orderly tree keeps the events that its reader still receives, and their order. -/
theorem Step.orderly (hfirm : Firm due firm) (hstep : signal.Step due signal') (hcoherent : signal.Coherent)
    (horderly : signal.Orderly firm) :
    signal'.remaining.map Stamped.event = signal.remaining.map Stamped.event ∧ signal'.Orderly firm := by
  induction hstep with
  | @wake out next rest hdue =>
    refine ⟨congrArg (List.map Stamped.event) (remaining_announce out next rest), ?_⟩
    cases rest <;> trivial
  | pair hreads => exact ⟨congrArg (List.map Stamped.event) (remaining_pair hreads hcoherent.2.2),
    hreads.orderly horderly⟩
  | close hreads => exact ⟨congrArg (List.map Stamped.event) (remaining_close hreads hcoherent.2.2), trivial⟩
  | hear hwants hhears =>
    exact ⟨congrArg (List.map Stamped.event) (remaining_hear hcoherent hwants hhears),
      orderly_hear horderly hwants hhears⟩
  | source hstep ih =>
    obtain ⟨hevents, horderly'⟩ := ih hcoherent.2.2 horderly
    refine ⟨?_, horderly'⟩
    simp only [Signal.remaining, List.map_append, map_event_raiseAll, map_event_pairsAfter hevents]
  | @left out task left left' right hstep ih =>
    obtain ⟨-, -, -, -, hcoherent, -⟩ := hcoherent
    obtain ⟨hsteady, hleft, hright⟩ := horderly
    obtain ⟨hevents, hleft'⟩ := ih hcoherent hleft
    have hsteps := fun hinterleaves => hstep.remaining hfirm hcoherent (hsteady hinterleaves).1
    refine ⟨?_, fun hinterleaves => ⟨(hsteps hinterleaves).2, (hsteady hinterleaves).2⟩, hleft', hright⟩
    simp only [Signal.remaining, List.map_append, map_event_raiseAll]
    rw [Task.map_event_answer (fun hinterleaves => ⟨(hsteps hinterleaves).1, rfl⟩) hevents rfl left.ceiling]
  | @right out task left right right' hstep ih =>
    obtain ⟨-, -, -, -, -, hcoherent⟩ := hcoherent
    obtain ⟨hsteady, hleft, hright⟩ := horderly
    obtain ⟨hevents, hright'⟩ := ih hcoherent hright
    have hsteps := fun hinterleaves => hstep.remaining hfirm hcoherent (hsteady hinterleaves).2
    refine ⟨?_, fun hinterleaves => ⟨(hsteady hinterleaves).1, (hsteps hinterleaves).2⟩, hleft, hright'⟩
    simp only [Signal.remaining, List.map_append, map_event_raiseAll]
    rw [Task.map_event_answer (fun hinterleaves => ⟨rfl, (hsteps hinterleaves).1⟩) rfl hevents left.ceiling]

theorem Orderly.jump {now low : Nat} (horderly : signal.Orderly (OnTime now)) (hcoherent : signal.Coherent)
    (hidle : signal.Idle (· ≤ low)) (hlow : now ≤ low) : signal.Orderly (OnTime (low + 1)) := by
  induction signal with
  | manual out name => trivial
  | ended out => trivial
  | replay out next rest => trivial
  | adjacentPairs out previous source ih => exact ih horderly hcoherent.2.2 hidle.source_readUp.1
  | join out task left right ihleft ihright =>
    obtain ⟨-, -, -, -, hcleft, hcright⟩ := hcoherent
    obtain ⟨hsteady, hleft, hright⟩ := horderly
    refine ⟨?_, ihleft hleft hcleft hidle.left_readUp.1, ihright hright hcright hidle.right_readUp.1⟩
    intro hinterleaves
    obtain ⟨hsteadyLeft, hsteadyRight⟩ := hsteady hinterleaves
    exact ⟨hsteadyLeft.jump hcleft hidle.left_readUp.1 hlow,
      hsteadyRight.jump hcright hidle.right_readUp.1 hlow⟩

end Signal

namespace Live

/-- What has been taken and what is still to come are these events, in this order. -/
structure Orders (firm : Nat → Signal → Prop) (events : List Event) (live : Live) : Prop where
  coherent : live.signal.Coherent
  orderly : live.signal.Orderly (firm live.now)
  events_eq : (live.taken ++ live.signal.remaining).map Stamped.event = events

variable {firm : Nat → Signal → Prop} {events : List Event} {live live' : Live}

theorem map_event_noted (now : Nat) (u : Update) :
    (noted now u).map Stamped.event = (stampedOf [u]).map Stamped.event := by
  rw [noted, List.map_map]
  rfl

theorem Acts.orders (hfirm : ∀ now, Firm (· ≤ now) (firm now)) (hacts : live.Acts live')
    (hlive : live.Orders firm events) : live'.Orders firm events := by
  obtain ⟨hcoherent, horderly, rfl⟩ := hlive
  cases hacts with
  | @work now signal signal' taken hstep =>
    obtain ⟨hevents, horderly'⟩ := hstep.orderly (hfirm now) hcoherent horderly
    refine ⟨hstep.coherent hcoherent, horderly', ?_⟩
    simp only [List.map_append, hevents]
  | @take now signal signal' taken u hreads =>
    have hnext := hreads.remaining hcoherent.sound
    refine ⟨hreads.coherent hcoherent, hreads.orderly horderly, ?_⟩
    simp only [hnext.now_eq, List.map_append, map_event_noted, List.append_assoc]
    rfl

theorem Orders.taken_eq (hlive : live.Orders firm events) (hfinished : live.Finished) :
    live.taken.map Stamped.event = events := by
  have hevents := hlive.events_eq
  rw [Signal.remaining_of_hasEnded hfinished.ended, hfinished.queue_eq, stampedOf_nil,
    List.append_nil] at hevents
  exact hevents

/-! ### On the exact clock -/

theorem ExactStep.orders (hstep : live.ExactStep live') (hlive : live.Orders Signal.OnTime events) :
    live'.Orders Signal.OnTime events ∧ live'.signal.effort < live.signal.effort := by
  cases hstep with
  | now hacts => exact ⟨hacts.orders Signal.firm_onTime hlive, hacts.effort_lt⟩
  | jump hstill hnext hacts =>
    obtain ⟨-, low, rfl, hlow, hidle⟩ := hstill.before_jump hnext
    obtain ⟨hcoherent, horderly, hevents⟩ := hlive
    exact ⟨hacts.orders Signal.firm_onTime ⟨hcoherent, horderly.jump hcoherent hidle hlow, hevents⟩,
      hacts.effort_lt⟩

theorem Orders.ends_exact (hlive : live.Orders Signal.OnTime events) :
    Ends ExactStep (fun last => last.Finished ∧ last.taken.map Stamped.event = events) live := by
  refine Ends.of_invariant (Orders Signal.OnTime events) (fun live => live.signal.effort) ?_ ?_ hlive
  · intro live live' hinv hstep
    exact hstep.orders hinv
  · intro live hinv hnone
    have hfinished := finished_of_not_exactStep hinv.coherent hnone
    exact ⟨hfinished, hinv.taken_eq hfinished⟩

/-! ### On a late clock -/

theorem LateStep.orders (hstep : live.LateStep live') (hlive : live.Orders (fun _ => Signal.Backed) events) :
    live'.Orders (fun _ => Signal.Backed) events ∧ live'.signal.effort < live.signal.effort := by
  obtain ⟨-, hacts⟩ := hstep
  have hfirm : ∀ now, Firm (· ≤ now) Signal.Backed := fun _ => Signal.firm_backed _
  exact ⟨hacts.orders hfirm ⟨hlive.coherent, hlive.orderly, hlive.events_eq⟩, hacts.effort_lt⟩

theorem Orders.ends_late (hlive : live.Orders (fun _ => Signal.Backed) events) :
    Ends LateStep (fun last => last.Finished ∧ last.taken.map Stamped.event = events) live := by
  refine Ends.of_invariant (Orders (fun _ => Signal.Backed) events) (fun live => live.signal.effort) ?_ ?_ hlive
  · intro live live' hinv hstep
    exact hstep.orders hinv
  · intro live hinv hnone
    have hfinished := finished_of_not_lateStep hinv.coherent hnone
    exact ⟨hfinished, hinv.taken_eq hfinished⟩

end Live

end TimedStreams
