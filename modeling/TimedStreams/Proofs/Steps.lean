import Mathlib.Logic.Relation
import TimedStreams.Proofs.Updates

/-!
# Evaluation step by step

`Signal.settle` runs every task in one fixed order. Here the order is left open: `Signal.Step` lets
any one replay wake whose event is due, or any one task receive the next update of one of its
operands, anywhere in the tree, and each operand is still read in the order in which it was sent.
`Live` adds the clock and the reader of the outermost signal, who notes down every event with the
instant at which it was taken.

Two clocks drive a live evaluation. On the exact clock time stands still as long as anything can
act, and then jumps to the next deadline (`Live.ExactStep`). On a late clock time may have passed
before anything acts, so that a replay wakes at its deadline or any time after it (`Live.LateStep`).

`Ends step good s` says that every run from `s` comes to an end, whatever is chosen on the way, and
that whatever it ends in is good.
-/

namespace TimedStreams

open Update

/-- Every run of steps from a state ends, and only in good states. -/
inductive Ends {State : Type} (step : State → State → Prop) (good : State → Prop) : State → Prop
  | intro {s : State} (hstop : (∀ s', ¬ step s s') → good s) (hstep : ∀ s', step s s' → Ends step good s') :
      Ends step good s

namespace Ends

variable {State : Type} {step : State → State → Prop} {good better : State → Prop}

theorem mono {s : State} (hends : Ends step good s) (hgood : ∀ s, good s → better s) : Ends step better s := by
  induction hends with
  | intro hstop _ ih => exact .intro (fun hnone => hgood _ (hstop hnone)) ih

/-- An invariant under which every step does some of the work that remains, and which makes every
state without a step good. -/
theorem of_invariant (inv : State → Prop) (work : State → Nat)
    (hstep : ∀ s s', inv s → step s s' → inv s' ∧ work s' < work s)
    (hstop : ∀ s, inv s → (∀ s', ¬ step s s') → good s) {s : State} (hs : inv s) : Ends step good s := by
  induction hwork : work s using Nat.strong_induction_on generalizing s with
  | _ n ih =>
    refine .intro (hstop s hs) ?_
    intro s' hs'
    obtain ⟨hinv, hless⟩ := hstep s s' hs hs'
    exact ih _ (hwork ▸ hless) hinv rfl

/-- A run that can go no further has ended in a good state. -/
theorem good_of_run {s t : State} (hends : Ends step good s) (hrun : Relation.ReflTransGen step s t)
    (hnone : ∀ t', ¬ step t t') : good t := by
  induction hrun using Relation.ReflTransGen.head_induction_on with
  | refl =>
    obtain ⟨hstop, -⟩ := hends
    exact hstop hnone
  | head hfirst _ ih =>
    obtain ⟨-, hstep⟩ := hends
    exact ih (hstep _ hfirst)

end Ends

namespace Signal

/-- Reading a signal once: the oldest unread update, or the end once there is none. -/
inductive Reads : Signal → Option Update → Signal → Prop
  | update {signal : Signal} {u : Update} {rest : List Update} (hqueue : signal.outlet.queue = u :: rest) :
      Reads signal (some u) (signal.withQueue rest)
  | done {signal : Signal} (hended : signal.hasEnded = true) (hqueue : signal.outlet.queue = []) :
      Reads signal none signal

/-- Reading the operand of one side once. -/
inductive Hears (update : Option Update) : Side → (left right left' right' : Signal) → Prop
  | left {left left' right : Signal}
    (hreads : left.Reads update left') : Hears update .left left right left' right
  | right {left right right' : Signal}
    (hreads : right.Reads update right') : Hears update .right left right left right'

/-- The signal of a worker over its operands; it has ended if the task has finished. -/
def Worker.signal (w : Worker) (left right : Signal) : Signal :=
  if w.task.finished then ended w.out else join w.out w.task left right

/-- One thing happens somewhere in the tree, where `due` tells which deadlines have passed. -/
inductive Step (due : Nat → Prop) : Signal → Signal → Prop
  | wake {out : Outlet} {next : Stamped} {rest : List Stamped} (hdue : due next.stamp) :
      Step due (replay out next rest) (announce (out.emit next) rest)
  | pair {out : Outlet} {previous : Option Event} {source source' : Signal} {u : Update}
      (hreads : source.Reads (some u) source') :
      Step due (adjacentPairs out previous source)
        (adjacentPairs (out.send (pairWith previous u)) (newestAfter previous u) source')
  | close {out : Outlet} {previous : Option Event} {source source' : Signal}
    (hreads : source.Reads none source') :
      Step due (adjacentPairs out previous source) (ended out)
  | hear {out : Outlet} {task : Task} {side : Side} {update : Option Update} {left right left' right' : Signal}
      (hwants : task.wants side = true) (hhears : Hears update side left right left' right') :
      Step due (join out task left right) ((Worker.hear side ⟨task, out⟩ update).signal left' right')
  | source {out : Outlet} {previous : Option Event} {source source' : Signal}
    (hstep : Step due source source') :
      Step due (adjacentPairs out previous source) (adjacentPairs out previous source')
  | left {out : Outlet} {task : Task} {left left' right : Signal} (hstep : Step due left left') :
      Step due (join out task left right) (join out task left' right)
  | right {out : Outlet} {task : Task} {left right right' : Signal} (hstep : Step due right right') :
      Step due (join out task left right) (join out task left right')

end Signal

/-- A signal that is being evaluated, and its reader. -/
structure Live where
  now : Nat
  signal : Signal
  /-- The events taken so far, each with the instant at which it was taken. -/
  taken : List Stamped := []

namespace Live

def start (signal : Signal) : Live :=
  { now := 0, signal }

def atTime (live : Live) (now : Nat) : Live :=
  { live with now }

def noted (now : Nat) (u : Update) : List Stamped :=
  (stampedOf [u]).map fun s => ⟨s.event, now⟩

/-- One thing happens, at the time that it is. -/
inductive Acts : Live → Live → Prop
  | work {now : Nat} {signal signal' : Signal} {taken : List Stamped} (hstep : signal.Step (· ≤ now) signal') :
      Acts ⟨now, signal, taken⟩ ⟨now, signal', taken⟩
  | take {now : Nat} {signal signal' : Signal} {taken : List Stamped} {u : Update}
      (hreads : signal.Reads (some u) signal') : Acts ⟨now, signal, taken⟩ ⟨now, signal', taken ++ noted now u⟩

/-- Nothing can happen at the time that it is. -/
def Still (live : Live) : Prop :=
  ∀ live', ¬ live.Acts live'

/-- On the exact clock something happens now, or at the next deadline if nothing can happen before. -/
inductive ExactStep : Live → Live → Prop
  | now {live live' : Live} (hacts : live.Acts live') : ExactStep live live'
  | jump {live live' : Live} {due : Nat} (hstill : live.Still) (hnext : live.signal.nextWake .exact = some due)
      (hacts : (live.atTime due).Acts live') : ExactStep live live'

/-- On a late clock something happens now or after any time. -/
inductive LateStep : Live → Live → Prop
  | after {live live' : Live} {now : Nat} (hnow : live.now ≤ now) (hacts : (live.atTime now).Acts live') :
      LateStep live live'

/-- Everything that was sent has been read, and there will be no more. -/
structure Finished (live : Live) : Prop where
  ended : live.signal.hasEnded = true
  queue_eq : live.signal.outlet.queue = []

end Live

end TimedStreams
