import TimedStreams.Proofs.Preservation

/-!
# What a signal still brings does not change

A step turns some of the future of a signal into updates that are waiting to be read, and a read
takes the first of it away; nothing else about the future changes (`Step.remaining`). The one thing
that could go wrong is a chain: it raises the events of its right operand to the stamp at which its
left completes, so that stamp must be settled from the beginning. `Firm` names what is asked of the
left operand of every chain: a condition that steps keep, and under which they do not move the
ceiling.
-/

namespace TimedStreams

open Stamped Update

/-- A condition on signals that is kept by steps and reads, and under which no step moves the ceiling. -/
structure Firm (due : Nat → Prop) (firm : Signal → Prop) : Prop where
  step : ∀ {signal signal' : Signal}, signal.Step due signal' → signal.Coherent → firm signal →
    firm signal' ∧ signal'.ceiling = signal.ceiling
  read : ∀ {signal signal' : Signal} {update : Option Update}, signal.Reads update signal' →
    firm signal → firm signal'

namespace Task

variable {task : Task} {left right : List Stamped}

theorem answer_top (hchain : ∀ stage, task ≠ chain stage) (top top' : Nat) :
    task.answer left right top = task.answer left right top' := by
  cases task with
  | chain stage => exact absurd rfl (hchain stage)
  | merge p => rfl
  | zip p => rfl
  | combineLatest p latest => rfl

theorem receive_ne_chain (hchain : ∀ stage, task ≠ chain stage) (side : Side) (update : Option Update)
    (stage : ChainStage) :
    (task.receive side update).2 ≠ chain stage := by
  cases task with
  | chain stage => exact absurd rfl (hchain stage)
  | merge p => simp [receive]
  | zip p => simp [receive]
  | combineLatest p latest => simp [receive]

end Task

namespace Signal

/-- The left operand of every chain in the tree satisfies `firm`. -/
def Steady (firm : Signal → Prop) : Signal → Prop
  | replay _ _ _ | manual _ _ | ended _ => True
  | adjacentPairs _ _ source => source.Steady firm
  | join _ task left right => (∀ stage, task = .chain stage → firm left) ∧ left.Steady firm ∧ right.Steady firm

variable {due : Nat → Prop} {firm : Signal → Prop} {signal signal' left right left' right' : Signal} {side : Side}
  {update : Option Update}

theorem Reads.steady (hreads : signal.Reads update signal') (hsteady : signal.Steady firm) :
    signal'.Steady firm := by
  cases hreads with
  | done hended hqueue => exact hsteady
  | update hqueue => cases signal <;> exact hsteady

theorem Hears.steady (hfirm : Firm due firm) (hhears : Hears update side left right left' right') {task : Task}
    (hleft : ∀ stage, task = .chain stage → firm left) (hsteadyLeft : left.Steady firm)
    (hsteadyRight : right.Steady firm) :
    (∀ stage, task = .chain stage → firm left') ∧ left'.Steady firm ∧ right'.Steady firm := by
  cases hhears with
  | left hreads => exact ⟨fun stage htask => hfirm.read hreads (hleft stage htask),
    hreads.steady hsteadyLeft, hsteadyRight⟩
  | right hreads => exact ⟨hleft, hsteadyLeft, hreads.steady hsteadyRight⟩

theorem Hears.ceiling (hhears : Hears update side left right left' right') :
    left'.ceiling = left.ceiling ∧ right'.ceiling = right.ceiling := by
  cases hhears with
  | left hreads => exact ⟨hreads.ceiling, rfl⟩
  | right hreads => exact ⟨rfl, hreads.ceiling⟩

/-! ### The future over one step of the outermost producer -/

theorem remaining_announce (out : Outlet) (next : Stamped) (rest : List Stamped) :
    (announce (out.emit next) rest).remaining = stampedOf out.queue ++ climb out.reach (next :: rest) := by
  have hqueue := Outlet.stampedOf_queue_send out (.event next)
  have hreach := Outlet.reach_send out (.event next)
  rw [Outlet.send] at hqueue hreach
  cases rest with
  | nil => exact hqueue
  | cons s rest =>
    have hqueue' := Outlet.stampedOf_queue_send (out.emit next) (.progress s.stamp)
    have hreach' := Outlet.reach_send (out.emit next) (.progress s.stamp)
    rw [Outlet.send] at hqueue' hreach'
    rw [announce, remaining, hqueue', hreach', hqueue, hreach]
    simp [climb, raise, Update.stamp]

theorem remaining_signal {w : Worker} (hawait : w.task.Await left.remaining right.remaining) :
    (w.signal left right).remaining = stampedOf w.out.queue
      ++ raiseAll w.out.reach (w.task.answer left.remaining right.remaining left.ceiling) := by
  rw [Worker.signal]
  split
  · next hdone => rw [Task.answer_eq_nil_of_finished hawait hdone, raiseAll_nil, List.append_nil, remaining]
  · rfl

theorem remaining_pair {out : Outlet} {previous : Option Event} {source source' : Signal} {u : Update}
    (hreads : source.Reads (some u) source') (hsource : source.Coherent) :
    (adjacentPairs (out.send (pairWith previous u)) (newestAfter previous u) source').remaining
      = (adjacentPairs out previous source).remaining := by
  have hnext := hreads.remaining hsource.sound
  have hfrom := hnext.later_from u rfl
  have hhonest : Honest [pairWith previous u] (pairsAfter (newestAfter previous u) source'.remaining) := by
    refine honest_cons.2 ⟨?_, honest_nil _⟩
    rw [stamp_pairWith]
    exact hfrom.pairsAfter
  have hsplit : stampedOf [pairWith previous u] ++ pairsAfter (newestAfter previous u) source'.remaining
      = pairsAfter previous source.remaining := by
    rw [hnext.now_eq]
    cases u with
    | progress stamp => rfl
    | event s => cases previous <;> rfl
  have hsend := Outlet.stampedOf_queue_sendAll out hhonest
  rw [hsplit] at hsend
  exact hsend

theorem remaining_close {out : Outlet} {previous : Option Event} {source source' : Signal}
    (hreads : source.Reads none source') (hsource : source.Coherent) :
    (ended out).remaining = (adjacentPairs out previous source).remaining := by
  have hnext := hreads.remaining hsource.sound
  rw [remaining, remaining, hnext.now_eq, hnext.last rfl]
  cases previous <;> simp [pairsAfter]

theorem Hears.ceiling_left {out : Outlet} {task : Task} (hcoherent : (join out task left right).Coherent)
    (hwants : task.wants side = true) (hhears : Hears update side left right left' right')
    (htask : task = .chain .left) :
    (∀ u, update = some u → u.stamp ≤ left.ceiling) ∧
      (update = none → left.hasEnded = true ∧ left.ceiling ≤ out.reach) := by
  subst htask
  obtain ⟨-, -, hfollows, -, hleft, -⟩ := hcoherent
  cases hhears with
  | right hreads => simp [Task.wants] at hwants
  | left hreads =>
    cases hreads with
    | done hended hqueue =>
      refine ⟨by simp, fun _ => ⟨hended, ?_⟩⟩
      have hrises := hfollows.1
      rw [hqueue, rises_nil] at hrises
      rw [ceiling_of_hasEnded hended, Outlet.reach, Outlet.reach, hrises]
    | @update u rest hqueue =>
      refine ⟨?_, by simp⟩
      intro v hv
      obtain rfl := Option.some.inj hv
      exact (hfollows.1.le_top (by simp [hqueue])).trans hleft.reach_le_ceiling

theorem remaining_hear {out : Outlet} {task : Task} (hcoherent : (join out task left right).Coherent)
    (hwants : task.wants side = true) (hhears : Hears update side left right left' right') :
    ((Worker.hear side ⟨task, out⟩ update).signal left' right').remaining
      = (join out task left right).remaining := by
  obtain ⟨-, -, hfollows, -, hleft, hright⟩ := id hcoherent
  have hawait := hfollows.await hleft.remaining.1 hright.remaining.1
  have hnext := hhears.remaining hleft.sound hright.sound
  obtain ⟨hhonest, hanswer⟩ := Task.answer_receive out.reach hwants hawait hnext fun htask =>
    (hhears.ceiling_left hcoherent hwants htask).imp_right fun hclose hnone => (hclose hnone).2
  have hsend := Outlet.stampedOf_queue_sendAll out hhonest
  rw [Worker.hear_eq hwants, remaining_signal (Task.await_receive hawait hnext), hhears.ceiling.1,
    hsend, hanswer,
    remaining]

/-! ### The future over any step -/

theorem answer_step_left {task : Task} {rest : List Stamped} (hfirm : Firm due firm)
    (hstep : left.Step due left')
    (hleft : left.Coherent) (hchain : ∀ stage, task = .chain stage → firm left)
    (hremaining : left'.remaining = left.remaining) :
    task.answer left'.remaining rest left'.ceiling = task.answer left.remaining rest left.ceiling := by
  rw [hremaining]
  by_cases htask : ∃ stage, task = .chain stage
  · obtain ⟨stage, htask⟩ := htask
    rw [(hfirm.step hstep hleft (hchain stage htask)).2]
  · exact Task.answer_top (not_exists.1 htask) _ _

/-- Whatever happens, the reader of a signal still receives the same events with the same stamps. -/
theorem Step.remaining (hfirm : Firm due firm) (hstep : Step due signal signal') (hsignal : signal.Coherent)
    (hsteady : signal.Steady firm) : signal'.remaining = signal.remaining ∧ signal'.Steady firm := by
  induction hstep with
  | @wake out next rest hdue =>
    refine ⟨remaining_announce out next rest, ?_⟩
    cases rest <;> trivial
  | @pair out previous source source' u hreads =>
    exact ⟨remaining_pair hreads hsignal.2.2, hreads.steady hsteady⟩
  | close hreads => exact ⟨remaining_close hreads hsignal.2.2, trivial⟩
  | @hear out task side update left right left' right' hwants hhears =>
    refine ⟨remaining_hear hsignal hwants hhears, ?_⟩
    obtain ⟨hleft, hsteadyLeft, hsteadyRight⟩ := hsteady
    obtain ⟨hleft', hsteadyLeft', hsteadyRight'⟩ := hhears.steady hfirm hleft hsteadyLeft hsteadyRight
    rw [Worker.signal_hear hwants]
    split
    · trivial
    · refine ⟨?_, hsteadyLeft', hsteadyRight'⟩
      intro stage hstage
      by_cases hchain : ∃ stage, task = .chain stage
      · obtain ⟨stage, rfl⟩ := hchain
        exact hleft' stage rfl
      · exact absurd hstage (Task.receive_ne_chain (not_exists.1 hchain) side update stage)
  | source hstep ih =>
    obtain ⟨hremaining, hsteady⟩ := ih hsignal.2.2 hsteady
    refine ⟨?_, hsteady⟩
    rw [Signal.remaining, Signal.remaining, hremaining]
  | @left out task left left' right hstep ih =>
    obtain ⟨-, -, -, -, hleft, -⟩ := hsignal
    obtain ⟨hchain, hsteadyLeft, hsteadyRight⟩ := hsteady
    obtain ⟨hremaining, hsteadyLeft'⟩ := ih hleft hsteadyLeft
    refine ⟨?_, fun stage htask => (hfirm.step hstep hleft (hchain stage htask)).1, hsteadyLeft', hsteadyRight⟩
    rw [Signal.remaining, Signal.remaining, answer_step_left hfirm hstep hleft hchain hremaining]
  | right hstep ih =>
    obtain ⟨-, -, -, -, -, hright⟩ := hsignal
    obtain ⟨hchain, hsteadyLeft, hsteadyRight⟩ := hsteady
    obtain ⟨hremaining, hsteadyRight'⟩ := ih hright hsteadyRight
    refine ⟨?_, hchain, hsteadyLeft, hsteadyRight'⟩
    rw [Signal.remaining, Signal.remaining, hremaining]

end Signal

end TimedStreams
