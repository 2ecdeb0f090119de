import TimedStreams.Proofs.Answer
import TimedStreams.Proofs.Steps

/-!
# What a live signal still brings

`Signal.remaining` is the whole future of a live signal: what it has sent and its reader has not
read, and then everything that its producer will send, computed down the tree from what the leaves
still replay. `Signal.ceiling` is the stamp its frontier will have when it ends.

`Signal.Coherent` is the invariant of an evaluation. The records of every task fit what its operands
have sent, a task has released all that it can and promised all that it knows, and no promise is
ahead of those of the operands. Any step of any task keeps it (`Step.coherent`).
-/

namespace TimedStreams

open Stamped Update

namespace Signal

/-- The stamp at which a signal ends. -/
def ceiling : Signal → Nat
  | replay out next rest => max out.reach (topStamp (next :: rest))
  | adjacentPairs _ _ source => source.ceiling
  | join _ _ left right => max left.ceiling right.ceiling
  | manual out _ | ended out => out.reach

/-- All events that the reader of a signal still receives. -/
def remaining : Signal → List Stamped
  | replay out next rest => stampedOf out.queue ++ climb out.reach (next :: rest)
  | adjacentPairs out previous source =>
    stampedOf out.queue ++ raiseAll out.reach (pairsAfter previous source.remaining)
  | join out task left right =>
    stampedOf out.queue ++ raiseAll out.reach (task.answer left.remaining right.remaining left.ceiling)
  | manual out _ | ended out => stampedOf out.queue

/-- The events that are still to be sent. -/
def future : Signal → List Stamped
  | replay out next rest => climb out.reach (next :: rest)
  | adjacentPairs out previous source => raiseAll out.reach (pairsAfter previous source.remaining)
  | join out task left right => raiseAll out.reach (task.answer left.remaining right.remaining left.ceiling)
  | manual _ _ | ended _ => []

theorem remaining_eq (signal : Signal) : signal.remaining = stampedOf signal.outlet.queue ++ signal.future := by
  cases signal <;> simp [remaining, future, outlet]

theorem future_from (signal : Signal) : From signal.outlet.reach signal.future := by
  cases signal with
  | replay out next rest => exact from_climb _ _
  | adjacentPairs out previous source => exact from_raiseAll _ _
  | join out task left right => exact from_raiseAll _ _
  | manual out name => exact from_nil _
  | ended out => exact from_nil _

@[simp] theorem future_withQueue (signal : Signal) (queue : List Update) :
    (signal.withQueue queue).future = signal.future := by
  cases signal <;> rfl

@[simp] theorem ceiling_withQueue (signal : Signal) (queue : List Update) :
    (signal.withQueue queue).ceiling = signal.ceiling := by
  cases signal <;> rfl

@[simp] theorem hasEnded_withQueue (signal : Signal) (queue : List Update) :
    (signal.withQueue queue).hasEnded = signal.hasEnded := by
  cases signal <;> rfl

@[simp] theorem outlet_withQueue (signal : Signal) (queue : List Update) :
    (signal.withQueue queue).outlet = { signal.outlet with queue } := by
  cases signal <;> rfl

theorem withQueue_of_queue_eq {signal : Signal} {queue : List Update} (hqueue : signal.outlet.queue = queue) :
    signal.withQueue queue = signal := by
  subst hqueue
  cases signal <;> rfl

@[simp] theorem withQueue_withQueue (signal : Signal) (queue queue' : List Update) :
    (signal.withQueue queue).withQueue queue' = signal.withQueue queue' := by
  cases signal <;> rfl

theorem eq_ended_of_hasEnded {signal : Signal} (hended : signal.hasEnded = true) :
    signal = ended signal.outlet := by
  cases signal <;> first | rfl | cases hended

theorem remaining_of_hasEnded {signal : Signal} (hended : signal.hasEnded = true) :
    signal.remaining = stampedOf signal.outlet.queue := by
  rw [eq_ended_of_hasEnded hended]
  rfl

theorem ceiling_of_hasEnded {signal : Signal} (hended : signal.hasEnded = true) :
    signal.ceiling = signal.outlet.reach := by
  rw [eq_ended_of_hasEnded hended]
  rfl

end Signal

/-! ### The invariant -/

/-- What has not been read rises to the frontier. -/
def Outlet.Sound (out : Outlet) : Prop :=
  ∃ level, Rises level out.queue out.frontier

/-- The record of an operand fits the signal it is the record of. -/
structure Operand.Follows (o : Operand) (signal : Signal) : Prop where
  ascending : Ascending o.pending
  pending_upTo : UpTo (o.reached.getD 0) o.pending
  rises : Rises o.reached signal.outlet.queue signal.outlet.frontier
  closed : o.isOpen = false → signal.hasEnded = true ∧ signal.outlet.queue = []

/-- The records of both operands fit their signals. -/
structure Operands.Follow (p : Operands) (left right : Signal) : Prop where
  left : p.left.Follows left
  right : p.right.Follows right

namespace Task

/-- What a task knows and has sent fits its operands. -/
def Follows (task : Task) (out : Outlet) (left right : Signal) : Prop :=
  match task with
  | merge p | zip p | combineLatest p _ => p.Follow left right ∧ out.reach ≤ p.reach
  | chain .left =>
    Rises out.frontier left.outlet.queue left.outlet.frontier ∧
      Rises none right.outlet.queue right.outlet.frontier
  | chain .right =>
    (left.hasEnded = true ∧ left.outlet.queue = []) ∧
      ∃ level, Rises level right.outlet.queue right.outlet.frontier ∧
        out.reach = max left.outlet.reach (level.getD 0)
  | chain .finished =>
    (left.hasEnded = true ∧ left.outlet.queue = []) ∧ (right.hasEnded = true ∧ right.outlet.queue = []) ∧
      out.reach = max left.outlet.reach right.outlet.reach

/-- A task has released what it can, and has promised what it knows. -/
def Prompt (task : Task) (out : Outlet) : Prop :=
  match task with
  | merge p | combineLatest p _ =>
    p.next? = none ∧
      ∀ stamp, (p.left.horizon.earlier p.right.horizon).stamp? = some stamp → covers out.frontier stamp = true
  | zip p =>
    (p.left.pending = [] ∨ p.right.pending = []) ∧
      (p.unpairable = false → ∀ stamp, (p.left.horizon.later p.right.horizon).stamp? = some stamp →
        covers out.frontier stamp = true)
  | chain _ => True

end Task

namespace Signal

/-- Every task of the tree fits its operands and has done what it can. -/
def Coherent : Signal → Prop
  | replay out next _ => out.Sound ∧ next.stamp ≤ out.reach
  | manual _ _ => False
  | adjacentPairs out _ source =>
    out.Sound ∧ Rises out.frontier source.outlet.queue source.outlet.frontier ∧ source.Coherent
  | join out task left right =>
    out.Sound ∧ task.finished = false ∧ task.Follows out left right ∧ task.Prompt out ∧ left.Coherent ∧
      right.Coherent
  | ended out => out.Sound

theorem Coherent.sound {signal : Signal} (hsignal : signal.Coherent) : signal.outlet.Sound := by
  cases signal with
  | manual out name => exact hsignal.elim
  | ended out => exact hsignal
  | replay out next rest => exact hsignal.1
  | adjacentPairs out previous source => exact hsignal.1
  | join out task left right => exact hsignal.1

end Signal

/-! ### What the records say about the future -/

namespace Operand

variable {o o' : Operand} {signal signal' : Signal}

theorem Follows.reached_le (hfollows : o.Follows signal) : o.reached.getD 0 ≤ signal.outlet.reach :=
  hfollows.rises.level_le_top

theorem from_remaining {level : Option Nat} (hrises : Rises level signal.outlet.queue signal.outlet.frontier) :
    From (level.getD 0) signal.remaining := by
  rw [Signal.remaining_eq, from_append]
  exact ⟨hrises.from_level, signal.future_from.mono hrises.level_le_top⟩

theorem Follows.awaits (hfollows : o.Follows signal) (hascending : Ascending signal.remaining) :
    o.Awaits signal.remaining := by
  have hfrom := from_remaining hfollows.rises
  refine ⟨?_, hfollows.pending_upTo, hfrom, ?_⟩
  · refine ascending_append.2 ⟨hfollows.ascending, hascending, ?_⟩
    intro s hs
    exact hfrom.mono (hfollows.pending_upTo s hs)
  · intro hclosed
    obtain ⟨hended, hqueue⟩ := hfollows.closed hclosed
    rw [Signal.remaining_of_hasEnded hended, hqueue, stampedOf_nil]

/-- A record from which events have been taken still fits. -/
theorem Follows.of_awaits {later : List Stamped} (hfollows : o.Follows signal) (hawaits : o'.Awaits later)
    (hreached : o'.reached = o.reached) (hopen : o'.isOpen = o.isOpen) : o'.Follows signal where
  ascending := (ascending_append.1 hawaits.ascending).1
  pending_upTo := hawaits.pending_upTo
  rises := hreached ▸ hfollows.rises
  closed := hopen ▸ hfollows.closed

theorem Follows.upTo (hfollows : o.Follows signal) {top : Nat} (htop : signal.outlet.reach ≤ top) :
    UpTo top o.pending :=
  hfollows.pending_upTo.mono (hfollows.reached_le.trans htop)

end Operand

namespace Task

variable {task : Task} {out : Outlet} {left right : Signal}

theorem Follows.await (hfollows : task.Follows out left right) (hleft : Ascending left.remaining)
    (hright : Ascending right.remaining) : task.Await left.remaining right.remaining := by
  cases task with
  | merge p => exact ⟨hfollows.1.left.awaits hleft, hfollows.1.right.awaits hright⟩
  | zip p => exact ⟨hfollows.1.left.awaits hleft, hfollows.1.right.awaits hright⟩
  | combineLatest p latest => exact ⟨hfollows.1.left.awaits hleft, hfollows.1.right.awaits hright⟩
  | chain stage => exact ⟨hleft, hright⟩

theorem Follows.upTo_kept (hfollows : task.Follows out left right) {top : Nat} (hleft : left.outlet.reach ≤ top)
    (hright : right.outlet.reach ≤ top) (side : Side) : UpTo top (task.kept side) := by
  have hoperands : ∀ p : Operands, p.Follow left right → UpTo top (p.operand side).pending := by
    intro p hp
    cases side with
    | left => exact hp.left.upTo hleft
    | right => exact hp.right.upTo hright
  cases task with
  | merge p => exact hoperands p hfollows.1
  | zip p => exact hoperands p hfollows.1
  | combineLatest p latest => exact hoperands p hfollows.1
  | chain stage => exact upTo_nil _

/-- No promise of a task is ahead of those of its operands. -/
theorem Follows.reach_le (hfollows : task.Follows out left right) :
    out.reach ≤ max left.outlet.reach right.outlet.reach := by
  have hoperands : ∀ p : Operands, p.Follow left right → out.reach ≤ p.reach →
      out.reach ≤ max left.outlet.reach right.outlet.reach :=
    fun p hp hreach => hreach.trans (max_le_max hp.left.reached_le hp.right.reached_le)
  cases task with
  | merge p => exact hoperands p hfollows.1 hfollows.2
  | zip p => exact hoperands p hfollows.1 hfollows.2
  | combineLatest p latest => exact hoperands p hfollows.1 hfollows.2
  | chain stage =>
    cases stage with
    | finished => exact hfollows.2.2.le
    | left => exact hfollows.1.level_le_top.trans (Nat.le_max_left _ _)
    | right =>
      obtain ⟨-, level, hrises, hreach⟩ := hfollows
      exact hreach ▸ max_le_max le_rfl hrises.level_le_top

end Task

namespace Signal

theorem Coherent.reach_le_ceiling {signal : Signal} (hsignal : signal.Coherent) :
    signal.outlet.reach ≤ signal.ceiling := by
  induction signal with
  | manual out name => exact hsignal.elim
  | ended out => exact le_rfl
  | replay out next rest => exact Nat.le_max_left _ _
  | adjacentPairs out previous source ih =>
    obtain ⟨-, hrises, hsource⟩ := hsignal
    exact hrises.level_le_top.trans (ih hsource)
  | join out task left right ihleft ihright =>
    obtain ⟨-, -, hfollows, -, hleft, hright⟩ := hsignal
    exact hfollows.reach_le.trans (max_le_max (ihleft hleft) (ihright hright))

/-- The future of a coherent signal is ascending and does not exceed the ceiling. -/
theorem Coherent.remaining {signal : Signal} (hsignal : signal.Coherent) :
    Ascending signal.remaining ∧ UpTo signal.ceiling signal.remaining := by
  have hwhole : ∀ {signal : Signal}, signal.Coherent → Ascending signal.future →
    UpTo signal.ceiling signal.future →
      Ascending signal.remaining ∧ UpTo signal.ceiling signal.remaining := by
    intro signal hsignal hascending hupTo
    obtain ⟨level, hrises⟩ := hsignal.sound
    rw [remaining_eq]
    refine ⟨ascending_append.2 ⟨hrises.ascending, hascending, ?_⟩, upTo_append.2 ⟨?_, hupTo⟩⟩
    · intro s hs
      exact signal.future_from.mono (hrises.upTo_top s hs)
    · exact hrises.upTo_top.mono hsignal.reach_le_ceiling
  induction signal with
  | manual out name => exact hsignal.elim
  | ended out => exact hwhole hsignal ascending_nil (upTo_nil _)
  | replay out next rest =>
    refine hwhole hsignal (ascending_climb _ _) ?_
    exact (upTo_topStamp _).mono (topStamp_climb _ (List.cons_ne_nil _ _)).le
  | adjacentPairs out previous source ih =>
    have hsource := ih hsignal.2.2
    refine hwhole hsignal ((ascending_pairsAfter hsource.1).raiseAll _) (hsource.2.pairsAfter.raiseAll ?_)
    exact hsignal.reach_le_ceiling
  | join out task left right ihleft ihright =>
    obtain ⟨-, -, hfollows, -, hcleft, hcright⟩ := id hsignal
    obtain ⟨hleft, hleftTop⟩ := ihleft hcleft
    obtain ⟨hright, hrightTop⟩ := ihright hcright
    have hkept := hfollows.upTo_kept (hcleft.reach_le_ceiling.trans (Nat.le_max_left _ _))
      (hcright.reach_le_ceiling.trans (Nat.le_max_right _ _))
    refine hwhole hsignal ((Task.ascending_answer (hfollows.await hleft hright) hleftTop).raiseAll _) ?_
    refine UpTo.raiseAll ?_ hsignal.reach_le_ceiling
    refine Task.upTo_answer (upTo_append.2 ⟨hkept .left, ?_⟩) (upTo_append.2 ⟨hkept .right, ?_⟩)
      (Nat.le_max_left _ _)
    · exact hleftTop.mono (Nat.le_max_left _ _)
    · exact hrightTop.mono (Nat.le_max_right _ _)

/-! ### Reading -/

theorem Reads.remaining {signal signal' : Signal} {update : Option Update}
    (hreads : signal.Reads update signal')
    (hsound : signal.outlet.Sound) : Operand.Next update signal.remaining signal'.remaining := by
  cases hreads with
  | @update u rest hqueue =>
    obtain ⟨level, hrises⟩ := hsound
    rw [hqueue, rises_cons] at hrises
    refine ⟨?_, ?_, by simp⟩
    · rw [remaining_eq, hqueue, remaining_eq, outlet_withQueue, future_withQueue]
      cases u <;> simp
    · intro v hv
      obtain rfl := Option.some.inj hv
      rw [remaining_eq, outlet_withQueue, future_withQueue, from_append]
      exact ⟨hrises.2.from_level, signal.future_from.mono hrises.2.level_le_top⟩
  | done hended hqueue =>
    refine ⟨by simp, by simp, ?_⟩
    intro _
    rw [remaining_of_hasEnded hended, hqueue, stampedOf_nil]

theorem Reads.coherent {signal signal' : Signal} {update : Option Update} (hreads : signal.Reads update signal')
    (hsignal : signal.Coherent) : signal'.Coherent := by
  cases hreads with
  | done hended hqueue => exact hsignal
  | @update u rest hqueue =>
    obtain ⟨level, hrises⟩ := hsignal.sound
    rw [hqueue, rises_cons] at hrises
    cases signal with
    | manual out name => exact hsignal.elim
    | ended out => exact ⟨_, hrises.2⟩
    | replay out next rest' => exact ⟨⟨_, hrises.2⟩, hsignal.2⟩
    | adjacentPairs out previous source => exact ⟨⟨_, hrises.2⟩, hsignal.2⟩
    | join out task left right =>
      obtain ⟨-, hopen, hfollows, hprompt, hleft, hright⟩ := hsignal
      refine ⟨⟨_, hrises.2⟩, hopen, ?_, ?_, hleft, hright⟩
      · cases task with
        | chain stage => cases stage <;> exact hfollows
        | merge p => exact hfollows
        | zip p => exact hfollows
        | combineLatest p latest => exact hfollows
      · cases task <;> exact hprompt

theorem Reads.ceiling {signal signal' : Signal} {update : Option Update}
    (hreads : signal.Reads update signal') :
    signal'.ceiling = signal.ceiling := by
  cases hreads with
  | update hqueue => exact ceiling_withQueue _ _
  | done hended hqueue => rfl

end Signal

end TimedStreams
