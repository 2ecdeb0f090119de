import TimedStreams.Proofs.Steps
import TimedStreams.Proofs.Operands

/-!
# Every evaluation comes to rest

Whatever the tasks do, they use something up: a replay its agenda, a reader the updates of its
operand, a task the events it has kept. `Signal.effort` weighs all of this so that what a step sends
weighs less than what it uses up. Neither the clock nor the order of the steps matters for this.
-/

namespace TimedStreams

open Update

namespace Operands

theorem length_promise_le (p : Operands) : p.promise.length ≤ 1 := by
  rw [promise]
  cases (p.left.horizon.earlier p.right.horizon).stamp? <;> simp

/-- Each release accounts for its event and for the promise before it. -/
theorem length_drain_le (p : Operands) : p.drain.1.length + 2 * p.drain.2.kept ≤ 2 * p.kept + 1 := by
  induction p using drain_induction with
  | stop p hnext =>
    have hpromise := p.length_promise_le
    simp only [drain_of_none hnext]
    omega
  | release p side s q hnext ih =>
    have hpromise := p.length_promise_le
    have hkept := kept_lt_of_next? hnext
    rw [drain_of_some hnext]
    simp only [List.length_append, List.length_cons]
    omega

theorem length_pairUp_le (p : Operands) :
    (p.pairUp.1.map Update.event ++ p.pairUp.2.pairPromise).length + 2 * p.pairUp.2.kept ≤ 2 * p.kept + 1 := by
  have hpromise : p.pairUp.2.pairPromise.length ≤ 1 := by
    rw [pairPromise]
    split
    · exact Nat.zero_le _
    · cases (p.pairUp.2.left.horizon.later p.pairUp.2.right.horizon).stamp? <;> simp
  have hpairs : p.pairUp.1.length = min p.left.pending.length p.right.pending.length := List.length_zipWith
  have hkept : p.pairUp.2.kept = (p.left.pending.length - min p.left.pending.length p.right.pending.length)
      + (p.right.pending.length - min p.left.pending.length p.right.pending.length) := by
    simp [kept, pairUp]
  rw [List.length_append, List.length_map, hpairs, hkept, kept]
  omega

theorem kept_receive_le (p : Operands) (side : Side) (update : Option Update) :
    (p.receive side update).kept ≤ p.kept + (if update.isSome then 1 else 0) := by
  cases side <;> rcases update with _ | ⟨s⟩ | stamp <;> simp [receive, kept, Operand.receive] <;> omega

/-- The number of operands that may still bring something. -/
def opens (p : Operands) : Nat :=
  p.left.isOpen.toNat + p.right.isOpen.toNat

theorem opens_receive_some (p : Operands) (side : Side) (u : Update) :
    (p.receive side (some u)).opens = p.opens := by
  cases side <;> cases u <;> rfl

theorem opens_receive_none {p : Operands} {side : Side} (hopen : p.isOpen side = true) :
    (p.receive side none).opens + 1 = p.opens := by
  cases side <;> simp_all [isOpen, receive, opens, Operand.receive]
  omega

theorem opens_drain (p : Operands) : p.drain.2.opens = p.opens := by
  have hleft : p.drain.2.left.isOpen = p.left.isOpen := isOpen_drain p .left
  have hright : p.drain.2.right.isOpen = p.right.isOpen := isOpen_drain p .right
  rw [opens, opens, hleft, hright]

end Operands

namespace Task

/-- The weight of what a task has kept and of what it waits for. -/
def effort : Task → Nat
  | merge p | zip p | combineLatest p _ => 2 * p.kept + 2 * p.opens
  | chain .left => 2
  | chain .right => 1
  | chain .finished => 0

variable {task : Task} {side : Side}

theorem length_react_le (l : Latest) (released : List Released) :
    (l.react released).1.length ≤ released.length := by
  induction released generalizing l with
  | nil => exact le_rfl
  | cons x rest ih =>
    cases x with
    | promise stamp => exact Nat.succ_le_succ (ih l)
    | event side s =>
      have hrest := ih (l.replace side s.event)
      simp only [Latest.react]
      cases (l.replace side s.event).joined? with
      | none => exact Nat.le_succ_of_le hrest
      | some e => exact Nat.succ_le_succ hrest

theorem effort_receive_some (task : Task) (side : Side) (u : Update) :
    (task.receive side (some u)).1.length + (task.receive side (some u)).2.effort ≤ task.effort + 3 := by
  have hkept : ∀ p : Operands, (p.receive side (some u)).kept ≤ p.kept + 1 :=
    fun p => p.kept_receive_le side (some u)
  cases task with
  | chain stage => cases stage <;> simp [receive, effort]
  | merge p =>
    have hdrain := (p.receive side (some u)).length_drain_le
    have hopens := (p.receive side (some u)).opens_drain
    have hp := hkept p
    rw [Operands.opens_receive_some] at hopens
    simp only [receive, effort, List.length_map]
    omega
  | zip p =>
    have hpairs := (p.receive side (some u)).length_pairUp_le
    have hopens : (p.receive side (some u)).pairUp.2.opens = p.opens := Operands.opens_receive_some p side u
    have hp := hkept p
    simp only [receive, effort]
    omega
  | combineLatest p latest =>
    have hdrain := (p.receive side (some u)).length_drain_le
    have hreact := length_react_le latest (p.receive side (some u)).drain.1
    have hopens := (p.receive side (some u)).opens_drain
    have hp := hkept p
    rw [Operands.opens_receive_some] at hopens
    simp only [receive, effort]
    omega

theorem effort_receive_none (hwants : task.wants side = true) :
    (task.receive side none).1.length + (task.receive side none).2.effort < task.effort := by
  have hkept : ∀ p : Operands, (p.receive side none).kept ≤ p.kept := fun p => p.kept_receive_le side none
  have hboth := (Bool.and_eq_true_iff.1 hwants).2
  cases task with
  | chain stage => cases stage <;> cases side <;> simp_all [receive, effort]
  | merge p =>
    have hdrain := (p.receive side none).length_drain_le
    have hopens := (p.receive side none).opens_drain
    have hclosed := Operands.opens_receive_none (p := p) hboth
    have hp := hkept p
    simp only [receive, effort, List.length_map]
    omega
  | zip p =>
    have hpairs := (p.receive side none).length_pairUp_le
    have hopens : (p.receive side none).pairUp.2.opens = (p.receive side none).opens := rfl
    have hclosed := Operands.opens_receive_none (p := p) hboth
    have hp := hkept p
    simp only [receive, effort]
    omega
  | combineLatest p latest =>
    have hdrain := (p.receive side none).length_drain_le
    have hreact := length_react_le latest (p.receive side none).drain.1
    have hopens := (p.receive side none).opens_drain
    have hclosed := Operands.opens_receive_none (p := p) hboth
    have hp := hkept p
    simp only [receive, effort]
    omega

end Task

namespace Outlet

theorem length_queue_sendAll_le (out : Outlet) (us : List Update) :
    (out.sendAll us).queue.length ≤ out.queue.length + us.length := by
  induction us generalizing out with
  | nil => exact le_rfl
  | cons u rest ih =>
    have hsend : (out.send u).queue.length ≤ out.queue.length + 1 := by
      cases u with
      | event s => simp [send, emit]
      | progress stamp =>
        rw [send, advance]
        split <;> simp
    have hrest := ih (out.send u)
    rw [sendAll_cons, List.length_cons]
    omega

end Outlet

namespace Signal

/-- The weight of everything that can still happen in a tree, the reading of its outlet included. -/
def effort : Signal → Nat
  | replay out _ rest => out.queue.length + 3 * (rest.length + 1)
  | manual out _ | ended out => out.queue.length
  | adjacentPairs out _ source => out.queue.length + (2 * source.effort + 1)
  | join out task left right => out.queue.length + (4 * (left.effort + right.effort) + task.effort)

variable {due : Nat → Prop} {signal signal' : Signal} {update : Option Update}

theorem Reads.effort_some {u : Update} (hreads : signal.Reads (some u) signal') :
    signal'.effort + 1 = signal.effort := by
  cases hreads with
  | @update u rest hqueue =>
    cases signal <;> simp only [outlet] at hqueue <;> simp only [withQueue, withOutlet, outlet, effort,
      hqueue, List.length_cons] <;>
      omega

/-- Whoever reads an update has one less to read; reading the end takes nothing. -/
theorem Reads.effort (hreads : signal.Reads update signal') :
    signal'.effort + (if update.isSome then 1 else 0) = signal.effort := by
  cases hreads with
  | done hended hqueue => rfl
  | update hqueue => exact Reads.effort_some (.update hqueue)

theorem Hears.effort {side : Side} {left right left' right' : Signal}
    (hhears : Hears update side left right left' right') :
    left'.effort + right'.effort + (if update.isSome then 1 else 0) = left.effort + right.effort := by
  cases hhears with
  | left hreads =>
    have hless := hreads.effort
    omega
  | right hreads =>
    have hless := hreads.effort
    omega

theorem effort_signal_le (w : Worker) (left right : Signal) :
    (w.signal left right).effort ≤ w.out.queue.length + (4 * (left.effort + right.effort) + w.task.effort) := by
  rw [Worker.signal]
  split
  · exact Nat.le_add_right _ _
  · exact le_rfl

/-- What a task receives weighs more than what it sends. -/
theorem effort_receive_lt {out : Outlet} {task : Task} {side : Side} {left right left' right' : Signal}
    (hwants : task.wants side = true) (hhears : Hears update side left right left' right') :
    (out.sendAll (task.receive side update).1).queue.length
        + (4 * (left'.effort + right'.effort) + (task.receive side update).2.effort)
      < (join out task left right).effort := by
  have hqueue := Outlet.length_queue_sendAll_le out (task.receive side update).1
  have hoperands := hhears.effort
  simp only [effort]
  cases update with
  | none =>
    have htask := Task.effort_receive_none hwants
    simp only [Option.isSome_none, Bool.false_eq_true, if_false] at hoperands
    omega
  | some u =>
    have htask := Task.effort_receive_some task side u
    simp only [Option.isSome_some, if_true] at hoperands
    omega

/-- Every step uses something up. -/
theorem Step.effort_lt (hstep : Step due signal signal') : signal'.effort < signal.effort := by
  induction hstep with
  | @wake out next rest hdue =>
    cases rest with
    | nil => simp [announce, effort, Outlet.emit]
    | cons s rest =>
      have hqueue := Outlet.length_queue_sendAll_le out [.event next, .progress s.stamp]
      simp only [Outlet.sendAll_cons, Outlet.sendAll_nil, Outlet.send, List.length_cons,
        List.length_nil] at hqueue
      simp only [announce, effort, List.length_cons]
      omega
  | @pair out previous source source' u hreads =>
    have hqueue := Outlet.length_queue_sendAll_le out [pairWith previous u]
    have hsource := hreads.effort_some
    simp only [Outlet.sendAll_cons, Outlet.sendAll_nil, List.length_cons, List.length_nil] at hqueue
    simp only [effort]
    omega
  | close hreads =>
    simp only [effort]
    omega
  | @hear out task side update left right left' right' hwants hhears =>
    have hsignal := effort_signal_le (Worker.hear side ⟨task, out⟩ update) left' right'
    rw [Worker.hear, if_pos hwants] at hsignal ⊢
    exact hsignal.trans_lt (effort_receive_lt hwants hhears)
  | source hstep ih =>
    simp only [effort]
    omega
  | left hstep ih =>
    simp only [effort]
    omega
  | right hstep ih =>
    simp only [effort]
    omega

end Signal

theorem Live.Acts.effort_lt {live live' : Live} (hacts : live.Acts live') :
    live'.signal.effort < live.signal.effort := by
  cases hacts with
  | work hstep => exact hstep.effort_lt
  | take hreads => exact hreads.effort_some ▸ Nat.lt_succ_self _

end TimedStreams
