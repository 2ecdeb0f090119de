import TimedStreams.Proofs.Instants

/-!
# What was sent to two operands

Where a signal is driven from outside nothing is known of its future. There is only what has been
sent, and that nothing sent later is stamped before it. A `Producer` is all that has been sent, as
if nothing had been read. Of two producers an event is settled once nothing that either may still
send can come before it in the interleaving, as far as their updates tell, and the settled beginning
of the interleaving is what may be released (`Producer.releasable`).

`Operands.Attend` ties two operands to what was sent to them, and `Operands.Releasing` says that they
release it in order, the settled events only. When both have read all that there is and can release
no more, exactly the settled beginning has been released (`Operands.Releasing.eq_releasable`).
-/

namespace TimedStreams

open Stamped Update

/-! ### Producers -/

/-- A producer by all that it has sent: its outlet as if nothing had been read. -/
structure Producer where
  channel : Outlet := {}
  /-- Whether it may send more. -/
  isOpen : Bool := true
  deriving DecidableEq, Repr

namespace Producer

def events (producer : Producer) : List Stamped :=
  stampedOf producer.channel.queue

/-- The producer has completed or has sent an update stamped no earlier. -/
def reaches (producer : Producer) (stamp : Nat) : Bool :=
  !producer.isOpen || producer.channel.queue.any fun u => stamp ≤ u.stamp

/-- The producer has completed or has sent an update stamped later. -/
def passes (producer : Producer) (stamp : Nat) : Bool :=
  !producer.isOpen || producer.channel.queue.any fun u => stamp < u.stamp

/-- The other side has got far enough for an event of one side, where ties go to the left. -/
def settled (first second : Producer) : Side × Stamped → Bool
  | (.left, s) => second.reaches s.stamp
  | (.right, s) => first.passes s.stamp

/-- The longest beginning of the interleaving in which every event is settled. -/
def releasable (first second : Producer) : List (Side × Stamped) :=
  (interleave first.events second.events).takeWhile (settled first second)

end Producer

/-! ### What may still be received -/

theorem Update.Rises.exists_top {level top : Option Nat} {us : List Update} (hus : Rises level us top)
    {u : Update} (hu : u ∈ us) : ∃ stamp, top = some stamp ∧ u.stamp ≤ stamp := by
  have hsome : ∀ {level : Nat} {us : List Update}, Rises (some level) us top → ∃ stamp, top = some stamp := by
    intro level us hus
    induction us generalizing level with
    | nil => exact ⟨level, hus.symm⟩
    | cons v rest ih => exact ih hus.2
  cases us with
  | nil => cases hu
  | cons v rest =>
    obtain ⟨stamp, rfl⟩ := hsome hus.2
    exact ⟨stamp, rfl, hus.le_top hu⟩

theorem Update.Rises.mem_of_top {us : List Update} {stamp : Nat} (hus : Rises none us (some stamp)) :
    ∃ u ∈ us, u.stamp = stamp := by
  have hlast : ∀ {level : Option Nat} {us : List Update}, Rises level us (some stamp) →
      level = some stamp ∨ ∃ u ∈ us, u.stamp = stamp := by
    intro level us hus
    induction us generalizing level with
    | nil => exact .inl hus
    | cons u rest ih =>
      right
      rcases ih hus.2 with htop | ⟨v, hv, hstamp⟩
      · exact ⟨u, List.mem_cons_self, Option.some.inj htop⟩
      · exact ⟨v, List.mem_cons_of_mem _ hv, hstamp⟩
  exact (hlast hus).resolve_left (by simp)

namespace Signal

/-- The events that have been sent and not yet read. -/
def unread (signal : Signal) : List Stamped :=
  stampedOf signal.outlet.queue

variable {signal signal' left right left' right' : Signal} {update : Option Update} {side : Side}
  {future future' : List Stamped}

theorem Reads.maySend (hreads : signal.Reads update signal') (hfuture : signal'.MaySend future) :
    signal.MaySend future := by
  cases hreads with
  | update hqueue => exact hfuture.of_withQueue
  | done hended hqueue => exact hfuture

/-- The update that is read is the next of what can still be read, whatever is sent later. -/
theorem Reads.next (hreads : signal.Reads update signal') (hsound : signal.outlet.Sound)
    (hfuture : signal'.MaySend future) :
    Operand.Next update (signal.unread ++ future) (signal'.unread ++ future) := by
  have hfrom := (hreads.maySend hfuture).from_reach
  cases hreads with
  | @update u rest hqueue =>
    obtain ⟨level, hrises⟩ := hsound
    rw [hqueue, rises_cons] at hrises
    refine ⟨?_, ?_, by simp⟩
    · rw [unread, hqueue, unread, outlet_withQueue]
      cases u <;> simp
    · intro v hv
      obtain rfl := Option.some.inj hv
      rw [unread, outlet_withQueue, from_append]
      exact ⟨hrises.2.from_level, hfrom.mono hrises.2.level_le_top⟩
  | done hended hqueue =>
    rw [unread, hqueue, hfuture.closed hended]
    exact ⟨rfl, by simp, fun _ => rfl⟩

end Signal

/-! ### Operands -/

namespace Operand

/-- What has been received is the beginning of what was sent, and what is kept is the end of that. -/
structure Attends (o : Operand) (producer : Producer) (signal : Signal) : Prop where
  follows : o.Follows signal
  hasEnded : signal.hasEnded = !producer.isOpen
  received : ∃ read, producer.channel.queue = read ++ signal.outlet.queue ∧ Rises none read o.reached ∧
    o.pending <:+ stampedOf read

variable {o o' : Operand} {producer : Producer} {signal signal' : Signal} {update : Option Update}
  {future : List Stamped} {stamp : Nat}

theorem Follows.awaits_future (hfollows : o.Follows signal) (hfuture : signal.MaySend future) :
    o.Awaits (signal.unread ++ future) := by
  have hlater : From (o.reached.getD 0) (signal.unread ++ future) :=
    from_append.2 ⟨hfollows.rises.from_level, hfuture.from_reach.mono hfollows.rises.level_le_top⟩
  refine ⟨?_, hfollows.pending_upTo, hlater, ?_⟩
  · refine ascending_append.2 ⟨hfollows.ascending, ascending_append.2 ⟨hfollows.rises.ascending,
      hfuture.ascending, ?_⟩, ?_⟩
    · intro s hs
      exact hfuture.from_reach.mono (hfollows.rises.upTo_top s hs)
    · intro s hs
      exact hlater.mono (hfollows.pending_upTo s hs)
  · intro hclosed
    obtain ⟨hended, hqueue⟩ := hfollows.closed hclosed
    rw [Signal.unread, hqueue, hfuture.closed hended, stampedOf_nil, List.append_nil]

theorem Attends.sound (ho : o.Attends producer signal) : signal.outlet.Sound :=
  ⟨_, ho.follows.rises⟩

theorem Attends.receive (ho : o.Attends producer signal) (hreads : signal.Reads update signal') :
    (o.receive update).Attends producer signal' := by
  obtain ⟨hfollows, hended, read, hqueue, hrises, hpending⟩ := ho
  have hfollows' := hfollows.receive hreads
  cases hreads with
  | done hdone hempty =>
    refine ⟨hfollows', hended, read, hqueue, hrises, ?_⟩
    rw [pending_receive, brings_none, List.append_nil]
    exact hpending
  | @update u rest hunread =>
    refine ⟨hfollows', by rw [Signal.hasEnded_withQueue, hended], read ++ [u], ?_, ?_, ?_⟩
    · rw [hqueue, hunread, Signal.outlet_withQueue, List.append_assoc, List.singleton_append]
    · have hle : o.reached.getD 0 ≤ u.stamp := hfollows.rises.level_le (hunread ▸ List.mem_cons_self)
      rw [reached_receive_some, Nat.max_eq_right hle]
      exact hrises.append ⟨hle, rfl⟩
    · rw [pending_receive, stampedOf_append]
      exact List.suffix_append_self_iff.2 hpending

theorem Attends.of_suffix (ho : o.Attends producer signal) (hfollows : o'.Follows signal)
    (hreached : o'.reached = o.reached) (hpending : o'.pending <:+ o.pending) : o'.Attends producer signal := by
  obtain ⟨-, hended, read, hqueue, hrises, hkept⟩ := ho
  exact ⟨hfollows, hended, read, hqueue, hreached ▸ hrises, hpending.trans hkept⟩

theorem Attends.exists_of_known (ho : o.Attends producer signal) (hknown : o.horizon = .known stamp) :
    ∃ u ∈ producer.channel.queue, u.stamp = stamp := by
  obtain ⟨-, -, read, hqueue, hrises, hpending⟩ := ho
  have hread : ∀ {u : Update}, u ∈ read → u ∈ producer.channel.queue := by
    intro u hu
    rw [hqueue]
    exact List.mem_append_left _ hu
  rcases horizon_eq_known hknown with ⟨s, rest, hkept, rfl⟩ | ⟨-, -, hreached⟩
  · have hs : s ∈ stampedOf read := hpending.subset (hkept ▸ List.mem_cons_self)
    exact ⟨.event s, hread (mem_stampedOf.1 hs), rfl⟩
  · rw [hreached] at hrises
    obtain ⟨u, hu, hstamp⟩ := hrises.mem_of_top
    exact ⟨u, hread hu, hstamp⟩

theorem Attends.isOpen_eq_false (ho : o.Attends producer signal) (hclosed : o.isOpen = false) :
    producer.isOpen = false := by
  have hended := (ho.follows.closed hclosed).1
  rw [ho.hasEnded] at hended
  simpa using hended

theorem Attends.isOpen_of_done (ho : o.Attends producer signal) (hdone : o.horizon = .done) :
    producer.isOpen = false :=
  ho.isOpen_eq_false (exhausted_iff.1 (horizon_eq_done_iff.1 hdone)).1

theorem Attends.reaches_of_notAfter (ho : o.Attends producer signal)
    (hle : (Horizon.known stamp).notAfter o.horizon = true) : producer.reaches stamp = true := by
  cases hhorizon : o.horizon with
  | unknown => simp [hhorizon, Horizon.notAfter] at hle
  | done => simp [Producer.reaches, ho.isOpen_of_done hhorizon]
  | known other =>
    obtain ⟨u, hu, rfl⟩ := ho.exists_of_known hhorizon
    rw [hhorizon, Horizon.notAfter] at hle
    exact Bool.or_eq_true_iff.2 (.inr (List.any_eq_true.2 ⟨u, hu, hle⟩))

theorem Attends.passes_of_not_notAfter (ho : o.Attends producer signal)
    (hlt : ¬ o.horizon.notAfter (.known stamp) = true) : producer.passes stamp = true := by
  cases hhorizon : o.horizon with
  | unknown => exact absurd (by rw [hhorizon]; rfl) hlt
  | done => simp [Producer.passes, ho.isOpen_of_done hhorizon]
  | known other =>
    obtain ⟨u, hu, rfl⟩ := ho.exists_of_known hhorizon
    rw [hhorizon, Horizon.notAfter, decide_eq_true_eq] at hlt
    refine Bool.or_eq_true_iff.2 (.inr (List.any_eq_true.2 ⟨u, hu, ?_⟩))
    exact decide_eq_true (Nat.lt_of_not_le hlt)

/-! ### Operands that have been read up -/

theorem Attends.queue_eq_nil (ho : o.Attends producer signal) (hread : o.isOpen = true → signal.ReadUp) :
    signal.outlet.queue = [] := by
  cases hopen : o.isOpen with
  | true => exact (hread hopen).queue_eq
  | false => exact (ho.follows.closed hopen).2

theorem Attends.isOpen_eq (ho : o.Attends producer signal) (hread : o.isOpen = true → signal.ReadUp) :
    producer.isOpen = o.isOpen := by
  cases hopen : o.isOpen with
  | true =>
    have hended := ho.hasEnded
    rw [(hread hopen).open_] at hended
    simpa using hended.symm
  | false => exact ho.isOpen_eq_false hopen

theorem Attends.stamp_le_horizon (ho : o.Attends producer signal) (hread : o.isOpen = true → signal.ReadUp)
    (hopen : o.isOpen = true) (hempty : o.pending = []) {u : Update} (hu : u ∈ producer.channel.queue) :
    ∃ stamp, o.horizon = .known stamp ∧ u.stamp ≤ stamp := by
  obtain ⟨read, hqueue, hrises, -⟩ := ho.received
  rw [ho.queue_eq_nil hread, List.append_nil] at hqueue
  obtain ⟨stamp, hreached, hle⟩ := hrises.exists_top (hqueue ▸ hu)
  refine ⟨stamp, ?_, hle⟩
  rw [horizon, hempty, hopen, hreached]

theorem Attends.reaches_eq_false (ho : o.Attends producer signal) (hread : o.isOpen = true → signal.ReadUp)
    (hopen : o.isOpen = true) (hempty : o.pending = [])
    (hlt : ¬ (Horizon.known stamp).notAfter o.horizon = true) : producer.reaches stamp = false := by
  rw [Producer.reaches, ho.isOpen_eq hread, hopen, Bool.not_true, Bool.false_or, List.any_eq_false]
  intro u hu hle
  obtain ⟨top, hhorizon, htop⟩ := ho.stamp_le_horizon hread hopen hempty hu
  rw [hhorizon, Horizon.notAfter, decide_eq_true_eq] at hlt
  exact hlt ((of_decide_eq_true hle).trans htop)

theorem Attends.passes_eq_false (ho : o.Attends producer signal) (hread : o.isOpen = true → signal.ReadUp)
    (hopen : o.isOpen = true) (hempty : o.pending = []) (hle : o.horizon.notAfter (.known stamp) = true) :
    producer.passes stamp = false := by
  rw [Producer.passes, ho.isOpen_eq hread, hopen, Bool.not_true, Bool.false_or, List.any_eq_false]
  intro u hu hlt
  obtain ⟨top, hhorizon, htop⟩ := ho.stamp_le_horizon hread hopen hempty hu
  rw [hhorizon, Horizon.notAfter, decide_eq_true_eq] at hle
  have hlate := of_decide_eq_true hlt
  omega

end Operand

/-! ### Both operands -/

/-- What both operands have received is the beginning of what was sent to them. -/
structure Operands.Attend (p : Operands) (first second : Producer) (left right : Signal) : Prop where
  left : p.left.Attends first left
  right : p.right.Attends second right

/-- All that is read in order, whatever is sent later, begins with `released`, which was settled. -/
structure Operands.Releasing (p : Operands) (released : List (Side × Stamped)) (first second : Producer)
    (left right : Signal) : Prop where
  settled : ∀ x ∈ released, Producer.settled first second x = true
  sequence : ∀ {future future' : List Stamped}, left.MaySend future → right.MaySend future' →
    interleave (first.events ++ future) (second.events ++ future')
      = released ++ p.sequence (left.unread ++ future) (right.unread ++ future')

namespace Signal

variable {left right left' right' : Signal} {update : Option Update} {side : Side}
  {future future' : List Stamped}

theorem Hears.maySend (hhears : Hears update side left right left' right') (hfuture : left'.MaySend future)
    (hfuture' : right'.MaySend future') : left.MaySend future ∧ right.MaySend future' := by
  cases hhears with
  | left hreads => exact ⟨hreads.maySend hfuture, hfuture'⟩
  | right hreads => exact ⟨hfuture, hreads.maySend hfuture'⟩

theorem Hears.next (hhears : Hears update side left right left' right') (hleft : left.outlet.Sound)
    (hright : right.outlet.Sound) (hfuture : left'.MaySend future) (hfuture' : right'.MaySend future') :
    Operands.Hears update side (left.unread ++ future) (right.unread ++ future') (left'.unread ++ future)
      (right'.unread ++ future') := by
  cases hhears with
  | left hreads => exact .left (hreads.next hleft hfuture)
  | right hreads => exact .right (hreads.next hright hfuture')

end Signal

namespace Operands

variable {p q : Operands} {first second : Producer} {left right left' right' : Signal} {update : Option Update}
  {side : Side} {s : Stamped} {released : List (Side × Stamped)} {future future' : List Stamped}

theorem Attend.await (hp : p.Attend first second left right) (hfuture : left.MaySend future)
    (hfuture' : right.MaySend future') : p.Await (left.unread ++ future) (right.unread ++ future') :=
  ⟨hp.left.follows.awaits_future hfuture, hp.right.follows.awaits_future hfuture'⟩

theorem Attend.await_unread (hp : p.Attend first second left right) : p.Await left.unread right.unread := by
  simpa using hp.await left.maySend_nil right.maySend_nil

theorem Attend.receive (hp : p.Attend first second left right)
    (hhears : Signal.Hears update side left right left' right') :
    (p.receive side update).Attend first second left' right' := by
  cases hhears with
  | left hreads => exact ⟨hp.left.receive hreads, hp.right⟩
  | right hreads => exact ⟨hp.left, hp.right.receive hreads⟩

theorem Attend.settled_of_next? (hp : p.Attend first second left right) (hnext : p.next? = some (side, s, q)) :
    Producer.settled first second (side, s) = true := by
  rcases next?_cases hnext with ⟨rfl, hleft⟩ | ⟨rfl, hright⟩
  · obtain ⟨rest, -, -, hle⟩ := nextLeft?_eq_some hleft
    exact hp.right.reaches_of_notAfter hle
  · obtain ⟨rest, -, -, hlt⟩ := nextRight?_eq_some hright
    exact hp.left.passes_of_not_notAfter hlt

theorem Attend.of_await {unread unread' : List Stamped} (hp : p.Attend first second left right)
    (hawait : q.Await unread unread')
    (hreached : q.left.reached = p.left.reached ∧ q.right.reached = p.right.reached)
    (hopen : ∀ other, q.isOpen other = p.isOpen other)
    (hpending : q.left.pending <:+ p.left.pending ∧ q.right.pending <:+ p.right.pending) :
    q.Attend first second left right where
  left :=
    have hfollows := hp.left.follows.of_awaits hawait.left hreached.1 (hopen .left)
    hp.left.of_suffix hfollows hreached.1 hpending.1
  right :=
    have hfollows := hp.right.follows.of_awaits hawait.right hreached.2 (hopen .right)
    hp.right.of_suffix hfollows hreached.2 hpending.2

theorem Attend.drain (hp : p.Attend first second left right) : p.drain.2.Attend first second left right :=
  hp.of_await (await_drain hp.await_unread) (reached_drain p) (isOpen_drain p) (pending_drain p)

theorem Attend.pairUp (hp : p.Attend first second left right) : p.pairUp.2.Attend first second left right :=
  hp.of_await (await_pairUp hp.await_unread) ⟨rfl, rfl⟩ (fun other => by cases other <;> rfl)
    ⟨List.drop_suffix _ _, List.drop_suffix _ _⟩

theorem Attend.settled_drain (hp : p.Attend first second left right) :
    ∀ x ∈ Released.events p.drain.1, Producer.settled first second x = true := by
  induction p using drain_induction with
  | stop p hnext => simp [drain_of_none hnext, events_promise_nil]
  | release p side s q hnext ih =>
    have hq : q.Attend first second left right :=
      hp.of_await (await_of_next? hp.await_unread hnext) (reached_of_next? hnext) (isOpen_of_next? hnext)
        (pending_of_next? hnext)
    intro x hx
    rw [drain_of_some hnext, Released.events_append, events_promise_nil, List.nil_append,
      Released.events_event] at hx
    rcases List.mem_cons.1 hx with rfl | hx
    · exact hp.settled_of_next? hnext
    · exact ih hq x hx

/-- What is released after hearing something follows what was released before. -/
theorem Releasing.hear (hreleasing : p.Releasing released first second left right)
    (hp : p.Attend first second left right) (hhears : Signal.Hears update side left right left' right') :
    (p.receive side update).drain.2.Releasing (released ++ Released.events (p.receive side update).drain.1)
      first second left' right' where
  settled := by
    intro x hx
    rcases List.mem_append.1 hx with hx | hx
    · exact hreleasing.settled x hx
    · exact (hp.receive hhears).settled_drain x hx
  sequence := by
    intro future future' hfuture hfuture'
    obtain ⟨hbefore, hbefore'⟩ := hhears.maySend hfuture hfuture'
    have hnow := (hp.receive hhears).await hfuture hfuture'
    have hnext := hhears.next hp.left.sound hp.right.sound hfuture hfuture'
    rw [hreleasing.sequence hbefore hbefore', ← sequence_receive hnext, sequence_drain hnow, List.append_assoc]

/-- If nothing can be released although all has been read, the next event of both is not settled. -/
theorem Attend.not_settled (hp : p.Attend first second left right)
    (hleft : p.left.isOpen = true → left.ReadUp) (hright : p.right.isOpen = true → right.ReadUp)
    (hnext : p.next? = none) (hmore : p.finished = false) {x : Side × Stamped} {rest : List (Side × Stamped)}
    (hsequence : p.sequence [] [] = x :: rest) : Producer.settled first second x = false := by
  rw [sequence, List.append_nil, List.append_nil] at hsequence
  rcases open_of_next?_eq_none hnext hmore with ⟨hempty, hopen⟩ | ⟨hempty, hopen⟩
  · rw [hempty, interleave_nil_left] at hsequence
    cases hpending : p.right.pending with
    | nil => simp [hpending] at hsequence
    | cons t kept =>
      rw [hpending, List.map_cons] at hsequence
      obtain ⟨rfl, -⟩ := List.cons.inj hsequence
      exact hp.left.passes_eq_false hleft hopen hempty (notAfter_of_next?_eq_none hnext hpending)
  · rw [hempty, interleave_nil_right] at hsequence
    cases hpending : p.left.pending with
    | nil => simp [hpending] at hsequence
    | cons s kept =>
      rw [hpending, List.map_cons] at hsequence
      obtain ⟨rfl, -⟩ := List.cons.inj hsequence
      exact hp.right.reaches_eq_false hright hopen hempty (not_notAfter_of_next?_eq_none hnext hpending)

/-- If all has been read and nothing more can be released, everything that is settled has been released. -/
theorem Releasing.eq_releasable (hreleasing : p.Releasing released first second left right)
    (hp : p.Attend first second left right) (hleft : p.left.isOpen = true → left.ReadUp)
    (hright : p.right.isOpen = true → right.ReadUp) (hnext : p.next? = none) (hmore : p.finished = false) :
    released = Producer.releasable first second := by
  have hsplit := hreleasing.sequence left.maySend_nil right.maySend_nil
  rw [Signal.unread, Signal.unread, hp.left.queue_eq_nil hleft, hp.right.queue_eq_nil hright] at hsplit
  simp only [stampedOf_nil, List.append_nil] at hsplit
  rw [Producer.releasable, hsplit, List.takeWhile_append_of_pos hreleasing.settled]
  cases hsequence : p.sequence [] [] with
  | nil => simp
  | cons x rest =>
    have hheld := hp.not_settled hleft hright hnext hmore hsequence
    rw [List.takeWhile_cons_of_neg (by simp [hheld]), List.append_nil]

end Operands

end TimedStreams
