import TimedStreams.Proofs.Promises

/-!
# What a driven chain has sent

A chain forwards all that its left producer sends, and whatever the right one sends in the meantime
waits unread. Once the left has completed, the right is forwarded through the same outlet, which
still remembers how far the left had got: every event of the right is raised to the largest stamp
that the left has ever sent, be it with an event or as progress.

The outlet of a chain is that of a single producer that has sent all that the chain has heard
(`Driven.Chained`). What it has heard is a beginning of the left's updates, and only behind all of
them a beginning of the right's (`Driven.Chained.exists_heard`). When the chain is idle it has heard
all there is (`Driven.Chained.sent_of_idle`), so that all it has sent, promises included, is a
function of what both producers have sent and of nothing else (`Driven.chain_of_run`).
-/

namespace TimedStreams

open Relation Stamped Update

/-- Updates that rise are honest. -/
theorem Update.Rises.honest {level top : Option Nat} {us : List Update} (hus : Rises level us top) : Honest us [] := by
  induction us generalizing level with
  | nil => exact honest_nil _
  | cons u rest ih =>
    obtain ⟨-, hrest⟩ := hus
    refine honest_cons.2 ⟨?_, ih hrest⟩
    rw [List.append_nil]
    exact hrest.from_level

namespace Producer

/-- The largest stamp that the producer has ever sent, the origin if it has sent nothing. -/
def furthest (producer : Producer) : Nat :=
  (producer.channel.queue.map Update.stamp).max?.getD 0

end Producer

/-- What is sent behind honest updates is raised to the largest stamp among them. -/
theorem Outlet.stampedOf_sendAll_append {ls rs : List Update} (hls : Honest ls []) (hrs : Honest rs []) :
    stampedOf (({} : Outlet).sendAll (ls ++ rs)).queue
      = stampedOf ls ++ raiseAll ((ls.map Update.stamp).max?.getD 0) (stampedOf rs) := by
  have hfirst := stampedOf_queue_sendAll {} hls
  have hsecond := stampedOf_queue_sendAll (({} : Outlet).sendAll ls) hrs
  have hzero : ({} : Outlet).reach = 0 := rfl
  have hreach : (({} : Outlet).sendAll ls).reach = (ls.map Update.stamp).max?.getD 0 := by
    rw [reach, frontier_sendAll]
  simp only [raiseAll_nil, List.append_nil, hzero, raiseAll_zero, stampedOf_nil, List.nil_append] at hfirst
  simp only [raiseAll_nil, List.append_nil, hreach, hfirst] at hsecond
  rw [sendAll_append, hsecond]

namespace Driven

variable {d d' : Driven} {side : Side}

/-! ### What a chain has heard -/

theorem producer_drive (d : Driven) (side other : Side) (producer : Producer) (f : Outlet → Signal) :
    (d.drive side producer f).producer other = if other = side then producer else d.producer other := by
  cases side <;> cases other <;> rfl

/-- All that the producers of a chain send is heard, and so it rises to their frontiers. -/
theorem Moves.rises_producer (hmoves : Moves d d') (hd : d.Chained)
    (hrises : ∀ side, Rises none (d.producer side).channel.queue (d.producer side).channel.frontier) (side : Side) :
    Rises none (d'.producer side).channel.queue (d'.producer side).channel.frontier := by
  cases hmoves with
  | work hstep => exact hrises side
  | take hreads => exact hrises side
  | @close moved hopen =>
    rw [Driven.close, producer_drive]
    split
    · exact hrises moved
    · exact hrises side
  | @send moved u hopen =>
    rw [Driven.send, producer_drive, hd.hasManual hopen]
    split
    · exact Outlet.rises_send (hrises moved) u
    · exact hrises side

theorem rises_producer_of_run (hrun : ReflTransGen Moves (start .chain) d) (side : Side) :
    Rises none (d.producer side).channel.queue (d.producer side).channel.frontier := by
  induction hrun generalizing side with
  | refl => cases side <;> rfl
  | tail hbefore hmoves ih => exact hmoves.rises_producer (chained_of_run hbefore) ih side

/-- A chain has heard a beginning of what the left has sent, and once it has heard all of that and the
left has completed, a beginning of what the right has sent. -/
theorem Chained.exists_heard (hd : d.Chained) :
    ∃ ls rs, ls <+: d.left.channel.queue ∧ rs <+: d.right.channel.queue ∧
      d.sent = (({} : Outlet).sendAll (ls ++ rs)).queue ∧
      (rs = [] ∨ d.left.isOpen = false ∧ ls = d.left.channel.queue) := by
  cases hd with
  | @left out read unread hsignal hqueue hsent =>
    refine ⟨read, [], ⟨unread, hqueue.symm⟩, List.nil_prefix, ?_, .inl rfl⟩
    rw [List.append_nil, sent, hsignal]
    exact congrArg Outlet.queue hsent
  | @right out read unread hclosed hsignal hqueue hsent =>
    refine ⟨d.left.channel.queue, read, List.prefix_rfl, ⟨unread, hqueue.symm⟩, ?_, .inr ⟨hclosed, rfl⟩⟩
    rw [sent, hsignal]
    exact congrArg Outlet.queue hsent
  | finished hclosed hclosed' hsignal hsent =>
    refine ⟨_, _, List.prefix_rfl, List.prefix_rfl, ?_, .inr ⟨hclosed, rfl⟩⟩
    rw [sent, hsignal]
    exact congrArg Outlet.queue hsent

/-- An idle chain has heard all of the left, and all of the right once the left has completed. -/
theorem Chained.sent_of_idle (hd : d.Chained) (hidle : d.Idle) :
    d.sent = (({} : Outlet).sendAll
      (d.left.channel.queue ++ if d.left.isOpen then [] else d.right.channel.queue)).queue := by
  have hnone := hidle fun _ => True
  cases hd with
  | @left out read unread hsignal hqueue hsent =>
    rw [hsignal] at hnone
    obtain ⟨hempty, hmore⟩ := hnone.left_readUp.2 rfl
    obtain rfl : unread = [] := by simpa [Producer.signal] using hempty
    have hopen : d.left.isOpen = true := by simpa [Producer.signal] using hmore
    rw [hqueue, hopen, if_pos rfl, sent, hsignal, List.append_nil, List.append_nil]
    exact congrArg Outlet.queue hsent
  | @right out read unread hclosed hsignal hqueue hsent =>
    rw [hsignal] at hnone
    obtain ⟨hempty, -⟩ := hnone.right_readUp.2 rfl
    obtain rfl : unread = [] := by simpa [Producer.signal] using hempty
    rw [hqueue, if_neg (by simp [hclosed]), sent, hsignal, List.append_nil]
    exact congrArg Outlet.queue hsent
  | finished hclosed hclosed' hsignal hsent =>
    rw [if_neg (by simp [hclosed]), sent, hsignal]
    exact congrArg Outlet.queue hsent

/-! ### When a chain has ended -/

theorem Chained.closed_of_hasEnded (hd : d.Chained) (hended : d.signal.hasEnded = true) :
    d.left.isOpen = false ∧ d.right.isOpen = false := by
  cases hd with
  | left hsignal hqueue hsent => simp [hsignal, Signal.hasEnded] at hended
  | right hclosed hsignal hqueue hsent => simp [hsignal, Signal.hasEnded] at hended
  | finished hclosed hclosed' hsignal hsent => exact ⟨hclosed, hclosed'⟩

theorem Chained.hasEnded_iff (hd : d.Chained) (hidle : d.Idle) :
    d.signal.hasEnded = true ↔ d.left.isOpen = false ∧ d.right.isOpen = false := by
  refine ⟨hd.closed_of_hasEnded, fun ⟨hleft, hright⟩ => ?_⟩
  have hnone := hidle fun _ => True
  cases hd with
  | left hsignal hqueue hsent =>
    rw [hsignal] at hnone
    exact absurd (hnone.left_readUp.2 rfl).open_ (by simp [Producer.signal, hleft])
  | right hclosed hsignal hqueue hsent =>
    rw [hsignal] at hnone
    exact absurd (hnone.right_readUp.2 rfl).open_ (by simp [Producer.signal, hright])
  | finished hclosed hclosed' hsignal hsent =>
    rw [hsignal]
    rfl

theorem Chained.unfinished (hd : d.Chained) : d.signal.Unfinished := by
  cases hd with
  | left hsignal hqueue hsent =>
    rw [hsignal]
    exact ⟨rfl, Producer.unfinished_named, Producer.unfinished_named⟩
  | right hclosed hsignal hqueue hsent =>
    rw [hsignal]
    exact ⟨rfl, Producer.unfinished_named, Producer.unfinished_named⟩
  | finished hclosed hclosed' hsignal hsent =>
    rw [hsignal]
    trivial

/-! ### The output -/

/-- However a chain is driven, it sends all events of its left producer as they are and, not before the left
has completed, all events of its right producer raised to the largest stamp that the left has ever sent. An
idle chain has sent all of the left and, if the left has completed, all that the right has sent so far; it has
ended if and only if both have completed. What both have sent and whether they have completed determines all
that an idle chain has sent. -/
theorem chain_of_run (hrun : ReflTransGen Moves (start .chain) d) :
    d.output <+: d.left.events ++ raiseAll d.left.furthest d.right.events ∧
      (d.left.isOpen = true → d.output <+: d.left.events) ∧
      (d.signal.hasEnded = true → d.left.isOpen = false ∧ d.right.isOpen = false) ∧
      (d.Idle →
        d.output = d.left.events ++ (if d.left.isOpen then [] else raiseAll d.left.furthest d.right.events) ∧
        (d.signal.hasEnded = true ↔ d.left.isOpen = false ∧ d.right.isOpen = false) ∧
        ∀ d', ReflTransGen Moves (start .chain) d' → d'.Idle →
          (∀ side, (d'.producer side).channel.queue = (d.producer side).channel.queue ∧
            (d'.producer side).isOpen = (d.producer side).isOpen) →
          d'.sent = d.sent ∧ d'.signal.hasEnded = d.signal.hasEnded) := by
  have hd := chained_of_run hrun
  have hleft : Honest d.left.channel.queue [] := (rises_producer_of_run hrun .left).honest
  have hright : Honest d.right.channel.queue [] := (rises_producer_of_run hrun .right).honest
  have hbegins : d.output <+: d.left.events ++ raiseAll d.left.furthest d.right.events ∧
      (d.left.isOpen = true → d.output <+: d.left.events) := by
    obtain ⟨ls, rs, ⟨ls', hls⟩, ⟨rs', hrs⟩, hsent, hbehind⟩ := hd.exists_heard
    have hheard : Honest ls [] := (honest_append.1 (hls ▸ hleft)).1.nil
    have hheard' : Honest rs [] := (honest_append.1 (hrs ▸ hright)).1.nil
    have houtput := (congrArg stampedOf hsent).trans (Outlet.stampedOf_sendAll_append hheard hheard')
    have hevents : stampedOf ls <+: d.left.events := ⟨stampedOf ls', by rw [Producer.events, ← hls, stampedOf_append]⟩
    have hevents' : d.right.events = stampedOf rs ++ stampedOf rs' := by
      rw [Producer.events, ← hrs, stampedOf_append]
    rw [show d.output = _ from houtput]
    rcases hbehind with rfl | ⟨hclosed, rfl⟩
    · rw [stampedOf_nil, raiseAll_nil, List.append_nil]
      exact ⟨hevents.trans (List.prefix_append _ _), fun _ => hevents⟩
    · rw [hevents', raiseAll_append, ← List.append_assoc]
      exact ⟨List.prefix_append _ _, fun hopen => absurd hopen (by simp [hclosed])⟩
  refine ⟨hbegins.1, hbegins.2, hd.closed_of_hasEnded, fun hidle => ⟨?_, hd.hasEnded_iff hidle, ?_⟩⟩
  · have hheard : Honest (if d.left.isOpen then [] else d.right.channel.queue) [] := by
      split
      · exact honest_nil _
      · exact hright
    rw [show d.output = stampedOf d.sent from rfl, hd.sent_of_idle hidle, Outlet.stampedOf_sendAll_append hleft hheard]
    split <;> rfl
  · intro d' hrun' hidle' hsame
    have hd' := chained_of_run hrun'
    obtain ⟨hqueue, hopen⟩ := hsame .left
    obtain ⟨hqueue', hopen'⟩ := hsame .right
    simp only [producer] at hqueue hopen hqueue' hopen'
    refine ⟨?_, Bool.eq_iff_iff.2 ?_⟩
    · rw [hd'.sent_of_idle hidle', hd.sent_of_idle hidle, hqueue, hopen, hqueue']
    · rw [hd'.hasEnded_iff hidle', hd.hasEnded_iff hidle, hopen, hopen']

/-- The right producer sends an event at 5 before the left sends one at 3, promises 9 and completes. -/
def overtaken : Driven :=
  (((((start .chain).send .right (.event ⟨.tick 2 0, 5⟩)).send .left (.event ⟨.tick 1 0, 3⟩)).send .left
    (.progress 9)).close .left).settle

/-- The event of the right is held until the left has completed, and then raised to what the left has promised. -/
theorem chain_of_run_overtaken :
    ReflTransGen Moves (start .chain) overtaken ∧ overtaken.Idle ∧ overtaken.left.furthest = 9 ∧
      overtaken.output = [⟨.tick 1 0, 3⟩, ⟨.tick 2 0, 9⟩] ∧ overtaken.signal.hasEnded = false := by
  have hdriven : ReflTransGen Moves (start .chain) (((((start .chain).send .right (.event ⟨.tick 2 0, 5⟩)).send .left
      (.event ⟨.tick 1 0, 3⟩)).send .left (.progress 9)).close .left) :=
    (((ReflTransGen.single (.send _ rfl)).tail (.send _ rfl)).tail (.send _ rfl)).tail (.close rfl)
  have hrun : ReflTransGen Moves (start .chain) overtaken :=
    hdriven.trans (settle_run (chained_of_run hdriven).unfinished)
  have hidle : overtaken.Idle := idle_settle (by decide +kernel)
  obtain ⟨-, -, hended, hsettled⟩ := chain_of_run hrun
  obtain ⟨houtput, -, -⟩ := hsettled hidle
  refine ⟨hrun, hidle, by decide +kernel, houtput.trans (by decide +kernel), Bool.eq_false_iff.2 fun hdone => ?_⟩
  exact absurd (hended hdone).2 (by decide +kernel)

end Driven

end TimedStreams
