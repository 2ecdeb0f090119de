import TimedStreams.Proofs.Coherence

/-!
# Every step keeps an evaluation coherent

A task that receives an update releases and promises all that follows from it before it receives the
next, and a signal below it only ever sends more. So whichever step is taken, in whichever part of
the tree, the invariant holds afterwards.
-/

namespace TimedStreams

open Stamped Update

namespace Operand

variable {o : Operand} {signal signal' : Signal} {update : Option Update}

theorem Follows.receive (hfollows : o.Follows signal) (hreads : signal.Reads update signal') :
    (o.receive update).Follows signal' := by
  cases hreads with
  | done hended hqueue =>
    exact ⟨hfollows.ascending, hfollows.pending_upTo, hfollows.rises, fun _ => ⟨hended, hqueue⟩⟩
  | @update u rest hqueue =>
    have hrises := hfollows.rises
    rw [hqueue, rises_cons] at hrises
    obtain ⟨hle, hrest⟩ := hrises
    have hreached : (o.receive (some u)).reached = some u.stamp := by
      rw [reached_receive_some, Nat.max_eq_right hle]
    refine ⟨?_, ?_, ?_, ?_⟩
    · rw [pending_receive]
      cases u with
      | progress stamp => simpa using hfollows.ascending
      | event s =>
        refine ascending_append.2 ⟨hfollows.ascending, List.pairwise_singleton _ _, ?_⟩
        intro t ht
        exact from_cons.2 ⟨(hfollows.pending_upTo t ht).trans hle, from_nil _⟩
    · rw [pending_receive, hreached, Option.getD_some, upTo_append]
      refine ⟨hfollows.pending_upTo.mono hle, ?_⟩
      cases u <;> simp [Update.stamp]
    · rw [hreached, Signal.outlet_withQueue]
      exact hrest
    · intro hclosed
      rw [isOpen_receive_some] at hclosed
      exact absurd ((hfollows.closed hclosed).2.symm.trans hqueue) (List.cons_ne_nil _ _).symm

theorem Follows.sendAll {us : List Update} (hfollows : o.Follows signal) (hopen : signal.hasEnded = false)
    (houtlet : signal'.outlet = signal.outlet.sendAll us) : o.Follows signal' where
  ascending := hfollows.ascending
  pending_upTo := hfollows.pending_upTo
  rises := houtlet ▸ Outlet.rises_sendAll hfollows.rises us
  closed := fun hclosed => absurd (hfollows.closed hclosed).1 (by simp [hopen])

end Operand

namespace Operands

variable {p : Operands} {side : Side} {update : Option Update} {left right left' right' : Signal}

theorem Follow.receive (hfollow : p.Follow left right)
    (hhears : Signal.Hears update side left right left' right') :
    (p.receive side update).Follow left' right' := by
  cases hhears with
  | left hreads => exact ⟨hfollow.left.receive hreads, hfollow.right⟩
  | right hreads => exact ⟨hfollow.left, hfollow.right.receive hreads⟩

theorem Follow.await (hfollow : p.Follow left right) (hleft : left.Coherent) (hright : right.Coherent) :
    p.Await left.remaining right.remaining :=
  ⟨hfollow.left.awaits hleft.remaining.1, hfollow.right.awaits hright.remaining.1⟩

theorem Follow.drain (hfollow : p.Follow left right) (hleft : left.Coherent) (hright : right.Coherent) :
    p.drain.2.Follow left right := by
  obtain ⟨hawaitsLeft, hawaitsRight⟩ := await_drain (hfollow.await hleft hright)
  obtain ⟨hreachedLeft, hreachedRight⟩ := reached_drain p
  exact ⟨hfollow.left.of_awaits hawaitsLeft hreachedLeft (isOpen_drain p .left),
    hfollow.right.of_awaits hawaitsRight hreachedRight (isOpen_drain p .right)⟩

theorem Follow.pairUp (hfollow : p.Follow left right) (hleft : left.Coherent) (hright : right.Coherent) :
    p.pairUp.2.Follow left right := by
  obtain ⟨hawaitsLeft, hawaitsRight⟩ := await_pairUp (hfollow.await hleft hright)
  exact ⟨hfollow.left.of_awaits hawaitsLeft rfl rfl, hfollow.right.of_awaits hawaitsRight rfl rfl⟩

theorem reach_drain (p : Operands) : p.drain.2.reach = p.reach := by
  obtain ⟨hleft, hright⟩ := reached_drain p
  rw [reach, reach, hleft, hright]

theorem reach_le_reach_receive (p : Operands) (side : Side) (update : Option Update) :
    p.reach ≤ (p.receive side update).reach := by
  have hreached : ∀ o : Operand, o.reached.getD 0 ≤ (o.receive update).reached.getD 0 := by
    intro o
    cases update with
    | none => exact le_rfl
    | some u =>
      rw [Operand.reached_receive_some]
      exact Nat.le_max_left _ _
  cases side with
  | left => exact max_le_max (hreached _) le_rfl
  | right => exact max_le_max le_rfl (hreached _)

theorem stamp_le_reach_pairUp {later later' : List Stamped} (hp : p.Await later later') {u : Update}
    (hu : u ∈ p.pairUp.1.map .event ++ p.pairUp.2.pairPromise) : u.stamp ≤ p.reach := by
  rcases List.mem_append.1 hu with hu | hu
  · obtain ⟨s, hs, rfl⟩ := List.mem_map.1 hu
    obtain ⟨t, ht, t', ht', rfl⟩ := exists_of_mem_zip hs
    exact max_le_max (hp.left.pending_upTo t ht) (hp.right.pending_upTo t' ht')
  · obtain ⟨-, stamp, hstamp, rfl⟩ := mem_pairPromise.1 hu
    obtain ⟨hleft, hright⟩ := await_pairUp hp
    have hknown := Horizon.known_of_stamp? hstamp
    rcases Horizon.later_eq_or p.pairUp.2.left.horizon p.pairUp.2.right.horizon with heq | heq <;>
      rw [heq] at hknown
    · exact (hleft.horizon_le_reached hknown).trans (Nat.le_max_left _ _)
    · exact (hright.horizon_le_reached hknown).trans (Nat.le_max_right _ _)

theorem pending_pairUp (p : Operands) : p.pairUp.2.left.pending = [] ∨ p.pairUp.2.right.pending = [] := by
  rcases Nat.le_total p.left.pending.length p.right.pending.length with hle | hle
  · left
    rw [pairUp_snd_left, Nat.min_eq_left hle, List.drop_length]
  · right
    rw [pairUp_snd_right, Nat.min_eq_right hle, List.drop_length]

end Operands

namespace Outlet

theorem frontier_send {out : Outlet} {u : Update} (hle : out.reach ≤ u.stamp) :
    (out.send u).frontier = some u.stamp := by
  obtain ⟨top, htop, -⟩ := covers_iff.1 (covers_send out u)
  have hreach := reach_send out u
  rw [reach, htop, Option.getD_some, Nat.max_eq_right hle] at hreach
  rw [htop, hreach]

end Outlet

namespace Task

variable {task : Task} {out : Outlet} {side : Side} {update : Option Update} {left right left' right' : Signal}

theorem prompt_receive : (task.receive side update).2.Prompt (out.sendAll (task.receive side update).1) := by
  cases task with
  | chain stage =>
    cases update with
    | some u => trivial
    | none => cases stage <;> trivial
  | merge p =>
    refine ⟨Operands.next?_drain _, ?_⟩
    intro stamp hstamp
    have hmem := Operands.promise_drain _ (Operands.mem_promise.2 ⟨stamp, hstamp, rfl⟩)
    exact Outlet.covers_sendAll out (List.mem_map_of_mem (f := Released.update) hmem)
  | combineLatest p latest =>
    refine ⟨Operands.next?_drain _, ?_⟩
    intro stamp hstamp
    have hmem := Operands.promise_drain _ (Operands.mem_promise.2 ⟨stamp, hstamp, rfl⟩)
    exact Outlet.covers_sendAll out (Latest.progress_mem_react latest hmem)
  | zip p =>
    refine ⟨Operands.pending_pairUp _, ?_⟩
    intro hmore stamp hstamp
    exact Outlet.covers_sendAll out
      (List.mem_append_right _ (Operands.mem_pairPromise.2 ⟨hmore, stamp, hstamp, rfl⟩))

theorem Follows.receive_chain {stage : ChainStage} (hfollows : (chain stage).Follows out left right)
    (hwants : (chain stage).wants side = true) (hhears : Signal.Hears update side left right left' right') :
    ((chain stage).receive side update).2.Follows (out.sendAll ((chain stage).receive side update).1)
      left' right' := by
  cases stage with
  | finished => simp [wants, finished] at hwants
  | left =>
    cases hhears with
    | right hreads => simp [wants] at hwants
    | left hreads =>
      obtain ⟨hleft, hright⟩ := hfollows
      cases hreads with
      | done hended hqueue =>
        rw [hqueue, rises_nil] at hleft
        refine ⟨⟨hended, hqueue⟩, none, hright, ?_⟩
        simp [receive, Outlet.reach, hleft]
      | @update u rest hqueue =>
        rw [hqueue, rises_cons] at hleft
        refine ⟨?_, hright⟩
        simp only [receive, Outlet.sendAll_cons, Outlet.sendAll_nil, Signal.outlet_withQueue]
        rw [Outlet.frontier_send hleft.1]
        exact hleft.2
  | right =>
    cases hhears with
    | left hreads => simp [wants] at hwants
    | right hreads =>
      obtain ⟨hleft, level, hright, hreach⟩ := hfollows
      cases hreads with
      | done hended hqueue =>
        rw [hqueue, rises_nil] at hright
        refine ⟨hleft, ⟨hended, hqueue⟩, ?_⟩
        rw [hright] at hreach
        exact hreach
      | @update u rest hqueue =>
        rw [hqueue, rises_cons] at hright
        refine ⟨hleft, some u.stamp, ?_, ?_⟩
        · rw [Signal.outlet_withQueue]
          exact hright.2
        · simp only [receive, Outlet.sendAll_cons, Outlet.sendAll_nil, Outlet.reach_send, Option.getD_some]
          have hle := hright.1
          omega

theorem Follows.receive (hfollows : task.Follows out left right) (hwants : task.wants side = true)
    (hhears : Signal.Hears update side left right left' right') (hleft : left'.Coherent)
    (hright : right'.Coherent) :
    (task.receive side update).2.Follows (out.sendAll (task.receive side update).1) left' right' := by
  cases task with
  | chain stage => exact hfollows.receive_chain hwants hhears
  | merge p =>
    obtain ⟨hfollow, hreach⟩ := hfollows
    have hp := hfollow.receive hhears
    refine ⟨hp.drain hleft hright, ?_⟩
    rw [Operands.reach_drain]
    refine Outlet.reach_sendAll_le (hreach.trans (Operands.reach_le_reach_receive _ _ _)) ?_
    intro u hu
    exact Operands.stamp_le_reach_drain (hp.await hleft hright) hu
  | combineLatest p latest =>
    obtain ⟨hfollow, hreach⟩ := hfollows
    have hp := hfollow.receive hhears
    refine ⟨hp.drain hleft hright, ?_⟩
    rw [Operands.reach_drain]
    refine Outlet.reach_sendAll_le (hreach.trans (Operands.reach_le_reach_receive _ _ _)) ?_
    intro u hu
    obtain ⟨v, hv, heq⟩ := Latest.exists_of_mem_react latest hu
    exact heq ▸ Operands.stamp_le_reach_drain (hp.await hleft hright) hv
  | zip p =>
    obtain ⟨hfollow, hreach⟩ := hfollows
    have hp := hfollow.receive hhears
    refine ⟨hp.pairUp hleft hright, ?_⟩
    refine Outlet.reach_sendAll_le (hreach.trans (Operands.reach_le_reach_receive _ _ _)) ?_
    intro u hu
    exact Operands.stamp_le_reach_pairUp (hp.await hleft hright) hu

theorem Follows.sendAll_left {us : List Update} (hfollows : task.Follows out left right)
    (hopen : left.hasEnded = false)
    (houtlet : left'.outlet = left.outlet.sendAll us) : task.Follows out left' right := by
  cases task with
  | merge p => exact ⟨⟨hfollows.1.left.sendAll hopen houtlet, hfollows.1.right⟩, hfollows.2⟩
  | zip p => exact ⟨⟨hfollows.1.left.sendAll hopen houtlet, hfollows.1.right⟩, hfollows.2⟩
  | combineLatest p latest => exact ⟨⟨hfollows.1.left.sendAll hopen houtlet, hfollows.1.right⟩, hfollows.2⟩
  | chain stage =>
    cases stage with
    | finished => exact absurd hfollows.1.1 (by simp [hopen])
    | left => exact ⟨houtlet ▸ Outlet.rises_sendAll hfollows.1 us, hfollows.2⟩
    | right => exact absurd hfollows.1.1 (by simp [hopen])

theorem Follows.sendAll_right {us : List Update} (hfollows : task.Follows out left right)
    (hopen : right.hasEnded = false)
    (houtlet : right'.outlet = right.outlet.sendAll us) : task.Follows out left right' := by
  cases task with
  | merge p => exact ⟨⟨hfollows.1.left, hfollows.1.right.sendAll hopen houtlet⟩, hfollows.2⟩
  | zip p => exact ⟨⟨hfollows.1.left, hfollows.1.right.sendAll hopen houtlet⟩, hfollows.2⟩
  | combineLatest p latest => exact ⟨⟨hfollows.1.left, hfollows.1.right.sendAll hopen houtlet⟩, hfollows.2⟩
  | chain stage =>
    cases stage with
    | finished => exact absurd hfollows.2.1.1 (by simp [hopen])
    | left => exact ⟨hfollows.1, houtlet ▸ Outlet.rises_sendAll hfollows.2 us⟩
    | right =>
      obtain ⟨hleft, level, hrises, hreach⟩ := hfollows
      exact ⟨hleft, level, houtlet ▸ Outlet.rises_sendAll hrises us, hreach⟩

end Task

theorem Outlet.Sound.sendAll {out : Outlet} (hout : out.Sound) (us : List Update) : (out.sendAll us).Sound := by
  obtain ⟨level, hrises⟩ := hout
  exact ⟨level, Outlet.rises_sendAll hrises us⟩

namespace Signal

variable {due : Nat → Prop} {signal signal' left right left' right' : Signal} {side : Side}
  {update : Option Update}

theorem Hears.coherent (hhears : Hears update side left right left' right') (hleft : left.Coherent)
    (hright : right.Coherent) :
    left'.Coherent ∧ right'.Coherent := by
  cases hhears with
  | left hreads => exact ⟨hreads.coherent hleft, hright⟩
  | right hreads => exact ⟨hleft, hreads.coherent hright⟩

theorem Hears.remaining (hhears : Hears update side left right left' right') (hleft : left.outlet.Sound)
    (hright : right.outlet.Sound) :
    Operands.Hears update side left.remaining right.remaining left'.remaining right'.remaining := by
  cases hhears with
  | left hreads => exact .left (hreads.remaining hleft)
  | right hreads => exact .right (hreads.remaining hright)

theorem Worker.hear_eq {task : Task} {out : Outlet} (hwants : task.wants side = true) :
    Worker.hear side ⟨task, out⟩ update
      = ⟨(task.receive side update).2, out.sendAll (task.receive side update).1⟩ := by
  rw [Worker.hear, if_pos hwants]

theorem Worker.signal_hear {task : Task} {out : Outlet} (hwants : task.wants side = true) :
    (Worker.hear side ⟨task, out⟩ update).signal left right
      = if (task.receive side update).2.finished then ended (out.sendAll (task.receive side update).1)
      else join (out.sendAll (task.receive side update).1) (task.receive side update).2 left right := by
  rw [Worker.hear_eq hwants]
  rfl

theorem Worker.outlet_signal (w : Worker) (left right : Signal) : (w.signal left right).outlet = w.out := by
  rw [Worker.signal]
  split <;> rfl

theorem outlet_announce (out : Outlet) (agenda : List Stamped) :
    ∃ us, (announce out agenda).outlet = out.sendAll us := by
  cases agenda with
  | nil => exact ⟨[], rfl⟩
  | cons s rest => exact ⟨[.progress s.stamp], rfl⟩

theorem Step.hasEnded (hstep : Step due signal signal') : signal.hasEnded = false := by
  cases hstep <;> rfl

/-- All that a step does to the outlet of a signal is to send more. -/
theorem Step.outlet (hstep : Step due signal signal') : ∃ us, signal'.outlet = signal.outlet.sendAll us := by
  cases hstep with
  | @wake out next rest hdue =>
    obtain ⟨us, hus⟩ := outlet_announce (out.emit next) rest
    exact ⟨.event next :: us, hus⟩
  | @pair out previous source source' u hreads => exact ⟨[pairWith previous u], rfl⟩
  | close hreads => exact ⟨[], rfl⟩
  | @hear out task side update left right left' right' hwants hhears =>
    refine ⟨(task.receive side update).1, ?_⟩
    rw [Worker.outlet_signal, Worker.hear_eq hwants]
    rfl
  | source hstep => exact ⟨[], rfl⟩
  | left hstep => exact ⟨[], rfl⟩
  | right hstep => exact ⟨[], rfl⟩

@[simp] theorem stamp_pairWith (previous : Option Event) (u : Update) :
    (pairWith previous u).stamp = u.stamp := by
  cases u with
  | progress stamp => rfl
  | event s => cases previous <;> rfl

theorem coherent_announce {out : Outlet} (hout : out.Sound) (agenda : List Stamped) :
    (announce out agenda).Coherent := by
  cases agenda with
  | nil => exact hout
  | cons s rest =>
    refine ⟨hout.sendAll [.progress s.stamp], ?_⟩
    exact Outlet.le_reach_of_covers (Outlet.covers_send out (.progress s.stamp))

/-- Whatever happens in a coherent evaluation, it is coherent afterwards. -/
theorem Step.coherent (hstep : Step due signal signal') (hsignal : signal.Coherent) : signal'.Coherent := by
  induction hstep with
  | @wake out next rest hdue => exact coherent_announce (hsignal.1.sendAll [.event next]) rest
  | @pair out previous source source' u hreads =>
    obtain ⟨hout, hrises, hsource⟩ := hsignal
    refine ⟨hout.sendAll [pairWith previous u], ?_, hreads.coherent hsource⟩
    cases hreads with
    | @update u rest hqueue =>
      rw [hqueue, rises_cons] at hrises
      rw [Outlet.frontier_send (hrises.1.trans (stamp_pairWith previous u).ge), stamp_pairWith,
        outlet_withQueue]
      exact hrises.2
  | close hreads => exact hsignal.1
  | @hear out task side update left right left' right' hwants hhears =>
    obtain ⟨hout, hopen, hfollows, -, hcleft, hcright⟩ := hsignal
    obtain ⟨hleft, hright⟩ := hhears.coherent hcleft hcright
    rw [Worker.signal_hear hwants]
    split
    · exact hout.sendAll _
    · next hmore =>
      exact ⟨hout.sendAll _, Bool.eq_false_iff.2 hmore, hfollows.receive hwants hhears hleft hright,
        Task.prompt_receive,
        hleft, hright⟩
  | source hstep ih =>
    obtain ⟨hout, hrises, hsource⟩ := hsignal
    obtain ⟨us, houtlet⟩ := hstep.outlet
    exact ⟨hout, houtlet ▸ Outlet.rises_sendAll hrises us, ih hsource⟩
  | left hstep ih =>
    obtain ⟨hout, hopen, hfollows, hprompt, hleft, hright⟩ := hsignal
    obtain ⟨us, houtlet⟩ := hstep.outlet
    exact ⟨hout, hopen, hfollows.sendAll_left hstep.hasEnded houtlet, hprompt, ih hleft, hright⟩
  | right hstep ih =>
    obtain ⟨hout, hopen, hfollows, hprompt, hleft, hright⟩ := hsignal
    obtain ⟨us, houtlet⟩ := hstep.outlet
    exact ⟨hout, hopen, hfollows.sendAll_right hstep.hasEnded houtlet, hprompt, hleft, ih hright⟩

end Signal

end TimedStreams
