import TimedStreams.Proofs.Punctual

/-!
# Events arrive at their stamps

On the exact clock no event is there before its stamp. `Signal.Timely` is the invariant: nothing
that has been sent or kept is stamped after the present, and no task will raise an event past both
its stamp and the present. It needs the left operand of every chain to be on time, since that is
where a chain takes the floor for its right operand from. With it the instant at which a signal
completes is settled as well (`Step.finish`).
-/

namespace TimedStreams

open Stamped Update

namespace Signal

/-- Nothing that has been sent or kept is stamped after the present, nor will anything be raised past it. -/
def Timely (now : Nat) : Signal → Prop
  | replay out next _ => UpTo now (stampedOf out.queue) ∧ out.reach ≤ max now next.stamp
  | manual _ _ => False
  | adjacentPairs out _ source => UpTo now (stampedOf out.queue) ∧ source.Timely now
  | join out task left right =>
    UpTo now (stampedOf out.queue) ∧ (∀ side, UpTo now (task.kept side)) ∧
      (∀ s ∈ task.answer left.remaining right.remaining left.ceiling, out.reach ≤ max now s.stamp) ∧
      left.Timely now ∧ right.Timely now
  | ended out => UpTo now (stampedOf out.queue)

variable {now : Nat} {signal signal' left right left' right' : Signal} {side : Side} {update : Option Update}

theorem Timely.upTo_queue (hsignal : signal.Timely now) : UpTo now (stampedOf signal.outlet.queue) := by
  cases signal with
  | manual out name => exact hsignal.elim
  | ended out => exact hsignal
  | replay out next rest => exact hsignal.1
  | adjacentPairs out previous source => exact hsignal.1
  | join out task left right => exact hsignal.1

theorem Reads.timely (hreads : signal.Reads update signal') (hsignal : signal.Timely now) :
    signal'.Timely now ∧ UpTo now (Operand.brings update) := by
  cases hreads with
  | done hended hqueue => exact ⟨hsignal, upTo_nil _⟩
  | @update u rest hqueue =>
    have hsplit : UpTo now (stampedOf [u]) ∧ UpTo now (stampedOf rest) := by
      rw [← upTo_append, ← stampedOf_append, List.singleton_append, ← hqueue]
      exact hsignal.upTo_queue
    refine ⟨?_, hsplit.1⟩
    cases signal with
    | manual out name => exact hsignal.elim
    | ended out => exact hsplit.2
    | replay out next rest => exact ⟨hsplit.2, hsignal.2⟩
    | adjacentPairs out previous source => exact ⟨hsplit.2, hsignal.2⟩
    | join out task left right => exact ⟨hsplit.2, hsignal.2⟩

theorem Hears.timely (hhears : Hears update side left right left' right') (hleft : left.Timely now)
    (hright : right.Timely now) :
    (left'.Timely now ∧ right'.Timely now) ∧ UpTo now (Operand.brings update) := by
  cases hhears with
  | left hreads => exact ⟨⟨(hreads.timely hleft).1, hright⟩, (hreads.timely hleft).2⟩
  | right hreads => exact ⟨⟨hleft, (hreads.timely hright).1⟩, (hreads.timely hright).2⟩

theorem upTo_queue_sendAll {out : Outlet} {us : List Update} (later : List Stamped)
    (hqueue : UpTo now (stampedOf out.queue))
    (hhonest : Honest us later) (hus : UpTo now (stampedOf us))
    (hreach : ∀ s ∈ stampedOf us, out.reach ≤ max now s.stamp) :
    UpTo now (stampedOf (out.sendAll us).queue) := by
  have hsend := Outlet.stampedOf_queue_sendAll out hhonest.nil
  rw [raiseAll_nil, List.append_nil, List.append_nil] at hsend
  rw [hsend, upTo_append]
  refine ⟨hqueue, ?_⟩
  intro s hs
  obtain ⟨t, ht, rfl⟩ := List.mem_map.1 hs
  have hle := hreach t ht
  have hnow := hus t ht
  rw [raise_stamp]
  omega

theorem timely_wake {out : Outlet} {next : Stamped} {rest : List Stamped} (hdue : next.stamp ≤ now)
    (hsignal : (replay out next rest).Timely now) : (announce (out.emit next) rest).Timely now := by
  obtain ⟨hqueue, hreach⟩ := hsignal
  have hemit := Outlet.reach_send out (.event next)
  have hsent := Outlet.stampedOf_queue_send out (.event next)
  rw [Outlet.send, Update.stamp] at hemit
  have hqueue' : UpTo now (stampedOf (out.emit next).queue) := by
    rw [Outlet.send] at hsent
    rw [hsent]
    refine upTo_append.2 ⟨hqueue, upTo_cons.2 ⟨?_, upTo_nil _⟩⟩
    rw [raise_stamp]
    omega
  cases rest with
  | nil => exact hqueue'
  | cons s rest =>
    have hsent' := Outlet.stampedOf_queue_send (out.emit next) (.progress s.stamp)
    have hadvance := Outlet.reach_send (out.emit next) (.progress s.stamp)
    rw [Outlet.send, stampedOf_progress, stampedOf_nil, raiseAll_nil, List.append_nil] at hsent'
    rw [Outlet.send, Update.stamp, hemit] at hadvance
    refine ⟨hsent'.symm ▸ hqueue', ?_⟩
    rw [hadvance]
    omega

theorem timely_pair {out : Outlet} {previous : Option Event} {source source' : Signal} {u : Update}
    (hreads : source.Reads (some u) source') (hcoherent : (adjacentPairs out previous source).Coherent)
    (hsignal : (adjacentPairs out previous source).Timely now) :
    (adjacentPairs (out.send (pairWith previous u)) (newestAfter previous u) source').Timely now := by
  obtain ⟨-, hrises, -⟩ := hcoherent
  obtain ⟨hqueue, htimely⟩ := hsignal
  obtain ⟨hsource', hbrings⟩ := hreads.timely htimely
  refine ⟨?_, hsource'⟩
  have hpaired : ∀ s ∈ stampedOf [pairWith previous u], s.stamp = u.stamp := by
    intro s hs
    have hstamp := stamp_pairWith previous u
    rw [mem_stampedOf, List.mem_singleton] at hs
    rw [← hs] at hstamp
    exact hstamp
  have hreach : out.reach ≤ u.stamp := by
    cases hreads with
    | update hqueue' =>
      rw [hqueue', rises_cons] at hrises
      exact hrises.1
  refine upTo_queue_sendAll [] hqueue (honest_cons.2 ⟨by simp, honest_nil []⟩) ?_ ?_
  · intro s hs
    rw [hpaired s hs]
    cases u with
    | event t => exact (upTo_cons.1 hbrings).1
    | progress stamp =>
      rw [pairWith] at hs
      cases hs
  · intro s hs
    exact hreach.trans ((hpaired s hs).ge.trans (Nat.le_max_right _ _))

theorem timely_hear {out : Outlet} {task : Task} (hcoherent : (join out task left right).Coherent)
    (hsteady : (join out task left right).Steady (OnTime now)) (hsignal : (join out task left right).Timely now)
    (hwants : task.wants side = true) (hhears : Hears update side left right left' right') :
    ((Worker.hear side ⟨task, out⟩ update).signal left' right').Timely now := by
  obtain ⟨-, -, hfollows, -, hcleft, hcright⟩ := id hcoherent
  obtain ⟨hqueue, hkept, hfloor, htleft, htright⟩ := hsignal
  have hawait := hfollows.await hcleft.remaining.1 hcright.remaining.1
  have hnext := hhears.remaining hcleft.sound hcright.sound
  obtain ⟨⟨hleft, hright⟩, hbrings⟩ := hhears.timely htleft htright
  obtain ⟨hsent, hkept'⟩ := Task.upTo_receive hawait hnext hkept hbrings
  obtain ⟨hhonest, hanswer⟩ := Task.answer_receive now hwants hawait hnext fun htask =>
    (hhears.ceiling_left hcoherent hwants htask).imp_right fun hclose hnone => by
      rw [ceiling_of_hasEnded (hclose hnone).1]
      exact (hsteady.1 _ htask).reach_le (hclose hnone).1
  -- What is sent and what is left of the answer were in the answer before, but for stamps before the present.
  have hfloor' : ∀ s ∈ stampedOf (task.receive side update).1
      ++ (task.receive side update).2.answer left'.remaining right'.remaining left.ceiling,
        out.reach ≤ max now s.stamp := by
    intro s hs
    have hmem := List.mem_map_of_mem (f := raise now) hs
    rw [← raiseAll, hanswer] at hmem
    obtain ⟨t, ht, heq⟩ := List.mem_map.1 hmem
    have hstamp := congrArg Stamped.stamp heq
    rw [raise_stamp, raise_stamp] at hstamp
    exact hstamp ▸ hfloor t ht
  have hqueue' := upTo_queue_sendAll _ hqueue hhonest hsent fun s hs => hfloor' s (List.mem_append_left _ hs)
  rw [Worker.signal_hear hwants]
  split
  · exact hqueue'
  · refine ⟨hqueue', hkept', ?_, hleft, hright⟩
    rw [hhears.ceiling.1]
    intro s hs
    refine Outlet.reach_sendAll_le (hfloor' s (List.mem_append_right _ hs)) ?_
    intro u hu
    exact (hhonest.stamp_le hu s hs).trans (Nat.le_max_right _ _)

/-- On the exact clock every step keeps a signal timely. -/
theorem Step.timely (hstep : signal.Step (· ≤ now) signal') (hcoherent : signal.Coherent)
    (hsteady : signal.Steady (OnTime now)) (hsignal : signal.Timely now) : signal'.Timely now := by
  induction hstep with
  | wake hdue => exact timely_wake hdue hsignal
  | pair hreads => exact timely_pair hreads hcoherent hsignal
  | close hreads => exact hsignal.1
  | hear hwants hhears => exact timely_hear hcoherent hsteady hsignal hwants hhears
  | source hstep ih => exact ⟨hsignal.1, ih hcoherent.2.2 hsteady hsignal.2⟩
  | left hstep ih =>
    obtain ⟨-, -, -, -, hcleft, -⟩ := hcoherent
    obtain ⟨hchain, hsteadyLeft, -⟩ := hsteady
    obtain ⟨hqueue, hkept, hfloor, hleft, hright⟩ := hsignal
    obtain ⟨hremaining, -⟩ := hstep.remaining (firm_onTime now) hcleft hsteadyLeft
    refine ⟨hqueue, hkept, ?_, ih hcleft hsteadyLeft hleft, hright⟩
    rw [answer_step_left (firm_onTime now) hstep hcleft hchain hremaining]
    exact hfloor
  | right hstep ih =>
    obtain ⟨-, -, -, -, -, hcright⟩ := hcoherent
    obtain ⟨-, -, hsteadyRight⟩ := hsteady
    obtain ⟨hqueue, hkept, hfloor, hleft, hright⟩ := hsignal
    obtain ⟨hremaining, -⟩ := hstep.remaining (firm_onTime now) hcright hsteadyRight
    refine ⟨hqueue, hkept, ?_, hleft, ih hcright hsteadyRight hright⟩
    rw [hremaining]
    exact hfloor

end Signal

/-! ### Completion -/

namespace Task

variable {task : Task} {out : Outlet} {left right : Signal}

/-- The ends of the operands matter only as far as they lie after `low`. -/
theorem max_finish_congr {low endLeft endLeft' endRight endRight' : Nat} (xs ys : List Stamped)
    (hleft : max low endLeft' = max low endLeft) (hright : max low endRight' = max low endRight) :
    max low (task.finish xs ys endLeft' endRight') = max low (task.finish xs ys endLeft endRight) := by
  cases task with
  | zip p => exact max_zipEnd_congr _ _ hleft hright
  | merge p =>
    simp only [finish]
    omega
  | combineLatest p latest =>
    simp only [finish]
    omega
  | chain stage =>
    simp only [finish]
    omega

/-- Nothing is waited for once a task has finished. -/
theorem Follows.finish_eq_zero (hfollows : task.Follows out left right)
    (hawait : task.Await left.remaining right.remaining) (hdone : task.finished = true) :
    task.finish left.remaining right.remaining left.finish right.finish = 0 := by
  have hfinish : ∀ {signal : Signal}, signal.hasEnded = true → signal.finish = 0 := by
    intro signal hended
    rw [Signal.eq_ended_of_hasEnded hended]
    rfl
  by_cases hzip : ∃ p, task = zip p
  · obtain ⟨p, rfl⟩ := hzip
    rcases Bool.or_eq_true_iff.1 hdone with hexhausted | hexhausted
    · have hended := (hfollows.1.left.closed (Operand.exhausted_iff.1 hexhausted).1).1
      rw [finish, hawait.left.eq_nil_of_exhausted hexhausted, hfinish hended, zipEnd_nil_left]
    · have hended := (hfollows.1.right.closed (Operand.exhausted_iff.1 hexhausted).1).1
      rw [finish, hawait.right.eq_nil_of_exhausted hexhausted, hfinish hended, zipEnd_nil_right]
  · obtain ⟨hleft, hright⟩ := hfollows.hasEnded_of_finished hdone (not_exists.1 hzip)
    cases task with
    | zip p => exact absurd ⟨p, rfl⟩ hzip
    | merge p => rw [finish, hfinish hleft, hfinish hright, Nat.max_self]
    | combineLatest p latest => rw [finish, hfinish hleft, hfinish hright, Nat.max_self]
    | chain stage => rw [finish, hfinish hleft, hfinish hright, Nat.max_self]

end Task

namespace Signal

variable {now : Nat} {signal signal' left right left' right' : Signal} {side : Side} {update : Option Update}

theorem Reads.finish (hreads : signal.Reads update signal') : signal'.finish = signal.finish := by
  cases hreads with
  | done hended hqueue => rfl
  | update hqueue => cases signal <;> rfl

theorem Hears.finish (hhears : Hears update side left right left' right') :
    left'.finish = left.finish ∧ right'.finish = right.finish := by
  cases hhears with
  | left hreads => exact ⟨hreads.finish, rfl⟩
  | right hreads => exact ⟨rfl, hreads.finish⟩

theorem max_finish_hear {out : Outlet} {task : Task} (hcoherent : (join out task left right).Coherent)
    (hsignal : (join out task left right).Timely now) (hwants : task.wants side = true)
    (hhears : Hears update side left right left' right') :
    max now ((Worker.hear side ⟨task, out⟩ update).signal left' right').finish
      = max now (join out task left right).finish := by
  obtain ⟨-, -, hfollows, -, hcleft, hcright⟩ := hcoherent
  obtain ⟨-, hkept, -, htleft, htright⟩ := hsignal
  obtain ⟨hcleft', hcright'⟩ := hhears.coherent hcleft hcright
  have hawait := hfollows.await hcleft.remaining.1 hcright.remaining.1
  have hnext := hhears.remaining hcleft.sound hcright.sound
  have hfinish := Task.finish_receive left'.finish right'.finish hnext hkept
    (hhears.timely htleft htright).2
  rw [Signal.finish, ← hhears.finish.1, ← hhears.finish.2, ← hfinish, Worker.signal_hear hwants]
  split
  · next hdone =>
    have hfollows' := hfollows.receive hwants hhears hcleft' hcright'
    rw [hfollows'.finish_eq_zero (Task.await_receive hawait hnext) hdone]
    rfl
  · rfl

/-- On the exact clock no step moves the instant at which a signal completes, but within the past. -/
theorem Step.finish (hstep : signal.Step (· ≤ now) signal') (hcoherent : signal.Coherent)
    (hsteady : signal.Steady (OnTime now)) (hsignal : signal.Timely now) :
    max now signal'.finish = max now signal.finish := by
  induction hstep with
  | @wake out next rest hdue =>
    cases rest with
    | nil =>
      simp only [announce, Signal.finish, topStamp_cons, topStamp_nil]
      omega
    | cons s rest =>
      simp only [announce, Signal.finish, topStamp_cons]
      omega
  | pair hreads => exact congrArg (max now) hreads.finish
  | @close out previous source source' hreads =>
    cases hreads with
    | done hended hqueue =>
      rw [eq_ended_of_hasEnded hended]
      rfl
  | hear hwants hhears => exact max_finish_hear hcoherent hsignal hwants hhears
  | source hstep ih => exact ih hcoherent.2.2 hsteady hsignal.2
  | left hstep ih =>
    obtain ⟨-, -, -, -, hcleft, -⟩ := hcoherent
    obtain ⟨-, hsteadyLeft, -⟩ := hsteady
    obtain ⟨-, -, -, hleft, -⟩ := hsignal
    obtain ⟨hremaining, -⟩ := hstep.remaining (firm_onTime now) hcleft hsteadyLeft
    rw [Signal.finish, Signal.finish, hremaining]
    exact Task.max_finish_congr _ _ (ih hcleft hsteadyLeft hleft) rfl
  | right hstep ih =>
    obtain ⟨-, -, -, -, -, hcright⟩ := hcoherent
    obtain ⟨-, -, hsteadyRight⟩ := hsteady
    obtain ⟨-, -, -, -, hright⟩ := hsignal
    obtain ⟨hremaining, -⟩ := hstep.remaining (firm_onTime now) hcright hsteadyRight
    rw [Signal.finish, Signal.finish, hremaining]
    exact Task.max_finish_congr _ _ rfl (ih hcright hsteadyRight hright)

end Signal

end TimedStreams
