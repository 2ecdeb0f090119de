import TimedStreams.Proofs.Instants

/-!
# Merging, next to the runs of the operands

What the operands of a join send does not depend on who reads it. So a `merge` and its two operands
can be followed side by side: at every instant the merge has sent a beginning of what it gives for
all that its operands have sent by then and whatever they may still send, and what is missing it
holds back (`Signal.merging_before`).
-/

namespace TimedStreams

open Stamped Update

namespace Operand

/-- These updates are the next that are received of the events `now`, and leave `later`. -/
inductive NextAll : List (Option Update) → (now later : List Stamped) → Prop
  | nil {later : List Stamped} : NextAll [] later later
  | cons {update : Option Update} {updates : List (Option Update)} {now between later : List Stamped}
      (hnext : Next update now between) (hrest : NextAll updates between later) :
      NextAll (update :: updates) now later

theorem nextAll_of_rises {level top : Option Nat} {us : List Update} {last : List (Option Update)}
    {future later : List Stamped} (hus : Rises level us top) (hfuture : From (top.getD 0) future)
    (hlast : NextAll last future later) :
    NextAll (us.map some ++ last) (stampedOf us ++ future) later := by
  induction us generalizing level with
  | nil => exact hlast
  | cons u rest ih =>
    obtain ⟨-, hrest⟩ := hus
    refine .cons ⟨?_, ?_, by simp⟩ (ih hrest)
    · rw [← List.append_assoc, brings, Option.elim_some, ← stampedOf_append, List.singleton_append]
    · intro v hv
      obtain rfl := Option.some.inj hv
      exact from_append.2 ⟨hrest.from_level, hfuture.mono hrest.level_le_top⟩

end Operand

namespace Signal

/-- All that can be read now comes first, before whatever the signal may still send. -/
theorem nextAll_readable {signal : Signal} {future : List Stamped} (hsound : signal.outlet.Sound)
    (hfuture : signal.MaySend future) :
    Operand.NextAll signal.readable (stampedOf signal.outlet.queue ++ future) future := by
  obtain ⟨level, hrises⟩ := hsound
  refine Operand.nextAll_of_rises hrises hfuture.from_reach ?_
  split
  · next hended =>
    rw [hfuture.closed hended]
    exact .cons ⟨rfl, by simp, fun _ => rfl⟩ .nil
  · exact .nil

end Signal

/-! ### The task -/

namespace Operands

variable {p q : Operands} {out out' : Outlet} {sent xs ys left right left' right' : List Stamped} {side : Side}
  {update : Option Update}

/-- Two operands are being merged: of `xs` and `ys` they are still to receive `left` and `right`, and
the reader of `out` has read `sent`. -/
structure Merging (p : Operands) (out : Outlet) (sent xs ys left right : List Stamped) : Prop where
  await : p.Await left right
  left_kept : p.left.pending ++ left <:+ xs
  right_kept : p.right.pending ++ right <:+ ys
  merges : sent ++ (stampedOf out.queue
    ++ raiseAll out.reach (merge (p.left.pending ++ left) (p.right.pending ++ right))) = merge xs ys

theorem merging_start (hxs : Ascending xs) (hys : Ascending ys) :
    ({} : Operands).Merging {} [] xs ys xs ys where
  await := ⟨⟨hxs, upTo_nil _, from_zero _, fun hclosed => by cases hclosed⟩,
    ⟨hys, upTo_nil _, from_zero _, fun hclosed => by cases hclosed⟩⟩
  left_kept := List.suffix_rfl
  right_kept := List.suffix_rfl
  merges := raiseAll_zero _

theorem isOpen_of_not_wants (hwants : ¬ (Task.merge p).wants side = true) : p.isOpen side = false := by
  cases hopen : p.isOpen side with
  | false => rfl
  | true =>
    have hdone : p.finished = true := by simpa [Task.wants, Task.finished, hopen] using hwants
    obtain ⟨hleft, hright⟩ := Bool.and_eq_true_iff.1 hdone
    cases side with
    | left => exact absurd ((Operand.exhausted_iff.1 hleft).1.symm.trans hopen) (by simp)
    | right => exact absurd ((Operand.exhausted_iff.1 hright).1.symm.trans hopen) (by simp)

theorem Await.eq_of_closed (hp : p.Await left right) (hhears : Hears update side left right left' right')
    (hclosed : p.isOpen side = false) : left' = left ∧ right' = right := by
  cases hhears with
  | left hnext =>
    have hnil := hp.left.closed hclosed
    have hnow := hnext.now_eq
    rw [hnil] at hnow ⊢
    exact ⟨(List.append_eq_nil_iff.1 hnow.symm).2, rfl⟩
  | right hnext =>
    have hnil := hp.right.closed hclosed
    have hnow := hnext.now_eq
    rw [hnil] at hnow ⊢
    exact ⟨rfl, (List.append_eq_nil_iff.1 hnow.symm).2⟩

open Signal in
/-- Whatever a merging task hears, it goes on merging the same. -/
theorem Merging.hear (hp : p.Merging out sent xs ys left right)
    (hhears : Hears update side left right left' right') :
    ∃ q out', Worker.hear side ⟨.merge p, out⟩ update = ⟨.merge q, out'⟩ ∧
      q.Merging out' sent xs ys left' right' := by
  obtain ⟨hawait, hleft, hright, hmerges⟩ := hp
  by_cases hwants : (Task.merge p).wants side = true
  · obtain ⟨hhonest, hanswer⟩ :=
      @Task.answer_receive _ _ _ _ _ _ _ 0 out.reach hwants hawait hhears fun hchain => by cases hchain
    obtain ⟨hpendingLeft, hpendingRight⟩ := pending_drain (p.receive side update)
    obtain ⟨hkeptLeft, hkeptRight⟩ := pending_receive_append (p := p) hhears
    refine ⟨(p.receive side update).drain.2, _, Worker.hear_eq hwants, ?_, ?_, ?_, ?_⟩
    · exact await_drain (hawait.receive hhears)
    · exact (List.suffix_append_self_iff.2 hpendingLeft).trans (hkeptLeft ▸ hleft)
    · exact (List.suffix_append_self_iff.2 hpendingRight).trans (hkeptRight ▸ hright)
    · have hsend := Outlet.stampedOf_queue_sendAll out hhonest
      rw [hanswer] at hsend
      exact (congrArg (sent ++ ·) hsend).trans hmerges
  · obtain ⟨rfl, rfl⟩ := hawait.eq_of_closed hhears (isOpen_of_not_wants hwants)
    exact ⟨p, out, if_neg hwants, hawait, hleft, hright, hmerges⟩

open Signal in
theorem Merging.hearAll_left {updates : List (Option Update)} {now later : List Stamped}
    (hp : p.Merging out sent xs ys now right) (hnext : Operand.NextAll updates now later) :
    ∃ q out', updates.foldl (Worker.hear .left) ⟨.merge p, out⟩ = ⟨.merge q, out'⟩ ∧
      q.Merging out' sent xs ys later right := by
  induction hnext generalizing p out with
  | nil => exact ⟨p, out, rfl, hp⟩
  | cons hnext _ ih =>
    obtain ⟨q, out', hhear, hq⟩ := hp.hear (.left hnext)
    rw [List.foldl_cons, hhear]
    exact ih hq

open Signal in
theorem Merging.hearAll_right {updates : List (Option Update)} {now later : List Stamped}
    (hp : p.Merging out sent xs ys left now) (hnext : Operand.NextAll updates now later) :
    ∃ q out', updates.foldl (Worker.hear .right) ⟨.merge p, out⟩ = ⟨.merge q, out'⟩ ∧
      q.Merging out' sent xs ys left later := by
  induction hnext generalizing p out with
  | nil => exact ⟨p, out, rfl, hp⟩
  | cons hnext _ ih =>
    obtain ⟨q, out', hhear, hq⟩ := hp.hear (.right hnext)
    rw [List.foldl_cons, hhear]
    exact ih hq

theorem Merging.read (hp : p.Merging out sent xs ys left right) :
    p.Merging { out with queue := [] } (sent ++ stampedOf out.queue) xs ys left right where
  await := hp.await
  left_kept := hp.left_kept
  right_kept := hp.right_kept
  merges := by
    rw [stampedOf_nil, List.nil_append, List.append_assoc]
    exact hp.merges

end Operands

/-! ### The run -/

namespace Signal

variable {clock : Clock} {now : Nat} {p q : Operands} {out out' : Outlet} {left right : Signal}

theorem Worker.hearAll_fst (side : Side) (w : Worker) (operand : Signal) :
    (w.hearAll side operand).1 = operand.readable.foldl (Worker.hear side) w := by
  rw [hearAll]
  split
  · rfl
  · next hwants => exact (foldl_hear_of_not_wants (by simpa using hwants) _).symm

theorem Worker.withQueue_signal (w : Worker) (left right : Signal) (queue : List Update) :
    (w.signal left right).withQueue queue = Worker.signal ⟨w.task, { w.out with queue }⟩ left right := by
  rw [signal, signal]
  split <;> rfl

theorem Worker.hearAll_snd {side : Side} {w : Worker} {operand : Signal}
    (hqueue : (w.hearAll side operand).2.outlet.queue = []) :
    (w.hearAll side operand).2 = operand.withQueue [] := by
  rw [hearAll] at hqueue ⊢
  split
  · rfl
  · next hwants =>
    rw [if_neg hwants] at hqueue
    exact (withQueue_of_queue_eq hqueue).symm

theorem Worker.signal_merge_finished (out : Outlet) (left right : Signal) (hdone : p.finished = true) :
    Worker.signal ⟨.merge p, out⟩ left right = ended out :=
  if_pos hdone

theorem Worker.signal_merge_unfinished (out : Outlet) (left right : Signal) (hmore : ¬ p.finished = true) :
    Worker.signal ⟨.merge p, out⟩ left right = join out (.merge p) left right :=
  if_neg hmore

theorem Idle.queue_eq_of_merge {due : Nat → Prop} (hidle : (join out (.merge p) left right).Idle due)
    (hcoherent : (join out (.merge p) left right).Coherent) :
    left.outlet.queue = [] ∧ right.outlet.queue = [] := by
  obtain ⟨-, -, ⟨hfollow, -⟩, -⟩ := hcoherent
  constructor
  · by_cases hwants : (Task.merge p).wants .left = true
    · exact (hidle.left_readUp.2 hwants).queue_eq
    · exact (hfollow.left.closed (Operands.isOpen_of_not_wants hwants)).2
  · by_cases hwants : (Task.merge p).wants .right = true
    · exact (hidle.right_readUp.2 hwants).queue_eq
    · exact (hfollow.right.closed (Operands.isOpen_of_not_wants hwants)).2

/-- Settling a merge settles its operands and hears all that the left has to say, and then the right. -/
theorem settle_merge (hcoherent : (Worker.signal ⟨.merge p, out⟩ left right).Coherent)
    (hhears : (right.settle clock now).readable.foldl (Worker.hear .right)
      ((left.settle clock now).readable.foldl (Worker.hear .left) ⟨.merge p, out⟩) = ⟨.merge q, out'⟩) :
    ((Worker.signal ⟨.merge p, out⟩ left right).settle clock now).outlet = out' ∧
      ((Worker.signal ⟨.merge p, out⟩ left right).settle clock now).withQueue []
        = Worker.signal ⟨.merge q, { out' with queue := [] }⟩ ((left.settle clock now).withQueue [])
          ((right.settle clock now).withQueue []) := by
  by_cases hdone : p.finished = true
  · have hnone : ∀ side, (Task.merge p).wants side = false := Task.not_wants_of_finished hdone
    rw [Worker.foldl_hear_of_not_wants (hnone .left) (left.settle clock now).readable,
      Worker.foldl_hear_of_not_wants (hnone .right)] at hhears
    obtain ⟨hsame, rfl⟩ := Worker.mk.inj hhears
    obtain rfl := Task.merge.inj hsame
    rw [Worker.signal_merge_finished _ _ _ hdone, Worker.signal_merge_finished _ _ _ hdone]
    exact ⟨rfl, rfl⟩
  · rw [Worker.signal_merge_unfinished _ _ _ hdone] at hcoherent ⊢
    obtain ⟨first, hfirst⟩ : ∃ first,
      first = Worker.hearAll .left ⟨.merge p, out⟩ (left.settle clock now) := ⟨_, rfl⟩
    obtain ⟨second, hsecond⟩ : ∃ second,
      second = first.1.hearAll .right (right.settle clock now) := ⟨_, rfl⟩
    have hheard : second.1 = ⟨.merge q, out'⟩ := by
      rw [← hhears, ← Worker.hearAll_fst, ← Worker.hearAll_fst, ← hfirst, ← hsecond]
    have hsettle : (join out (.merge p) left right).settle clock now
        = Worker.signal ⟨.merge q, out'⟩ first.2 second.2 := by
      rw [← hheard, hsecond, hfirst]
      rfl
    rw [hsettle]
    refine ⟨Worker.outlet_signal _ _ _, ?_⟩
    rw [Worker.withQueue_signal]
    by_cases hlast : q.finished = true
    · rw [Worker.signal_merge_finished _ _ _ hlast, Worker.signal_merge_finished _ _ _ hlast]
    · have hcoherent' := hcoherent.settle clock now
      have hidle := idle_settle clock now (join out (.merge p) left right)
      rw [hsettle, Worker.signal_merge_unfinished _ _ _ hlast] at hcoherent' hidle
      obtain ⟨hleft, hright⟩ := hidle.queue_eq_of_merge hcoherent'
      rw [hfirst] at hleft ⊢
      rw [hsecond] at hright ⊢
      rw [Worker.hearAll_snd hleft, Worker.hearAll_snd hright]

/-- At every instant, whatever the operands may still send, the task is merging all that they send. -/
theorem merging_before (hleft : left.Fresh) (hright : right.Fresh) (now : Nat) :
    ∃ p out, (ofJoin .merge left right).before now
        = Worker.signal ⟨.merge p, out⟩ (left.before now) (right.before now) ∧
      ∀ future future', (left.before now).MaySend future → (right.before now).MaySend future' →
        p.Merging out ((ofJoin .merge left right).sentBefore now) (left.sentBefore now ++ future)
          (right.sentBefore now ++ future') future future' := by
  have hjoin := fresh_ofJoin .merge hleft hright
  induction now with
  | zero =>
    exact ⟨{}, {}, rfl, fun _ _ hfuture hfuture' =>
      Operands.merging_start hfuture.ascending hfuture'.ascending⟩
  | succ now ih =>
    obtain ⟨p, out, hbefore, hmerging⟩ := ih
    have hcoherent := coherent_before hjoin.coherent now
    rw [hbefore] at hcoherent
    -- What the task becomes does not depend on what the operands may send later.
    have hheard : ∀ future future', (left.before (now + 1)).MaySend future →
        (right.before (now + 1)).MaySend future' →
        ∃ q out', (((right.before now).settle .exact now).readable.foldl (Worker.hear .right)
          (((left.before now).settle .exact now).readable.foldl (Worker.hear .left) ⟨.merge p, out⟩)
            = ⟨.merge q, out'⟩) ∧
          q.Merging out' ((ofJoin .merge left right).sentBefore now) (left.sentBefore (now + 1) ++ future)
            (right.sentBefore (now + 1) ++ future') future future' := by
      intro future future' hfuture hfuture'
      have hp := hmerging _ _ (maySend_before hleft hfuture) (maySend_before hright hfuture')
      have hreadLeft := nextAll_readable ((coherent_before hleft.coherent now).settle .exact now).sound
        hfuture.of_withQueue
      have hreadRight := nextAll_readable ((coherent_before hright.coherent now).settle .exact now).sound
        hfuture'.of_withQueue
      obtain ⟨q, out', hq, hq'⟩ := hp.hearAll_left hreadLeft
      obtain ⟨r, out'', hr, hr'⟩ := hq'.hearAll_right hreadRight
      rw [sentBefore, sentBefore, List.append_assoc, List.append_assoc, hq]
      exact ⟨r, out'', hr, hr'⟩
    obtain ⟨q, out', hhears, -⟩ := hheard [] [] (maySend_nil _) (maySend_nil _)
    obtain ⟨hout, hafter⟩ := settle_merge hcoherent hhears
    refine ⟨q, { out' with queue := [] }, ?_, ?_⟩
    · rw [before_succ, hbefore]
      exact hafter
    · intro future future' hfuture hfuture'
      obtain ⟨r, out'', hsame, hmerges⟩ := hheard future future' hfuture hfuture'
      obtain ⟨htask, rfl⟩ := Worker.mk.inj (hhears.symm.trans hsame)
      obtain rfl := Task.merge.inj htask
      have hsent : (ofJoin .merge left right).sentBefore (now + 1)
          = (ofJoin .merge left right).sentBefore now ++ stampedOf out'.queue := by
        rw [sentBefore, sentAt, hbefore, hout]
      rw [hsent]
      exact hmerges.read

end Signal

end TimedStreams
