import TimedStreams.Proofs.ExactClock

/-!
# Runs on a late clock

If replays may wake any time after their deadlines, then the instant at which a signal ends says
nothing. But in a tree of replays, merges and chains the stamp at which it ends is still settled: it
is the last stamp of its events. `Signal.Backed` is the invariant behind this. Every `merge` will
still get to where its operands end, since it has got there already or there is an event of that
stamp to come. With such trees on the left of every chain, nothing about the events depends on when
a replay wakes or on the order of the steps.
-/

namespace TimedStreams

open Stamped Update

namespace Task

/-- A merge gets to the ceilings of its operands by the events that are still to come; a chain does
by itself. -/
def Backs (task : Task) (out : Outlet) (left right : Signal) : Prop :=
  match task with
  | merge p =>
    left.ceiling ≤ max out.reach (topStamp (p.left.pending ++ left.remaining)) ∧
      right.ceiling ≤ max out.reach (topStamp (p.right.pending ++ right.remaining))
  | chain _ => True
  | zip _ | combineLatest _ _ => False

end Task

namespace Operands

variable {p : Operands} {out : Outlet} {later later' : List Stamped}

theorem le_max_reach_drain (out : Outlet) (hp : p.Await later later') {x : Side × Stamped}
    (hx : x ∈ p.sequence later later') :
    x ∈ p.drain.2.sequence later later' ∨ x.2.stamp ≤ (out.sendAll (p.drain.1.map Released.update)).reach := by
  rw [sequence_drain hp, List.mem_append] at hx
  rcases hx with hx | hx
  · right
    have hsent : x.2 ∈ stampedOf (p.drain.1.map Released.update) := by
      rw [Released.stampedOf_map_update]
      exact List.mem_map_of_mem hx
    exact Outlet.le_reach_of_covers (Outlet.covers_sendAll out (mem_stampedOf.1 hsent))
  · exact .inl hx

theorem topStamp_drain_left (out : Outlet) (hp : p.Await later later') : topStamp (p.left.pending ++ later) ≤
    max (out.sendAll (p.drain.1.map Released.update)).reach (topStamp (p.drain.2.left.pending ++ later)) := by
  refine topStamp_le fun s hs => ?_
  have hmem : (Side.left, s) ∈ p.sequence later later' := mem_sequence.2 (.inl ⟨rfl, hs⟩)
  rcases le_max_reach_drain out hp hmem with hcome | hsent
  · rcases mem_sequence.1 hcome with ⟨-, hs'⟩ | ⟨hside, -⟩
    · exact (upTo_topStamp _ s hs').trans (Nat.le_max_right _ _)
    · cases hside
  · exact hsent.trans (Nat.le_max_left _ _)

theorem topStamp_drain_right (out : Outlet) (hp : p.Await later later') : topStamp (p.right.pending ++ later') ≤
    max (out.sendAll (p.drain.1.map Released.update)).reach (topStamp (p.drain.2.right.pending ++ later')) := by
  refine topStamp_le fun s hs => ?_
  have hmem : (Side.right, s) ∈ p.sequence later later' := mem_sequence.2 (.inr ⟨rfl, hs⟩)
  rcases le_max_reach_drain out hp hmem with hcome | hsent
  · rcases mem_sequence.1 hcome with ⟨hside, -⟩ | ⟨-, hs'⟩
    · cases hside
    · exact (upTo_topStamp _ s hs').trans (Nat.le_max_right _ _)
  · exact hsent.trans (Nat.le_max_left _ _)

end Operands

namespace Task

variable {task : Task} {out : Outlet} {left right left' right' : Signal} {side : Side} {update : Option Update}

theorem Backs.receive (hbacks : task.Backs out left right)
    (hhears : Signal.Hears update side left right left' right')
    (hawait : task.Await left.remaining right.remaining) (hleft : left.outlet.Sound)
    (hright : right.outlet.Sound) :
    (task.receive side update).2.Backs (out.sendAll (task.receive side update).1) left' right' := by
  have hnext := hhears.remaining hleft hright
  cases task with
  | zip p => exact hbacks.elim
  | combineLatest p latest => exact hbacks.elim
  | chain stage =>
    cases update with
    | some u => trivial
    | none => cases stage <;> trivial
  | merge p =>
    obtain ⟨hbackLeft, hbackRight⟩ := hbacks
    have hp : (p.receive side update).Await left'.remaining right'.remaining :=
      Operands.Await.receive hawait hnext
    have hreach := Outlet.reach_le_reach_sendAll out ((p.receive side update).drain.1.map Released.update)
    have htopLeft := Operands.topStamp_drain_left out hp
    have htopRight := Operands.topStamp_drain_right out hp
    have hpending : (p.receive side update).left.pending ++ left'.remaining = p.left.pending ++ left.remaining ∧
        (p.receive side update).right.pending ++ right'.remaining = p.right.pending ++ right.remaining := by
      generalize left.remaining = later, right.remaining = later', left'.remaining = last,
        right'.remaining = last' at hnext
      cases hnext with
      | left hnext => exact ⟨hnext.pending_append, rfl⟩
      | right hnext => exact ⟨rfl, hnext.pending_append⟩
    rw [hpending.1] at htopLeft
    rw [hpending.2] at htopRight
    simp only [Backs, Task.receive]
    rw [hhears.ceiling.1, hhears.ceiling.2]
    omega

theorem Backs.congr (hbacks : task.Backs out left right)
    (hleft : left'.ceiling = left.ceiling ∧ left'.remaining = left.remaining)
    (hright : right'.ceiling = right.ceiling ∧ right'.remaining = right.remaining) : task.Backs out left' right' := by
  cases task with
  | chain stage => trivial
  | zip p => exact hbacks
  | combineLatest p latest => exact hbacks
  | merge p =>
    rw [Backs, hleft.1, hleft.2, hright.1, hright.2]
    exact hbacks

/-- A task that has finished has got to the ceilings of its operands. -/
theorem Backs.reach_eq (hbacks : task.Backs out left right) (hfollows : task.Follows out left right)
    (hawait : task.Await left.remaining right.remaining) (hdone : task.finished = true) :
    out.reach = max left.ceiling right.ceiling := by
  cases task with
  | zip p => exact hbacks.elim
  | combineLatest p latest => exact hbacks.elim
  | chain stage =>
    cases stage with
    | left => cases hdone
    | right => cases hdone
    | finished =>
      obtain ⟨⟨hleft, -⟩, ⟨hright, -⟩, hreach⟩ := hfollows
      rw [Signal.ceiling_of_hasEnded hleft, Signal.ceiling_of_hasEnded hright, hreach]
  | merge p =>
    obtain ⟨hleft, hright⟩ := hfollows.hasEnded_of_finished hdone (by simp)
    obtain ⟨hdoneLeft, hdoneRight⟩ := Bool.and_eq_true_iff.1 hdone
    obtain ⟨hbackLeft, hbackRight⟩ := hbacks
    have hle := hfollows.reach_le
    rw [hawait.left.eq_nil_of_exhausted hdoneLeft, topStamp_nil] at hbackLeft
    rw [hawait.right.eq_nil_of_exhausted hdoneRight, topStamp_nil] at hbackRight
    rw [← Signal.ceiling_of_hasEnded hleft, ← Signal.ceiling_of_hasEnded hright] at hle
    omega

end Task

namespace Signal

/-- A tree of replays, merges and chains in which every merge still gets to where its operands end. -/
def Backed : Signal → Prop
  | replay _ _ _ | ended _ => True
  | manual _ _ | adjacentPairs _ _ _ => False
  | join out task left right => task.Backs out left right ∧ left.Backed ∧ right.Backed

variable {due : Nat → Prop} {signal signal' left right left' right' : Signal} {side : Side}
  {update : Option Update}

theorem Reads.backed (hreads : signal.Reads update signal') (hsignal : signal.Backed) : signal'.Backed := by
  cases hreads with
  | done hended hqueue => exact hsignal
  | @update u rest hqueue =>
    cases signal with
    | join out task left right =>
      obtain ⟨hbacks, hleft, hright⟩ := hsignal
      refine ⟨?_, hleft, hright⟩
      cases task <;> exact hbacks
    | replay out next rest' => trivial
    | ended out => trivial
    | manual out name => exact hsignal
    | adjacentPairs out previous source => exact hsignal

theorem Hears.backed (hhears : Hears update side left right left' right') (hleft : left.Backed)
    (hright : right.Backed) :
    left'.Backed ∧ right'.Backed := by
  cases hhears with
  | left hreads => exact ⟨hreads.backed hleft, hright⟩
  | right hreads => exact ⟨hleft, hreads.backed hright⟩

theorem backed_hear {out : Outlet} {task : Task} (hcoherent : (join out task left right).Coherent)
    (hsignal : (join out task left right).Backed) (hwants : task.wants side = true)
    (hhears : Hears update side left right left' right') :
    ((Worker.hear side ⟨task, out⟩ update).signal left' right').Backed ∧
      ((Worker.hear side ⟨task, out⟩ update).signal left' right').ceiling
        = (join out task left right).ceiling := by
  obtain ⟨-, -, hfollows, -, hcleft, hcright⟩ := hcoherent
  obtain ⟨hbacks, hbleft, hbright⟩ := hsignal
  obtain ⟨hcleft', hcright'⟩ := hhears.coherent hcleft hcright
  obtain ⟨hleft, hright⟩ := hhears.backed hbleft hbright
  obtain ⟨hceilLeft, hceilRight⟩ := hhears.ceiling
  have hawait := hfollows.await hcleft.remaining.1 hcright.remaining.1
  have hbacks' := hbacks.receive hhears hawait hcleft.sound hcright.sound
  have hfollows' := hfollows.receive hwants hhears hcleft' hcright'
  have hawait' := Task.await_receive hawait (hhears.remaining hcleft.sound hcright.sound)
  rw [Worker.signal_hear hwants]
  split
  · next hdone =>
    refine ⟨trivial, ?_⟩
    rw [ceiling, ceiling, hbacks'.reach_eq hfollows' hawait' hdone, hceilLeft, hceilRight]
  · refine ⟨⟨hbacks', hleft, hright⟩, ?_⟩
    rw [ceiling, ceiling, hceilLeft, hceilRight]

/-- Whenever replays wake, a backed tree keeps its ceiling, and with it all that its reader still receives. -/
theorem Step.backed (hstep : signal.Step due signal') (hcoherent : signal.Coherent) (hsignal : signal.Backed) :
    (signal'.Backed ∧ signal'.ceiling = signal.ceiling) ∧ signal'.remaining = signal.remaining := by
  induction hstep with
  | @wake out next rest hdue =>
    have hemit := Outlet.reach_send out (.event next)
    rw [Outlet.send, Update.stamp] at hemit
    refine ⟨⟨by cases rest <;> trivial, ?_⟩, remaining_announce out next rest⟩
    rw [ceiling_announce, hemit, ceiling, topStamp_cons]
    omega
  | pair hreads => exact hsignal.elim
  | close hreads => exact hsignal.elim
  | hear hwants hhears =>
    exact ⟨backed_hear hcoherent hsignal hwants hhears, remaining_hear hcoherent hwants hhears⟩
  | source hstep ih => exact hsignal.elim
  | @left out task left left' right hstep ih =>
    obtain ⟨-, -, -, -, hcleft, -⟩ := hcoherent
    obtain ⟨hbacks, hleft, hright⟩ := hsignal
    obtain ⟨⟨hleft', hceiling⟩, hremaining⟩ := ih hcleft hleft
    refine ⟨⟨⟨hbacks.congr ⟨hceiling, hremaining⟩ ⟨rfl, rfl⟩, hleft', hright⟩, ?_⟩, ?_⟩
    · rw [ceiling, ceiling, hceiling]
    · rw [Signal.remaining, Signal.remaining, hremaining, hceiling]
  | @right out task left right right' hstep ih =>
    obtain ⟨-, -, -, -, -, hcright⟩ := hcoherent
    obtain ⟨hbacks, hleft, hright⟩ := hsignal
    obtain ⟨⟨hright', hceiling⟩, hremaining⟩ := ih hcright hright
    refine ⟨⟨⟨hbacks.congr ⟨rfl, rfl⟩ ⟨hceiling, hremaining⟩, hleft, hright'⟩, ?_⟩, ?_⟩
    · rw [ceiling, ceiling, hceiling]
    · rw [Signal.remaining, Signal.remaining, hremaining]

theorem firm_backed (due : Nat → Prop) : Firm due Backed :=
  ⟨fun hstep hcoherent hsignal => (hstep.backed hcoherent hsignal).1, Reads.backed⟩

end Signal

namespace Live

theorem finished_of_not_lateStep {live : Live} (hcoherent : live.signal.Coherent)
    (hnone : ∀ live', ¬ live.LateStep live') :
    live.Finished := by
  have hstill : ∀ now, live.now ≤ now → (live.atTime now).Still :=
    fun now hnow live' hacts => hnone live' (.after hnow hacts)
  refine ⟨?_, (hstill live.now le_rfl).queue_eq⟩
  have hidle := (hstill (max live.now live.signal.outlet.reach) (Nat.le_max_left _ _)).idle
  rcases hcoherent.beyond hidle with hended | hbeyond
  · exact hended
  · exact absurd hbeyond.reach (Nat.not_lt.2 (Nat.le_max_right _ _))

end Live

end TimedStreams
