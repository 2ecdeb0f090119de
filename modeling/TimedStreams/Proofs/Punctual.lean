import TimedStreams.Proofs.Quiescence
import TimedStreams.Proofs.Steady

/-!
# On the exact clock

On the exact clock a replay has never promised more than the present or its next deadline, and
whatever has not ended has promised at least the present (`Signal.OnTime`). In a tree without `zip`
this settles the stamp at which every signal ends: it is the instant at which it does. A `zip`
breaks this, since it can complete after a promise about a pair that never forms; that is why the
left operand of a chain is asked to be on time, and nothing else is.
-/

namespace TimedStreams

open Stamped Update

namespace Task

variable {task : Task} {out : Outlet} {left right : Signal}

theorem Follows.hasEnded_of_finished (hfollows : task.Follows out left right) (hdone : task.finished = true)
    (hzip : ∀ p, task ≠ zip p) : left.hasEnded = true ∧ right.hasEnded = true := by
  have hoperands : ∀ p : Operands, p.Follow left right → p.finished = true → left.hasEnded = true ∧
    right.hasEnded = true := by
    intro p hp hfinished
    obtain ⟨hleft, hright⟩ := Bool.and_eq_true_iff.1 hfinished
    exact ⟨(hp.left.closed (Operand.exhausted_iff.1 hleft).1).1,
      (hp.right.closed (Operand.exhausted_iff.1 hright).1).1⟩
  cases task with
  | zip p => exact absurd rfl (hzip p)
  | merge p => exact hoperands p hfollows.1 hdone
  | combineLatest p latest => exact hoperands p hfollows.1 hdone
  | chain stage =>
    cases stage with
    | finished => exact ⟨hfollows.1.1, hfollows.2.1.1⟩
    | left => cases hdone
    | right => cases hdone

theorem receive_ne_zip (hzip : ∀ p, task ≠ zip p) (side : Side) (update : Option Update) (p : Operands) :
    (task.receive side update).2 ≠ zip p := by
  cases task with
  | zip p => exact absurd rfl (hzip p)
  | merge p => simp [receive]
  | combineLatest p latest => simp [receive]
  | chain stage => cases update <;> cases stage <;> simp [receive]

end Task

namespace Signal

/-- Whatever has ended did so by now, and whatever has not has promised the present; no `zip` is in the tree. -/
def OnTime (now : Nat) : Signal → Prop
  | replay out next _ => now ≤ out.reach ∧ out.reach ≤ max now next.stamp
  | manual _ _ => False
  | adjacentPairs out _ source => now ≤ out.reach ∧ source.OnTime now
  | join out task left right => (∀ p, task ≠ .zip p) ∧ now ≤ out.reach ∧ left.OnTime now ∧ right.OnTime now
  | ended out => out.reach ≤ now

variable {now : Nat} {signal signal' left right left' right' : Signal} {side : Side} {update : Option Update}

theorem OnTime.reach_le (hsignal : signal.OnTime now) (hended : signal.hasEnded = true) :
    signal.outlet.reach ≤ now := by
  rw [eq_ended_of_hasEnded hended] at hsignal
  exact hsignal

theorem Reads.onTime (hreads : signal.Reads update signal') (hsignal : signal.OnTime now) :
    signal'.OnTime now := by
  cases hreads with
  | done hended hqueue => exact hsignal
  | update hqueue => cases signal <;> exact hsignal

theorem Hears.onTime (hhears : Hears update side left right left' right') (hleft : left.OnTime now)
    (hright : right.OnTime now) : left'.OnTime now ∧ right'.OnTime now := by
  cases hhears with
  | left hreads => exact ⟨hreads.onTime hleft, hright⟩
  | right hreads => exact ⟨hleft, hreads.onTime hright⟩

theorem ceiling_announce (out : Outlet) (agenda : List Stamped) :
    (announce out agenda).ceiling = max out.reach (topStamp agenda) := by
  cases agenda with
  | nil => exact (Nat.max_eq_left (Nat.zero_le _)).symm
  | cons s rest =>
    have hreach := Outlet.reach_send out (.progress s.stamp)
    rw [Outlet.send, Update.stamp] at hreach
    rw [announce, ceiling, hreach, topStamp_cons]
    omega

theorem onTime_hear {out : Outlet} {task : Task} (hcoherent : (join out task left right).Coherent)
    (hsignal : (join out task left right).OnTime now) (hwants : task.wants side = true)
    (hhears : Hears update side left right left' right') :
    ((Worker.hear side ⟨task, out⟩ update).signal left' right').OnTime now ∧
      ((Worker.hear side ⟨task, out⟩ update).signal left' right').ceiling
        = (join out task left right).ceiling := by
  obtain ⟨-, -, hfollows, -, hcleft, hcright⟩ := hcoherent
  obtain ⟨hzip, hreach, htleft, htright⟩ := hsignal
  obtain ⟨hcleft', hcright'⟩ := hhears.coherent hcleft hcright
  obtain ⟨hleft, hright⟩ := hhears.onTime htleft htright
  obtain ⟨hceilLeft, hceilRight⟩ := hhears.ceiling
  have hreach' := hreach.trans (Outlet.reach_le_reach_sendAll out (task.receive side update).1)
  have hfollows' := hfollows.receive hwants hhears hcleft' hcright'
  have hzip' := Task.receive_ne_zip hzip side update
  rw [Worker.signal_hear hwants]
  split
  · next hdone =>
    -- Everything below has ended by now, and the outlet has promised the present: both are the same stamp.
    obtain ⟨hendedLeft, hendedRight⟩ := hfollows'.hasEnded_of_finished hdone hzip'
    have hle := hfollows'.reach_le
    have hleftNow := hleft.reach_le hendedLeft
    have hrightNow := hright.reach_le hendedRight
    refine ⟨hle.trans (Nat.max_le.2 ⟨hleftNow, hrightNow⟩), ?_⟩
    rw [ceiling, ceiling, ← hceilLeft, ← hceilRight, ceiling_of_hasEnded hendedLeft,
      ceiling_of_hasEnded hendedRight]
    omega
  · refine ⟨⟨hzip', hreach', hleft, hright⟩, ?_⟩
    rw [ceiling, ceiling, hceilLeft, hceilRight]

theorem Step.onTime (hstep : signal.Step (· ≤ now) signal') (hcoherent : signal.Coherent)
    (hsignal : signal.OnTime now) :
    signal'.OnTime now ∧ signal'.ceiling = signal.ceiling := by
  induction hstep with
  | @wake out next rest hdue =>
    obtain ⟨hnow, hreach⟩ := hsignal
    have hemit := Outlet.reach_send out (.event next)
    rw [Outlet.send, Update.stamp] at hemit
    constructor
    · cases rest with
      | nil =>
        rw [announce, OnTime, hemit]
        omega
      | cons s rest =>
        have hadvance := Outlet.reach_send (out.emit next) (.progress s.stamp)
        rw [Outlet.send, Update.stamp, hemit] at hadvance
        rw [announce, OnTime, hadvance]
        omega
    · rw [ceiling_announce, hemit, ceiling, topStamp_cons]
      omega
  | @pair out previous source source' u hreads =>
    have hreach := Outlet.reach_send out (pairWith previous u)
    exact ⟨⟨hsignal.1.trans (by omega), hreads.onTime hsignal.2⟩, hreads.ceiling⟩
  | close hreads =>
    obtain ⟨-, hrises, -⟩ := hcoherent
    cases hreads with
    | done hended hqueue =>
      rw [hqueue, rises_nil] at hrises
      have hreach := hsignal.2.reach_le hended
      rw [Outlet.reach, ← hrises] at hreach
      refine ⟨hreach, ?_⟩
      rw [ceiling, ceiling, ceiling_of_hasEnded hended, Outlet.reach, Outlet.reach, hrises]
  | hear hwants hhears => exact onTime_hear hcoherent hsignal hwants hhears
  | source hstep ih =>
    obtain ⟨hsource, hceiling⟩ := ih hcoherent.2.2 hsignal.2
    exact ⟨⟨hsignal.1, hsource⟩, hceiling⟩
  | left hstep ih =>
    obtain ⟨-, -, -, -, hcleft, -⟩ := hcoherent
    obtain ⟨hzip, hreach, hleft, hright⟩ := hsignal
    obtain ⟨hleft', hceiling⟩ := ih hcleft hleft
    refine ⟨⟨hzip, hreach, hleft', hright⟩, ?_⟩
    rw [ceiling, ceiling, hceiling]
  | right hstep ih =>
    obtain ⟨-, -, -, -, -, hcright⟩ := hcoherent
    obtain ⟨hzip, hreach, hleft, hright⟩ := hsignal
    obtain ⟨hright', hceiling⟩ := ih hcright hright
    refine ⟨⟨hzip, hreach, hleft, hright'⟩, ?_⟩
    rw [ceiling, ceiling, hceiling]

theorem firm_onTime (now : Nat) : Firm (· ≤ now) (OnTime now) :=
  ⟨Step.onTime, Reads.onTime⟩

end Signal

end TimedStreams
