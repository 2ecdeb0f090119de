import TimedStreams.Proofs.EngineRuns
import TimedStreams.Proofs.Horizons

/-!
# An operand as it is filled and used

An operand is filled by pulling updates from its signal and emptied by popping the events that it keeps,
and a join may do either at any time. Whatever it does, the horizon of the operand is an honest report
of how far it has got (`Intake.horizon_of_run`): it never goes back, no event that is popped later is
before it, and it is `done` only at the end of everything.

The invariant is `Intake.Fits`. It says that the operand attends its producer, from which the horizon
follows as for the operands of a running join, and that events popped, kept and unread are together
those that were sent.
-/

namespace TimedStreams

open Stamped Update

/-! ### Popping -/

namespace Operand

def pop? (o : Operand) : Option (Stamped × Operand) :=
  match o.pending with
  | [] => none
  | s :: rest => some (s, { o with pending := rest })

variable {o o' : Operand} {s : Stamped}

theorem pending_of_pop? (hpop : o.pop? = some (s, o')) :
    ∃ rest, o.pending = s :: rest ∧ o' = { o with pending := rest } := by
  cases hpending : o.pending with
  | nil => simp [pop?, hpending] at hpop
  | cons t rest =>
    simp only [pop?, hpending, Option.some.injEq, Prod.mk.injEq] at hpop
    obtain ⟨rfl, rfl⟩ := hpop
    exact ⟨rest, rfl, rfl⟩

end Operand

namespace Operands

variable {p q : Operands} {s t : Stamped} {l r : Operand}

theorem pop?_of_nextLeft? (hnext : p.nextLeft? = some (s, q)) : p.left.pop? = some (s, q.left) ∧ q.right = p.right := by
  obtain ⟨rest, hpending, rfl, -⟩ := nextLeft?_eq_some hnext
  exact ⟨by rw [Operand.pop?, hpending], rfl⟩

theorem pop?_of_nextRight? (hnext : p.nextRight? = some (s, q)) : p.right.pop? = some (s, q.right) ∧ q.left = p.left := by
  obtain ⟨rest, hpending, rfl, -⟩ := nextRight?_eq_some hnext
  exact ⟨by rw [Operand.pop?, hpending], rfl⟩

theorem pairUp_of_pop? (hleft : p.left.pop? = some (s, l)) (hright : p.right.pop? = some (t, r)) :
    p.pairUp = (s.join t :: (Operands.mk l r).pairUp.1, (Operands.mk l r).pairUp.2) := by
  obtain ⟨rest, hl, rfl⟩ := Operand.pending_of_pop? hleft
  obtain ⟨rest', hr, rfl⟩ := Operand.pending_of_pop? hright
  simp [pairUp, hl, hr, Nat.succ_min_succ]

end Operands

/-! ### Intakes -/

inductive Use where
  /-- Receives the next update of the signal, or its end; nothing happens as long as there is neither. -/
  | pull
  /-- Takes the first event that is kept, if there is one. -/
  | pop
  deriving DecidableEq, Repr

/-- An operand between the updates of its signal and the events taken from it. -/
structure Intake where
  operand : Operand := {}
  /-- The updates that have not been pulled. -/
  unread : List Update
  /-- Whether the signal completes behind them. -/
  completes : Bool
  popped : List Stamped := []

namespace Intake

def use (i : Intake) : Use → Intake
  | .pull =>
    match i.unread with
    | u :: rest => { i with operand := i.operand.receive (some u), unread := rest }
    | [] => if i.completes then { i with operand := i.operand.receive none } else i
  | .pop =>
    match i.operand.pop? with
    | some (s, o) => { i with operand := o, popped := i.popped ++ [s] }
    | none => i

def run (i : Intake) (uses : List Use) : Intake :=
  uses.foldl use i

def signal (top : Option Nat) (i : Intake) : Signal :=
  if i.completes then .ended ⟨i.unread, top⟩ else .manual ⟨i.unread, top⟩ ""

/-- The operand has received the beginning of what was sent, and every event sent is either popped, kept or unread. -/
structure Fits (i : Intake) (producer : Producer) : Prop where
  attends : i.operand.Attends producer (i.signal producer.channel.frontier)
  accounts : i.popped ++ (i.operand.pending ++ stampedOf i.unread) = producer.events

variable {i : Intake} {producer : Producer} {updates : List Update} {top : Option Nat} {stamp : Nat}

theorem outlet_signal (top : Option Nat) (i : Intake) : (i.signal top).outlet = ⟨i.unread, top⟩ := by
  rw [signal]
  split <;> rfl

theorem hasEnded_signal (top : Option Nat) (i : Intake) : (i.signal top).hasEnded = i.completes := by
  rw [signal]
  cases i.completes <;> rfl

theorem rises_of_pairwise {level : Option Nat} (hupdates : updates.Pairwise fun u v => u.stamp ≤ v.stamp)
    (hlevel : ∀ u ∈ updates, level.getD 0 ≤ u.stamp) :
    Rises level updates ((updates.getLast?.map Update.stamp).or level) := by
  induction updates generalizing level with
  | nil => rfl
  | cons u rest ih =>
    obtain ⟨hu, hrest⟩ := List.pairwise_cons.1 hupdates
    have hrises : Rises (some u.stamp) rest _ := ih hrest hu
    refine ⟨hlevel u List.mem_cons_self, ?_⟩
    cases hlast : rest.getLast? with
    | none => simpa [List.getLast?_cons, hlast] using hrises
    | some v => simpa [List.getLast?_cons, hlast] using hrises

theorem fits_start (completes : Bool) (hupdates : Rises none updates top) :
    ({ unread := updates, completes } : Intake).Fits ⟨⟨updates, top⟩, !completes⟩ where
  attends := by
    refine ⟨⟨ascending_nil, upTo_nil _, ?_, fun h => by cases h⟩, ?_, [], ?_, rfl, List.suffix_rfl⟩
    · rw [outlet_signal]
      exact hupdates
    · rw [hasEnded_signal, Bool.not_not]
    · rw [outlet_signal, List.nil_append]
  accounts := rfl

theorem reads_of_cons {u : Update} {rest : List Update} (top : Option Nat) (o : Operand) (hunread : i.unread = u :: rest) :
    (i.signal top).Reads (some u) (({ i with operand := o, unread := rest } : Intake).signal top) := by
  have hqueue : (i.signal top).outlet.queue = u :: rest := by rw [outlet_signal, hunread]
  have hrest : (i.signal top).withQueue rest = ({ i with operand := o, unread := rest } : Intake).signal top := by
    rw [signal, signal]
    cases i.completes <;> rfl
  exact hrest ▸ .update hqueue

theorem reads_of_nil (top : Option Nat) (hunread : i.unread = []) (hcompletes : i.completes = true) :
    (i.signal top).Reads none (i.signal top) :=
  .done (by rw [hasEnded_signal, hcompletes]) (by rw [outlet_signal, hunread])

/-- Pulling moves events from what is unread to what is kept, and the horizon only forward. -/
theorem Fits.pull (hi : i.Fits producer) :
    (i.use .pull).Fits producer ∧ i.operand.horizon.notAfter (i.use .pull).operand.horizon = true := by
  cases hunread : i.unread with
  | cons u rest =>
    have hreads := reads_of_cons producer.channel.frontier (i.operand.receive (some u)) hunread
    simp only [use, hunread]
    refine ⟨⟨hi.attends.receive hreads, ?_⟩, hi.attends.horizon_receive hreads⟩
    rw [← hi.accounts, hunread, Operand.pending_receive]
    cases u <;> simp
  | nil =>
    cases hcompletes : i.completes with
    | false =>
      simp only [use, hunread, hcompletes, Bool.false_eq_true, if_false]
      exact ⟨hi, Horizon.notAfter_refl _⟩
    | true =>
      have hreads := reads_of_nil producer.channel.frontier hunread hcompletes
      simp only [use, hunread, hcompletes, if_true]
      refine ⟨⟨?_, ?_⟩, hi.attends.horizon_receive hreads⟩
      · have hattends := hi.attends.receive hreads
        simpa only [signal, hcompletes, hunread] using hattends
      · rw [← hi.accounts, hunread]
        rfl

/-- Popping moves the first event that is kept to those popped, and the horizon only forward. -/
theorem Fits.pop (hi : i.Fits producer) :
    (i.use .pop).Fits producer ∧ i.operand.horizon.notAfter (i.use .pop).operand.horizon = true := by
  cases hpop : i.operand.pop? with
  | none =>
    simp only [use, hpop]
    exact ⟨hi, Horizon.notAfter_refl _⟩
  | some popped =>
    obtain ⟨s, o⟩ := popped
    obtain ⟨rest, hpending, rfl⟩ := Operand.pending_of_pop? hpop
    have hsplit : i.operand.pending = [s] ++ rest := hpending
    have hawaits : ({ i.operand with pending := rest } : Operand).Awaits (i.signal producer.channel.frontier).unread := by
      simpa using (hi.attends.follows.awaits_future (i.signal producer.channel.frontier).maySend_nil).tail hpending
    simp only [use, hpop]
    refine ⟨⟨?_, ?_⟩, hi.attends.horizon_use hsplit⟩
    · exact hi.attends.of_suffix (hi.attends.follows.of_awaits hawaits rfl rfl) rfl (hpending ▸ List.suffix_cons s rest)
    · rw [← hi.accounts, hpending]
      simp

theorem popped_use (i : Intake) (u : Use) : i.popped <+: (i.use u).popped := by
  cases u with
  | pull =>
    simp only [use]
    split
    · exact List.prefix_rfl
    · split <;> exact List.prefix_rfl
  | pop =>
    simp only [use]
    split
    · exact List.prefix_append _ _
    · exact List.prefix_rfl

theorem Fits.run (hi : i.Fits producer) (uses : List Use) :
    (i.run uses).Fits producer ∧ i.operand.horizon.notAfter (i.run uses).operand.horizon = true ∧
      i.popped <+: (i.run uses).popped := by
  induction uses generalizing i with
  | nil => exact ⟨hi, Horizon.notAfter_refl _, List.prefix_rfl⟩
  | cons u rest ih =>
    have hstep : (i.use u).Fits producer ∧ i.operand.horizon.notAfter (i.use u).operand.horizon = true := by
      cases u with
      | pull => exact hi.pull
      | pop => exact hi.pop
    obtain ⟨hfits, hhorizon, hpopped⟩ := ih hstep.1
    exact ⟨hfits, Horizon.notAfter_trans hstep.2 hhorizon, (popped_use i u).trans hpopped⟩

/-- At a known horizon nothing that is kept or unread is before it. -/
theorem Fits.from_of_known (hi : i.Fits producer) (hknown : i.operand.horizon = .known stamp) :
    From stamp (i.operand.pending ++ stampedOf i.unread) := by
  have hawaits := hi.attends.follows.awaits_future (i.signal producer.channel.frontier).maySend_nil
  rw [List.append_nil, Signal.unread, outlet_signal] at hawaits
  exact hawaits.from_of_known hknown

/-- At the last horizon the signal has completed, and every event has been popped. -/
theorem Fits.of_done (hi : i.Fits producer) (hdone : i.operand.horizon = .done) :
    producer.isOpen = false ∧ i.unread = [] ∧ i.popped = producer.events := by
  obtain ⟨hclosed, hpending⟩ := Operand.exhausted_iff.1 (Operand.horizon_eq_done_iff.1 hdone)
  obtain ⟨-, hunread⟩ := hi.attends.follows.closed hclosed
  rw [outlet_signal] at hunread
  refine ⟨hi.attends.isOpen_of_done hdone, hunread, ?_⟩
  rw [← hi.accounts, hpending, show i.unread = [] from hunread]
  simp

/-- However an operand is filled from updates whose stamps never decrease, and emptied: its horizon never goes back;
whatever is popped from a known horizon on is stamped no earlier; the horizon is `done` only when the signal has
completed and every event has been popped; and the events popped, kept and unread are those sent, in their order. -/
theorem horizon_of_run (hupdates : updates.Pairwise fun u v => u.stamp ≤ v.stamp) (completes : Bool)
    (before after : List Use) :
    let i := ({ unread := updates, completes } : Intake).run before
    let j := i.run after
    i.operand.horizon.notAfter j.operand.horizon = true ∧
      (∀ stamp, i.operand.horizon = .known stamp → ∀ s ∈ j.popped.drop i.popped.length, stamp ≤ s.stamp) ∧
      (i.operand.horizon = .done → completes = true ∧ i.unread = [] ∧ i.popped = stampedOf updates) ∧
      i.popped ++ i.operand.pending ++ stampedOf i.unread = stampedOf updates := by
  intro i j
  have hrises : Rises none updates ((updates.getLast?.map Update.stamp).or none) :=
    rises_of_pairwise hupdates fun _ _ => Nat.zero_le _
  obtain ⟨hi, -, -⟩ := (fits_start completes hrises).run before
  obtain ⟨hj, hhorizon, ⟨new, hnew⟩⟩ := hi.run after
  refine ⟨hhorizon, fun stamp hknown s hs => ?_, fun hdone => ?_, ?_⟩
  · -- What is popped afterwards was kept or unread before.
    have hsplit : new ++ (j.operand.pending ++ stampedOf j.unread) = i.operand.pending ++ stampedOf i.unread := by
      have hboth := hj.accounts.trans hi.accounts.symm
      rw [← hnew, List.append_assoc] at hboth
      exact List.append_cancel_left hboth
    rw [← hnew, List.drop_left] at hs
    exact hi.from_of_known hknown s (hsplit ▸ List.mem_append_left _ hs)
  · obtain ⟨hcompletes, hunread, hpopped⟩ := hi.of_done hdone
    exact ⟨by simpa using hcompletes, hunread, hpopped⟩
  · rw [List.append_assoc]
    exact hi.accounts

/-- An event, a promise and a later event, behind which the signal completes. -/
def promised : List Update :=
  [.event ⟨.tick 1 0, 2⟩, .progress 4, .event ⟨.tick 2 0, 5⟩]

/-- When the first event is popped the horizon falls back to the promise, which the second event keeps. -/
theorem horizon_of_run_promised :
    let i := ({ unread := promised, completes := true } : Intake).run [.pull, .pull, .pop]
    let j := i.run [.pull, .pull, .pop]
    i.operand.horizon = .known 4 ∧ j.operand.horizon = .done ∧
      (∀ s ∈ j.popped.drop i.popped.length, 4 ≤ s.stamp) ∧ j.popped = stampedOf promised := by
  intro i j
  have hupdates : promised.Pairwise fun u v => u.stamp ≤ v.stamp := by decide
  have hknown : i.operand.horizon = .known 4 := by decide +kernel
  have hdone : j.operand.horizon = .done := by decide +kernel
  obtain ⟨-, hlater, -, -⟩ := horizon_of_run hupdates true [.pull, .pull, .pop] [.pull, .pull, .pop]
  obtain ⟨-, -, hall, -⟩ := horizon_of_run hupdates true [.pull, .pull, .pop, .pull, .pull, .pop] []
  exact ⟨hknown, hdone, hlater 4 hknown, (hall hdone).2.2⟩

end Intake

end TimedStreams
