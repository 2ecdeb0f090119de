import TimedStreams.Proofs.Completion

/-!
# Schedules

`Signal.Step` leaves open what happens next. A `Choice` settles it: it names the replay that wakes,
or the task and the side on which it reads, and `Signal.choose` then is the step if it can be taken.
Choices and steps are the same thing (`Signal.step_iff_choose`), so a run of an evaluation can be
computed from the list of the choices that are made (`Live.follow_run`).
-/

namespace TimedStreams

open Relation Update

/-- Who acts next, by the way down the tree. -/
inductive Choice where
  /-- A replay wakes, or a task reads; the side only matters to a task with two operands. -/
  | here (side : Side)
  /-- Something happens in the operand of this side, or in the only operand. -/
  | inside (side : Side) (choice : Choice)

namespace Signal

/-- Reads a signal once, if there is something to be read. -/
def readOnce (signal : Signal) : Option (Option Update × Signal) :=
  match signal.outlet.queue with
  | u :: rest => some (some u, signal.withQueue rest)
  | [] => if signal.hasEnded then some (none, signal) else none

def choose (now : Nat) : Choice → Signal → Option Signal
  | .here _, replay out next rest => if next.stamp ≤ now then some (announce (out.emit next) rest) else none
  | .here _, adjacentPairs out previous source =>
    source.readOnce.map fun
      | (some u, source') => adjacentPairs (out.send (pairWith previous u)) (newestAfter previous u) source'
      | (none, _) => ended out
  | .here side, join out task left right =>
    if task.wants side then
      match side with
      | .left => left.readOnce.map fun x => (Worker.hear .left ⟨task, out⟩ x.1).signal x.2 right
      | .right => right.readOnce.map fun x => (Worker.hear .right ⟨task, out⟩ x.1).signal left x.2
    else none
  | .inside _ choice, adjacentPairs out previous source =>
    (source.choose now choice).map (adjacentPairs out previous)
  | .inside .left choice, join out task left right => (left.choose now choice).map (join out task · right)
  | .inside .right choice, join out task left right => (right.choose now choice).map (join out task left)
  | _, _ => none

variable {now : Nat} {signal signal' : Signal} {update : Option Update}

theorem reads_iff_readOnce : signal.Reads update signal' ↔ signal.readOnce = some (update, signal') := by
  rw [readOnce]
  constructor
  · intro hreads
    cases hreads with
    | update hqueue => rw [hqueue]
    | done hended hqueue => rw [hqueue, hended]; rfl
  · intro honce
    split at honce
    · next hqueue =>
      obtain ⟨rfl, rfl⟩ := Prod.mk.inj (Option.some.inj honce)
      exact .update hqueue
    · next hqueue =>
      split at honce
      · next hended =>
        obtain ⟨rfl, rfl⟩ := Prod.mk.inj (Option.some.inj honce)
        exact .done hended hqueue
      · cases honce

theorem step_of_choose {choice : Choice} (hchoose : signal.choose now choice = some signal') :
    signal.Step (· ≤ now) signal' := by
  induction choice generalizing signal signal' with
  | here side =>
    cases signal with
    | manual out name => cases hchoose
    | ended out => cases hchoose
    | replay out next rest =>
      simp only [choose] at hchoose
      split at hchoose
      · next hdue =>
        obtain rfl := Option.some.inj hchoose
        exact .wake hdue
      · cases hchoose
    | adjacentPairs out previous source =>
      obtain ⟨⟨update, source'⟩, honce, rfl⟩ := Option.map_eq_some_iff.1 hchoose
      have hreads := reads_iff_readOnce.2 honce
      cases update with
      | some u => exact .pair hreads
      | none => exact .close hreads
    | join out task left right =>
      simp only [choose] at hchoose
      split at hchoose
      · next hwants =>
        cases side with
        | left =>
          obtain ⟨⟨update, left'⟩, honce, rfl⟩ := Option.map_eq_some_iff.1 hchoose
          exact .hear hwants (.left (reads_iff_readOnce.2 honce))
        | right =>
          obtain ⟨⟨update, right'⟩, honce, rfl⟩ := Option.map_eq_some_iff.1 hchoose
          exact .hear hwants (.right (reads_iff_readOnce.2 honce))
      · cases hchoose
  | inside side choice ih =>
    cases signal with
    | manual out name => cases side <;> cases hchoose
    | ended out => cases side <;> cases hchoose
    | replay out next rest => cases side <;> cases hchoose
    | adjacentPairs out previous source =>
      obtain ⟨source', hsource, rfl⟩ := Option.map_eq_some_iff.1 (show (source.choose now choice).map _ = _ by
        cases side <;> exact hchoose)
      exact .source (ih hsource)
    | join out task left right =>
      cases side with
      | left =>
        obtain ⟨left', hleft, rfl⟩ := Option.map_eq_some_iff.1 hchoose
        exact .left (ih hleft)
      | right =>
        obtain ⟨right', hright, rfl⟩ := Option.map_eq_some_iff.1 hchoose
        exact .right (ih hright)

/-- A step is something that can be chosen. -/
theorem step_iff_choose :
    signal.Step (· ≤ now) signal' ↔ ∃ choice, signal.choose now choice = some signal' := by
  refine ⟨fun hstep => ?_, fun ⟨choice, hchoose⟩ => step_of_choose hchoose⟩
  induction hstep with
  | wake hdue => exact ⟨.here .left, if_pos hdue⟩
  | pair hreads => exact ⟨.here .left, by simp [choose, reads_iff_readOnce.1 hreads]⟩
  | close hreads => exact ⟨.here .left, by simp [choose, reads_iff_readOnce.1 hreads]⟩
  | hear hwants hhears =>
    cases hhears with
    | left hreads => exact ⟨.here .left, by simp [choose, hwants, reads_iff_readOnce.1 hreads]⟩
    | right hreads => exact ⟨.here .right, by simp [choose, hwants, reads_iff_readOnce.1 hreads]⟩
  | source _ ih =>
    obtain ⟨choice, hchoose⟩ := ih
    exact ⟨.inside .left choice, by simp [choose, hchoose]⟩
  | left _ ih =>
    obtain ⟨choice, hchoose⟩ := ih
    exact ⟨.inside .left choice, by simp [choose, hchoose]⟩
  | right _ ih =>
    obtain ⟨choice, hchoose⟩ := ih
    exact ⟨.inside .right choice, by simp [choose, hchoose]⟩

end Signal

namespace Live

/-- What is chosen, one after the other, while the clock stands still and nothing is taken. -/
def follow (live : Live) : List Choice → Option Live
  | [] => some live
  | choice :: rest => do
    let signal ← live.signal.choose live.now choice
    follow { live with signal } rest

theorem follow_run {live live' : Live} {choices : List Choice} (hfollow : live.follow choices = some live') :
    ReflTransGen Acts live live' := by
  induction choices generalizing live with
  | nil =>
    obtain rfl := Option.some.inj hfollow
    exact .refl
  | cons choice rest ih =>
    obtain ⟨signal', hchoose, hrest⟩ := Option.bind_eq_some_iff.1 hfollow
    exact .head (.work (Signal.step_of_choose hchoose)) (ih hrest)

/-- Making choices of one's own at the first due time, and then going on as the engine does, is a
run that finishes. -/
theorem detour_run {live last : Live} (hlive : live.signal.Coherent) {due : Nat} {choice : Choice}
    {choices : List Choice}
    (hnext : (live.settleAt .exact live.now).signal.nextWake .exact = some due)
    (hfollow : ((live.settleAt .exact live.now).atTime due).follow (choice :: choices) = some last) :
    ReflTransGen ExactStep live (last.resume .exact) ∧ (last.resume .exact).Finished := by
  have hnow : ∀ a b : Live, a.Acts b → a.ExactStep b := fun _ _ => .now
  have hsettle := settleAt_run Clock.neverEarly_exact hlive live.now
  have hsettled := settled_settleAt .exact live.now live
  have hquiet : (live.settleAt .exact live.now).signal.Coherent := coherent_of_run hsettle hlive
  obtain ⟨signal', hchoose, hrest⟩ := Option.bind_eq_some_iff.1 hfollow
  have hfirst : ((live.settleAt .exact live.now).atTime due).Acts _ := .work (Signal.step_of_choose hchoose)
  have hcoherent := coherent_of_run (follow_run hrest) (hfirst.coherent hquiet)
  obtain ⟨hrun, hlast⟩ := resume_run drives_exact Clock.neverEarly_exact hcoherent
  refine ⟨(ReflTransGen.mono hnow _ _ hsettle).trans (.head (.jump hsettled.still hnext hfirst) ?_), hlast⟩
  exact (ReflTransGen.mono hnow _ _ (follow_run hrest)).trans hrun

end Live

end TimedStreams
