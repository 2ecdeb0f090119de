import TimedStreams.Proofs.Quiescence

/-!
# Settling is one run of the tasks

`Signal.settle` is the schedule that the evaluation uses: operands before the tasks that read them,
left before right. Here it is shown to be a run of single steps (`settle_run`), and one that goes on
until no step is possible (`idle_settle`). So whatever holds of all runs holds of the evaluation. At
each due time it replays at least one event (`unplayed_settle_lt`), so that the number of due times
is bounded by the number of events.
-/

namespace TimedStreams

open Relation Update

namespace Task

variable {task : Task} {side : Side} {update : Option Update}

theorem not_wants_of_finished (hdone : task.finished = true) (side : Side) : task.wants side = false := by
  simp [wants, hdone]

theorem wants_receive_some {u : Update} (hwants : task.wants side = true)
    (hmore : (task.receive side (some u)).2.finished = false) :
    (task.receive side (some u)).2.wants side = true := by
  have hboth := (Bool.and_eq_true_iff.1 hwants).2
  have hopen : ∀ p : Operands, (p.receive side (some u)).isOpen side = p.isOpen side := by
    intro p
    cases side <;> exact Operand.isOpen_receive_some _ _
  refine Bool.and_eq_true_iff.2 ⟨by simpa using hmore, ?_⟩
  cases task with
  | merge p => exact (Operands.isOpen_drain _ side).trans ((hopen p).trans hboth)
  | combineLatest p latest => exact (Operands.isOpen_drain _ side).trans ((hopen p).trans hboth)
  | zip p => cases side <;> exact (hopen p).trans hboth
  | chain stage => exact hboth

theorem wants_receive_none (hwants : task.wants side = true) :
    (task.receive side none).2.wants side = false := by
  have hclosed : ∀ p : Operands, (p.receive side none).isOpen side = false := by
    intro p
    cases side <;> rfl
  refine Bool.and_eq_false_iff.2 ?_
  cases task with
  | merge p => exact .inr ((Operands.isOpen_drain _ side).trans (hclosed p))
  | combineLatest p latest => exact .inr ((Operands.isOpen_drain _ side).trans (hclosed p))
  | zip p => cases side <;> exact .inr (hclosed p)
  | chain stage => cases stage <;> cases side <;> simp_all [receive, wants]

/-- What the right says never makes a task wait for the left. -/
theorem wants_left_of_receive_right (hright : task.wants .right = true)
    (hwants : (task.receive .right update).2.wants .left = true) : task.wants .left = true := by
  have hmore := (Bool.and_eq_true_iff.1 hright).1
  have hleft := (Bool.and_eq_true_iff.1 hwants).2
  refine Bool.and_eq_true_iff.2 ⟨hmore, ?_⟩
  cases task with
  | merge p => exact (Operands.isOpen_drain (p.receive .right update) .left).symm.trans hleft
  | combineLatest p latest => exact (Operands.isOpen_drain (p.receive .right update) .left).symm.trans hleft
  | zip p => exact hleft
  | chain stage => cases update <;> cases stage <;> simp_all [receive, wants]

end Task

namespace Signal

variable {due : Nat → Prop} {side : Side} {signal operand left right left' right' : Signal}

/-! ### What a worker hears -/

theorem Worker.foldl_hear_of_not_wants {w : Worker} (hwants : w.task.wants side = false)
    (updates : List (Option Update)) :
    updates.foldl (Worker.hear side) w = w := by
  induction updates with
  | nil => rfl
  | cons update rest ih => rw [List.foldl_cons, Worker.hear, if_neg (by simp [hwants]), ih]

/-- A worker that has heard all of an operand does not wait for it, unless there may be more. -/
theorem Worker.readUp_hearAll {w : Worker} (hwants : (w.hearAll side operand).1.task.wants side = true) :
    (w.hearAll side operand).2.ReadUp := by
  rw [hearAll] at hwants ⊢
  split
  · next hside =>
    rw [if_pos hside] at hwants
    refine ⟨by simp, ?_⟩
    rw [hasEnded_withQueue]
    refine Bool.eq_false_iff.2 fun hended => ?_
    rw [readable, if_pos hended, List.foldl_append, List.foldl_cons, List.foldl_nil, hear] at hwants
    split at hwants
    · next hlast =>
      rw [Task.wants_receive_none hlast] at hwants
      cases hwants
    · next hlast => exact hlast hwants
  · next hside =>
    rw [if_neg hside] at hwants
    exact absurd hwants hside

theorem Worker.wants_left_of_hearAll_right {w : Worker}
    (hwants : (w.hearAll .right operand).1.task.wants .left = true) :
    w.task.wants .left = true := by
  rw [hearAll] at hwants
  split at hwants
  · next hside =>
    clear hside
    generalize operand.readable = updates at hwants
    induction updates generalizing w with
    | nil => exact hwants
    | cons update rest ih =>
      have hfirst := ih hwants
      rw [hear] at hfirst
      split at hfirst
      · next hright => exact Task.wants_left_of_receive_right hright hfirst
      · exact hfirst
  · exact hwants

/-- Hearing all of an operand, wherever it is placed among the operands, is a run of single steps. -/
theorem Worker.hearAll_run (due : Nat → Prop) (side : Side) (place : Signal → Signal × Signal)
    (hplace : ∀ {update : Option Update} {o o' : Signal}, o.Reads update o' →
      Hears update side (place o).1 (place o).2 (place o').1 (place o').2)
    (w : Worker) (operand : Signal) :
    ReflTransGen (Step due) (w.signal (place operand).1 (place operand).2)
      ((w.hearAll side operand).1.signal (place (w.hearAll side operand).2).1
        (place (w.hearAll side operand).2).2) := by
  by_cases hside : w.task.wants side = true
  · rw [hearAll, if_pos hside]
    have hmore : w.task.finished = false := by
      simpa using (Bool.and_eq_true_iff.1 hside).1
    have hself : ∀ {w : Worker} {left right : Signal}, w.task.finished = false →
        w.signal left right = join w.out w.task left right := by
      intro w left right hmore
      rw [Worker.signal, if_neg (by simp [hmore])]
    rw [readable]
    -- By induction on what has not been read, for every worker, as a task that finishes on the way hears no more.
    induction hqueue : operand.outlet.queue generalizing w operand with
    | nil =>
      rw [withQueue_of_queue_eq hqueue]
      cases hended : operand.hasEnded with
      | false => exact .refl
      | true =>
        refine .single ?_
        rw [hself hmore]
        exact .hear hside (hplace (.done hended hqueue))
    | cons u rest ih =>
      have hstep : Step due (join w.out w.task _ _) _ := .hear hside (hplace (.update hqueue))
      rw [← hself hmore] at hstep
      refine .head hstep ?_
      rw [List.map_cons, List.cons_append, List.foldl_cons]
      by_cases hdone : (Worker.hear side w (some u)).task.finished = true
      · rw [foldl_hear_of_not_wants (Task.not_wants_of_finished hdone side), Worker.signal, Worker.signal,
          if_pos hdone, if_pos hdone]
      · have hmore' : (Worker.hear side w (some u)).task.finished = false := by simpa using hdone
        have hside' : (Worker.hear side w (some u)).task.wants side = true := by
          rw [Worker.hear, if_pos hside] at hmore' ⊢
          exact Task.wants_receive_some hside hmore'
        have hrest := ih (Worker.hear side w (some u)) (operand.withQueue rest) hside' hmore' (by simp)
        rw [hasEnded_withQueue] at hrest
        rw [withQueue_withQueue] at hrest
        exact hrest
  · rw [hearAll, if_neg hside]

/-! ### The whole tree -/

variable {clock : Clock} {now : Nat}

theorem replayDue_run (out : Outlet) (next : Stamped) (rest : List Stamped) :
    ReflTransGen (Step fun stamp => clock.wakeAt stamp ≤ now) (replay out next rest)
      (replayDue clock now out next rest) := by
  induction rest generalizing out next with
  | nil =>
    rw [replayDue]
    split
    · next hdue => exact .single (.wake hdue)
    · exact .refl
  | cons s rest ih =>
    rw [replayDue]
    split
    · next hdue => exact .head (.wake hdue) (ih _ _)
    · exact .refl

theorem pairAll_run (out : Outlet) (previous : Option Event) (source : Signal) :
    ReflTransGen (Step due) (adjacentPairs out previous source)
      (adjacentPairs (pairAll out previous source.outlet.queue).1 (pairAll out previous source.outlet.queue).2
        (source.withQueue [])) := by
  induction hqueue : source.outlet.queue generalizing out previous source with
  | nil =>
    rw [withQueue_of_queue_eq hqueue]
    exact .refl
  | cons u rest ih =>
    refine .head (.pair (.update hqueue)) ?_
    have hrest := ih (out.send (pairWith previous u)) (newestAfter previous u) (source.withQueue rest) (by simp)
    rw [withQueue_withQueue] at hrest
    exact hrest

/-- No task in the tree has finished without its signal having ended. -/
def Unfinished : Signal → Prop
  | replay _ _ _ | manual _ _ | ended _ => True
  | adjacentPairs _ _ source => source.Unfinished
  | join _ task left right => task.finished = false ∧ left.Unfinished ∧ right.Unfinished

theorem Coherent.unfinished {signal : Signal} (hsignal : signal.Coherent) : signal.Unfinished := by
  induction signal with
  | manual out name => trivial
  | ended out => trivial
  | replay out next rest => trivial
  | adjacentPairs out previous source ih => exact ih hsignal.2.2
  | join out task left right ihleft ihright =>
    obtain ⟨-, hmore, -, -, hleft, hright⟩ := hsignal
    exact ⟨hmore, ihleft hleft, ihright hright⟩

theorem settle_adjacentPairs_run (due : Nat → Prop) (out : Outlet) (previous : Option Event) (source : Signal) :
    ReflTransGen (Step due) (adjacentPairs out previous (source.settle clock now))
      ((adjacentPairs out previous source).settle clock now) := by
  have hpairs : ReflTransGen (Step due) _ _ := pairAll_run out previous (source.settle clock now)
  rw [settle]
  simp only
  split
  · next hended =>
    have hlast : ((source.settle clock now).withQueue []).hasEnded = true := by
      rw [hasEnded_withQueue]
      exact hended
    exact hpairs.tail (.close (.done hlast (by simp)))
  · exact hpairs

theorem settle_join_run (due : Nat → Prop) (out : Outlet) {task : Task} (left right : Signal)
    (hmore : task.finished = false) :
    ReflTransGen (Step due) (join out task (left.settle clock now) (right.settle clock now))
      ((join out task left right).settle clock now) := by
  have hstart : (Worker.mk task out).signal (left.settle clock now) (right.settle clock now)
      = join out task (left.settle clock now) (right.settle clock now) := by
    rw [Worker.signal, if_neg (by simp [hmore])]
  have hhearLeft := Worker.hearAll_run due .left (fun operand => (operand, right.settle clock now))
    (fun hreads => .left hreads) ⟨task, out⟩ (left.settle clock now)
  have hhearRight := Worker.hearAll_run due .right
    (fun operand => ((Worker.hearAll .left ⟨task, out⟩ (left.settle clock now)).2, operand))
    (fun hreads => .right hreads) (Worker.hearAll .left ⟨task, out⟩ (left.settle clock now)).1 (right.settle clock now)
  rw [hstart] at hhearLeft
  exact hhearLeft.trans hhearRight

/-- Settling is a run of single steps. -/
theorem Unfinished.settle_run (clock : Clock) (now : Nat) {signal : Signal} (hsignal : signal.Unfinished) :
    ReflTransGen (Step fun stamp => clock.wakeAt stamp ≤ now) signal (signal.settle clock now) := by
  induction signal with
  | manual out name => exact .refl
  | ended out => exact .refl
  | replay out next rest => exact replayDue_run out next rest
  | adjacentPairs out previous source ih =>
    have hsource := ReflTransGen.lift (adjacentPairs out previous)
      (fun _ _ hstep => Step.source hstep) _ _ (ih hsignal)
    exact hsource.trans (settle_adjacentPairs_run _ out previous source)
  | join out task left right ihleft ihright =>
    obtain ⟨hmore, hmoreLeft, hmoreRight⟩ := hsignal
    have hleft := ReflTransGen.lift (join out task · right) (fun _ _ hstep => Step.left hstep) _ _
      (ihleft hmoreLeft)
    have hright := ReflTransGen.lift (join out task (left.settle clock now)) (fun _ _ hstep => Step.right hstep)
      _ _ (ihright hmoreRight)
    exact (hleft.trans hright).trans (settle_join_run _ out left right hmore)

theorem settle_run (clock : Clock) (now : Nat) {signal : Signal} (hsignal : signal.Coherent) :
    ReflTransGen (Step fun stamp => clock.wakeAt stamp ≤ now) signal (signal.settle clock now) :=
  hsignal.unfinished.settle_run clock now

theorem ReadUp.not_reads {update : Option Update} {signal' : Signal} (hread : signal.ReadUp) :
    ¬ signal.Reads update signal' := by
  intro hreads
  cases hreads with
  | update hqueue => exact absurd (hqueue.symm.trans hread.queue_eq) (List.cons_ne_nil _ _)
  | done hended hqueue => exact absurd (hended.symm.trans hread.open_) (by simp)

theorem Idle.withQueue (hidle : signal.Idle due) (queue : List Update) : (signal.withQueue queue).Idle due := by
  intro signal' hstep
  cases signal with
  | manual out name => cases hstep
  | ended out => cases hstep
  | replay out next rest =>
    cases hstep with
    | wake hdue => exact hidle _ (.wake hdue)
  | adjacentPairs out previous source =>
    cases hstep with
    | pair hreads => exact hidle _ (.pair hreads)
    | close hreads => exact hidle _ (.close hreads)
    | source hstep => exact hidle _ (.source hstep)
  | join out task left right =>
    cases hstep with
    | hear hwants hhears => exact hidle _ (.hear hwants hhears)
    | left hstep => exact hidle _ (.left hstep)
    | right hstep => exact hidle _ (.right hstep)

theorem idle_replayDue (out : Outlet) (next : Stamped) (rest : List Stamped) :
    (replayDue clock now out next rest).Idle fun stamp => clock.wakeAt stamp ≤ now := by
  have hasleep : ∀ {out : Outlet} {next : Stamped} {rest : List Stamped}, ¬ clock.wakeAt next.stamp ≤ now →
      (replay out next rest).Idle fun stamp => clock.wakeAt stamp ≤ now := by
    intro out next rest hlate signal' hstep
    cases hstep with
    | wake hdue => exact hlate hdue
  induction rest generalizing out next with
  | nil =>
    rw [replayDue]
    split
    · intro signal' hstep
      cases hstep
    · next hlate => exact hasleep hlate
  | cons s rest ih =>
    rw [replayDue]
    split
    · exact ih _ _
    · next hlate => exact hasleep hlate

theorem Idle.hearAll {w : Worker} (hidle : operand.Idle due) : (w.hearAll side operand).2.Idle due := by
  rw [Worker.hearAll]
  split
  · exact hidle.withQueue []
  · exact hidle

/-- After settling no step is possible. -/
theorem idle_settle (clock : Clock) (now : Nat) (signal : Signal) :
    (signal.settle clock now).Idle fun stamp => clock.wakeAt stamp ≤ now := by
  induction signal with
  | manual out name =>
    intro signal' hstep
    cases hstep
  | ended out =>
    intro signal' hstep
    cases hstep
  | replay out next rest => exact idle_replayDue out next rest
  | adjacentPairs out previous source ih =>
    rw [settle]
    simp only
    split
    · intro signal' hstep
      cases hstep
    · next hopen =>
      have hread : ((source.settle clock now).withQueue []).ReadUp := ⟨by simp, by simpa using hopen⟩
      intro signal' hstep
      cases hstep with
      | pair hreads => exact hread.not_reads hreads
      | close hreads => exact hread.not_reads hreads
      | source hstep => exact ih.withQueue [] _ hstep
  | join out task left right ihleft ihright =>
    rw [settle]
    simp only
    split
    · intro signal' hstep
      cases hstep
    · intro signal' hstep
      cases hstep with
      | left hstep => exact ihleft.hearAll _ hstep
      | right hstep => exact ihright.hearAll _ hstep
      | hear hwants hhears =>
        cases hhears with
        | left hreads => exact
          (Worker.readUp_hearAll (Worker.wants_left_of_hearAll_right hwants)).not_reads hreads
        | right hreads => exact (Worker.readUp_hearAll hwants).not_reads hreads

/-! ### The number of due times -/

theorem unplayed_replayDue_le (out : Outlet) (next : Stamped) (rest : List Stamped) :
    (replayDue clock now out next rest).unplayed ≤ rest.length + 1 := by
  induction rest generalizing out next with
  | nil =>
    rw [replayDue]
    split
    · exact Nat.zero_le _
    · exact le_rfl
  | cons s rest ih =>
    rw [replayDue]
    split
    · exact (ih _ _).trans (Nat.le_succ _)
    · exact le_rfl

@[simp] theorem unplayed_withQueue (signal : Signal) (queue : List Update) :
    (signal.withQueue queue).unplayed = signal.unplayed := by
  cases signal <;> rfl

theorem unplayed_hearAll (w : Worker) (operand : Signal) :
    (w.hearAll side operand).2.unplayed = operand.unplayed := by
  rw [Worker.hearAll]
  split
  · exact unplayed_withQueue _ _
  · rfl

theorem unplayed_settle_le (clock : Clock) (now : Nat) (signal : Signal) :
    (signal.settle clock now).unplayed ≤ signal.unplayed := by
  induction signal with
  | manual out name => exact le_rfl
  | ended out => exact le_rfl
  | replay out next rest => exact unplayed_replayDue_le out next rest
  | adjacentPairs out previous source ih =>
    rw [settle]
    simp only
    split
    · exact Nat.zero_le _
    · simpa [unplayed] using ih
  | join out task left right ihleft ihright =>
    rw [settle]
    simp only
    split
    · exact Nat.zero_le _
    · simp only [unplayed, unplayed_hearAll]
      omega

theorem unplayed_settle_lt {due : Nat} (hnext : signal.nextWake clock = some due) :
    (signal.settle clock due).unplayed < signal.unplayed := by
  induction signal with
  | manual out name => cases hnext
  | ended out => cases hnext
  | replay out next rest =>
    have hdue : clock.wakeAt next.stamp ≤ due := (Option.some.inj hnext).le
    cases rest with
    | nil =>
      rw [settle, replayDue, if_pos hdue]
      exact Nat.zero_lt_one
    | cons s rest =>
      rw [settle, replayDue, if_pos hdue]
      exact Nat.lt_succ_of_le (unplayed_replayDue_le _ _ _)
  | adjacentPairs out previous source ih =>
    rw [settle]
    simp only
    have hless := ih hnext
    split
    · exact (Nat.zero_le _).trans_lt hless
    · simpa [unplayed] using hless
  | join out task left right ihleft ihright =>
    have hless : (left.settle clock due).unplayed +
      (right.settle clock due).unplayed < left.unplayed + right.unplayed := by
      have hleft := unplayed_settle_le clock due left
      have hright := unplayed_settle_le clock due right
      rcases nextWake_join hnext with hnext | hnext
      · have hlt := ihleft hnext
        omega
      · have hlt := ihright hnext
        omega
    rw [settle]
    simp only
    split
    · exact (Nat.zero_le _).trans_lt hless
    · simpa only [unplayed, unplayed_hearAll] using hless

end Signal

end TimedStreams
