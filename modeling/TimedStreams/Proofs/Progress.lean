import TimedStreams.Proofs.EngineRuns

/-!
# No evaluation gets stuck

Whenever all tasks of an evaluation are idle, it is poised (`Live.Poised`): every signal in the tree
that has not ended has promised more than the present, no task that reads in the order of stamps
holds back an event of the present or the past, and unless the whole evaluation has ended, a replay
sleeps towards a later deadline. This asks nothing of the shape of the expression; in particular a
`zip` may end inside the left operand of a chain.

Since the clock only ever jumps to a deadline of the tree, every run completes, and no later than
the latest deadline of all timelines at the leaves (`Context.lastDeadline`).
-/

namespace TimedStreams

open Relation Stamped Update

namespace Signal

/-- The signals of a tree, itself and all those that its tasks read. -/
def parts : Signal → List Signal
  | replay out next rest => [replay out next rest]
  | manual out name => [manual out name]
  | adjacentPairs out previous source => adjacentPairs out previous source :: source.parts
  | join out task left right => join out task left right :: (left.parts ++ right.parts)
  | ended out => [ended out]

def lastDue : Signal → Nat
  | replay _ next rest => topStamp (next :: rest)
  | manual _ _ | ended _ => 0
  | adjacentPairs _ _ source => source.lastDue
  | join _ _ left right => max left.lastDue right.lastDue

variable {due : Nat → Prop} {signal signal' left right left' right' part : Signal} {side : Side}
  {update : Option Update}

theorem Coherent.of_mem_parts (hsignal : signal.Coherent) (hpart : part ∈ signal.parts) : part.Coherent := by
  induction signal with
  | manual out name => exact hsignal.elim
  | ended out => exact List.mem_singleton.1 hpart ▸ hsignal
  | replay out next rest => exact List.mem_singleton.1 hpart ▸ hsignal
  | adjacentPairs out previous source ih =>
    rcases List.mem_cons.1 hpart with rfl | hpart
    · exact hsignal
    · exact ih hsignal.2.2 hpart
  | join out task left right ihleft ihright =>
    rcases List.mem_cons.1 hpart with rfl | hpart
    · exact hsignal
    · obtain ⟨-, -, -, -, hleft, hright⟩ := hsignal
      exact (List.mem_append.1 hpart).elim (ihleft hleft) (ihright hright)

theorem Idle.of_mem_parts (hidle : signal.Idle due) (hpart : part ∈ signal.parts) : part.Idle due := by
  induction signal with
  | manual out name => exact List.mem_singleton.1 hpart ▸ hidle
  | ended out => exact List.mem_singleton.1 hpart ▸ hidle
  | replay out next rest => exact List.mem_singleton.1 hpart ▸ hidle
  | adjacentPairs out previous source ih =>
    rcases List.mem_cons.1 hpart with rfl | hpart
    · exact hidle
    · exact ih hidle.source_readUp.1 hpart
  | join out task left right ihleft ihright =>
    rcases List.mem_cons.1 hpart with rfl | hpart
    · exact hidle
    · exact (List.mem_append.1 hpart).elim (ihleft hidle.left_readUp.1) (ihright hidle.right_readUp.1)

end Signal

/-! ### What is held back -/

namespace Operands

variable {p : Operands} {low : Nat}

theorem from_pending_of_next?_eq_none (hnext : p.next? = none) (hmore : p.finished = false)
    (hascendingLeft : Ascending p.left.pending) (hascendingRight : Ascending p.right.pending)
    (hleft : p.left.isOpen = true → low < p.left.reached.getD 0)
    (hright : p.right.isOpen = true → low < p.right.reached.getD 0) :
    From (low + 1) p.left.pending ∧ From (low + 1) p.right.pending := by
  have hfirst : ∀ {s : Stamped} {rest : List Stamped}, Ascending (s :: rest) → low < s.stamp →
      From (low + 1) (s :: rest) := fun hascending hlow =>
    from_cons.2 ⟨hlow, (ascending_cons.1 hascending).1.mono hlow⟩
  rcases open_of_next?_eq_none hnext hmore with ⟨hnil, hopen⟩ | ⟨hnil, hopen⟩
  · refine ⟨hnil ▸ from_nil _, ?_⟩
    cases hpending : p.right.pending with
    | nil => exact from_nil _
    | cons t rest =>
      have hle := reached_le_of_next?_eq_none hnext hnil hopen hpending
      exact hfirst (hpending ▸ hascendingRight) ((hleft hopen).trans_le hle)
  · refine ⟨?_, hnil ▸ from_nil _⟩
    cases hpending : p.left.pending with
    | nil => exact from_nil _
    | cons s rest =>
      have hlow := hright hopen
      have hlt := reached_lt_of_next?_eq_none hnext hnil hopen hpending ((Nat.zero_le low).trans_lt hlow)
      exact hfirst (hpending ▸ hascendingLeft) (hlow.trans hlt)

end Operands

namespace Signal

variable {now : Nat} {out : Outlet} {task : Task} {left right : Signal}

/-- An idle task that reads in the order of stamps holds back only events of the future. -/
theorem Coherent.kept_later (hsignal : (join out task left right).Coherent)
    (hidle : (join out task left right).Idle (· ≤ now)) (htask : task.Interleaves) (side : Side) :
    From (now + 1) (task.kept side) := by
  obtain ⟨-, hmore, hfollows, hprompt, hcleft, hcright⟩ := hsignal
  obtain ⟨hidleLeft, hreadLeft⟩ := hidle.left_readUp
  obtain ⟨hidleRight, hreadRight⟩ := hidle.right_readUp
  have hbeyond : ∀ {operand : Signal}, operand.Coherent → operand.Idle (· ≤ now) → operand.ReadUp →
      operand.ReadUp ∧ operand.Beyond now := by
    intro operand hcoherent hidle hread
    exact ⟨hread, (hcoherent.beyond hidle).resolve_left (by simp [hread.open_])⟩
  have hoperands : ∀ p : Operands, p.Follow left right → p.next? = none → p.finished = false →
      (∀ side, p.isOpen side = true → task.wants side = true) →
      From (now + 1) p.left.pending ∧ From (now + 1) p.right.pending := by
    intro p hfollow hnext hmore hwants
    refine Operands.from_pending_of_next?_eq_none hnext hmore hfollow.left.ascending hfollow.right.ascending
      (hfollow.left.lt_reached fun hopen => ?_) (hfollow.right.lt_reached fun hopen => ?_)
    · exact hbeyond hcleft hidleLeft (hreadLeft (hwants .left hopen))
    · exact hbeyond hcright hidleRight (hreadRight (hwants .right hopen))
  cases task with
  | chain stage => exact htask.elim
  | zip p => exact htask.elim
  | merge p =>
    obtain ⟨hleft, hright⟩ := hoperands p hfollows.1 hprompt.1 hmore fun side hopen =>
      Task.wants_of_isOpen (fun _ => rfl) hmore hopen
    cases side with
    | left => exact hleft
    | right => exact hright
  | combineLatest p latest =>
    obtain ⟨hleft, hright⟩ := hoperands p hfollows.1 hprompt.1 hmore fun side hopen =>
      Task.wants_of_isOpen (fun _ => rfl) hmore hopen
    cases side with
    | left => exact hleft
    | right => exact hright

/-! ### Who is asleep -/

theorem exists_replay_of_nextWake {clock : Clock} {signal : Signal} {wake : Nat}
    (hnext : signal.nextWake clock = some wake) :
    ∃ out next rest, replay out next rest ∈ signal.parts ∧ clock.wakeAt next.stamp = wake := by
  induction signal with
  | manual out name => cases hnext
  | ended out => cases hnext
  | replay out next rest => exact ⟨out, next, rest, List.mem_singleton_self _, Option.some.inj hnext⟩
  | adjacentPairs out previous source ih =>
    obtain ⟨out', next, rest, hpart, hwake⟩ := ih hnext
    exact ⟨out', next, rest, List.mem_cons_of_mem _ hpart, hwake⟩
  | join out task left right ihleft ihright =>
    rcases nextWake_join hnext with hleft | hright
    · obtain ⟨out', next, rest, hpart, hwake⟩ := ihleft hleft
      exact ⟨out', next, rest, List.mem_cons_of_mem _ (List.mem_append_left _ hpart), hwake⟩
    · obtain ⟨out', next, rest, hpart, hwake⟩ := ihright hright
      exact ⟨out', next, rest, List.mem_cons_of_mem _ (List.mem_append_right _ hpart), hwake⟩

/-- An idle tree that has not ended sleeps towards a later deadline. -/
theorem Coherent.exists_asleep {signal : Signal} (hsignal : signal.Coherent) (hidle : signal.Idle (· ≤ now))
    (hopen : signal.hasEnded = false) :
    ∃ out next rest, replay out next rest ∈ signal.parts ∧ now < next.stamp := by
  cases hnext : signal.nextWake .exact with
  | none =>
    have hended := hsignal.hasEnded_of_idle fun due => show signal.Idle due from hidle.of_nextWake_none hnext
    exact absurd hended (by simp [hopen])
  | some wake =>
    obtain ⟨out, next, rest, hpart, -⟩ := exists_replay_of_nextWake hnext
    refine ⟨out, next, rest, hpart, Nat.lt_of_not_le fun hdue => ?_⟩
    exact hidle.of_mem_parts hpart _ (.wake hdue)

/-! ### The latest deadline -/

@[simp] theorem lastDue_withQueue (signal : Signal) (queue : List Update) :
    (signal.withQueue queue).lastDue = signal.lastDue := by
  cases signal <;> rfl

theorem Reads.lastDue {signal signal' : Signal} {update : Option Update} (hreads : signal.Reads update signal') :
    signal'.lastDue = signal.lastDue := by
  cases hreads with
  | update hqueue => exact lastDue_withQueue _ _
  | done hended hqueue => rfl

theorem lastDue_announce (out : Outlet) (agenda : List Stamped) :
    (announce out agenda).lastDue = topStamp agenda := by
  cases agenda <;> rfl

theorem Worker.lastDue_signal_le (w : Worker) (left right : Signal) :
    (w.signal left right).lastDue ≤ max left.lastDue right.lastDue := by
  rw [Worker.signal]
  split
  · exact Nat.zero_le _
  · exact le_rfl

theorem Step.lastDue_le {due : Nat → Prop} {signal signal' : Signal} (hstep : signal.Step due signal') :
    signal'.lastDue ≤ signal.lastDue := by
  induction hstep with
  | @wake out next rest hdue =>
    rw [lastDue_announce]
    exact Nat.le_max_right _ _
  | pair hreads => exact hreads.lastDue.le
  | close hreads => exact Nat.zero_le _
  | hear hwants hhears =>
    refine (Worker.lastDue_signal_le _ _ _).trans ?_
    cases hhears with
    | left hreads => exact max_le_max hreads.lastDue.le le_rfl
    | right hreads => exact max_le_max le_rfl hreads.lastDue.le
  | source hstep ih => exact ih
  | left hstep ih => exact max_le_max ih le_rfl
  | right hstep ih => exact max_le_max le_rfl ih

theorem nextWake_le_lastDue {signal : Signal} {wake : Nat} (hnext : signal.nextWake .exact = some wake) :
    wake ≤ signal.lastDue := by
  induction signal with
  | manual out name => cases hnext
  | ended out => cases hnext
  | replay out next rest =>
    obtain rfl := Option.some.inj hnext
    exact Nat.le_max_left _ _
  | adjacentPairs out previous source ih => exact ih hnext
  | join out task left right ihleft ihright =>
    rcases nextWake_join hnext with hleft | hright
    · exact (ihleft hleft).trans (Nat.le_max_left _ _)
    · exact (ihright hright).trans (Nat.le_max_right _ _)

end Signal

namespace Live

/-- Everything in the evaluation is ready for what comes after the present. -/
structure Poised (live : Live) : Prop where
  announced : ∀ part ∈ live.signal.parts, part.hasEnded = false →
    ∃ frontier, part.outlet.frontier = some frontier ∧ live.now < frontier
  released : ∀ out task left right, Signal.join out task left right ∈ live.signal.parts → task.Interleaves →
    ∀ side, From (live.now + 1) (task.kept side)
  asleep : live.signal.hasEnded = false →
    ∃ out next rest, Signal.replay out next rest ∈ live.signal.parts ∧ live.now < next.stamp

/-- Neither the present nor any deadline that is left is after `last`. -/
structure Within (last : Nat) (live : Live) : Prop where
  coherent : live.signal.Coherent
  lastDue_le : live.signal.lastDue ≤ last
  now_le : live.now ≤ last

variable {live live' : Live} {last : Nat}

/-- A coherent evaluation in which all tasks are idle is poised. -/
theorem poised_of_idle (hcoherent : live.signal.Coherent) (hidle : live.signal.Idle (· ≤ live.now)) :
    live.Poised where
  announced := by
    intro part hpart hopen
    have hbeyond := (hcoherent.of_mem_parts hpart).beyond (hidle.of_mem_parts hpart)
      |>.resolve_left (by simp [hopen])
    have hreach := hbeyond.reach
    cases hfrontier : part.outlet.frontier with
    | none => simp [Outlet.reach, hfrontier] at hreach
    | some frontier => exact ⟨frontier, rfl, by simpa [Outlet.reach, hfrontier] using hreach⟩
  released := fun _ _ _ _ hpart htask side =>
    (hcoherent.of_mem_parts hpart).kept_later (hidle.of_mem_parts hpart) htask side
  asleep := hcoherent.exists_asleep hidle

theorem Acts.within (hacts : live.Acts live') (hlive : live.Within last) : live'.Within last := by
  obtain ⟨hcoherent, hdue, hnow⟩ := hlive
  refine ⟨hacts.coherent hcoherent, ?_, ?_⟩
  · cases hacts with
    | work hstep => exact hstep.lastDue_le.trans hdue
    | take hreads => exact hreads.lastDue.le.trans hdue
  · cases hacts with
    | work hstep => exact hnow
    | take hreads => exact hnow

theorem ExactStep.within (hstep : live.ExactStep live') (hlive : live.Within last) :
    live'.Within last ∧ live'.signal.effort < live.signal.effort := by
  cases hstep with
  | now hacts => exact ⟨hacts.within hlive, hacts.effort_lt⟩
  | jump hstill hnext hacts =>
    obtain ⟨hcoherent, hdue, -⟩ := hlive
    exact ⟨hacts.within ⟨hcoherent, hdue, (Signal.nextWake_le_lastDue hnext).trans hdue⟩, hacts.effort_lt⟩

theorem within_of_run (hrun : ReflTransGen ExactStep live live') (hlive : live.Within last) :
    live'.Within last := by
  induction hrun with
  | refl => exact hlive
  | tail _ hstep ih => exact (hstep.within ih).1

/-- On the exact clock every run completes, no later than the latest deadline. -/
theorem Within.ends (hlive : live.Within last) :
    Ends ExactStep (fun live => live.Finished ∧ live.now ≤ last) live := by
  refine Ends.of_invariant (Within last) (fun live => live.signal.effort) ?_ ?_ hlive
  · intro live live' hinv hstep
    exact hstep.within hinv
  · intro live hinv hnone
    exact ⟨finished_of_not_exactStep hinv.coherent hnone, hinv.now_le⟩

end Live

/-! ### Expressions -/

namespace Context

variable {context : Context}

/-- The latest deadline of all timelines at the leaves of an expression, the origin if they are all empty. -/
def lastDeadline (context : Context) : Expr → Nat
  | .input source => topStamp ((context.timeline source).schedule context.speed)
  | .join _ left right => max (context.lastDeadline left) (context.lastDeadline right)
  | .adjacentPairs source => context.lastDeadline source

theorem lastDue_signal (haccepted : context.Accepted) (e : Expr) :
    (context.signal e).lastDue = context.lastDeadline e := by
  induction e with
  | input source =>
    rw [signal, haccepted.agenda_eq, lastDeadline]
    exact Signal.lastDue_announce _ _
  | join kind left right ihleft ihright =>
    rw [lastDeadline, ← ihleft, ← ihright]
    rfl
  | adjacentPairs source ih => exact ih

theorem within_signal (haccepted : context.Accepted) (e : Expr) :
    (Live.start (context.signal e)).Within (context.lastDeadline e) :=
  ⟨context.coherent_signal e, (lastDue_signal haccepted e).le, Nat.zero_le _⟩

end Context

namespace Engine

variable {context : Context} {config : Config} {engine : Engine}

/-- Whenever an evaluation is idle it is poised for what comes later, and it always completes, by the
latest deadline of its timelines. -/
theorem run_progresses (haccepted : context.Accepted) (hengine : Engine.make config = .ok engine) (e : Expr) :
    (∀ live, ReflTransGen Live.ExactStep (.start (context.signal e)) live →
        live.signal.Idle (· ≤ live.now) → live.Poised) ∧
      Ends Live.ExactStep (fun last => last.Finished ∧ last.now ≤ context.lastDeadline e)
        (.start (context.signal e)) ∧
      (engine.run e context).finish ≤ context.lastDeadline e := by
  obtain rfl := eq_of_make hengine
  have hwithin := Context.within_signal haccepted e
  refine ⟨?_, hwithin.ends, ?_⟩
  · intro live hrun hidle
    exact Live.poised_of_idle (Live.within_of_run hrun hwithin).coherent hidle
  · rw [finish_run]
    exact (hwithin.ends.complete Live.drives_exact Clock.neverEarly_exact hwithin.coherent).2

/-- A chain after pairs, merged with one of the inputs, once the first event has been replayed. -/
theorem run_progresses_paired :
    let e : Expr := .join .merge (.input .second) (.afterPairs (.input .first))
    let start : Live := .start (Context.outlasted.signal e)
    let live := (start.settleAt .exact 0).settleAt .exact 1000000000
    Context.outlasted.Accepted ∧ Engine.make {} = .ok { config := {} } ∧
      ReflTransGen Live.ExactStep start live ∧ live.signal.Idle (· ≤ live.now) ∧ live.Poised ∧
      (Engine.run { config := {} } e .outlasted).finish ≤ Context.outlasted.lastDeadline e := by
  intro e start live
  have hengine : Engine.make {} = .ok { config := {} } := rfl
  have hcoherent : start.signal.Coherent := Context.outlasted.coherent_signal e
  have hfirst := Live.settleAt_run Clock.neverEarly_exact hcoherent 0
  have hnext : (start.settleAt .exact 0).signal.nextWake .exact = some 1000000000 := by decide +kernel
  have hsecond := (Live.settled_settleAt .exact 0 start).run Live.drives_exact Clock.neverEarly_exact
    (Live.coherent_of_run hfirst hcoherent) hnext
  have hrun : ReflTransGen Live.ExactStep start live :=
    (ReflTransGen.mono (fun _ _ hacts => Live.ExactStep.now hacts) _ _ hfirst).trans hsecond
  have hidle : live.signal.Idle (· ≤ live.now) := (Live.settled_settleAt .exact 1000000000 _).idle
  obtain ⟨hpoised, -, hfinish⟩ := run_progresses Context.accepted_outlasted hengine e
  exact ⟨Context.accepted_outlasted, hengine, hrun, hidle, hpoised live hrun hidle, hfinish⟩

end Engine

end TimedStreams
