import TimedStreams.Proofs.Completion
import TimedStreams.Proofs.Trace

/-!
# Where an evaluation starts

The signal of an expression starts coherent, with nothing read. What it still brings then is what
the expression stands for, by an induction that follows the expression: this is where the tasks,
which answer one update after the other, meet the combinators on whole sequences.
-/

namespace TimedStreams

open Stamped Update

theorem Task.prompt_start (kind : Join) : (Task.start kind).Prompt {} := by
  cases kind with
  | chain => trivial
  | merge => exact ⟨rfl, fun _ hstamp => by cases hstamp⟩
  | zip => exact ⟨.inl rfl, fun _ _ hstamp => by cases hstamp⟩
  | combineLatest => exact ⟨rfl, fun _ hstamp => by cases hstamp⟩

namespace Signal

/-- A coherent signal that has sent no event, and of which nothing has been read. -/
structure Fresh (signal : Signal) : Prop where
  coherent : signal.Coherent
  rises : Rises none signal.outlet.queue signal.outlet.frontier
  quiet : stampedOf signal.outlet.queue = []

variable {source left right : Signal} {kind : Join}

theorem fresh_ofAgenda (agenda : List Stamped) : (ofAgenda agenda).Fresh := by
  cases agenda with
  | nil => exact ⟨⟨none, rfl⟩, rfl, rfl⟩
  | cons s rest => exact ⟨⟨⟨none, Nat.zero_le _, rfl⟩, le_rfl⟩, ⟨Nat.zero_le _, rfl⟩, rfl⟩

theorem fresh_ofAdjacentPairs (hsource : source.Fresh) : (ofAdjacentPairs source).Fresh :=
  ⟨⟨⟨none, rfl⟩, hsource.rises, hsource.coherent⟩, rfl, rfl⟩

theorem fresh_ofJoin (kind : Join) (hleft : left.Fresh) (hright : right.Fresh) :
    (ofJoin kind left right).Fresh := by
  have hfollows : ∀ {signal : Signal}, signal.Fresh → ({} : Operand).Follows signal := fun hsignal =>
    ⟨ascending_nil, upTo_nil _, hsignal.rises, fun hclosed => by cases hclosed⟩
  have hfollow : ({} : Operands).Follow left right := ⟨hfollows hleft, hfollows hright⟩
  refine ⟨⟨⟨none, rfl⟩, ?_, ?_, Task.prompt_start kind, hleft.coherent, hright.coherent⟩, rfl, rfl⟩
  · cases kind <;> rfl
  · cases kind with
    | chain => exact ⟨hleft.rises, hright.rises⟩
    | merge => exact ⟨hfollow, Nat.zero_le _⟩
    | zip => exact ⟨hfollow, Nat.zero_le _⟩
    | combineLatest => exact ⟨hfollow, Nat.zero_le _⟩

theorem remaining_ofAgenda (agenda : List Stamped) : (ofAgenda agenda).remaining = climb 0 agenda := by
  cases agenda with
  | nil => rfl
  | cons s rest => exact climb_cons_of_le rest le_rfl

theorem remaining_ofAdjacentPairs (source : Signal) :
    (ofAdjacentPairs source).remaining = pairsAfter none source.remaining :=
  raiseAll_zero _

theorem remaining_ofJoin (kind : Join) (left right : Signal) :
    (ofJoin kind left right).remaining = (Task.start kind).answer left.remaining right.remaining left.ceiling :=
  raiseAll_zero _

theorem ceiling_ofAgenda (agenda : List Stamped) : (ofAgenda agenda).ceiling = topStamp agenda := by
  rw [ofAgenda, ceiling_announce]
  exact Nat.max_eq_right (Nat.zero_le _)

theorem finish_ofAgenda (agenda : List Stamped) : (ofAgenda agenda).finish = topStamp agenda := by
  cases agenda <;> rfl

theorem timely_ofAgenda (agenda : List Stamped) : (ofAgenda agenda).Timely 0 := by
  cases agenda with
  | nil => exact upTo_nil _
  | cons s rest => exact ⟨upTo_nil _, Nat.le_max_right _ _⟩

theorem onTime_ofAgenda (agenda : List Stamped) : (ofAgenda agenda).OnTime 0 := by
  cases agenda with
  | nil => exact Nat.zero_le _
  | cons s rest => exact ⟨Nat.zero_le _, Nat.le_max_right _ _⟩

theorem steady_ofAgenda (firm : Signal → Prop) (agenda : List Stamped) : (ofAgenda agenda).Steady firm := by
  cases agenda <;> trivial

theorem backed_ofAgenda (agenda : List Stamped) : (ofAgenda agenda).Backed := by
  cases agenda <;> trivial

end Signal

namespace Context

open Signal

variable {context : Context} {e : Expr}

theorem fresh_signal (context : Context) (e : Expr) : (context.signal e).Fresh := by
  induction e with
  | input source => exact fresh_ofAgenda _
  | join kind left right ihleft ihright => exact fresh_ofJoin kind ihleft ihright
  | adjacentPairs source ih => exact fresh_ofAdjacentPairs ih

theorem coherent_signal (context : Context) (e : Expr) : (context.signal e).Coherent :=
  (context.fresh_signal e).coherent

theorem steady_signal {shape : Expr → Prop} {firm : Signal → Prop}
    (hfirm : ∀ e, shape e → firm (context.signal e))
    (he : e.ChainsAfter shape) : (context.signal e).Steady firm := by
  induction e with
  | input source => exact steady_ofAgenda firm _
  | adjacentPairs source ih => exact ih he
  | join kind left right ihleft ihright =>
    obtain ⟨hchain, hleft, hright⟩ := he
    refine ⟨?_, ihleft hleft, ihright hright⟩
    intro stage hstage
    refine hfirm left (hchain ?_)
    cases kind with
    | chain => rfl
    | merge => cases hstage
    | zip => cases hstage
    | combineLatest => cases hstage

theorem orderly_signal {shape : Expr → Prop} {firm : Signal → Prop}
    (hfirm : ∀ e, shape e → firm (context.signal e))
    (he : e.Orderly shape) : (context.signal e).Orderly firm := by
  induction e with
  | input source => exact (steady_ofAgenda firm _).orderly
  | adjacentPairs source ih => exact ih he
  | join kind left right ihleft ihright =>
    obtain ⟨hchains, hleft, hright⟩ := he
    refine ⟨?_, ihleft hleft, ihright hright⟩
    intro hinterleaves
    have hkind : kind = .merge ∨ kind = .combineLatest := by
      cases kind with
      | merge => exact .inl rfl
      | combineLatest => exact .inr rfl
      | chain => exact hinterleaves.elim
      | zip => exact hinterleaves.elim
    exact (hchains hkind).imp (steady_signal hfirm) (steady_signal hfirm)

/-! ### On the exact clock -/

theorem onTime_signal (he : e.ZipFree) : (context.signal e).OnTime 0 := by
  induction e with
  | input source => exact onTime_ofAgenda _
  | adjacentPairs source ih => exact ⟨Nat.zero_le _, ih he⟩
  | join kind left right ihleft ihright =>
    obtain ⟨hzip, hleft, hright⟩ := he
    refine ⟨?_, Nat.zero_le _, ihleft hleft, ihright hright⟩
    intro p hp
    cases kind with
    | zip => exact hzip rfl
    | merge => cases hp
    | chain => cases hp
    | combineLatest => cases hp

theorem timely_signal (context : Context) (e : Expr) : (context.signal e).Timely 0 := by
  induction e with
  | input source => exact timely_ofAgenda _
  | adjacentPairs source ih => exact ⟨upTo_nil _, ih⟩
  | join kind left right ihleft ihright =>
    refine ⟨upTo_nil _, ?_, fun _ _ => Nat.zero_le _, ihleft, ihright⟩
    intro side
    cases kind <;> cases side <;> exact upTo_nil _

theorem ceiling_eq_finish (haccepted : context.Accepted) (he : e.ZipFree) :
    (context.signal e).ceiling = (context.trace e).finish := by
  induction e with
  | input source =>
    rw [signal, ceiling_ofAgenda, haccepted.agenda_eq, trace, Trace.ofSchedule, lastStamp_climb_zero]
  | adjacentPairs source ih => exact ih he
  | join kind left right ihleft ihright =>
    obtain ⟨hzip, hleft, hright⟩ := he
    have hmax : (context.signal (.join kind left right)).ceiling = max (context.trace left).finish
      (context.trace right).finish := by
      rw [← ihleft hleft, ← ihright hright]
      rfl
    rw [hmax, trace]
    cases kind with
    | zip => exact absurd rfl hzip
    | merge => rfl
    | chain => rfl
    | combineLatest => rfl

theorem remaining_eq_trace (haccepted : context.Accepted) (he : e.ChainsAfter Expr.ZipFree) :
    (context.signal e).remaining = (context.trace e).events := by
  induction e with
  | input source => rw [signal, remaining_ofAgenda, haccepted.agenda_eq, trace, Trace.ofSchedule]
  | adjacentPairs source ih => rw [signal, remaining_ofAdjacentPairs, ih he, trace, Trace.adjacentPairs]
  | join kind left right ihleft ihright =>
    obtain ⟨hchain, hleft, hright⟩ := he
    rw [signal, remaining_ofJoin, ihleft hleft, ihright hright, trace]
    cases kind with
    | chain =>
      rw [ceiling_eq_finish haccepted (hchain rfl)]
      rfl
    | merge => rfl
    | zip => rfl
    | combineLatest => rfl

theorem finish_eq_trace (haccepted : context.Accepted) (he : e.ChainsAfter Expr.ZipFree) :
    (context.signal e).finish = (context.trace e).finish := by
  induction e with
  | input source =>
    rw [signal, finish_ofAgenda, haccepted.agenda_eq, trace, Trace.ofSchedule, lastStamp_climb_zero]
  | adjacentPairs source ih => exact ih he
  | join kind left right ihleft ihright =>
    obtain ⟨-, hleft, hright⟩ := he
    have hremaining := remaining_eq_trace haccepted hleft
    have hremaining' := remaining_eq_trace haccepted hright
    rw [signal, ofJoin, Signal.finish, hremaining, hremaining', ihleft hleft, ihright hright, trace]
    cases kind <;> rfl

/-- At the start an evaluation on the exact clock has everything of the trace before it. -/
theorem tracks_signal (haccepted : context.Accepted) (he : e.ChainsAfter Expr.ZipFree) :
    Live.Tracks (context.trace e).events (context.trace e).finish (.start (context.signal e)) where
  coherent := context.coherent_signal e
  steady := steady_signal (fun _ => onTime_signal) he
  timely := context.timely_signal e
  events_eq := remaining_eq_trace haccepted he
  from_now := from_zero _
  finish_eq := (Nat.max_eq_right (Nat.zero_le _)).trans (finish_eq_trace haccepted he)

/-! ### On a late clock -/

theorem ceiling_le_topStamp (he : e.Plain) :
    (context.signal e).ceiling ≤ topStamp (context.signal e).remaining := by
  induction e with
  | input source =>
    rw [signal, ceiling_ofAgenda, remaining_ofAgenda, ← lastStamp_eq_topStamp (ascending_climb _ _),
      lastStamp_climb_zero]
  | adjacentPairs source ih => exact he.elim
  | join kind left right ihleft ihright =>
    obtain ⟨hkind, hleft, hright⟩ := he
    have hmax : (context.signal (.join kind left right)).ceiling
        = max (context.signal left).ceiling (context.signal right).ceiling := rfl
    have hboth : max (topStamp (context.signal left).remaining) (topStamp (context.signal right).remaining)
        ≤ topStamp (context.signal (.join kind left right)).remaining := by
      rw [signal, remaining_ofJoin]
      rcases hkind with rfl | rfl
      · obtain ⟨htopLeft, htopRight⟩ :=
          upTo_merge.1 (upTo_topStamp (merge (context.signal left).remaining (context.signal right).remaining))
        exact Nat.max_le.2 ⟨topStamp_le htopLeft, topStamp_le htopRight⟩
      · simp only [Task.start, Task.answer, topStamp_append]
        refine max_le_max le_rfl (topStamp_le fun s hs => ?_)
        have hraised := upTo_topStamp
          (raiseAll (context.signal left).ceiling (context.signal right).remaining) _
          (List.mem_map_of_mem hs)
        exact (Nat.le_max_right _ _).trans hraised
    rw [hmax]
    exact (max_le_max (ihleft hleft) (ihright hright)).trans hboth

theorem backed_signal (he : e.Plain) : (context.signal e).Backed := by
  induction e with
  | input source => exact backed_ofAgenda _
  | adjacentPairs source ih => exact he.elim
  | join kind left right ihleft ihright =>
    obtain ⟨hkind, hleft, hright⟩ := he
    refine ⟨?_, ihleft hleft, ihright hright⟩
    rcases hkind with rfl | rfl
    · exact ⟨(ceiling_le_topStamp hleft).trans (Nat.le_max_right _ _),
        (ceiling_le_topStamp hright).trans (Nat.le_max_right _ _)⟩
    · trivial

theorem ceiling_eq_lastStamp (he : e.Plain) :
    (context.signal e).ceiling = lastStamp (context.signal e).remaining := by
  obtain ⟨hascending, hupTo⟩ := (context.coherent_signal e).remaining
  rw [lastStamp_eq_topStamp hascending]
  exact Nat.le_antisymm (ceiling_le_topStamp he) (topStamp_le hupTo)

theorem remaining_eq_untimed (haccepted : context.Accepted) (he : e.ChainsAfter Expr.Plain) :
    (context.signal e).remaining = context.untimed e := by
  induction e with
  | input source => rw [signal, remaining_ofAgenda, haccepted.agenda_eq, untimed]
  | adjacentPairs source ih => rw [signal, remaining_ofAdjacentPairs, ih he, untimed]
  | join kind left right ihleft ihright =>
    obtain ⟨hchain, hleft, hright⟩ := he
    have hremaining := ihleft hleft
    rw [signal, remaining_ofJoin, ihright hright]
    cases kind with
    | chain =>
      rw [ceiling_eq_lastStamp (hchain rfl), hremaining]
      rfl
    | merge =>
      rw [hremaining]
      rfl
    | zip =>
      rw [hremaining]
      rfl
    | combineLatest =>
      rw [hremaining]
      rfl

/-- At the start an evaluation on a late clock has all events of the untimed meaning before it. -/
theorem orders_untimed (haccepted : context.Accepted) (he : e.ChainsAfter Expr.Plain) :
    Live.Orders (fun _ => Backed) ((context.untimed e).map Stamped.event) (.start (context.signal e)) where
  coherent := context.coherent_signal e
  orderly := (steady_signal (fun _ => backed_signal) he).orderly
  events_eq := congrArg (List.map Stamped.event) (remaining_eq_untimed haccepted he)

/-! ### On both clocks -/

/-- At the start an orderly evaluation has some events before it, in an order that will not change. -/
theorem orders_signal (context : Context) {shape : Expr → Prop} {firm : Nat → Signal → Prop}
    (hfirm : ∀ e, shape e → firm 0 (context.signal e)) (he : e.Orderly shape) :
    Live.Orders firm ((context.signal e).remaining.map Stamped.event) (.start (context.signal e)) where
  coherent := context.coherent_signal e
  orderly := orderly_signal hfirm he
  events_eq := rfl

end Context

end TimedStreams
