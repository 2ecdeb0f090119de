import TimedStreams.Proofs.Arrival
import TimedStreams.Proofs.Effort

/-!
# Runs on the exact clock

Everything that the exact clock keeps is put together in `Live.Tracks`: what has been taken and what
still comes make up one fixed list of events, each taken at its stamp, and the completion is fixed
as well. The invariant survives whatever acts, and it survives a jump of the clock because an idle
evaluation is beyond all instants before the next deadline. A run can therefore only end with
exactly these events, at exactly this instant, and it does end.
-/

namespace TimedStreams

open Stamped Update

namespace Signal

variable {now low : Nat} {signal : Signal}

/-- When the clock jumps over an idle stretch, what was on time still is. -/
theorem OnTime.jump (hsignal : signal.OnTime now) (hcoherent : signal.Coherent) (hidle : signal.Idle (· ≤ low))
    (hlow : now ≤ low) : signal.OnTime (low + 1) := by
  induction signal with
  | manual out name => exact hcoherent.elim
  | ended out =>
    have hreach : out.reach ≤ now := hsignal
    rw [OnTime]
    omega
  | replay out next rest =>
    have hbeyond := (hcoherent.beyond hidle).resolve_left Bool.false_ne_true
    exact ⟨hbeyond.reach, hsignal.2.trans (by omega)⟩
  | adjacentPairs out previous source ih =>
    have hbeyond := (hcoherent.beyond hidle).resolve_left Bool.false_ne_true
    exact ⟨hbeyond.reach, ih hsignal.2 hcoherent.2.2 hidle.source_readUp.1⟩
  | join out task left right ihleft ihright =>
    have hbeyond := (hcoherent.beyond hidle).resolve_left Bool.false_ne_true
    obtain ⟨-, -, -, -, hcleft, hcright⟩ := hcoherent
    obtain ⟨hzip, -, hleft, hright⟩ := hsignal
    exact ⟨hzip, hbeyond.reach, ihleft hleft hcleft hidle.left_readUp.1,
      ihright hright hcright hidle.right_readUp.1⟩

theorem Steady.jump (hsteady : signal.Steady (OnTime now)) (hcoherent : signal.Coherent)
    (hidle : signal.Idle (· ≤ low))
    (hlow : now ≤ low) : signal.Steady (OnTime (low + 1)) := by
  induction signal with
  | manual out name => trivial
  | ended out => trivial
  | replay out next rest => trivial
  | adjacentPairs out previous source ih => exact ih hsteady hcoherent.2.2 hidle.source_readUp.1
  | join out task left right ihleft ihright =>
    obtain ⟨-, -, -, -, hcleft, hcright⟩ := hcoherent
    obtain ⟨hchain, hsteadyLeft, hsteadyRight⟩ := hsteady
    refine ⟨?_, ihleft hsteadyLeft hcleft hidle.left_readUp.1,
      ihright hsteadyRight hcright hidle.right_readUp.1⟩
    intro stage htask
    exact (hchain stage htask).jump hcleft hidle.left_readUp.1 hlow

theorem Timely.mono {later : Nat} (hsignal : signal.Timely now) (hle : now ≤ later) : signal.Timely later := by
  induction signal with
  | manual out name => exact hsignal
  | ended out => exact UpTo.mono hsignal hle
  | replay out next rest => exact ⟨hsignal.1.mono hle, hsignal.2.trans (max_le_max hle le_rfl)⟩
  | adjacentPairs out previous source ih => exact ⟨hsignal.1.mono hle, ih hsignal.2⟩
  | join out task left right ihleft ihright =>
    obtain ⟨hqueue, hkept, hfloor, hleft, hright⟩ := hsignal
    refine ⟨hqueue.mono hle, fun side => (hkept side).mono hle, ?_, ihleft hleft, ihright hright⟩
    intro s hs
    exact (hfloor s hs).trans (max_le_max hle le_rfl)

end Signal

namespace Live

/-- What has been taken and what is still to come are these events, each at its stamp, and all
completes at `finish`. -/
structure Tracks (events : List Stamped) (finish : Nat) (live : Live) : Prop where
  coherent : live.signal.Coherent
  steady : live.signal.Steady (Signal.OnTime live.now)
  timely : live.signal.Timely live.now
  events_eq : live.taken ++ live.signal.remaining = events
  from_now : From live.now live.signal.remaining
  finish_eq : max live.now live.signal.finish = finish

variable {events : List Stamped} {finish : Nat} {live live' : Live}

theorem noted_eq {now : Nat} {u : Update} (hfrom : From now (stampedOf [u]))
    (hupTo : UpTo now (stampedOf [u])) :
    noted now u = stampedOf [u] := by
  cases u with
  | progress stamp => rfl
  | event s =>
    have hstamp : s.stamp = now := Nat.le_antisymm (upTo_cons.1 hupTo).1 (from_cons.1 hfrom).1
    rw [noted, stampedOf_event, stampedOf_nil, List.map_singleton, ← hstamp]

theorem Acts.tracks (hacts : live.Acts live') (hlive : live.Tracks events finish) :
    live'.Tracks events finish := by
  obtain ⟨hcoherent, hsteady, htimely, hevents, hfrom, hfinish⟩ := hlive
  cases hacts with
  | @work now signal signal' taken hstep =>
    obtain ⟨hremaining, hsteady'⟩ := hstep.remaining (Signal.firm_onTime now) hcoherent hsteady
    refine ⟨hstep.coherent hcoherent, hsteady', hstep.timely hcoherent hsteady htimely, ?_, ?_, ?_⟩
    · exact hremaining ▸ hevents
    · exact hremaining ▸ hfrom
    · exact (hstep.finish hcoherent hsteady htimely).trans hfinish
  | @take now signal signal' taken u hreads =>
    have hnext := hreads.remaining hcoherent.sound
    obtain ⟨htimely', hupTo⟩ := hreads.timely htimely
    simp only [hnext.now_eq, from_append] at hfrom hevents
    refine ⟨hreads.coherent hcoherent, hreads.steady hsteady, htimely', ?_, hfrom.2, ?_⟩
    · simp only
      rw [noted_eq hfrom.1 hupTo, List.append_assoc]
      exact hevents
    · simp only
      rw [hreads.finish]
      exact hfinish

theorem Still.idle (hstill : live.Still) : live.signal.Idle (· ≤ live.now) :=
  fun _ hstep => hstill _ (.work hstep)

theorem Still.queue_eq (hstill : live.Still) : live.signal.outlet.queue = [] := by
  cases hqueue : live.signal.outlet.queue with
  | nil => rfl
  | cons u rest => exact absurd (.take (.update hqueue)) (hstill _)

theorem Still.before_jump {due : Nat} (hstill : live.Still) (hnext : live.signal.nextWake .exact = some due) :
    live.signal.hasEnded = false ∧ ∃ low, due = low + 1 ∧ live.now ≤ low ∧ live.signal.Idle (· ≤ low) := by
  have hopen : live.signal.hasEnded = false := by
    refine Bool.eq_false_iff.2 fun hended => ?_
    rw [Signal.eq_ended_of_hasEnded hended] at hnext
    cases hnext
  have hlate := hstill.idle.lt_nextWake hnext
  obtain ⟨low, rfl⟩ : ∃ low, due = low + 1 := ⟨due - 1, by omega⟩
  exact ⟨hopen, low, rfl, Nat.le_of_lt_succ hlate, hstill.idle.until hnext (Nat.lt_succ_self low)⟩

/-- Time may pass over an evaluation in which nothing can happen before. -/
theorem Tracks.pass {low : Nat} (hlive : live.Tracks events finish) (hread : live.signal.ReadUp)
    (hidle : live.signal.Idle (· ≤ low)) (hlow : live.now ≤ low) : (live.atTime (low + 1)).Tracks events finish := by
  obtain ⟨hcoherent, hsteady, htimely, hevents, hfrom, hfinish⟩ := hlive
  have hbeyond := (hcoherent.beyond hidle).resolve_left (by simp [hread.open_])
  refine ⟨hcoherent, hsteady.jump hcoherent hidle hlow, htimely.mono (hlow.trans (Nat.le_succ low)),
    hevents, hbeyond.future_from hread, ?_⟩
  have hend := hbeyond.finish
  simp only [atTime]
  omega

theorem Still.jump {due : Nat} (hstill : live.Still) (hnext : live.signal.nextWake .exact = some due)
    (hlive : live.Tracks events finish) : (live.atTime due).Tracks events finish := by
  obtain ⟨hopen, low, rfl, hlow, hidle⟩ := hstill.before_jump hnext
  exact hlive.pass ⟨hstill.queue_eq, hopen⟩ hidle hlow

theorem ExactStep.tracks (hstep : live.ExactStep live') (hlive : live.Tracks events finish) :
    live'.Tracks events finish ∧ live'.signal.effort < live.signal.effort := by
  cases hstep with
  | now hacts => exact ⟨hacts.tracks hlive, hacts.effort_lt⟩
  | jump hstill hnext hacts => exact ⟨hacts.tracks (hstill.jump hnext hlive), hacts.effort_lt⟩

theorem Still.finished (hstill : live.Still) (hcoherent : live.signal.Coherent) {clock : Clock}
    (hnext : live.signal.nextWake clock = none) : live.Finished :=
  ⟨hcoherent.hasEnded_of_idle fun _ => hstill.idle.of_nextWake_none hnext, hstill.queue_eq⟩

theorem finished_of_not_exactStep (hcoherent : live.signal.Coherent) (hnone : ∀ live', ¬ live.ExactStep live') :
    live.Finished := by
  have hstill : live.Still := fun live' hacts => hnone live' (.now hacts)
  cases hnext : live.signal.nextWake .exact with
  | none => exact hstill.finished hcoherent hnext
  | some due =>
    obtain ⟨signal', hstep⟩ := Signal.exists_step_of_nextWake (· ≤ due) hnext fun stamp hstamp =>
      (show stamp = due from hstamp).le
    exact absurd (.jump hstill hnext (.work hstep)) (hnone _)

/-- When all is over everything has been taken, and it is over just now. -/
theorem Tracks.of_finished (hlive : live.Tracks events finish) (hfinished : live.Finished) :
    live.taken = events ∧ live.now = finish := by
  obtain ⟨-, -, -, hevents, -, hfinish⟩ := hlive
  rw [Signal.remaining_of_hasEnded hfinished.ended, hfinished.queue_eq, stampedOf_nil, List.append_nil] at hevents
  rw [Signal.eq_ended_of_hasEnded hfinished.ended] at hfinish
  exact ⟨hevents, by simpa [Signal.finish] using hfinish⟩

/-- On the exact clock every run takes exactly these events, each at its stamp, and completes at the
instant given. -/
theorem Tracks.ends (hlive : live.Tracks events finish) :
    Ends ExactStep (fun last => last.Finished ∧ last.taken = events ∧ last.now = finish) live := by
  refine Ends.of_invariant (Tracks events finish) (fun live => live.signal.effort) ?_ ?_ hlive
  · intro live live' hinv hstep
    exact hstep.tracks hinv
  · intro live hinv hnone
    have hfinished := finished_of_not_exactStep hinv.coherent hnone
    exact ⟨hfinished, hinv.of_finished hfinished⟩

end Live

end TimedStreams
