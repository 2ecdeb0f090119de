import TimedStreams.Proofs.EngineRuns
import TimedStreams.Proofs.Requests
import TimedStreams.Proofs.Wakeups

/-!
# Sessions as households

A session settles its signal and so does everything in one fixed order, and it forgets at once what
has been let go of. It is still one of the households: whatever a reader asks of a session can be
done by moves, which lead to a household with the same time, the same signal and the same number of
wake-ups (`Household.Shows`). The run of an engine is one as well.

Settling wakes exactly the replays that are due when it begins (`Signal.Unfinished.settle_ticks`): the operands
are settled before a task hears of them, so when a `zip` completes nothing below it is due any more.
-/

namespace TimedStreams

open Relation Stamped

namespace Signal

variable {clock : Clock} {now : Nat} {signal signal' : Signal}

/-! ### Settling, with the number of wake-ups -/

/-- One deed, and the number of sleeps that have ended before and after. -/
def Ticks (due : Nat → Prop) (before after : Signal × Nat) : Prop :=
  ∃ path deed, before.1.Does due path deed after.1 ∧ after.2 = before.2 + deed.wakes

variable {due : Nat → Prop} {before after : Signal × Nat}

theorem Ticks.source (hticks : Ticks due before after) (out : Outlet) (previous : Option Event) :
    Ticks due (adjacentPairs out previous before.1, before.2) (adjacentPairs out previous after.1, after.2) := by
  obtain ⟨path, deed, hdoes, hwakes⟩ := hticks
  exact ⟨_, deed, .source hdoes, hwakes⟩

theorem Ticks.left (hticks : Ticks due before after) (out : Outlet) (task : Task) (right : Signal) :
    Ticks due (join out task before.1 right, before.2) (join out task after.1 right, after.2) := by
  obtain ⟨path, deed, hdoes, hwakes⟩ := hticks
  exact ⟨_, deed, .left hdoes, hwakes⟩

theorem Ticks.right (hticks : Ticks due before after) (out : Outlet) (task : Task) (left : Signal) :
    Ticks due (join out task left before.1, before.2) (join out task left after.1, after.2) := by
  obtain ⟨path, deed, hdoes, hwakes⟩ := hticks
  exact ⟨_, deed, .right hdoes, hwakes⟩

theorem Idle.dueCount (hidle : signal.Idle fun stamp => clock.wakeAt stamp ≤ now) : signal.dueCount clock now = 0 := by
  induction signal with
  | manual out name => rfl
  | ended out => rfl
  | replay out next rest =>
    have hlate : ¬ clock.wakeAt next.stamp ≤ now := fun hdue => hidle _ (.wake hdue)
    simp [Signal.dueCount, hlate]
  | adjacentPairs out previous source ih => exact ih fun _ hstep => hidle _ (.source hstep)
  | join out task left right ihleft ihright =>
    rw [Signal.dueCount, ihleft fun _ hstep => hidle _ (.left hstep), ihright fun _ hstep => hidle _ (.right hstep)]

theorem ticks_of_run (hrun : ReflTransGen (Step fun stamp => clock.wakeAt stamp ≤ now) signal signal')
    (hnone : signal.dueCount clock now = 0) (wakeups : Nat) :
    ReflTransGen (Ticks fun stamp => clock.wakeAt stamp ≤ now) (signal, wakeups) (signal', wakeups) := by
  induction hrun using ReflTransGen.head_induction_on with
  | refl => exact .refl
  | head hfirst _ ih =>
    obtain ⟨path, deed, hdoes⟩ := hfirst.exists_does
    have hcount := hdoes.dueCount
    exact .head ⟨path, deed, hdoes, by simp only; omega⟩ (ih (by omega))

theorem replayDue_ticks (out : Outlet) (next : Stamped) (rest : List Stamped) (wakeups : Nat) :
    ReflTransGen (Ticks fun stamp => clock.wakeAt stamp ≤ now) (replay out next rest, wakeups)
      (replayDue clock now out next rest, wakeups + (replay out next rest).dueCount clock now) := by
  induction rest generalizing out next wakeups with
  | nil =>
    rw [replayDue]
    split
    · next hdue => exact .single ⟨[], _, .wake hdue, by simp [Signal.dueCount, hdue, Deed.wakes]⟩
    · next hlate => simp [Signal.dueCount, hlate, ReflTransGen.refl]
  | cons s rest ih =>
    rw [replayDue]
    split
    · next hdue =>
      have hrest := ih ((out.emit next).advance s.stamp) s (wakeups + 1)
      have hcount : wakeups + (replay out next (s :: rest)).dueCount clock now
          = wakeups + 1 + (replay ((out.emit next).advance s.stamp) s rest).dueCount clock now := by
        simp [Signal.dueCount, List.takeWhile_cons, hdue]
        omega
      rw [hcount]
      exact .head ⟨[], _, .wake hdue, rfl⟩ hrest
    · next hlate => simp [Signal.dueCount, hlate, ReflTransGen.refl]

/-- Settling wakes whoever is due. -/
theorem Unfinished.settle_ticks (hsignal : signal.Unfinished) (clock : Clock) (now wakeups : Nat) :
    ReflTransGen (Ticks fun stamp => clock.wakeAt stamp ≤ now) (signal, wakeups)
      (signal.settle clock now, wakeups + signal.dueCount clock now) := by
  induction signal generalizing wakeups with
  | manual out name => exact .refl
  | ended out => exact .refl
  | replay out next rest => exact replayDue_ticks out next rest wakeups
  | adjacentPairs out previous source ih =>
    have hsource := ReflTransGen.lift (fun x : Signal × Nat => (adjacentPairs out previous x.1, x.2))
      (fun _ _ hticks => Ticks.source hticks out previous) _ _ (ih hsignal wakeups)
    exact hsource.trans (ticks_of_run (settle_adjacentPairs_run _ out previous source)
      (idle_settle clock now source).dueCount _)
  | join out task left right ihleft ihright =>
    obtain ⟨hmore, hmoreLeft, hmoreRight⟩ := hsignal
    have hleft := ReflTransGen.lift (fun x : Signal × Nat => (join out task x.1 right, x.2))
      (fun _ _ hticks => Ticks.left hticks out task right) _ _ (ihleft hmoreLeft wakeups)
    have hright := ReflTransGen.lift (fun x : Signal × Nat => (join out task (left.settle clock now) x.1, x.2))
      (fun _ _ hticks => Ticks.right hticks out task _) _ _ (ihright hmoreRight (wakeups + left.dueCount clock now))
    have hnone : (join out task (left.settle clock now) (right.settle clock now)).dueCount clock now = 0 := by
      rw [Signal.dueCount, (idle_settle clock now left).dueCount, (idle_settle clock now right).dueCount]
    rw [Signal.dueCount, ← Nat.add_assoc]
    exact (hleft.trans hright).trans (ticks_of_run (settle_join_run _ out left right hmore) hnone _)

theorem Coherent.withQueue {us rest : List Update} (hsignal : signal.Coherent)
    (hqueue : signal.outlet.queue = us ++ rest) : (signal.withQueue rest).Coherent := by
  induction us generalizing signal with
  | nil => rwa [withQueue_of_queue_eq (hqueue.trans (List.nil_append rest))]
  | cons u us ih =>
    have hrest := @ih (signal.withQueue (us ++ rest)) ((Reads.update hqueue).coherent hsignal) (by simp)
    rwa [withQueue_withQueue] at hrest

end Signal

namespace Household

variable {now later wakeups : Nat} {signal signal' : Signal} {h : Household} {held : Option Signal}

/-! ### A household that forgets at once -/

theorem clear_run (now : Nat) (reader : Reader) (orphans : List Holding) (log : List Record) :
    ReflTransGen Moves ⟨now, reader, orphans, log⟩ ⟨now, reader, [], log⟩ := by
  induction hweight : (orphans.map fun holding => holding.signal.weight).sum using Nat.strong_induction_on
    generalizing orphans with
  | _ n ih =>
    subst hweight
    cases orphans with
    | nil => exact .refl
    | cons holding after =>
      have hless := sum_weight_operands holding
      refine .head (.cancel []) (ih _ ?_ _ rfl)
      simp only [List.nil_append, List.map_append, List.sum_append, List.map_cons, List.sum_cons]
      omega

/-- Whatever the signal does, all that it lets go of can be cancelled on the way. -/
theorem work_run {before after : Signal × Nat} (hticks : ReflTransGen (Signal.Ticks (· ≤ now)) before after)
    (log : List Record) (hlog : (⟨now, .holds before.1, [], log⟩ : Household).wakeups = before.2) :
    ∃ log', ReflTransGen Moves ⟨now, .holds before.1, [], log⟩ ⟨now, .holds after.1, [], log'⟩ ∧
      (⟨now, .holds after.1, [], log'⟩ : Household).wakeups = after.2 := by
  induction hticks with
  | refl => exact ⟨log, .refl, hlog⟩
  | @tail middle after _ hlast ih =>
    obtain ⟨log', hrun, hwakes⟩ := ih
    obtain ⟨path, deed, hdoes, hafter⟩ := hlast
    refine ⟨log' ++ [⟨now, path, deed⟩], (hrun.tail (.work hdoes)).trans (clear_run _ _ _ _), ?_⟩
    rw [hafter, ← hwakes]
    simp [Household.wakeups]

theorem read_run {us rest : List Update} (hqueue : signal.outlet.queue = us ++ rest) (orphans : List Holding)
    (log : List Record) :
    ReflTransGen Moves ⟨now, .holds signal, orphans, log⟩ ⟨now, .holds (signal.withQueue rest), orphans, log⟩ := by
  induction us generalizing signal with
  | nil =>
    rw [Signal.withQueue_of_queue_eq (hqueue.trans (List.nil_append rest))]
  | cons u us ih =>
    have hrest := @ih (signal.withQueue (us ++ rest)) (by simp)
    rw [Signal.withQueue_withQueue] at hrest
    exact .head (.read (.update hqueue)) hrest

/-- What a household shows between two requests: the time, the signal unless it has been dropped, and the number of
sleeps that have ended. -/
structure Shows (now : Nat) (held : Option Signal) (wakeups : Nat) (h : Household) : Prop where
  now_eq : h.now = now
  held_iff : ∀ signal, held = some signal ↔ h.reader = .holds signal
  orphans_eq : h.orphans = []
  wakeups_eq : h.wakeups = wakeups
  coherent : ∀ signal, held = some signal → signal.Coherent
  idle : ∀ signal, held = some signal → signal.Idle (· ≤ now)

theorem settle_shows (now wakeups : Nat) (hcoherent : signal.Coherent) (log : List Record)
    (hlog : (⟨now, .holds signal, [], log⟩ : Household).wakeups = wakeups) :
    ∃ h', ReflTransGen Moves ⟨now, .holds signal, [], log⟩ h' ∧
      h'.Shows now (some (signal.settle .exact now)) (wakeups + signal.dueCount .exact now) := by
  obtain ⟨log', hrun, hwakes⟩ := work_run (hcoherent.unfinished.settle_ticks .exact now wakeups) log hlog
  refine ⟨_, hrun, rfl, fun other => ?_, rfl, hwakes, fun other hsame => ?_, fun other hsame => ?_⟩
  · rw [Option.some_inj, Reader.holds.injEq]
  · rw [← Option.some.inj hsame]
    exact hcoherent.settle .exact now
  · rw [← Option.some.inj hsame]
    exact Signal.idle_settle .exact now signal

theorem start_shows (hcoherent : signal.Coherent) :
    ∃ h, ReflTransGen Moves (start signal) h ∧
      h.Shows 0 (some (signal.settle .exact 0)) (signal.dueCount .exact 0) := by
  obtain ⟨h, hrun, hshows⟩ := settle_shows 0 0 hcoherent [] rfl
  rw [Nat.zero_add] at hshows
  exact ⟨h, hrun, hshows⟩

theorem Shows.runAt (hshows : h.Shows now held wakeups) (hlater : now ≤ later)
    (hnext : ∀ signal, held = some signal → ∀ wake, signal.nextWake .exact = some wake → later ≤ wake) :
    ∃ h', ReflTransGen Moves h h' ∧
      h'.Shows later (held.map (Signal.settle .exact later)) (wakeups + held.elim 0 (Signal.dueCount .exact later)) := by
  obtain ⟨now', reader, orphans, log⟩ := h
  obtain ⟨rfl, hheld, rfl, hwakes, hcoherent, hidle⟩ := hshows
  have hpass : ReflTransGen Moves ⟨now', reader, [], log⟩ ⟨later, reader, [], log⟩ := by
    rcases Nat.lt_or_eq_of_le hlater with hlt | rfl
    · refine .single (.pass hlt (fun signal hsame => ?_) fun signal hsame => ?_)
      · exact hidle signal ((hheld signal).2 hsame)
      · exact hnext signal ((hheld signal).2 hsame)
    · exact .refl
  cases held with
  | none => exact ⟨_, hpass, rfl, hheld, rfl, hwakes, by simp, by simp⟩
  | some signal =>
    obtain rfl := (hheld signal).1 rfl
    obtain ⟨h', hrun, hshows'⟩ := settle_shows later _ (hcoherent signal rfl) log hwakes
    exact ⟨h', hpass.trans hrun, hshows'⟩

theorem Shows.read {us rest : List Update} (hshows : h.Shows now (some signal) wakeups)
    (hqueue : signal.outlet.queue = us ++ rest) :
    ∃ h', ReflTransGen Moves h h' ∧ h'.Shows now (some (signal.withQueue rest)) wakeups := by
  obtain ⟨now', reader, orphans, log⟩ := h
  obtain ⟨rfl, hheld, rfl, hwakes, hcoherent, hidle⟩ := hshows
  obtain rfl := (hheld signal).1 rfl
  refine ⟨_, read_run hqueue [] log, rfl, fun other => ?_, rfl, hwakes, fun other hsame => ?_, fun other hsame => ?_⟩
  · rw [Option.some_inj, Reader.holds.injEq]
  · rw [← Option.some.inj hsame]
    exact (hcoherent signal rfl).withQueue hqueue
  · rw [← Option.some.inj hsame]
    exact (hidle signal rfl).withQueue rest

theorem Shows.drop (hshows : h.Shows now (some signal) wakeups) :
    ∃ h', ReflTransGen Moves h h' ∧ h'.Shows now none wakeups := by
  obtain ⟨now', reader, orphans, log⟩ := h
  obtain ⟨rfl, hheld, rfl, hwakes, hcoherent, hidle⟩ := hshows
  obtain rfl := (hheld signal).1 rfl
  exact ⟨⟨now', .dropped now', [], log⟩, .head (.drop (hidle signal rfl)) (clear_run _ _ _ _), rfl, by simp, rfl, hwakes,
    by simp, by simp⟩

end Household

namespace Session

variable {s : Session} {h : Household}

def after (requests : List Request) (s : Session) : Session :=
  requests.foldl (fun s request => (s.serve request).2) s

/-- A household that has got to where the session is. -/
def IsShownBy (s : Session) (h : Household) : Prop :=
  h.Shows s.now s.signal s.wakeups

theorem IsShownBy.runAt {later : Nat} (hs : s.IsShownBy h) (hlater : s.now ≤ later)
    (hnext : ∀ wake, s.nextWake = some wake → later ≤ wake) :
    ∃ h', ReflTransGen Household.Moves h h' ∧ (s.runAt later).IsShownBy h' :=
  Household.Shows.runAt hs hlater fun signal hsignal wake hwake => hnext wake (by
    rw [nextWake, hsignal]
    exact hwake)

theorem IsShownBy.lt_nextWake {due : Nat} (hs : s.IsShownBy h) (hnext : s.nextWake = some due) : s.now < due := by
  obtain ⟨signal, hsignal, hwake⟩ := Option.bind_eq_some_iff.1 hnext
  exact (hs.idle signal hsignal).lt_nextWake hwake

theorem IsShownBy.poll (hs : s.IsShownBy h) : ∃ h', ReflTransGen Household.Moves h h' ∧ s.poll.2.IsShownBy h' := by
  obtain ⟨now, wakeups, held, label, reporting, emitters⟩ := s
  cases held with
  | none => exact ⟨h, .refl, hs⟩
  | some signal =>
    obtain ⟨us, rest, hqueue, hread⟩ := signal.read_eq_withQueue
    obtain ⟨h', hrun, hshows⟩ := Household.Shows.read hs hqueue
    rw [← hread] at hshows
    exact ⟨h', hrun, hshows⟩

theorem IsShownBy.passUntil {target jumps : Nat} (htarget : s.now ≤ target) (hjumps : s.unplayed ≤ jumps)
    (hs : s.IsShownBy h) : ∃ h', ReflTransGen Household.Moves h h' ∧ (s.passUntil target jumps).IsShownBy h' := by
  refine (passUntil_induction (fun now s => s.now = now ∧
    ∃ h', ReflTransGen Household.Moves h h' ∧ s.IsShownBy h') ?_ ?_ htarget hjumps ⟨rfl, h, .refl, hs⟩).2
  · rintro _ later s ⟨rfl, h', hrun, hshown⟩ hlater hnext
    obtain ⟨last, hlast, hlastShown⟩ := hshown.runAt hlater hnext
    exact ⟨rfl, last, hrun.trans hlast, hlastShown⟩
  · rintro _ due s ⟨rfl, h', -, hshown⟩ hnext
    exact hshown.lt_nextWake hnext

theorem IsShownBy.waitFor (hs : s.IsShownBy h) (jumps : Nat) :
    ∃ h', ReflTransGen Household.Moves h h' ∧ (s.waitFor jumps).2.IsShownBy h' := by
  induction jumps using Nat.strong_induction_on generalizing s h with
  | _ jumps ih =>
    obtain ⟨h', hrun, hpolled⟩ := hs.poll
    rw [Session.waitFor]
    split
    · next hpoll => exact ⟨h', hrun, by rwa [hpoll] at hpolled⟩
    · next hpoll => exact ⟨h', hrun, by rwa [hpoll] at hpolled⟩
    · next hpoll => exact ⟨h', hrun, by rwa [hpoll] at hpolled⟩
    · next polled hpoll =>
      rw [hpoll] at hpolled
      split
      · next jumps due hnext =>
        obtain ⟨later, hlater, hshown⟩ := hpolled.runAt (hpolled.lt_nextWake hnext).le
          fun wake hwake => (Option.some.inj (hnext.symm.trans hwake)).le
        obtain ⟨last, hlast, hlastShown⟩ := ih jumps (Nat.lt_succ_self jumps) hshown
        exact ⟨last, (hrun.trans hlater).trans hlast, hlastShown⟩
      · exact ⟨h', hrun, hpolled⟩

theorem IsShownBy.serve (hs : s.IsShownBy h) (request : Request) :
    ∃ h', ReflTransGen Household.Moves h h' ∧ (s.serve request).2.IsShownBy h' := by
  cases request with
  | poll => exact hs.poll
  | receive => exact hs.waitFor s.unplayed
  | sleep nanos => exact hs.passUntil (Nat.le_add_right _ _) le_rfl

/-- A session is one of the households, whatever it is asked for. -/
theorem IsShownBy.after (hs : s.IsShownBy h) (requests : List Request) :
    ∃ h', ReflTransGen Household.Moves h h' ∧ (s.after requests).IsShownBy h' := by
  induction requests generalizing s h with
  | nil => exact ⟨h, .refl, hs⟩
  | cons request rest ih =>
    obtain ⟨h', hrun, hshown⟩ := hs.serve request
    obtain ⟨last, hlast, hlastShown⟩ := ih hshown
    exact ⟨last, hrun.trans hlast, hlastShown⟩

theorem IsShownBy.drop (hs : s.IsShownBy h) : ∃ h', ReflTransGen Household.Moves h h' ∧ s.drop.IsShownBy h' := by
  obtain ⟨now, wakeups, held, label, reporting, emitters⟩ := s
  cases held with
  | none => exact ⟨h, .refl, hs⟩
  | some signal => exact Household.Shows.drop hs

theorem IsShownBy.exists_dropped (hs : s.IsShownBy h) (hnone : s.signal = none) : ∃ since, h.reader = .dropped since := by
  cases hreader : h.reader with
  | holds signal =>
    have hsome := (hs.held_iff signal).2 hreader
    simp [hnone] at hsome
  | dropped since => exact ⟨since, rfl⟩

theorem start_isShownBy (context : Context) (e : Expr) (reporting : Option Float) :
    ∃ h, ReflTransGen Household.Moves (.start (context.signal e)) h ∧ (start context (.expr e) reporting).IsShownBy h := by
  obtain ⟨h, hrun, hshows⟩ := Household.start_shows (context.coherent_signal e)
  rw [← Nat.zero_add (Signal.dueCount _ _ _)] at hshows
  exact ⟨h, hrun, hshows⟩

end Session

namespace Evaluation

variable {v : Evaluation} {h : Household}

def IsShownBy (v : Evaluation) (h : Household) : Prop :=
  ∃ c, v.collectors = [c] ∧ h.Shows v.now (some c.signal) v.wakeups

theorem isShownBy_runAt (c : Collector) (now : Nat) {later wakeups : Nat} (reporting : Float)
    (hrun : ∃ h', ReflTransGen Household.Moves h h' ∧
      h'.Shows later (some (c.signal.settle .exact later)) (wakeups + c.signal.dueCount .exact later)) :
    ∃ h', ReflTransGen Household.Moves h h' ∧
      (Evaluation.runAt .exact reporting later ⟨now, wakeups, [c]⟩).IsShownBy h' := by
  obtain ⟨h', hrun, hshows⟩ := hrun
  obtain ⟨last, hlast, hread⟩ := hshows.read (List.append_nil _).symm
  exact ⟨last, hrun.trans hlast, _, rfl, hread⟩

theorem IsShownBy.advance (hv : v.IsShownBy h) (reporting : Float) (jumps : Nat) :
    ∃ h', ReflTransGen Household.Moves h h' ∧ (v.advance .exact reporting jumps).IsShownBy h' := by
  induction jumps generalizing v h with
  | zero => exact ⟨h, .refl, hv⟩
  | succ jumps ih =>
    rw [Evaluation.advance]
    cases hnext : v.nextWake .exact with
    | none => exact ⟨h, .refl, hv⟩
    | some due =>
      obtain ⟨now, wakeups, collectors⟩ := v
      obtain ⟨c, rfl, hshows⟩ := hv
      have hwake : c.signal.nextWake .exact = some due := by
        rw [← hnext, Evaluation.nextWake, List.foldl_cons, List.foldl_nil, Option.merge_none_left]
      have hlate := (hshows.idle c.signal rfl).lt_nextWake hwake
      obtain ⟨h', hrun, hshown⟩ := isShownBy_runAt c now reporting (hshows.runAt hlate.le fun signal hsame wake hdue => by
        obtain rfl := Option.some.inj hsame
        exact (Option.some.inj (hwake.symm.trans hdue)).le)
      obtain ⟨last, hlast, hlastShown⟩ := ih hshown
      exact ⟨last, hrun.trans hlast, hlastShown⟩

/-- The evaluation of a single signal is one of the households. -/
theorem complete_isShownBy {signal : Signal} (hcoherent : signal.Coherent) (reporting : Float) :
    ∃ h, ReflTransGen Household.Moves (.start signal) h ∧
      (Evaluation.complete .exact reporting [signal]).IsShownBy h := by
  obtain ⟨h, hrun, hshows⟩ := Household.start_shows hcoherent
  rw [← Nat.zero_add (signal.dueCount .exact 0)] at hshows
  obtain ⟨h', hrun', hshown⟩ := isShownBy_runAt { signal } 0 reporting ⟨h, hrun, hshows⟩
  obtain ⟨last, hlast, hlastShown⟩ := hshown.advance reporting signal.unplayed
  exact ⟨last, hrun'.trans hlast, hlastShown⟩

theorem hasEnded_of_complete {signal : Signal} (hcoherent : signal.Coherent) {reporting : Float} {c : Collector}
    (hcollectors : (Evaluation.complete .exact reporting [signal]).collectors = [c]) : c.signal.hasEnded = true := by
  have hmirrors := Live.mirrors_complete .exact reporting signal
  rw [List.singleton_inj.1 (hcollectors.symm.trans hmirrors.collectors_eq)]
  exact (Live.complete_run Live.drives_exact Clock.neverEarly_exact hcoherent).2.ended

end Evaluation

end TimedStreams
