import TimedStreams.Proofs.Deadlines
import TimedStreams.Proofs.SessionRuns

/-!
# The leaves of an expression

Every leaf of an expression replays its own pass over a timeline, and one timeline may be replayed at
many leaves. `Engine.replays_owned` says what becomes of each of these passes, in every order in which
the tasks of an evaluation may run and wherever the reader drops the outermost signal: it wakes at the
deadlines of its timeline, one after the other, for all that is due before the leaf is torn down, and
for nothing that is due after it.
-/

namespace TimedStreams

open Relation Stamped

namespace Expr

def leafAt? : Expr → List Place → Option Input
  | input source, place =>
    match place with
    | [] => some source
    | _ => none
  | adjacentPairs source, place =>
    match place with
    | .source :: below => source.leafAt? below
    | _ => none
  | join _ left right, place =>
    match place with
    | .side .left :: below => left.leafAt? below
    | .side .right :: below => right.leafAt? below
    | _ => none
termination_by structural e => e

def occurrences (source : Input) : Expr → Nat
  | input other => if other = source then 1 else 0
  | adjacentPairs e => e.occurrences source
  | join _ left right => left.occurrences source + right.occurrences source

end Expr

namespace Context

variable {context : Context} {e : Expr} {place : List Place} {source : Input}

def replays (context : Context) (e : Expr) : Nat :=
  e.occurrences .first * context.first.events.length + e.occurrences .second * context.second.events.length

theorem agendaAt_signal (e : Expr) (place : List Place) :
    (context.signal e).agendaAt place
      = (e.leafAt? place).elim [] fun source => (context.timeline source).agenda context.speed := by
  induction e generalizing place with
  | input source =>
    cases place with
    | nil => exact Signal.agendaAt_announce _ _
    | cons first below => exact Signal.agendaAt_announce_cons _ _ first below
  | adjacentPairs source ih =>
    rcases place with _ | ⟨_ | side, below⟩
    · rfl
    · exact ih below
    · rfl
  | join kind left right ihleft ihright =>
    rcases place with _ | ⟨_ | _ | _, below⟩
    · rfl
    · rfl
    · exact ihleft below
    · exact ihright below

theorem agendaAt_leaf (haccepted : context.Accepted) (hleaf : e.leafAt? place = some source) :
    (context.signal e).agendaAt place = (context.timeline source).schedule context.speed := by
  rw [agendaAt_signal, hleaf, Option.elim_some, haccepted.agenda_eq]

theorem ascending_agendaAt (haccepted : context.Accepted) (e : Expr) (place : List Place) :
    Ascending ((context.signal e).agendaAt place) := by
  cases hleaf : e.leafAt? place with
  | none =>
    rw [agendaAt_signal, hleaf]
    exact ascending_nil
  | some source =>
    rw [agendaAt_leaf haccepted hleaf]
    exact haccepted.ascending_schedule source

theorem unplayed_signal (haccepted : context.Accepted) (e : Expr) : (context.signal e).unplayed = context.replays e := by
  induction e with
  | input source =>
    have hagenda : (context.signal (.input source)).unplayed = ((context.timeline source).agenda context.speed).length := by
      rw [signal, Signal.ofAgenda]
      cases (context.timeline source).agenda context.speed <;> rfl
    rw [hagenda, haccepted.agenda_eq, Timeline.schedule, List.length_map]
    cases source <;> simp [replays, Expr.occurrences, timeline]
  | adjacentPairs source ih => exact ih
  | join kind left right ihleft ihright =>
    have hsum : (context.signal (.join kind left right)).unplayed
        = (context.signal left).unplayed + (context.signal right).unplayed := rfl
    rw [hsum, ihleft, ihright]
    simp only [replays, Expr.occurrences]
    ring

theorem keeps_signal {h : Household} (haccepted : context.Accepted)
    (hrun : ReflTransGen Household.Moves (.start (context.signal e)) h) (place : List Place) :
    h.Keeps ((context.signal e).agendaAt place) place :=
  (Household.keeps_start (context.coherent_signal e) place).of_run hrun (ascending_agendaAt haccepted e place)

theorem wakeups_of_dropped {h h' : Household} {since : Nat} (haccepted : context.Accepted)
    (hrun : ReflTransGen Household.Moves (.start (context.signal e)) h) (hdropped : h.reader = .dropped since)
    (hrun' : ReflTransGen Household.Moves h h') : h'.wakeups = h.wakeups :=
  Household.wakeups_of_dropped hrun' (ascending_agendaAt haccepted e) (keeps_signal haccepted hrun) hdropped

/-- Without `zip`, a run that is complete has replayed every event at every leaf. -/
theorem wakeups_of_hasEnded {h : Household} {last : Signal} (haccepted : context.Accepted) (he : e.ZipFree)
    (hrun : ReflTransGen Household.Moves (.start (context.signal e)) h) (hholds : h.reader = .holds last)
    (hended : last.hasEnded = true) : h.wakeups = context.replays e := by
  rw [← unplayed_signal haccepted e]
  exact Household.wakeups_of_hasEnded (context.coherent_signal e) (onTime_signal he) hrun hholds hended

theorem wakeups_complete (haccepted : context.Accepted) (he : e.ZipFree) (reporting : Float) :
    (Evaluation.complete .exact reporting [context.signal e]).wakeups = context.replays e := by
  obtain ⟨h, hrun, c, hcollectors, hshows⟩ := Evaluation.complete_isShownBy (context.coherent_signal e) reporting
  have hended := Evaluation.hasEnded_of_complete (context.coherent_signal e) hcollectors
  exact hshows.wakeups_eq.symm.trans (wakeups_of_hasEnded haccepted he hrun ((hshows.held_iff _).1 rfl) hended)

end Context

namespace Engine

variable {context : Context} {config : Config} {engine : Engine}

/-- No replay outlives its owners, and none is lost, in whatever order the tasks run and wherever the reader drops the
outermost signal. -/
theorem replays_owned (haccepted : context.Accepted) (hengine : Engine.make config = .ok engine) (e : Expr) :
    (∀ h, ReflTransGen Household.Moves (.start (context.signal e)) h →
        (∀ place source, e.leafAt? place = some source →
          h.Accounts ((context.timeline source).schedule context.speed) place) ∧
        (∀ bound, Ends (fun h h' => h.now < bound ∧ h.Moves h') (bound ≤ ·.now) h) ∧
        (∀ since, h.reader = .dropped since → ∀ h', ReflTransGen Household.Moves h h' → h'.wakeups = h.wakeups) ∧
        (e.ZipFree → ∀ last, h.reader = .holds last → last.hasEnded = true → h.wakeups = context.replays e)) ∧
      (e.ZipFree → (engine.run e context).wakeups = context.replays e) ∧
      ∀ reporting requests later,
        let s := (Session.start context (.expr e) reporting).after requests
        (∃ h, ReflTransGen Household.Moves (.start (context.signal e)) h ∧ s.IsShownBy h ∧
          ∃ h', ReflTransGen Household.Moves h h' ∧ (s.drop.after later).IsShownBy h') ∧
        (s.drop.after later).wakeups = s.wakeups := by
  obtain rfl := eq_of_make hengine
  refine ⟨fun h hrun => ⟨fun place source hleaf => ?_, h.ends, fun since hsince h' hrun' => ?_, fun he last => ?_⟩,
    fun he => Context.wakeups_complete haccepted he config.reporting, fun reporting requests later => ?_⟩
  · rw [← Context.agendaAt_leaf haccepted hleaf]
    exact (Context.keeps_signal haccepted hrun place).accounts (Context.ascending_agendaAt haccepted e place)
  · exact Context.wakeups_of_dropped haccepted hrun hsince hrun'
  · exact Context.wakeups_of_hasEnded haccepted he hrun
  · intro s
    obtain ⟨h₀, hstart, hstarted⟩ := Session.start_isShownBy context e reporting
    obtain ⟨h, hrequests, hs⟩ := hstarted.after requests
    obtain ⟨h₁, hdrop, hgone⟩ := hs.drop
    obtain ⟨h', hlater, hs'⟩ := hgone.after later
    obtain ⟨since, hsince⟩ := hgone.exists_dropped rfl
    have hrun := hstart.trans hrequests
    refine ⟨⟨h, hrun, hs, h', hdrop.trans hlater, hs'⟩, ?_⟩
    calc (s.drop.after later).wakeups = h'.wakeups := hs'.wakeups_eq.symm
      _ = h₁.wakeups := Context.wakeups_of_dropped haccepted (hrun.trans hdrop) hsince hlater
      _ = s.wakeups := hgone.wakeups_eq

theorem replays_owned_outlasted :
    let e := Expr.join .merge .chained (.input .second)
    let s := (Session.start .outlasted (.expr e) (some ({} : Config).reporting)).after [.sleep 6000000000]
    let last := s.drop.after [.sleep 100000000000]
    Context.outlasted.Accepted ∧ Engine.make {} = .ok { config := {} } ∧ e.ZipFree ∧
      (Engine.run { config := {} } e .outlasted).wakeups = 5 ∧ last.wakeups = 3 ∧
      ∃ h, ReflTransGen Household.Moves (.start (Context.outlasted.signal e)) h ∧ last.IsShownBy h ∧
        h.Accounts ((Context.outlasted.timeline .second).schedule Context.outlasted.speed) [.side .left, .side .right] := by
  have hengine : Engine.make {} = .ok { config := {} } := rfl
  have hfree : (Expr.join .merge .chained (.input .second)).ZipFree := by
    simp [Expr.ZipFree, Expr.chained]
  obtain ⟨hruns, hcompletes, hdropped⟩ :=
    replays_owned Context.accepted_outlasted hengine (.join .merge .chained (.input .second))
  obtain ⟨⟨h, hrun, -, h', hrun', hshown⟩, hwakeups⟩ := hdropped _ _ _
  refine ⟨Context.accepted_outlasted, hengine, hfree, (hcompletes hfree).trans rfl, hwakeups.trans ?_, h',
    hrun.trans hrun', hshown, (hruns h' (hrun.trans hrun')).1 _ _ rfl⟩
  decide +kernel

/-- The pairs are complete once the first input has ended, and then nobody waits for the rest of the second. -/
example : (Engine.run { config := {} } .paired .outlasted).wakeups = 2 := by decide +kernel

end Engine

end TimedStreams
