import TimedStreams.Proofs.Fleet

/-!
# Surveys

`Engine.runAll` evaluates all nodes side by side, from one first deadline to the next. It enters the
same trace for each node as the engine's run of the node alone, and completes at the latest instant
at which one of these runs does; the same holds of every run of the fleet of these nodes, in
whatever order their tasks are stepped and joined (`Engine.runAll_pointwise`). If two nodes share an
identifier, it answers with the first one that occurs again, and no fleet is launched.
-/

namespace TimedStreams

open Relation Stamped

/-! ### The first repeated identifier -/

namespace Engine

def launch (nodes : List Node) (context : Context) : Except Fault Fleet :=
  match firstRepeated? [] (nodes.map Node.id) with
  | some id => .error (.duplicateNode id)
  | none => .ok (.start context nodes)

theorem firstRepeated?_eq_none {seen ids : List Uuid} (hids : ids.Nodup) (hseen : ∀ id ∈ ids, id ∉ seen) :
    firstRepeated? seen ids = none := by
  induction ids generalizing seen with
  | nil => rfl
  | cons id rest ih =>
    obtain ⟨hid, hrest⟩ := List.nodup_cons.1 hids
    have hnew := hseen id List.mem_cons_self
    rw [firstRepeated?, List.contains_eq_mem, decide_eq_false hnew]
    refine ih hrest fun other hother => ?_
    rw [List.mem_cons, not_or]
    exact ⟨fun hsame => hid (hsame ▸ hother), hseen other (List.mem_cons_of_mem _ hother)⟩

theorem exists_firstRepeated? {seen ids : List Uuid} (hids : ¬ (ids.Nodup ∧ ∀ id ∈ ids, id ∉ seen)) :
    ∃ before id after, ids = before ++ id :: after ∧ before.Nodup ∧ (∀ other ∈ before, other ∉ seen) ∧
      (id ∈ before ∨ id ∈ seen) ∧ firstRepeated? seen ids = some id := by
  induction ids generalizing seen with
  | nil => exact absurd ⟨List.nodup_nil, by simp⟩ hids
  | cons id rest ih =>
    rw [firstRepeated?, List.contains_eq_mem]
    by_cases hold : id ∈ seen
    · exact ⟨[], id, rest, rfl, List.nodup_nil, by simp, .inr hold, by simp [hold]⟩
    · have hmore : ¬ (rest.Nodup ∧ ∀ other ∈ rest, other ∉ id :: seen) := by
        rintro ⟨hrest, hnew⟩
        refine hids ⟨List.nodup_cons.2 ⟨fun hid => ?_, hrest⟩, ?_⟩
        · exact hnew id hid List.mem_cons_self
        · exact List.forall_mem_cons.2 ⟨hold, fun other hother hmem => hnew other hother (List.mem_cons_of_mem _ hmem)⟩
      obtain ⟨before, repeated, after, rfl, hnodup, hbefore, hrepeated, hfound⟩ := ih hmore
      refine ⟨id :: before, repeated, after, rfl, List.nodup_cons.2 ⟨fun hid => ?_, hnodup⟩, ?_, ?_, ?_⟩
      · exact hbefore id hid List.mem_cons_self
      · exact List.forall_mem_cons.2
          ⟨hold, fun other hother hmem => hbefore other hother (List.mem_cons_of_mem _ hmem)⟩
      · rw [List.mem_cons] at hrepeated ⊢
        rcases hrepeated with hmem | hsame | hmem
        · exact .inl (.inr hmem)
        · exact .inl (.inl hsame)
        · exact .inr hmem
      · simpa [hold] using hfound

end Engine

/-! ### Looking traces up -/

namespace Report

theorem trace?_of_mem {r : Report} {id : Uuid} {events : List Event} (hkeys : (r.traces.map Prod.fst).Nodup)
    (hmem : (id, events) ∈ r.traces) : r.trace? id = some events := by
  obtain ⟨before, after, hplace⟩ := List.append_of_mem hmem
  have hother : ∀ entry ∈ before, ¬ (entry.1 == id) = true := by
    intro entry hentry hsame
    rw [hplace, List.map_append, List.map_cons, List.nodup_middle, List.nodup_cons, ← List.map_append] at hkeys
    exact hkeys.1 (List.mem_map.2 ⟨entry, List.mem_append_left _ hentry, eq_of_beq hsame⟩)
  rw [trace?, hplace, List.find?_append, List.find?_eq_none.2 hother]
  simp

theorem foldl_setTrace (entries kept : List (Uuid × List Event)) (hkeys : ((kept ++ entries).map Prod.fst).Nodup) :
    entries.foldl (fun kept entry => setTrace kept entry.1 entry.2) kept = kept ++ entries := by
  induction entries generalizing kept with
  | nil => exact (List.append_nil _).symm
  | cons entry rest ih =>
    have hnew : entry.1 ∉ kept.map Prod.fst := by
      rw [List.map_append, List.map_cons, List.nodup_middle, List.nodup_cons, List.mem_append, not_or] at hkeys
      exact hkeys.1.1
    rw [List.foldl_cons, setTrace_of_not_mem hnew, ih, List.append_assoc, List.singleton_append]
    rwa [List.append_assoc, List.singleton_append]

theorem traces_ofTraces {entries : List (Uuid × List Event)} (hkeys : (entries.map Prod.fst).Nodup)
    (startedAt : Timestamp) (latest : Option Float) : (ofTraces startedAt latest entries).traces = entries :=
  foldl_setTrace entries [] hkeys

end Report

/-! ### Evaluations side by side -/

theorem foldl_merge_some {α : Type} (wake : α → Option Nat) (all : List α) (first : Nat) :
    all.foldl (fun next a => next.merge min (wake a)) (some first) = some ((all.filterMap wake).foldl min first) := by
  induction all generalizing first with
  | nil => rfl
  | cons a rest ih =>
    cases hwake : wake a with
    | none => rw [List.foldl_cons, hwake, List.filterMap_cons_none hwake, ← ih, Option.merge_none_right]
    | some due => rw [List.foldl_cons, hwake, List.filterMap_cons_some hwake, List.foldl_cons, ← ih, Option.merge_some_some]

theorem foldl_merge_none {α : Type} (wake : α → Option Nat) (all : List α) :
    all.foldl (fun next a => next.merge min (wake a)) none = (all.filterMap wake).min? := by
  induction all with
  | nil => rfl
  | cons a rest ih =>
    cases hwake : wake a with
    | none => rw [List.foldl_cons, hwake, List.filterMap_cons_none hwake, Option.merge_none_right, ih]
    | some due => rw [List.foldl_cons, hwake, List.filterMap_cons_some hwake, Option.merge_none_left,
        foldl_merge_some, List.min?_cons']

namespace Evaluation

variable {clock : Clock} {v : Evaluation} {due : Nat}

theorem nextWake_eq_some (hnext : v.nextWake clock = some due) :
    (∃ c ∈ v.collectors, c.signal.nextWake clock = some due) ∧
      ∀ c ∈ v.collectors, ∀ wake, c.signal.nextWake clock = some wake → due ≤ wake := by
  rw [nextWake, foldl_merge_none, List.min?_eq_some_iff] at hnext
  obtain ⟨hmem, hfirst⟩ := hnext
  refine ⟨List.mem_filterMap.1 hmem, fun c hc wake hwake => ?_⟩
  exact hfirst wake (List.mem_filterMap.2 ⟨c, hc, hwake⟩)

theorem nextWake_eq_none (hnext : v.nextWake clock = none) : ∀ c ∈ v.collectors, c.signal.nextWake clock = none := by
  rw [nextWake, foldl_merge_none, List.min?_eq_none_iff, List.filterMap_eq_nil_iff] at hnext
  exact hnext

theorem unplayed_eq (v : Evaluation) : v.unplayed = (v.collectors.map fun c => c.signal.unplayed).sum := by
  rw [unplayed, List.sum, List.foldr_map]

theorem unplayed_runAt_le (clock : Clock) (reporting : Float) (now : Nat) (v : Evaluation) :
    (v.runAt clock reporting now).unplayed ≤ v.unplayed := by
  rw [unplayed_eq, unplayed_eq, runAt, List.map_map]
  exact List.sum_le_sum fun c _ => (Signal.unplayed_withQueue _ _).le.trans (Signal.unplayed_settle_le clock now c.signal)

theorem unplayed_runAt_lt (reporting : Float) (hnext : v.nextWake clock = some due) :
    (v.runAt clock reporting due).unplayed < v.unplayed := by
  obtain ⟨⟨c, hc, hwake⟩, -⟩ := nextWake_eq_some hnext
  rw [unplayed_eq, unplayed_eq, runAt, List.map_map]
  refine List.sum_lt_sum _ _ (fun other _ => ?_) ⟨c, hc, ?_⟩
  · exact (Signal.unplayed_withQueue _ _).le.trans (Signal.unplayed_settle_le clock due other.signal)
  · exact (Signal.unplayed_withQueue _ _).trans_lt (Signal.unplayed_settle_lt hwake)

end Evaluation

namespace Live

variable {clock : Clock} {reporting : Float} {live : Live} {o : Outcome} {now due : Nat}

theorem Finished.settleAt (hfinished : live.Finished) (clock : Clock) (now : Nat) :
    live.settleAt clock now = live.atTime now := by
  obtain ⟨before, signal, taken⟩ := live
  obtain ⟨hended, hqueue⟩ := hfinished
  obtain ⟨⟨queue, frontier⟩, rfl⟩ : ∃ out, signal = .ended out := ⟨_, Signal.eq_ended_of_hasEnded hended⟩
  obtain rfl : queue = [] := hqueue
  exact congrArg (Live.mk now _) (List.append_nil taken)

theorem Tracks.of_run {live' : Live} (hlive : live.Tracks o.events o.finish) (hrun : ReflTransGen Acts live live') :
    live'.Tracks o.events o.finish := by
  induction hrun with
  | refl => exact hlive
  | tail _ hacts ih => exact hacts.tracks ih

/-- At a time at which all its tasks are idle an evaluation is on its way to what it comes to alone, or it
has got there. -/
structure Keeps (now : Nat) (live : Live) (o : Outcome) : Prop where
  now_eq : live.now = now
  settled : live.Settled .exact
  course : live.Tracks o.events o.finish ∨ (live.Finished ∧ live.taken = o.events ∧ o.finish ≤ now)

theorem Tracks.settleAt (hlive : live.Tracks o.events o.finish) : (live.settleAt .exact live.now).Keeps live.now o := by
  refine ⟨rfl, settled_settleAt .exact live.now live, .inl ?_⟩
  exact hlive.of_run (settleAt_run Clock.neverEarly_exact hlive.coherent live.now)

theorem Keeps.still (hlive : live.Keeps now o) : live.Still :=
  hlive.settled.still

theorem Keeps.tracks_atTime (hlive : live.Keeps now o) (hmore : ¬ live.Finished) (hlater : now < due)
    (hfirst : ∀ wake, live.signal.nextWake .exact = some wake → due ≤ wake) :
    (live.atTime due).Tracks o.events o.finish := by
  obtain ⟨low, rfl⟩ : ∃ low, due = low + 1 := ⟨due - 1, by omega⟩
  obtain ⟨rfl, -, hcourse⟩ := id hlive
  have htracks := hcourse.resolve_right fun hdone => hmore hdone.1
  exact htracks.pass (hlive.still.readUp hmore) (hlive.still.idle.before hfirst (Nat.lt_succ_self low))
    (Nat.le_of_lt_succ hlater)

theorem Keeps.settleAt (hlive : live.Keeps now o) (hlater : now < due)
    (hfirst : ∀ wake, live.signal.nextWake .exact = some wake → due ≤ wake) :
    (live.settleAt .exact due).Keeps due o := by
  by_cases hfinished : live.Finished
  · obtain ⟨rfl, hsettled, hcourse⟩ := hlive
    have hdone : live.taken = o.events ∧ o.finish ≤ live.now := by
      rcases hcourse with htracks | ⟨-, hdone⟩
      · exact (htracks.of_finished hfinished).imp_right Eq.ge
      · exact hdone
    refine ⟨rfl, settled_settleAt .exact due live, .inr ?_⟩
    rw [hfinished.settleAt]
    exact ⟨hfinished.atTime due, hdone.1, hdone.2.trans hlater.le⟩
  · exact (hlive.tracks_atTime hfinished hlater hfirst).settleAt

theorem Keeps.wake_le (hlive : live.Keeps now o) (hwake : live.signal.nextWake .exact = some due) :
    now < due ∧ due ≤ o.finish := by
  have hlater : now < due := hlive.now_eq ▸ hlive.still.idle.lt_nextWake hwake
  have hmore : ¬ live.Finished := by
    intro hfinished
    rw [Signal.eq_ended_of_hasEnded hfinished.ended] at hwake
    cases hwake
  refine ⟨hlater, (hlive.tracks_atTime hmore hlater fun wake hother => ?_).now_le⟩
  exact (Option.some.inj (hwake.symm.trans hother)).le

theorem Keeps.done (hlive : live.Keeps now o) (hwake : live.signal.nextWake .exact = none) :
    live.taken = o.events ∧ o.finish ≤ now := by
  obtain ⟨rfl, hsettled, htracks | hdone⟩ := hlive
  · exact (htracks.of_finished (hsettled.still.finished htracks.coherent hwake)).imp_right Eq.ge
  · exact hdone.2

end Live

namespace Evaluation

variable {reporting : Float} {outcomes : List Outcome} {v : Evaluation} {due : Nat}

/-- All evaluations keep to what they come to alone, and none of them has been forgotten. -/
structure Carries (reporting : Float) (outcomes : List Outcome) (lives : List Live) (v : Evaluation) : Prop where
  collectors_eq : v.collectors = lives.map (Live.collector reporting)
  keeps : List.Forall₂ (Live.Keeps v.now) lives outcomes
  in_time : v.now ≤ Outcome.latest outcomes

theorem Carries.runAt {lives : List Live} (hv : v.Carries reporting outcomes lives)
    (hnext : v.nextWake .exact = some due) :
    (v.runAt .exact reporting due).Carries reporting outcomes (lives.map (Live.settleAt .exact due)) := by
  obtain ⟨hcollectors, hkeeps, htime⟩ := hv
  obtain ⟨⟨c, hc, hwake⟩, hfirst⟩ := nextWake_eq_some hnext
  rw [hcollectors, List.forall_mem_map] at hfirst
  rw [hcollectors, List.mem_map] at hc
  obtain ⟨live, hlive, rfl⟩ := hc
  obtain ⟨before, after, rfl⟩ := List.append_of_mem hlive
  obtain ⟨front, o, back, rfl, -, hhere, -⟩ := exists_split hkeeps
  obtain ⟨hlater, hdue⟩ := hhere.wake_le hwake
  refine ⟨?_, ?_, hdue.trans (Outcome.le_latest (List.mem_append_right _ List.mem_cons_self))⟩
  · rw [Evaluation.runAt, hcollectors, List.map_map, List.map_map]
    exact List.map_congr_left fun other _ => Live.collect_collector .exact reporting due other
  · rw [List.forall₂_map_left_iff]
    exact forall₂_imp_of_mem hkeeps fun other hmem _ _ hother => hother.settleAt hlater (hfirst other hmem)

theorem Carries.done {lives : List Live} (hv : v.Carries reporting outcomes lives) (hnext : v.nextWake .exact = none) :
    v.collectors.map Collector.events = outcomes.map (fun o => reports reporting o.events) ∧
      v.now = Outcome.latest outcomes := by
  obtain ⟨hcollectors, hkeeps, htime⟩ := hv
  have hnone := nextWake_eq_none hnext
  rw [hcollectors, List.forall_mem_map] at hnone
  have hdone := forall₂_imp_of_mem hkeeps fun live hlive o _ hhere => hhere.done (hnone live hlive)
  constructor
  · rw [hcollectors, List.map_map, ← List.forall₂_eq_eq_eq, List.forall₂_map_left_iff, List.forall₂_map_right_iff]
    exact hdone.imp fun live o hhere => congrArg (reports reporting) hhere.1
  · refine Nat.le_antisymm htime (Outcome.latest_le fun o ho => ?_)
    obtain ⟨before, after, rfl⟩ := List.append_of_mem ho
    obtain ⟨-, live, -, -, -, hhere, -⟩ := exists_split hdone.flip
    exact hhere.2

theorem Carries.advance {lives : List Live} {jumps : Nat} (hv : v.Carries reporting outcomes lives)
    (hjumps : v.unplayed ≤ jumps) :
    (v.advance .exact reporting jumps).collectors.map Collector.events
        = outcomes.map (fun o => reports reporting o.events) ∧
      (v.advance .exact reporting jumps).now = Outcome.latest outcomes := by
  induction jumps generalizing v lives with
  | zero =>
    refine hv.done (Option.eq_none_iff_forall_ne_some.2 fun due hnext => ?_)
    have hless := unplayed_runAt_lt reporting hnext
    omega
  | succ jumps ih =>
    rw [Evaluation.advance]
    cases hnext : v.nextWake .exact with
    | none => exact hv.done hnext
    | some due =>
      have hless := unplayed_runAt_lt reporting hnext
      exact ih (hv.runAt hnext) (by omega)

/-- Evaluations side by side come to what each of them comes to alone, the last of them at the latest instant. -/
theorem complete_eq (reporting : Float) {signals : List Signal}
    (hsignals : List.Forall₂ (fun signal o => (Live.start signal).Tracks o.events o.finish) signals outcomes) :
    (complete .exact reporting signals).collectors.map Collector.events
        = outcomes.map (fun o => reports reporting o.events) ∧
      (complete .exact reporting signals).now = Outcome.latest outcomes := by
  have hstart : Carries reporting outcomes (signals.map fun signal => (Live.start signal).settleAt .exact 0)
      (runAt .exact reporting 0 { collectors := signals.map fun signal => { signal } }) := by
    refine ⟨?_, ?_, Nat.zero_le _⟩
    · rw [runAt, List.map_map, List.map_map]
      exact List.map_congr_left fun signal _ => Live.collect_collector .exact reporting 0 (.start signal)
    · rw [List.forall₂_map_left_iff]
      exact hsignals.imp fun signal o htracks => htracks.settleAt
  exact hstart.advance (unplayed_runAt_le .exact reporting 0 _)

end Evaluation

/-! ### Nodes -/

namespace Engine

variable {context : Context} {config : Config} {engine : Engine} {nodes : List Node}

def outcome (engine : Engine) (context : Context) (node : Node) : Outcome where
  id := node.id
  events := engine.deliveries node.expr context
  finish := (engine.run node.expr context).finish

theorem ids_outcomes (engine : Engine) (context : Context) (nodes : List Node) :
    (nodes.map (engine.outcome context)).map Outcome.id = nodes.map Node.id := by
  rw [List.map_map]
  rfl

theorem tracks_outcome (haccepted : context.Accepted) (hengine : Engine.make config = .ok engine) {node : Node}
    (hnode : node.expr.ChainsAfter Expr.ZipFree) :
    (Live.start (context.signal node.expr)).Tracks (engine.outcome context node).events
      (engine.outcome context node).finish := by
  obtain rfl := eq_of_make hengine
  obtain ⟨hevents, hfinish⟩ := complete_eq_trace haccepted hnode
  rw [outcome, deliveries, finish_run, hevents, hfinish]
  exact context.tracks_signal haccepted hnode

def latestFinish (engine : Engine) (context : Context) (nodes : List Node) : Nat :=
  (nodes.map fun node => (engine.run node.expr context).finish).foldr max 0

theorem latest_outcomes (engine : Engine) (context : Context) (nodes : List Node) :
    Outcome.latest (nodes.map (engine.outcome context)) = engine.latestFinish context nodes := by
  rw [Outcome.latest, latestFinish, List.foldr_map, List.foldr_map]
  rfl

/-- A report holds the trace of every node alone. -/
structure Answers (engine : Engine) (context : Context) (nodes : List Node) (report : Report) : Prop where
  keys : (report.traces.map Prod.fst).Perm (nodes.map Node.id)
  trace : ∀ node ∈ nodes, report.trace? node.id = some (engine.run node.expr context).events

theorem steers_start (haccepted : context.Accepted) (hengine : Engine.make config = .ok engine)
    (hnodes : ∀ node ∈ nodes, node.expr.ChainsAfter Expr.ZipFree) (reporting : Float) :
    (Fleet.start context nodes).Steers reporting (nodes.map (engine.outcome context)) := by
  refine ⟨?_, List.nodup_nil, by simp [Fleet.start], Nat.zero_le _⟩
  rw [Fleet.start, List.forall₂_map_left_iff, List.forall₂_map_right_iff, List.forall₂_same]
  intro node hnode
  exact .going rfl rfl (tracks_outcome haccepted hengine (hnodes node hnode)) (by simp)

theorem answers_of_landed (hengine : Engine.make config = .ok engine) (hids : (nodes.map Node.id).Nodup)
    {last : Fleet} (hlast : last.Landed config.reporting (nodes.map (engine.outcome context))) (startedAt : Timestamp) :
    engine.Answers context nodes (last.report startedAt context) := by
  obtain rfl := eq_of_make hengine
  obtain ⟨-, hkeys, htraces, -⟩ := hlast
  rw [ids_outcomes] at hkeys
  refine ⟨hkeys, fun node hnode => ?_⟩
  rw [events_run]
  exact Report.trace?_of_mem (hkeys.nodup_iff.2 hids) (htraces _ (List.mem_map_of_mem hnode))

/-- Evaluating all nodes enters the trace of each run alone under the identifier of its node. -/
theorem runAll_eq (haccepted : context.Accepted) (hengine : Engine.make config = .ok engine)
    (hids : (nodes.map Node.id).Nodup) (hnodes : ∀ node ∈ nodes, node.expr.ChainsAfter Expr.ZipFree)
    (startedAt : Timestamp) :
    ∃ survey, engine.runAll startedAt nodes context = .ok survey ∧ engine.Answers context nodes survey.report ∧
      survey.finish = engine.latestFinish context nodes := by
  have hsignals : List.Forall₂ (fun signal o => (Live.start signal).Tracks o.events o.finish)
      (nodes.map fun node => context.signal node.expr) (nodes.map (engine.outcome context)) := by
    rw [List.forall₂_map_left_iff, List.forall₂_map_right_iff, List.forall₂_same]
    exact fun node hnode => tracks_outcome haccepted hengine (hnodes node hnode)
  obtain ⟨hevents, hfinish⟩ := Evaluation.complete_eq config.reporting hsignals
  obtain rfl := eq_of_make hengine
  have hentries : (nodes.map Node.id).zip ((Evaluation.complete .exact config.reporting
      (nodes.map fun node => context.signal node.expr)).collectors.map Collector.events)
      = nodes.map fun node => (node.id, (Engine.run ⟨config, .exact⟩ node.expr context).events) := by
    rw [hevents, List.map_map, List.zip_map']
    refine List.map_congr_left fun node _ => ?_
    rw [events_run]
    rfl
  have hkeys : (nodes.map fun node => (node.id, (Engine.run ⟨config, .exact⟩ node.expr context).events)).map Prod.fst
      = nodes.map Node.id := by
    rw [List.map_map]
    rfl
  rw [latest_outcomes] at hfinish
  rw [runAll, firstRepeated?_eq_none hids (by simp)]
  simp only [hentries]
  refine ⟨_, rfl, ?_, hfinish⟩
  have htraces := Report.traces_ofTraces (hkeys ▸ hids) startedAt context.latestInputTime
  refine ⟨?_, fun node hnode => Report.trace?_of_mem ?_ ?_⟩
  · rw [htraces, hkeys]
  · rwa [htraces, hkeys]
  · rw [htraces]
    exact List.mem_map_of_mem hnode

/-- Evaluating all nodes is evaluating each of them alone, whatever goes on beside it, unless two of them share
an identifier, of which nothing is evaluated. -/
theorem runAll_pointwise (hengine : Engine.make config = .ok engine) (startedAt : Timestamp) :
    (context.Accepted → (nodes.map Node.id).Nodup → (∀ node ∈ nodes, node.expr.ChainsAfter Expr.ZipFree) →
      (∃ survey, engine.runAll startedAt nodes context = .ok survey ∧ engine.Answers context nodes survey.report ∧
        survey.finish = engine.latestFinish context nodes) ∧
      ∃ fleet, launch nodes context = .ok fleet ∧
        Ends (Fleet.Step config.reporting)
          (fun last => engine.Answers context nodes (last.report startedAt context) ∧
            last.now = engine.latestFinish context nodes) fleet) ∧
    (¬ (nodes.map Node.id).Nodup → ∃ before node after, nodes = before ++ node :: after ∧
      (before.map Node.id).Nodup ∧ node.id ∈ before.map Node.id ∧
      engine.runAll startedAt nodes context = .error (.duplicateNode node.id) ∧
      launch nodes context = .error (.duplicateNode node.id)) := by
  constructor
  · intro haccepted hids hnodes
    refine ⟨runAll_eq haccepted hengine hids hnodes startedAt, .start context nodes, ?_, ?_⟩
    · rw [launch, firstRepeated?_eq_none hids (by simp)]
    · have hends := (steers_start haccepted hengine hnodes config.reporting).ends ((ids_outcomes _ _ _).symm ▸ hids)
      refine hends.mono fun last hlast => ⟨answers_of_landed hengine hids hlast startedAt, ?_⟩
      rw [hlast.now_eq, latest_outcomes]
  · intro hids
    obtain ⟨first, id, rest, hplace, hfirst, -, hrepeated, hfound⟩ :=
      exists_firstRepeated? fun hnew : _ ∧ ∀ id ∈ nodes.map Node.id, id ∉ [] => hids hnew.1
    obtain ⟨before, others, rfl, rfl, hothers⟩ := List.map_eq_append_iff.1 hplace
    obtain ⟨node, after, rfl, rfl, rfl⟩ := List.map_eq_cons_iff.1 hothers
    refine ⟨before, node, after, rfl, hfirst, by simpa using hrepeated, ?_, ?_⟩
    · rw [runAll, hfound]
    · rw [launch, hfound]

/-- The pairs of `run_eq_trace_crossed` beside the chain of both inputs, and then the pairs once more. -/
theorem runAll_pointwise_crossed :
    Engine.make {} = .ok { config := {} } ∧ Context.outlasted.Accepted ∧
      (∃ survey, Engine.runAll { config := {} } ⟨0, 0⟩ [⟨.ofNat 1, .crossed⟩, ⟨.ofNat 2, .chained⟩] .outlasted = .ok survey ∧
        Engine.Answers { config := {} } .outlasted [⟨.ofNat 1, .crossed⟩, ⟨.ofNat 2, .chained⟩] survey.report) ∧
      Engine.runAll { config := {} } ⟨0, 0⟩ [⟨.ofNat 1, .crossed⟩, ⟨.ofNat 2, .chained⟩, ⟨.ofNat 1, .crossed⟩] .outlasted
        = .error (.duplicateNode (.ofNat 1)) := by
  have hengine : Engine.make {} = .ok { config := {} } := rfl
  have hids : ([⟨.ofNat 1, .crossed⟩, ⟨.ofNat 2, .chained⟩] : List Node).map Node.id |>.Nodup := by decide
  have hnodes : ∀ node ∈ ([⟨.ofNat 1, .crossed⟩, ⟨.ofNat 2, .chained⟩] : List Node),
      node.expr.ChainsAfter Expr.ZipFree := by
    simp [Expr.crossed, Expr.chained, Expr.ChainsAfter, Expr.ZipFree]
  obtain ⟨⟨survey, hsurvey, hanswers, -⟩, -⟩ :=
    (runAll_pointwise hengine ⟨0, 0⟩).1 Context.accepted_outlasted hids hnodes
  exact ⟨hengine, Context.accepted_outlasted, ⟨survey, hsurvey, hanswers⟩, rfl⟩

end Engine

end TimedStreams
