import TimedStreams.Engine.Report
import TimedStreams.Proofs.EngineRuns

/-!
# Networks on one clock

Several nodes are evaluated beside each other: each is a `Network` with its own tasks and a task that
takes its events, and a collector waits for all of them and enters the trace of each under its
identifier, in the order in which they finish. Tasks of different networks share nothing but the
clock, which stands still as long as anything can happen in any of them.

What the networks have in common can only disturb one of them through time, and time passes over a
network that is idle without changing what is still to come (`Live.Tracks.pass`). So each network
`Keeps` to what it would do alone: it is on its way there, or it has finished at its own instant and
its trace has been entered. All runs of a fleet end, each with one trace for each network, the one
that it has alone, and at the latest of the instants at which the networks finish (`Fleet.Steers.ends`).
-/

namespace TimedStreams

open Relation Stamped

/-- The evaluation of one node, with what has been taken from it. -/
structure Network where
  id : Uuid
  signal : Signal
  taken : List Stamped
  /-- Whether its trace has been entered. -/
  joined : Bool

namespace Network

def live (now : Nat) (n : Network) : Live :=
  ⟨now, n.signal, n.taken⟩

def become (n : Network) (live : Live) : Network :=
  { n with signal := live.signal, taken := live.taken }

theorem live_become {now : Nat} {live : Live} (n : Network) (hnow : live.now = now) :
    (n.become live).live now = live := by
  subst hnow
  rfl

/-- A bound on what can still happen to the network. -/
def effort (n : Network) : Nat :=
  n.signal.effort + if n.joined then 0 else 1

end Network

/-- Networks that share a clock, and the traces of those that have finished. -/
structure Fleet where
  now : Nat
  networks : List Network
  traces : List (Uuid × List Event)

namespace Fleet

def start (context : Context) (nodes : List Node) : Fleet where
  now := 0
  networks := nodes.map fun node => ⟨node.id, context.signal node.expr, [], false⟩
  traces := []

def atTime (f : Fleet) (now : Nat) : Fleet :=
  { f with now }

/-- The report with the traces that have been entered. -/
def report (startedAt : Timestamp) (context : Context) (f : Fleet) : Report where
  startedAt := startedAt
  latestInputTime := context.latestInputTime
  traces := f.traces

/-- Something happens in one network, or the trace of one that has finished is entered. -/
inductive Acts (reporting : Float) : Fleet → Fleet → Prop
  | work {now : Nat} {before after : List Network} {n : Network} {live' : Live}
      {traces : List (Uuid × List Event)} (hacts : (n.live now).Acts live') :
      Acts reporting ⟨now, before ++ n :: after, traces⟩ ⟨now, before ++ n.become live' :: after, traces⟩
  | join {now : Nat} {before after : List Network} {n : Network} {traces : List (Uuid × List Event)}
      (hfinished : (n.live now).Finished) (hout : n.joined = false) :
      Acts reporting ⟨now, before ++ n :: after, traces⟩
        ⟨now, before ++ { n with joined := true } :: after, Report.setTrace traces n.id (reports reporting n.taken)⟩

def Still (reporting : Float) (f : Fleet) : Prop :=
  ∀ f', ¬ f.Acts reporting f'

/-- The first deadline of all networks. -/
structure FirstDue (f : Fleet) (due : Nat) : Prop where
  reached : ∃ n ∈ f.networks, n.signal.nextWake .exact = some due
  first : ∀ n ∈ f.networks, ∀ wake, n.signal.nextWake .exact = some wake → due ≤ wake

/-- Something happens now, or at the first deadline if nothing can happen before. -/
inductive Step (reporting : Float) : Fleet → Fleet → Prop
  | now {f f' : Fleet} (hacts : f.Acts reporting f') : Step reporting f f'
  | jump {f f' : Fleet} {due : Nat} (hstill : f.Still reporting) (hdue : f.FirstDue due)
      (hacts : (f.atTime due).Acts reporting f') : Step reporting f f'

def effort (f : Fleet) : Nat :=
  (f.networks.map Network.effort).sum

end Fleet

/-- What the evaluation of a node comes to on its own. -/
structure Outcome where
  id : Uuid
  events : List Stamped
  finish : Nat

def Outcome.latest (outcomes : List Outcome) : Nat :=
  outcomes.foldr (fun o last => max o.finish last) 0

theorem Outcome.le_latest {outcomes : List Outcome} {o : Outcome} (ho : o ∈ outcomes) : o.finish ≤ latest outcomes := by
  induction outcomes with
  | nil => cases ho
  | cons first rest ih =>
    rw [latest, List.foldr_cons, ← latest]
    rcases List.mem_cons.1 ho with rfl | hrest
    · exact Nat.le_max_left _ _
    · exact (ih hrest).trans (Nat.le_max_right _ _)

theorem Outcome.latest_le {outcomes : List Outcome} {now : Nat} (hnow : ∀ o ∈ outcomes, o.finish ≤ now) :
    latest outcomes ≤ now := by
  induction outcomes with
  | nil => exact Nat.zero_le _
  | cons first rest ih =>
    rw [latest, List.foldr_cons, ← latest]
    exact max_le (hnow first List.mem_cons_self) (ih fun o ho => hnow o (List.mem_cons_of_mem _ ho))

/-! ### Lists that go together -/

theorem exists_split {α β : Type} {related : α → β → Prop} {before after : List α} {a : α} {bs : List β}
    (hall : List.Forall₂ related (before ++ a :: after) bs) :
    ∃ front b back, bs = front ++ b :: back ∧ List.Forall₂ related before front ∧ related a b ∧
      List.Forall₂ related after back := by
  induction before generalizing bs with
  | nil =>
    cases hall with
    | cons hhere hrest => exact ⟨[], _, _, rfl, .nil, hhere, hrest⟩
  | cons first before ih =>
    cases hall with
    | cons hfirst hrest =>
      obtain ⟨front, b, back, rfl, hbefore, hhere, hafter⟩ := ih hrest
      exact ⟨_ :: front, b, back, rfl, .cons hfirst hbefore, hhere, hafter⟩

theorem forall₂_imp_of_mem {α β : Type} {related related' : α → β → Prop} {as : List α} {bs : List β}
    (hall : List.Forall₂ related as bs) (himp : ∀ a ∈ as, ∀ b ∈ bs, related a b → related' a b) :
    List.Forall₂ related' as bs := by
  rw [List.forall₂_iff_zip] at hall ⊢
  refine ⟨hall.1, fun hpair => ?_⟩
  obtain ⟨ha, hb⟩ := List.of_mem_zip hpair
  exact himp _ ha _ hb (hall.2 hpair)

/-! ### One evaluation among others -/

namespace Live

variable {events : List Stamped} {finish : Nat} {live live' : Live}

theorem Tracks.now_le (hlive : live.Tracks events finish) : live.now ≤ finish :=
  (Nat.le_max_left _ _).trans hlive.finish_eq.le

theorem Still.readUp (hstill : live.Still) (hmore : ¬ live.Finished) : live.signal.ReadUp :=
  ⟨hstill.queue_eq, Bool.eq_false_iff.2 fun hended => hmore ⟨hended, hstill.queue_eq⟩⟩

theorem Acts.now_eq (hacts : live.Acts live') : live'.now = live.now := by
  cases hacts <;> rfl

end Live

namespace Network

variable {reporting : Float} {now : Nat} {traces : List (Uuid × List Event)} {n : Network} {o : Outcome}

/-- A network is on its way to what it comes to alone, or has got there and its trace has been entered. -/
inductive Keeps (reporting : Float) (now : Nat) (traces : List (Uuid × List Event)) (n : Network) (o : Outcome) : Prop
  | going (hid : n.id = o.id) (hout : n.joined = false) (htracks : (n.live now).Tracks o.events o.finish)
      (hnone : o.id ∉ traces.map Prod.fst)
  | joined (hin : n.joined = true) (hfinished : (n.live now).Finished) (hfinish : o.finish ≤ now)
      (htrace : (o.id, reports reporting o.events) ∈ traces)

theorem Keeps.enter {id : Uuid} (hn : n.Keeps reporting now traces o) (hid : o.id ≠ id) (events : List Event) :
    n.Keeps reporting now (traces ++ [(id, events)]) o := by
  cases hn with
  | going hsame hout htracks hnone =>
    refine .going hsame hout htracks ?_
    rw [List.map_append, List.mem_append, not_or]
    exact ⟨hnone, fun hmem => hid (List.mem_singleton.1 hmem)⟩
  | joined hin hfinished hfinish htrace => exact .joined hin hfinished hfinish (List.mem_append_left _ htrace)

/-- Time may pass over a network that has nothing to do before the first deadline. -/
theorem Keeps.pass {due : Nat} (hn : n.Keeps reporting now traces o) (hstill : (n.live now).Still)
    (hmore : (n.live now).Finished → n.joined = true) (hlater : now < due)
    (hfirst : ∀ wake, n.signal.nextWake .exact = some wake → due ≤ wake) : n.Keeps reporting due traces o := by
  cases hn with
  | going hid hout htracks hnone =>
    obtain ⟨low, rfl⟩ : ∃ low, due = low + 1 := ⟨due - 1, by omega⟩
    have hread := hstill.readUp fun hfinished => absurd (hmore hfinished) (by simp [hout])
    exact .going hid hout (htracks.pass hread (hstill.idle.before hfirst (Nat.lt_succ_self low))
      (Nat.le_of_lt_succ hlater)) hnone
  | joined hin hfinished hfinish htrace => exact .joined hin (hfinished.atTime due) (hfinish.trans hlater.le) htrace

/-- Whatever still wakes does so before the network finishes. -/
theorem Keeps.le_finish (hn : n.Keeps reporting now traces o) {wake : Nat}
    (hwake : n.signal.nextWake .exact = some wake) : now ≤ o.finish := by
  cases hn with
  | going hid hout htracks hnone => exact htracks.now_le
  | joined hin hfinished hfinish htrace =>
    rw [show n.signal = .ended n.signal.outlet from Signal.eq_ended_of_hasEnded hfinished.ended] at hwake
    cases hwake

theorem Keeps.mem_traces (hn : n.Keeps reporting now traces o) (hin : n.joined = true) :
    (o.id, reports reporting o.events) ∈ traces ∧ o.finish ≤ now := by
  cases hn with
  | going hid hout htracks hnone => exact absurd hin (by simp [hout])
  | joined _ hfinished hfinish htrace => exact ⟨htrace, hfinish⟩

end Network

/-! ### All of them -/

theorem Report.setTrace_of_not_mem {traces : List (Uuid × List Event)} {id : Uuid} (hid : id ∉ traces.map Prod.fst)
    (events : List Event) : setTrace traces id events = traces ++ [(id, events)] := by
  have hnone : traces.any (·.1 == id) = false := by
    rw [List.any_eq_false]
    intro entry hentry hsame
    exact hid (eq_of_beq hsame ▸ List.mem_map_of_mem hentry)
  rw [setTrace, hnone]
  rfl

namespace Fleet

variable {reporting : Float} {f f' : Fleet} {outcomes : List Outcome}

/-- Every network of the fleet keeps to its outcome, and only they have traces. -/
structure Steers (reporting : Float) (outcomes : List Outcome) (f : Fleet) : Prop where
  networks : List.Forall₂ (Network.Keeps reporting f.now f.traces) f.networks outcomes
  nodup : (f.traces.map Prod.fst).Nodup
  known : ∀ id ∈ f.traces.map Prod.fst, id ∈ outcomes.map Outcome.id
  in_time : f.now ≤ Outcome.latest outcomes

/-- Everything has finished, and every trace is there, once. -/
structure Landed (reporting : Float) (outcomes : List Outcome) (f : Fleet) : Prop where
  joined : ∀ n ∈ f.networks, n.joined = true
  keys : (f.traces.map Prod.fst).Perm (outcomes.map Outcome.id)
  traces : ∀ o ∈ outcomes, (o.id, reports reporting o.events) ∈ f.traces
  now_eq : f.now = Outcome.latest outcomes

theorem Acts.steers (hacts : f.Acts reporting f') (hids : (outcomes.map Outcome.id).Nodup)
    (hf : f.Steers reporting outcomes) : f'.Steers reporting outcomes := by
  obtain ⟨hnetworks, hnodup, hknown, htime⟩ := hf
  cases hacts with
  | @work now before after n live' traces hacts =>
    obtain ⟨front, o, back, rfl, hbefore, hhere, hafter⟩ := exists_split hnetworks
    refine ⟨List.rel_append hbefore (.cons ?_ hafter), hnodup, hknown, htime⟩
    cases hhere with
    | going hid hout htracks hnone =>
      refine .going hid hout ?_ hnone
      rw [show (n.become live').live now = live' from n.live_become hacts.now_eq]
      exact hacts.tracks htracks
    | joined hin hfinished hfinish htrace => exact absurd hacts hfinished.not_acts
  | @join now before after n traces hfinished hout =>
    obtain ⟨front, o, back, rfl, hbefore, hhere, hafter⟩ := exists_split hnetworks
    cases hhere with
    | joined hin => exact absurd hin (by simp [hout])
    | going hid _ htracks hnone =>
      obtain ⟨htaken, hnow⟩ := htracks.of_finished hfinished
      have hentered : Report.setTrace traces n.id (reports reporting n.taken)
          = traces ++ [(o.id, reports reporting o.events)] := by
        rw [hid, show n.taken = o.events from htaken]
        exact Report.setTrace_of_not_mem hnone _
      have hother : ∀ other ∈ front ++ back, other.id ≠ o.id := by
        rw [List.map_append, List.map_cons, List.nodup_middle, List.nodup_cons, ← List.map_append] at hids
        exact fun other hmem hsame => hids.1 (List.mem_map.2 ⟨other, hmem, hsame⟩)
      have hentered_before := forall₂_imp_of_mem hbefore fun m _ other hmem hm =>
        hm.enter (hother other (List.mem_append_left _ hmem)) (reports reporting o.events)
      have hentered_after := forall₂_imp_of_mem hafter fun m _ other hmem hm =>
        hm.enter (hother other (List.mem_append_right _ hmem)) (reports reporting o.events)
      simp only [hentered]
      refine ⟨List.rel_append hentered_before (.cons ?_ hentered_after), ?_, ?_, htime⟩
      · exact .joined rfl hfinished hnow.ge (List.mem_append_right _ List.mem_cons_self)
      · rw [List.map_append, List.map_singleton]
        exact hnodup.append (List.nodup_singleton _) (List.disjoint_singleton.2 hnone)
      · intro id hmem
        rw [List.map_append, List.mem_append] at hmem
        rcases hmem with hmem | hmem
        · exact hknown id hmem
        · rw [List.mem_singleton.1 hmem]
          exact List.mem_map_of_mem (List.mem_append_right _ List.mem_cons_self)

/-! ### The clock -/

theorem Still.of_mem {n : Network} (hstill : f.Still reporting) (hn : n ∈ f.networks) :
    (n.live f.now).Still ∧ ((n.live f.now).Finished → n.joined = true) := by
  obtain ⟨now, networks, traces⟩ := f
  obtain ⟨before, after, rfl⟩ := List.append_of_mem hn
  refine ⟨fun live' hacts => hstill _ (.work hacts), fun hfinished => ?_⟩
  by_contra hout
  exact hstill _ (.join hfinished (Bool.eq_false_iff.2 hout))

theorem Still.jump {due : Nat} (hstill : f.Still reporting) (hdue : f.FirstDue due)
    (hf : f.Steers reporting outcomes) : (f.atTime due).Steers reporting outcomes := by
  obtain ⟨hnetworks, hnodup, hknown, htime⟩ := hf
  obtain ⟨⟨m, hm, hwake⟩, hfirst⟩ := hdue
  have hlater : f.now < due := (hstill.of_mem hm).1.idle.lt_nextWake hwake
  have hpassed := forall₂_imp_of_mem hnetworks fun n hn o _ hkeeps =>
    hkeeps.pass (hstill.of_mem hn).1 (hstill.of_mem hn).2 hlater (hfirst n hn)
  refine ⟨hpassed, hnodup, hknown, ?_⟩
  obtain ⟨before, after, hplace⟩ := List.append_of_mem hm
  rw [hplace] at hpassed
  obtain ⟨front, o, back, rfl, -, hhere, -⟩ := exists_split hpassed
  exact (hhere.le_finish hwake).trans (Outcome.le_latest (List.mem_append_right _ List.mem_cons_self))

theorem Step.steers (hstep : f.Step reporting f') (hids : (outcomes.map Outcome.id).Nodup)
    (hf : f.Steers reporting outcomes) : f'.Steers reporting outcomes := by
  cases hstep with
  | now hacts => exact hacts.steers hids hf
  | jump hstill hdue hacts => exact hacts.steers hids (hstill.jump hdue hf)

theorem Acts.effort_lt (hacts : f.Acts reporting f') : f'.effort < f.effort := by
  cases hacts with
  | @work now before after n live' traces hacts =>
    have hless := hacts.effort_lt
    simp only [effort, Network.effort, Network.become, Network.live, List.map_append, List.map_cons,
      List.sum_append, List.sum_cons] at hless ⊢
    omega
  | @join now before after n traces hfinished hout =>
    simp [effort, Network.effort, hout]

theorem Step.effort_lt (hstep : f.Step reporting f') : f'.effort < f.effort := by
  cases hstep with
  | now hacts => exact hacts.effort_lt
  | jump hstill hdue hacts => exact hacts.effort_lt

theorem exists_firstDue {n : Network} (hn : n ∈ f.networks) {wake : Nat}
    (hwake : n.signal.nextWake .exact = some wake) : ∃ due, f.FirstDue due := by
  have hsome : ∃ due, ∃ n ∈ f.networks, n.signal.nextWake .exact = some due := ⟨wake, n, hn, hwake⟩
  refine ⟨Nat.find hsome, Nat.find_spec hsome, ?_⟩
  intro other hother later hlater
  exact Nat.find_min' hsome ⟨other, hother, hlater⟩

theorem FirstDue.exists_step {due : Nat} (hdue : f.FirstDue due) (hstill : f.Still reporting) :
    ∃ f', f.Step reporting f' := by
  obtain ⟨⟨n, hn, hwake⟩, -⟩ := id hdue
  obtain ⟨now, networks, traces⟩ := f
  obtain ⟨before, after, rfl⟩ := List.append_of_mem hn
  obtain ⟨signal', hstep⟩ := Signal.exists_step_of_nextWake (· ≤ due) hwake fun stamp hstamp =>
    (show stamp = due from hstamp).le
  exact ⟨_, .jump hstill hdue (.work (.work hstep))⟩

/-- A fleet in which nothing can happen has landed. -/
theorem Steers.landed (hf : f.Steers reporting outcomes) (hids : (outcomes.map Outcome.id).Nodup)
    (hnone : ∀ f', ¬ f.Step reporting f') : f.Landed reporting outcomes := by
  have hstill : f.Still reporting := fun f' hacts => hnone f' (.now hacts)
  obtain ⟨hnetworks, hnodup, hknown, htime⟩ := hf
  have hjoined : ∀ n ∈ f.networks, n.joined = true := by
    intro n hn
    obtain ⟨hquiet, hmore⟩ := hstill.of_mem hn
    cases hwake : n.signal.nextWake .exact with
    | some wake =>
      obtain ⟨due, hdue⟩ := exists_firstDue hn hwake
      obtain ⟨f', hstep⟩ := hdue.exists_step hstill
      exact absurd hstep (hnone f')
    | none =>
      obtain ⟨before, after, hplace⟩ := List.append_of_mem hn
      obtain ⟨front, o, back, -, -, hhere, -⟩ := exists_split (hplace ▸ hnetworks)
      cases hhere with
      | going hid hout htracks _ => exact hmore (hquiet.finished htracks.coherent hwake)
      | joined hin => exact hin
  have hentered : ∀ o ∈ outcomes, (o.id, reports reporting o.events) ∈ f.traces ∧ o.finish ≤ f.now := by
    intro o ho
    obtain ⟨before, after, rfl⟩ := List.append_of_mem ho
    obtain ⟨front, n, back, hplace, -, hhere, -⟩ := exists_split hnetworks.flip
    exact Network.Keeps.mem_traces hhere (hjoined n (hplace ▸ List.mem_append_right _ List.mem_cons_self))
  refine ⟨hjoined, ?_, fun o ho => (hentered o ho).1, ?_⟩
  · refine (List.perm_ext_iff_of_nodup hnodup hids).2 fun id => ⟨hknown id, fun hid => ?_⟩
    obtain ⟨o, ho, rfl⟩ := List.mem_map.1 hid
    exact List.mem_map_of_mem (hentered o ho).1
  · exact Nat.le_antisymm htime (Outcome.latest_le fun o ho => (hentered o ho).2)

/-- Every run of a fleet ends with the trace of each network, the one that it has alone. -/
theorem Steers.ends (hf : f.Steers reporting outcomes) (hids : (outcomes.map Outcome.id).Nodup) :
    Ends (Step reporting) (Landed reporting outcomes) f := by
  refine Ends.of_invariant (Steers reporting outcomes) effort ?_ ?_ hf
  · intro f f' hinv hstep
    exact ⟨hstep.steers hids hinv, hstep.effort_lt⟩
  · intro f hinv hnone
    exact hinv.landed hids hnone

end Fleet

end TimedStreams
