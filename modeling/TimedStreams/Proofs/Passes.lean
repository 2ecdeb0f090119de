import TimedStreams.Proofs.Replays

/-!
# One pass over a timeline

A replay sends two updates for each event of its timeline: the promise of its deadline, before it
sleeps towards it, and then the event. The outlet could raise the stamp of the event, and it sends no
promise that it has made before. Along a timeline it never has to raise anything, because the deadlines
do not decrease; and the only promises that it leaves out are those of a deadline that the event
before has already reached.

What a replay sends is therefore known in advance (`Stamped.score`), with the time of each update on
the exact clock. A `Pass` is a replay at work, beside a reader that reads when it likes. However far it
has come, what it has sent and what it owes make up the score (`Pass.Plays`).
-/

namespace TimedStreams

open Relation Stamped Update

/-! ### The order of a timeline -/

theorem filter_mergeSort_key {α : Type} (key : α → Int) (xs : List α) (k : Int) :
    ((xs.mergeSort fun a b => key a ≤ key b).filter fun a => key a = k) = xs.filter fun a => key a = k := by
  have htied : (xs.filter fun a => key a = k).Pairwise fun a b => decide (key a ≤ key b) = true := by
    refine List.pairwise_of_forall_mem_list fun a ha b hb => decide_eq_true ?_
    have ha := of_decide_eq_true (List.mem_filter.1 ha).2
    have hb := of_decide_eq_true (List.mem_filter.1 hb).2
    exact (ha.trans hb.symm).le
  have hkept : (xs.filter fun a => key a = k).Sublist (xs.mergeSort fun a b => key a ≤ key b) := by
    refine List.sublist_mergeSort (fun a b c hab hbc => ?_) (fun a b => ?_) htied List.filter_sublist
    · exact decide_eq_true ((of_decide_eq_true hab).trans (of_decide_eq_true hbc))
    · simpa using le_total (key a) (key b)
  have hfiltered := hkept.filter fun a => decide (key a = k)
  rw [List.filter_filter] at hfiltered
  simp only [Bool.and_self] at hfiltered
  exact (hfiltered.eq_of_length ((List.mergeSort_perm xs _).filter _).length_eq.symm).symm

namespace Event

/-- `sorted` holds the events of `given` in the total order of their times, and those of equal time in the
order in which they were given. -/
structure StablySorts (given sorted : List Event) : Prop where
  perm : sorted.Perm given
  ascending : sorted.Pairwise fun e f => Binary64.rank e.time ≤ Binary64.rank f.time
  stable : ∀ rank : Int,
    (sorted.filter fun e => Binary64.rank e.time = rank) = given.filter fun e => Binary64.rank e.time = rank

theorem stablySorts_mergeSort (given : List Event) : StablySorts given (given.mergeSort notAfter) where
  perm := List.mergeSort_perm given notAfter
  ascending := (Timeline.ofEvents given).sorted.imp of_decide_eq_true
  stable := filter_mergeSort_key (fun e => Binary64.rank e.time) given

end Event

theorem Timeline.stablySorts_of_read {given : List Event} {timeline : Timeline}
    (hread : ofFiniteEvents given = .ok timeline) : Event.StablySorts given timeline.events := by
  rw [ofFiniteEvents] at hread
  split at hread
  · cases hread
  · cases hread
    exact Event.stablySorts_mergeSort given

/-! ### What a pass sends -/

namespace Stamped

/-- What a replay sends when it wakes for `s`: the event, and the promise of the next deadline unless that is
the same. -/
def wakesWith (s : Stamped) (rest : List Stamped) : List Update :=
  .event s :: match rest with
    | [] => []
    | next :: _ => if next.stamp ≤ s.stamp then [] else [.progress next.stamp]

/-- What a replay that sleeps towards the first of these deadlines will send, and when. -/
def owed : List Stamped → List (Nat × Update)
  | [] => []
  | s :: rest => (s.wakesWith rest).map (s.stamp, ·) ++ owed rest

/-- All that the replay of an agenda sends, and when: it begins with the promise of the first deadline. -/
def score (agenda : List Stamped) : List (Nat × Update) :=
  (agenda.head?.map fun s => (0, .progress s.stamp)).toList ++ owed agenda

theorem map_snd_at (now : Nat) (us : List Update) : (us.map (now, ·)).map Prod.snd = us := by
  rw [List.map_map]
  exact List.map_id _

theorem stampedOf_wakesWith (s : Stamped) (rest : List Stamped) : stampedOf (s.wakesWith rest) = [s] := by
  cases rest with
  | nil => rfl
  | cons next rest =>
    rw [wakesWith, stampedOf_event]
    split <;> rfl

/-- Each event is sent once, with its own deadline as the stamp. -/
theorem stampedOf_owed (rest : List Stamped) : stampedOf ((owed rest).map Prod.snd) = rest := by
  induction rest with
  | nil => rfl
  | cons s rest ih =>
    rw [owed, List.map_append, map_snd_at, stampedOf_append, stampedOf_wakesWith, ih, List.singleton_append]

theorem stampedOf_score (agenda : List Stamped) : stampedOf ((score agenda).map Prod.snd) = agenda := by
  cases agenda with
  | nil => rfl
  | cons s rest => exact stampedOf_owed (s :: rest)

theorem eq_of_mem_owed {rest : List Stamped} {t : Nat} {s : Stamped} (hs : (t, .event s) ∈ owed rest) :
    t = s.stamp := by
  induction rest with
  | nil => cases hs
  | cons next rest ih =>
    rcases List.mem_append.1 hs with hs | hs
    · obtain ⟨u, hu, heq⟩ := List.mem_map.1 hs
      obtain ⟨rfl, rfl⟩ := Prod.mk.inj heq
      rw [← mem_stampedOf, stampedOf_wakesWith, List.mem_singleton] at hu
      rw [hu]
    · exact ih hs

theorem eq_of_mem_score {agenda : List Stamped} {t : Nat} {s : Stamped} (hs : (t, .event s) ∈ score agenda) :
    t = s.stamp := by
  rcases List.mem_append.1 hs with hs | hs
  · cases agenda <;> simp at hs
  · exact eq_of_mem_owed hs

end Stamped

namespace Signal

/-- A replay that sleeps towards the first of these deadlines, or has ended if there is none. -/
def sleeping (out : Outlet) : List Stamped → Signal
  | [] => ended out
  | s :: rest => replay out s rest

theorem outlet_sleeping (out : Outlet) (rest : List Stamped) : (sleeping out rest).outlet = out := by
  cases rest <;> rfl

theorem hasEnded_sleeping {out : Outlet} {rest : List Stamped} : (sleeping out rest).hasEnded = true ↔ rest = [] := by
  cases rest <;> simp [sleeping, hasEnded]

theorem nextWake_sleeping (out : Outlet) (rest : List Stamped) :
    (sleeping out rest).nextWake .exact = rest.head?.map Stamped.stamp := by
  cases rest <;> rfl

theorem exists_announce_start (agenda : List Stamped) :
    ∃ out, ofAgenda agenda = sleeping out agenda ∧ (∀ s ∈ agenda.head?, out.frontier = some s.stamp) ∧
      out.queue = (agenda.head?.map fun s => Update.progress s.stamp).toList := by
  cases agenda with
  | nil => exact ⟨{}, rfl, by simp, rfl⟩
  | cons s rest => exact ⟨_, rfl, by simp [Outlet.advance, covers], rfl⟩

/-- A replay that wakes at a deadline it has promised raises nothing, and has then promised the next. -/
theorem exists_announce_emit {out : Outlet} {s : Stamped} {rest : List Stamped} (hout : out.frontier = some s.stamp)
    (hrest : From s.stamp rest) :
    ∃ out', announce (out.emit s) rest = sleeping out' rest ∧ (∀ t ∈ rest.head?, out'.frontier = some t.stamp) ∧
      out'.queue = out.queue ++ s.wakesWith rest := by
  have hemit : out.emit s = ⟨out.queue ++ [.event s], some s.stamp⟩ := by
    simp [Outlet.emit, hout, raisedTo]
  cases rest with
  | nil => exact ⟨out.emit s, rfl, by simp, by rw [hemit]; rfl⟩
  | cons next rest =>
    refine ⟨(out.emit s).advance next.stamp, rfl, fun t ht => ?_, ?_⟩
    · obtain rfl := Option.some.inj ht
      have hle := hrest next (List.mem_cons_self ..)
      rw [hemit, Outlet.advance]
      split
      · next hcovers =>
        simp only [covers, Option.any_some, decide_eq_true_eq] at hcovers
        exact congrArg some (Nat.le_antisymm hle hcovers)
      · rfl
    · rw [hemit, Outlet.advance, wakesWith]
      by_cases hcovers : next.stamp ≤ s.stamp <;> simp [covers, hcovers]

end Signal

/-! ### A replay at work -/

structure Pass where
  now : Nat := 0
  signal : Signal
  /-- What the replay has sent, each update with the time at which it was sent. -/
  sent : List (Nat × Update)
  /-- What the reader has read. -/
  heard : List Update := []

namespace Pass

def start (signal : Signal) : Pass :=
  { signal, sent := signal.outlet.queue.map (0, ·) }

/-- The replay wakes, or the reader reads an update. -/
inductive Acts : Pass → Pass → Prop
  | wake {now : Nat} {signal signal' : Signal} {sent : List (Nat × Update)} {heard new : List Update}
      (hstep : signal.Step (· ≤ now) signal') (hnew : signal'.outlet.queue = signal.outlet.queue ++ new) :
      Acts ⟨now, signal, sent, heard⟩ ⟨now, signal', sent ++ new.map (now, ·), heard⟩
  | read {now : Nat} {signal signal' : Signal} {sent : List (Nat × Update)} {heard : List Update} {u : Update}
      (hreads : signal.Reads (some u) signal') : Acts ⟨now, signal, sent, heard⟩ ⟨now, signal', sent, heard ++ [u]⟩

/-- On a late clock any time may pass between two acts. -/
inductive LateMoves : Pass → Pass → Prop
  | now {p p' : Pass} (hacts : p.Acts p') : LateMoves p p'
  | pass {p : Pass} {later : Nat} (hlater : p.now ≤ later) : LateMoves p { p with now := later }

/-- On the exact clock time passes no further than the deadline towards which the replay sleeps. -/
inductive ExactMoves : Pass → Pass → Prop
  | now {p p' : Pass} (hacts : p.Acts p') : ExactMoves p p'
  | pass {p : Pass} {later : Nat} (hlater : p.now ≤ later)
      (hnext : ∀ wake, p.signal.nextWake .exact = some wake → later ≤ wake) : ExactMoves p { p with now := later }

/-- The replay of `agenda` has sent the events of `done`, stamped with their deadlines and none early, and sleeps
towards the first deadline of `rest`, which it has promised. -/
structure Plays (agenda done rest : List Stamped) (p : Pass) : Prop where
  agenda_eq : agenda = done ++ rest
  sleeps : ∃ out, p.signal = Signal.sleeping out rest ∧ ∀ s ∈ rest.head?, out.frontier = some s.stamp
  sent_eq : (p.sent ++ owed rest).map Prod.snd = (score agenda).map Prod.snd
  heard_eq : p.sent.map Prod.snd = p.heard ++ p.signal.outlet.queue
  woken : UpTo p.now done
  not_early : ∀ t s, (t, Update.event s) ∈ p.sent → s.stamp ≤ t

variable {agenda done rest : List Stamped} {p p' : Pass}

theorem plays_start (agenda : List Stamped) : Plays agenda [] agenda (start (.ofAgenda agenda)) := by
  obtain ⟨out, hsignal, hpromised, hqueue⟩ := Signal.exists_announce_start agenda
  have hout : (Signal.ofAgenda agenda).outlet.queue = out.queue := by rw [hsignal, Signal.outlet_sleeping]
  have hsent : (start (.ofAgenda agenda)).sent.map Prod.snd = out.queue := by
    rw [start, hout, map_snd_at]
  refine ⟨rfl, ⟨out, hsignal, hpromised⟩, ?_, ?_, upTo_nil _, ?_⟩
  · rw [List.map_append, hsent, hqueue, score, List.map_append]
    cases agenda <;> rfl
  · exact hsent.trans hout.symm
  · intro t s hs
    simp only [start, hout, hqueue] at hs
    cases agenda <;> simp at hs

theorem Plays.wake {now : Nat} {signal signal' : Signal} {sent : List (Nat × Update)} {heard new : List Update}
    (hagenda : Ascending agenda) (hplays : Plays agenda done rest ⟨now, signal, sent, heard⟩)
    (hstep : signal.Step (· ≤ now) signal') (hnew : signal'.outlet.queue = signal.outlet.queue ++ new) :
    ∃ s rest', rest = s :: rest' ∧ s.stamp ≤ now ∧ new = s.wakesWith rest' ∧
      Plays agenda (done ++ [s]) rest' ⟨now, signal', sent ++ new.map (now, ·), heard⟩ := by
  obtain ⟨hsplit, ⟨out, rfl, hpromised⟩, hsent, hheard, hwoken, hearly⟩ := hplays
  cases rest with
  | nil => cases hstep
  | cons s rest =>
    cases hstep with
    | wake hdue =>
      rw [hsplit, ascending_append, ascending_cons] at hagenda
      obtain ⟨out', hannounce, hpromised', hqueue⟩ :=
        Signal.exists_announce_emit (hpromised s rfl) hagenda.2.1.1
      obtain rfl : new = s.wakesWith rest := by
        rw [hannounce, Signal.outlet_sleeping, hqueue] at hnew
        exact (List.append_cancel_left hnew).symm
      refine ⟨s, rest, rfl, hdue, rfl, ?_, ⟨out', hannounce, hpromised'⟩, ?_, ?_, ?_, ?_⟩
      · rw [hsplit, List.append_assoc, List.singleton_append]
      · rw [← hsent]
        simp only [owed, List.map_append, map_snd_at, List.append_assoc]
      · simp only [List.map_append, map_snd_at, hnew, ← List.append_assoc]
        exact congrArg (· ++ s.wakesWith rest) hheard
      · exact upTo_append.2 ⟨hwoken, by simpa using hdue⟩
      · intro t s' hs'
        rcases List.mem_append.1 hs' with hs' | hs'
        · exact hearly t s' hs'
        · obtain ⟨u, hu, heq⟩ := List.mem_map.1 hs'
          obtain ⟨rfl, rfl⟩ := Prod.mk.inj heq
          rw [← mem_stampedOf, stampedOf_wakesWith, List.mem_singleton] at hu
          exact hu ▸ hdue

theorem Plays.read {now : Nat} {signal signal' : Signal} {sent : List (Nat × Update)} {heard : List Update} {u : Update}
    (hplays : Plays agenda done rest ⟨now, signal, sent, heard⟩) (hreads : signal.Reads (some u) signal') :
    Plays agenda done rest ⟨now, signal', sent, heard ++ [u]⟩ := by
  obtain ⟨hsplit, ⟨out, rfl, hpromised⟩, hsent, hheard, hwoken, hearly⟩ := hplays
  cases hreads with
  | @update _ queue hqueue =>
    have hleft : (Signal.sleeping out rest).withQueue queue = Signal.sleeping { out with queue } rest := by
      cases rest <;> rfl
    refine ⟨hsplit, ⟨{ out with queue }, hleft, hpromised⟩, hsent, ?_, hwoken, hearly⟩
    rw [hleft, Signal.outlet_sleeping, List.append_assoc, List.singleton_append, ← hqueue]
    exact hheard

theorem Plays.pass {later : Nat} (hplays : Plays agenda done rest p) (hlater : p.now ≤ later) :
    Plays agenda done rest { p with now := later } :=
  { hplays with woken := hplays.woken.mono hlater }

/-- However late a replay wakes, it sends the score, with all stamps as they are. -/
theorem plays_of_run (hagenda : Ascending agenda) (hrun : ReflTransGen LateMoves (start (.ofAgenda agenda)) p) :
    ∃ done rest, Plays agenda done rest p := by
  induction hrun with
  | refl => exact ⟨[], agenda, plays_start agenda⟩
  | tail _ hmoves ih =>
    obtain ⟨done, rest, hplays⟩ := ih
    cases hmoves with
    | pass hlater => exact ⟨done, rest, hplays.pass hlater⟩
    | now hacts =>
      cases hacts with
      | read hreads => exact ⟨done, rest, hplays.read hreads⟩
      | wake hstep hnew =>
        obtain ⟨s, rest', -, -, -, hplays'⟩ := hplays.wake hagenda hstep hnew
        exact ⟨_, _, hplays'⟩

/-- On the exact clock the score is sent to the instant. -/
structure PlaysOnTime (agenda done rest : List Stamped) (p : Pass) : Prop extends Plays agenda done rest p where
  on_time : p.sent ++ owed rest = score agenda
  not_past : ∀ s ∈ rest.head?, p.now ≤ s.stamp

theorem playsOnTime_start (agenda : List Stamped) : PlaysOnTime agenda [] agenda (start (.ofAgenda agenda)) := by
  obtain ⟨out, hsignal, -, hqueue⟩ := Signal.exists_announce_start agenda
  refine ⟨plays_start agenda, ?_, fun s _ => Nat.zero_le _⟩
  rw [start, hsignal, Signal.outlet_sleeping, hqueue, score]
  cases agenda <;> rfl

/-- On the exact clock a replay wakes neither before the next deadline nor after it. -/
theorem PlaysOnTime.wake {now : Nat} {signal signal' : Signal} {sent : List (Nat × Update)} {heard new : List Update}
    (hagenda : Ascending agenda) (hplays : PlaysOnTime agenda done rest ⟨now, signal, sent, heard⟩)
    (hstep : signal.Step (· ≤ now) signal') (hnew : signal'.outlet.queue = signal.outlet.queue ++ new) :
    ∃ s rest', rest = s :: rest' ∧
      PlaysOnTime agenda (done ++ [s]) rest' ⟨now, signal', sent ++ new.map (now, ·), heard⟩ := by
  obtain ⟨hplays, htime, hpast⟩ := hplays
  obtain ⟨s, rest', rfl, hdue, rfl, hplays'⟩ := hplays.wake hagenda hstep hnew
  obtain rfl : now = s.stamp := Nat.le_antisymm (hpast s rfl) hdue
  refine ⟨s, rest', rfl, hplays', ?_, fun next hnext => ?_⟩
  · rw [← htime, owed, List.append_assoc]
  · rw [hplays.agenda_eq, ascending_append, ascending_cons] at hagenda
    exact hagenda.2.1.1 next (List.mem_of_mem_head? hnext)

theorem PlaysOnTime.pass {later : Nat} (hplays : PlaysOnTime agenda done rest p) (hlater : p.now ≤ later)
    (hnext : ∀ wake, p.signal.nextWake .exact = some wake → later ≤ wake) :
    PlaysOnTime agenda done rest { p with now := later } := by
  refine ⟨hplays.toPlays.pass hlater, hplays.on_time, fun s hs => hnext s.stamp ?_⟩
  obtain ⟨out, hsignal, -⟩ := hplays.sleeps
  rw [hsignal, Signal.nextWake_sleeping, Option.mem_def.1 hs]
  rfl

theorem playsOnTime_of_run (hagenda : Ascending agenda) (hrun : ReflTransGen ExactMoves (start (.ofAgenda agenda)) p) :
    ∃ done rest, PlaysOnTime agenda done rest p := by
  induction hrun with
  | refl => exact ⟨[], agenda, playsOnTime_start agenda⟩
  | tail _ hmoves ih =>
    obtain ⟨done, rest, hplays⟩ := ih
    cases hmoves with
    | pass hlater hnext => exact ⟨done, rest, hplays.pass hlater hnext⟩
    | now hacts =>
      cases hacts with
      | read hreads => exact ⟨done, rest, hplays.toPlays.read hreads, hplays.on_time, hplays.not_past⟩
      | wake hstep hnew =>
        obtain ⟨s, rest', -, hplays'⟩ := hplays.wake hagenda hstep hnew
        exact ⟨_, _, hplays'⟩

theorem PlaysOnTime.exists_end (hagenda : Ascending agenda) (hplays : PlaysOnTime agenda done rest p) :
    ∃ p', ReflTransGen ExactMoves p p' ∧ PlaysOnTime agenda agenda [] p' := by
  induction rest generalizing done p with
  | nil =>
    have hdone : agenda = done := hplays.agenda_eq.trans (List.append_nil done)
    exact ⟨p, .refl, hdone ▸ hplays⟩
  | cons s rest ih =>
    have hnext : ∀ wake, p.signal.nextWake .exact = some wake → s.stamp ≤ wake := by
      obtain ⟨out, hsignal, -⟩ := hplays.sleeps
      rw [hsignal, Signal.nextWake_sleeping]
      rintro wake ⟨⟩
      exact le_rfl
    -- Time passes to the next deadline, and there the replay can wake.
    have hdue := hplays.pass (hplays.not_past s rfl) hnext
    have hpass : p.ExactMoves { p with now := s.stamp } := .pass (hplays.not_past s rfl) hnext
    obtain ⟨now, signal, sent, heard⟩ := p
    obtain ⟨out, rfl, hpromised⟩ := hdue.sleeps
    have hfrom : From s.stamp rest := by
      rw [hdue.agenda_eq, ascending_append, ascending_cons] at hagenda
      exact hagenda.2.1.1
    obtain ⟨out', hannounce, -, hqueue⟩ := Signal.exists_announce_emit (hpromised s rfl) hfrom
    have hstep : (Signal.sleeping out (s :: rest)).Step (· ≤ s.stamp) (Signal.announce (out.emit s) rest) :=
      .wake le_rfl
    have hnew : (Signal.announce (out.emit s) rest).outlet.queue
        = (Signal.sleeping out (s :: rest)).outlet.queue ++ s.wakesWith rest := by
      rw [hannounce, Signal.outlet_sleeping, hqueue]
      rfl
    obtain ⟨s', rest', hsame, hwoken⟩ := hdue.wake hagenda hstep hnew
    obtain ⟨rfl, rfl⟩ := List.cons.inj hsame
    obtain ⟨p', hrun, hend⟩ := ih hwoken
    exact ⟨p', .head hpass (.head (.now (.wake hstep hnew)) hrun), hend⟩

/-- A replay that cannot wake has sent all that is due. -/
theorem Plays.done_eq_of_idle (hagenda : Ascending agenda) (hplays : Plays agenda done rest p)
    (hidle : p.signal.Idle (· ≤ p.now)) : done = agenda.filter (·.stamp ≤ p.now) := by
  obtain ⟨out, hsignal, -⟩ := hplays.sleeps
  -- The next deadline has not passed, or the replay could wake; those after it are no earlier.
  have hahead : ∀ s ∈ rest, p.now < s.stamp := by
    intro s hs
    cases hrest : rest with
    | nil => simp [hrest] at hs
    | cons next rest' =>
      subst hrest
      rw [hplays.agenda_eq, ascending_append, ascending_cons] at hagenda
      have hnext : p.now < next.stamp := by
        refine Nat.lt_of_not_le fun hdue => hidle (Signal.announce (out.emit next) rest') ?_
        rw [hsignal]
        exact .wake hdue
      rcases List.mem_cons.1 hs with rfl | hs
      · exact hnext
      · exact hnext.trans_le (hagenda.2.1.1 s hs)
  rw [hplays.agenda_eq, List.filter_append, List.filter_eq_self.2, List.filter_eq_nil_iff.2, List.append_nil]
  · exact fun s hs => by simpa using hahead s hs
  · exact fun s hs => by simpa using hplays.woken s hs

theorem Plays.hasEnded_iff (hplays : Plays agenda done rest p) : p.signal.hasEnded = true ↔ rest = [] := by
  obtain ⟨out, hsignal, -⟩ := hplays.sleeps
  rw [hsignal, Signal.hasEnded_sleeping]

theorem Plays.stampedOf_sent (hplays : Plays agenda done rest p) : stampedOf (p.sent.map Prod.snd) = done := by
  have hsent := congrArg stampedOf hplays.sent_eq
  rw [List.map_append, stampedOf_append, stampedOf_owed, stampedOf_score, hplays.agenda_eq] at hsent
  exact List.append_cancel_right hsent

end Pass

/-! ### The leaves of an accepted context -/

def Input.select {α : Type} (source : Input) (first second : α) : α :=
  match source with
  | .first => first
  | .second => second

namespace Context

theorem Accepted.deadline?_eq {context : Context} (haccepted : context.Accepted) {source : Input} {s : Stamped}
    (hs : s ∈ (context.timeline source).schedule context.speed) :
    Timeline.deadline? s.event.time context.speed = some s.stamp ∧
      (Binary64.isNegative s.event.time = true → s.stamp = 0) := by
  obtain ⟨e, he, rfl⟩ := List.mem_map.1 hs
  obtain ⟨due, hdue⟩ := Option.isSome_iff_exists.1 (Timeline.isSome_deadline? (haccepted.check source) he)
  rw [hdue, Option.getD_some]
  refine ⟨rfl, fun hnegative => ?_⟩
  obtain ⟨m, k, hm, hunpack⟩ := Binary64.unpack_of_factor haccepted.speed
  have horigin := Instant.ofSeconds?_of_isNegative
    (Binary64.isNegative_div (haccepted.isFinite source he) hnegative hunpack)
  exact Option.some.inj (hdue.symm.trans horigin)

/-- Every event of a leaf carries its own deadline. The timelines of a context are the given events, stably sorted
by time, and their deadlines, the origin for times with a minus sign, do not decrease along them. A replay
sends the score of these deadlines and nothing else, with no stamp raised, however late it wakes. On the exact clock
each event is sent at the instant with which it is stamped, and the replay can always go on to its end. -/
theorem leaf_deadlines {first second : List Event} {speed : Float} {context : Context}
    (hmake : make first second speed = .ok context) (source : Input) :
    let timeline := context.timeline source
    let agenda := timeline.schedule speed
    let start := Pass.start (context.signal (.input source))
    Event.StablySorts (source.select first second) timeline.events ∧
      (agenda.map Stamped.event = timeline.events ∧ Ascending agenda ∧ ∀ s ∈ agenda,
        Timeline.deadline? s.event.time speed = some s.stamp ∧
          (Binary64.isNegative s.event.time = true → s.stamp = 0)) ∧
      (∀ p, ReflTransGen Pass.LateMoves start p → ∃ done rest,
        p.Plays agenda done rest ∧ stampedOf (p.sent.map Prod.snd) = done ∧ (p.signal.hasEnded = true ↔ rest = []) ∧
          (p.signal.Idle (· ≤ p.now) → done = agenda.filter (·.stamp ≤ p.now))) ∧
      ∀ p, ReflTransGen Pass.ExactMoves start p →
        (∃ done rest, p.PlaysOnTime agenda done rest) ∧ (∀ t s, (t, .event s) ∈ p.sent → t = s.stamp) ∧
          ∃ p', ReflTransGen Pass.ExactMoves p p' ∧ p'.signal.hasEnded = true ∧ p'.sent = score agenda := by
  intro timeline agenda start
  have haccepted : context.Accepted := ⟨first, second, speed, hmake⟩
  obtain ⟨rfl, -, ⟨hfirst, hsecond⟩, -⟩ := make_eq_ok_iff.1 hmake
  have hagenda : Ascending agenda := haccepted.ascending_schedule source
  have hstart : start = Pass.start (.ofAgenda agenda) :=
    congrArg (fun agenda => Pass.start (.ofAgenda agenda)) (haccepted.agenda_eq source)
  refine ⟨?_, ⟨Timeline.map_event_schedule .., hagenda, fun s => haccepted.deadline?_eq⟩, fun p hrun => ?_,
    fun p hrun => ?_⟩
  · cases source with
    | first => exact Timeline.stablySorts_of_read hfirst
    | second => exact Timeline.stablySorts_of_read hsecond
  · obtain ⟨done, rest, hplays⟩ := Pass.plays_of_run hagenda (hstart ▸ hrun)
    exact ⟨done, rest, hplays, hplays.stampedOf_sent, hplays.hasEnded_iff, hplays.done_eq_of_idle hagenda⟩
  · obtain ⟨done, rest, hplays⟩ := Pass.playsOnTime_of_run hagenda (hstart ▸ hrun)
    refine ⟨⟨done, rest, hplays⟩, fun t s hs => ?_, ?_⟩
    · exact eq_of_mem_score (hplays.on_time ▸ List.mem_append_left _ hs)
    · obtain ⟨p', hrun', hend⟩ := hplays.exists_end hagenda
      exact ⟨p', hrun', hend.hasEnded_iff.2 rfl, (List.append_nil _).symm.trans hend.on_time⟩

/-- Three events out of order: two are due at once, and one before the origin. -/
def rehearsed : Context where
  first := Timeline.ofEvents [.tick 1 2.5, .tick 2 (-3.0), .tick 3 2.5]
  second := Timeline.ofEvents []
  speed := 1.0

/-- The event of negative time is sent at the origin, and a deadline that two events share is promised once. -/
theorem leaf_deadlines_rehearsed :
    make [.tick 1 2.5, .tick 2 (-3.0), .tick 3 2.5] [] 1.0 = .ok rehearsed ∧
      ∃ p, ReflTransGen Pass.ExactMoves (.start (rehearsed.signal (.input .first))) p ∧ p.signal.hasEnded = true ∧
        p.sent = [(0, .progress 0), (0, .event ⟨.tick 2 (-3.0), 0⟩), (0, .progress 2500000000),
          (2500000000, .event ⟨.tick 1 2.5, 2500000000⟩), (2500000000, .event ⟨.tick 3 2.5, 2500000000⟩)] := by
  have hsorted : rehearsed.first.events = [.tick 2 (-3.0), .tick 1 2.5, .tick 3 2.5] := by
    have hneg : (Event.tick 1 2.5).notAfter (.tick 2 (-3.0)) = false := by decide +kernel
    have hlate : (Event.tick 2 (-3.0)).notAfter (.tick 3 2.5) = true := by decide +kernel
    have htie : (Event.tick 1 2.5).notAfter (.tick 3 2.5) = true := by decide +kernel
    simp [rehearsed, Timeline.ofEvents, List.mergeSort, List.MergeSort.Internal.splitInTwo, hneg, hlate, htie]
  have hfirst : Timeline.ofFiniteEvents [.tick 1 2.5, .tick 2 (-3.0), .tick 3 2.5] = .ok rehearsed.first := by
    have hfinite : [Event.tick 1 2.5, .tick 2 (-3.0), .tick 3 2.5].find? (fun e => !e.time.isFinite) = none := by
      decide +kernel
    rw [Timeline.ofFiniteEvents, hfinite]
    rfl
  have hcheck : rehearsed.first.check 1.0 = .ok () := by
    rw [Timeline.check_eq_ok_iff_forall, hsorted]
    decide +kernel
  have hcheck' : rehearsed.second.check 1.0 = .ok () := by
    simp [Timeline.check_eq_ok_iff_forall, rehearsed, Timeline.ofEvents]
  have hmake : make [.tick 1 2.5, .tick 2 (-3.0), .tick 3 2.5] [] 1.0 = .ok rehearsed :=
    make_eq_ok_iff.2 ⟨rfl, rfl, ⟨hfirst, rfl⟩, hcheck, hcheck'⟩
  obtain ⟨-, -, -, hexact⟩ := leaf_deadlines hmake .first
  obtain ⟨-, -, p, hrun, hended, hsent⟩ := hexact _ .refl
  refine ⟨hmake, p, hrun, hended, hsent.trans ?_⟩
  rw [timeline, Timeline.schedule, hsorted]
  decide +kernel

end Context

end TimedStreams
