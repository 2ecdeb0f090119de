import TimedStreams.Proofs.Promises

/-!
# What a producer leaves on its channel

A producer writes to its signal by three kinds of calls: it sends an event, it announces progress, or it
passes on an update of another signal. All three share the frontier of the outlet, and after any calls
that frontier is the maximum of the instants that were asked for, those of skipped announcements
included. So what a call leaves on the channel is known from the calls before it (`Call.leaves`), and
the channel carries the leavings of all calls in their order, whatever its consumer has read in between
(`Channel.Follows`). That stamps never decrease, and that an announcement is later than everything in
front of it, is then a fact about such leavings (`Call.pairwise_transcript`).
-/

namespace TimedStreams

open Update

/-! ### Maxima of stamps -/

namespace Outlet

variable {stamps : List Nat} {stamp other : Nat}

theorem raisedTo_max? (stamps : List Nat) (stamp : Nat) : raisedTo stamps.max? stamp = stamps.foldl max stamp := by
  cases stamps with
  | nil => rfl
  | cons first rest =>
    rw [List.max?_cons', raisedTo, Option.elim_some, List.foldl_cons, List.foldl_assoc, max_comm]

theorem max?_concat (stamps : List Nat) (stamp : Nat) : (stamps ++ [stamp]).max? = some (stamps.foldl max stamp) := by
  rw [← raisedTo_max?]
  cases stamps with
  | nil => rfl
  | cons first rest =>
    rw [List.cons_append, List.max?_cons', List.foldl_append, List.max?_cons']
    rfl

theorem foldl_max_mem (stamps : List Nat) (stamp : Nat) : stamps.foldl max stamp ∈ stamps ++ [stamp] :=
  List.max?_mem (max?_concat stamps stamp)

theorem le_foldl_max (hother : other ∈ stamps ++ [stamp]) : other ≤ stamps.foldl max stamp :=
  (List.max?_le_iff (max?_concat stamps stamp)).1 (Nat.le_refl _) other hother

theorem covers_max?_eq_false : covers stamps.max? stamp = false ↔ ∀ other ∈ stamps, other < stamp := by
  cases hmax : stamps.max? with
  | none => simp [covers, List.max?_eq_none_iff.1 hmax]
  | some top =>
    have hmem : top ∈ stamps := List.max?_mem hmax
    have hle : ∀ other ∈ stamps, other ≤ top := (List.max?_le_iff hmax).1 (Nat.le_refl top)
    rw [covers, Option.any_some, decide_eq_false_iff_not, Nat.not_le]
    exact ⟨fun hlt other hother => (hle other hother).trans_lt hlt, fun hlt => hlt top hmem⟩

end Outlet

/-! ### Calls -/

/-- What a producer does to the outlet of its signal. -/
inductive Call where
  | emit (s : Stamped)
  | advance (stamp : Nat)
  /-- Passes on an update of another signal. -/
  | forward (update : Update)
  deriving DecidableEq, Repr

namespace Call

def perform : Call → Outlet → Outlet
  | emit s, out => out.emit s
  | advance stamp, out => out.advance stamp
  | forward update, out => out.send update

def asked : Call → Update
  | emit s => .event s
  | advance stamp => .progress stamp
  | forward update => update

def stamp (c : Call) : Nat :=
  c.asked.stamp

def event? (c : Call) : Option Event :=
  match c.asked with
  | .event s => some s.event
  | .progress _ => none

/-- What the call leaves on the channel after some calls: an event with the maximum of all stamps asked for so far,
progress only if it exceeds all stamps asked for before. -/
def leaves (earlier : List Call) (c : Call) : List Update :=
  match c.asked with
  | .event s => [.event { s with stamp := (earlier.map stamp).foldl max s.stamp }]
  | .progress instant => if ∀ other ∈ earlier, other.stamp < instant then [.progress instant] else []

/-- What calls leave on the channel after some earlier ones. -/
def transcript (earlier : List Call) : List Call → List Update
  | [] => []
  | c :: rest => c.leaves earlier ++ transcript (earlier ++ [c]) rest

variable {c other : Call} {earlier calls : List Call} {u : Update}

theorem perform_eq_send (c : Call) (out : Outlet) : c.perform out = out.send c.asked := by
  cases c <;> rfl

theorem transcript_append (earlier before after : List Call) :
    transcript earlier (before ++ after) = transcript earlier before ++ transcript (earlier ++ before) after := by
  induction before generalizing earlier with
  | nil => simp [transcript]
  | cons c rest ih => simp [transcript, ih]

theorem transcript_concat (calls : List Call) (c : Call) :
    transcript [] (calls ++ [c]) = transcript [] calls ++ c.leaves calls := by
  simp [transcript_append, transcript]

theorem events_transcript (earlier calls : List Call) :
    (stampedOf (transcript earlier calls)).map Stamped.event = calls.filterMap event? := by
  induction calls generalizing earlier with
  | nil => rfl
  | cons c rest ih =>
    rw [transcript, stampedOf_append, List.map_append, ih, leaves]
    cases hasked : c.asked with
    | event s => simp [event?, hasked]
    | progress instant =>
      rw [List.filterMap_cons_none (by simp [event?, hasked])]
      dsimp only
      split <;> simp

theorem exists_stamp_of_mem_leaves (hu : u ∈ c.leaves earlier) : ∃ other ∈ earlier ++ [c], other.stamp = u.stamp := by
  rw [leaves] at hu
  cases hasked : c.asked with
  | event s =>
    obtain rfl := List.mem_singleton.1 (hasked ▸ hu)
    have hstamp : c.stamp = s.stamp := by rw [stamp, hasked]; rfl
    have hmem := Outlet.foldl_max_mem (earlier.map stamp) s.stamp
    rw [← hstamp, ← List.map_singleton, ← List.map_append] at hmem
    simpa [Update.stamp, hstamp] using List.mem_map.1 hmem
  | progress instant =>
    simp only [hasked] at hu
    split at hu
    · obtain rfl := List.mem_singleton.1 hu
      exact ⟨c, List.mem_append_right _ List.mem_cons_self, by rw [stamp, hasked]⟩
    · cases hu

theorem exists_stamp_of_mem_transcript (hu : u ∈ transcript [] calls) : ∃ other ∈ calls, other.stamp = u.stamp := by
  induction calls using List.reverseRecOn with
  | nil => cases hu
  | append_singleton calls c ih =>
    rw [transcript_concat] at hu
    rcases List.mem_append.1 hu with hu | hu
    · obtain ⟨other, hother, hstamp⟩ := ih hu
      exact ⟨other, List.mem_append_left _ hother, hstamp⟩
    · exact exists_stamp_of_mem_leaves hu

/-- What a call leaves is not stamped before any earlier call, and an announcement is later than all of them. -/
theorem le_of_mem_leaves (hu : u ∈ c.leaves earlier) (hother : other ∈ earlier) :
    other.stamp ≤ u.stamp ∧ ∀ instant, u = .progress instant → other.stamp < instant := by
  rw [leaves] at hu
  cases hasked : c.asked with
  | event s =>
    obtain rfl := List.mem_singleton.1 (hasked ▸ hu)
    exact ⟨Outlet.le_foldl_max (List.mem_append_left _ (List.mem_map_of_mem hother)), by simp⟩
  | progress instant =>
    simp only [hasked] at hu
    split at hu
    · next hlt =>
      obtain rfl := List.mem_singleton.1 hu
      refine ⟨(hlt other hother).le, fun instant' heq => ?_⟩
      obtain rfl := Update.progress.inj heq
      exact hlt other hother
    · cases hu

theorem length_leaves_le (earlier : List Call) (c : Call) : (c.leaves earlier).length ≤ 1 := by
  rw [leaves]
  cases c.asked with
  | event s => exact Nat.le_refl _
  | progress instant =>
    dsimp only
    split <;> simp

/-- Stamps never decrease, and an announcement is later than everything in front of it. -/
theorem pairwise_transcript (calls : List Call) : (transcript [] calls).Pairwise fun u v =>
    u.stamp ≤ v.stamp ∧ ∀ instant, v = .progress instant → u.stamp < instant := by
  induction calls using List.reverseRecOn with
  | nil => exact .nil
  | append_singleton calls c ih =>
    rw [transcript_concat]
    refine List.pairwise_append.2 ⟨ih, ?_, fun u hu v hv => ?_⟩
    · rcases hleaves : c.leaves calls with _ | ⟨u, _ | ⟨v, rest⟩⟩
      · exact .nil
      · exact List.pairwise_singleton _ _
      · exact absurd (length_leaves_le calls c) (by simp [hleaves])
    · obtain ⟨other, hother, hstamp⟩ := exists_stamp_of_mem_transcript hu
      rw [← hstamp]
      exact le_of_mem_leaves hv hother

end Call

/-! ### Channels -/

/-- A channel with what its consumer has received from it. -/
structure Channel where
  received : List Update := []
  outlet : Outlet := {}

namespace Channel

/-- What may happen at the two ends of a channel. -/
inductive Act where
  | call (c : Call)
  /-- The consumer receives the oldest update, if there is one. -/
  | receive

def Act.call? : Act → Option Call
  | call c => some c
  | receive => none

def act (ch : Channel) : Act → Channel
  | .call c => { ch with outlet := c.perform ch.outlet }
  | .receive =>
    match ch.outlet.queue with
    | [] => ch
    | u :: rest => { received := ch.received ++ [u], outlet := { ch.outlet with queue := rest } }

def run (acts : List Act) : Channel :=
  acts.foldl act {}

/-- All updates that were ever sent, the oldest first. -/
def carried (ch : Channel) : List Update :=
  ch.received ++ ch.outlet.queue

/-- The channel carries what the calls leave, and its frontier is the maximum of what they asked for. -/
structure Follows (ch : Channel) (calls : List Call) : Prop where
  carried_eq : ch.carried = Call.transcript [] calls
  frontier_eq : ch.outlet.frontier = (calls.map Call.stamp).max?

variable {ch : Channel} {calls : List Call}

theorem follows_start : ({} : Channel).Follows [] :=
  ⟨rfl, rfl⟩

theorem Follows.call (hch : ch.Follows calls) (c : Call) : (ch.act (.call c)).Follows (calls ++ [c]) where
  carried_eq := by
    have hqueue : (c.perform ch.outlet).queue = ch.outlet.queue ++ c.leaves calls := by
      rw [c.perform_eq_send, Call.leaves]
      cases hasked : c.asked with
      | event s => simp only [Outlet.send, Outlet.emit, hch.frontier_eq, Outlet.raisedTo_max?]
      | progress instant =>
        have hcovers : covers ch.outlet.frontier instant = false ↔ ∀ other ∈ calls, other.stamp < instant := by
          rw [hch.frontier_eq, Outlet.covers_max?_eq_false, List.forall_mem_map]
        simp only [Outlet.send, Outlet.advance, ← hcovers]
        cases covers ch.outlet.frontier instant <;> simp
    rw [Call.transcript_concat, ← hch.carried_eq, carried, carried, act, hqueue, List.append_assoc]
  frontier_eq := by
    rw [act, c.perform_eq_send, Outlet.frontier_send_eq, hch.frontier_eq, List.map_append, List.map_singleton,
      Outlet.max?_concat, Outlet.raisedTo_max?]
    rfl

/-- Reading takes nothing from what the channel has carried. -/
theorem Follows.receive (hch : ch.Follows calls) : (ch.act .receive).Follows calls := by
  cases hqueue : ch.outlet.queue with
  | nil => simpa only [act, hqueue] using hch
  | cons u rest =>
    refine ⟨?_, by simpa only [act, hqueue] using hch.frontier_eq⟩
    rw [← hch.carried_eq, carried, carried, act, hqueue]
    simp

theorem follows_run (acts : List Act) : (run acts).Follows (acts.filterMap Act.call?) := by
  induction acts using List.reverseRecOn with
  | nil => exact follows_start
  | append_singleton acts last ih =>
    rw [run, List.foldl_append, List.filterMap_append]
    cases last with
    | call c => exact ih.call c
    | receive => exact (List.append_nil (acts.filterMap Act.call?)).symm ▸ ih.receive

/-- However the calls of a producer and the reads of its consumer follow one another, the channel carries every event
once and in order, raised to the maximum of all that was asked for so far, and an announcement exactly if it exceeds all
that was asked for before. Stamps never decrease, an announcement is later than all in front of it, and no event behind
it is earlier. -/
theorem carried_run (acts : List Act) :
    (run acts).carried = Call.transcript [] (acts.filterMap Act.call?) ∧
      (stampedOf (run acts).carried).map Stamped.event = (acts.filterMap Act.call?).filterMap Call.event? ∧
      ((run acts).carried.Pairwise fun u v => u.stamp ≤ v.stamp) ∧
      ∀ before instant after, (run acts).carried = before ++ .progress instant :: after →
        (∀ u ∈ before, u.stamp < instant) ∧ ∀ s, .event s ∈ after → instant ≤ s.stamp := by
  have hcarried := (follows_run acts).carried_eq
  have hordered := Call.pairwise_transcript (acts.filterMap Act.call?)
  rw [hcarried]
  refine ⟨rfl, Call.events_transcript _ _, hordered.imp And.left, fun before instant after hsplit => ?_⟩
  rw [hsplit] at hordered
  obtain ⟨-, hbehind, hfront⟩ := List.pairwise_append.1 hordered
  refine ⟨fun u hu => (hfront u hu _ List.mem_cons_self).2 instant rfl, fun s hs => ?_⟩
  exact ((List.pairwise_cons.1 hbehind).1 _ hs).1

/-- Two announcements, of which the second is skipped, and an event passed on from before both. -/
def late : List Act :=
  [.call (.emit ⟨.tick 1 0, 4⟩), .call (.advance 9), .receive, .call (.advance 3),
    .call (.forward (.event ⟨.tick 2 0, 2⟩)), .call (.forward (.progress 9))]

/-- The late event is raised to the announcement that was sent, and what is in front of that is earlier. -/
theorem carried_run_late :
    (run late).carried = [.event ⟨.tick 1 0, 4⟩, .progress 9, .event ⟨.tick 2 0, 9⟩] ∧
      ∀ u ∈ [Update.event ⟨.tick 1 0, 4⟩], u.stamp < 9 := by
  obtain ⟨htranscript, -, -, hannounced⟩ := carried_run late
  have hcarried : (run late).carried = [.event ⟨.tick 1 0, 4⟩, .progress 9, .event ⟨.tick 2 0, 9⟩] :=
    htranscript.trans (by decide +kernel)
  exact ⟨hcarried, (hannounced _ 9 _ hcarried).1⟩

end Channel

end TimedStreams
