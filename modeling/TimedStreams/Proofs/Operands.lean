import TimedStreams.Proofs.Updates

/-!
# Two operands and what they still bring

What an operand holds says something about all that is still to arrive from it. `Operand.Awaits o
later` ties the record of an operand to the events `later` that it has not received: together with
the events kept they are ascending, none is stamped before what has been received, and there are
none once the operand has closed. From this the horizon of an operand is a bound on everything it
still brings, releasing is interleaving, and a promise is kept.
-/

namespace TimedStreams

open Stamped Update

namespace Horizon

theorem earlier_eq_or (h k : Horizon) : h.earlier k = h ∨ h.earlier k = k := by
  unfold earlier
  split
  · exact .inl rfl
  · exact .inr rfl

theorem later_eq_or (h k : Horizon) : h.later k = h ∨ h.later k = k := by
  unfold later
  split
  · exact .inr rfl
  · exact .inl rfl

end Horizon

namespace Operand

/-- The record of an operand fits the events that are still to arrive. -/
structure Awaits (o : Operand) (later : List Stamped) : Prop where
  ascending : Ascending (o.pending ++ later)
  pending_upTo : UpTo (o.reached.getD 0) o.pending
  later_from : From (o.reached.getD 0) later
  closed : o.isOpen = false → later = []

/-- The events that an update brings. -/
def brings (update : Option Update) : List Stamped :=
  update.elim [] fun u => stampedOf [u]

@[simp] theorem brings_none : brings none = [] := rfl

@[simp] theorem brings_event (s : Stamped) : brings (some (.event s)) = [s] := rfl

@[simp] theorem brings_progress (stamp : Nat) : brings (some (.progress stamp)) = [] := rfl

theorem reached_receive_some (o : Operand) (u : Update) :
    (o.receive (some u)).reached = some (max (o.reached.getD 0) u.stamp) := by
  cases u <;> simp [receive, Update.stamp, Outlet.raisedTo_eq]

theorem pending_receive (o : Operand) (update : Option Update) :
    (o.receive update).pending = o.pending ++ brings update := by
  rcases update with _ | ⟨s⟩ | stamp <;> simp [receive]

theorem isOpen_receive_some (o : Operand) (u : Update) : (o.receive (some u)).isOpen = o.isOpen := by
  cases u <;> rfl

/-- `update` is the next that is received of the events `now`, and leaves `later`. -/
structure Next (update : Option Update) (now later : List Stamped) : Prop where
  now_eq : now = brings update ++ later
  later_from : ∀ u, update = some u → From u.stamp later
  last : update = none → later = []

variable {o : Operand} {later : List Stamped}

theorem Awaits.receive {now : List Stamped} {update : Option Update} (ho : o.Awaits now)
    (hnext : Next update now later) :
    (o.receive update).Awaits later := by
  obtain ⟨rfl, hlater, hlast⟩ := hnext
  cases update with
  | none => exact ⟨ho.ascending, ho.pending_upTo, ho.later_from, fun _ => hlast rfl⟩
  | some u =>
    have hreached := Nat.le_max_left (o.reached.getD 0) u.stamp
    refine ⟨?_, ?_, ?_, ?_⟩
    · rw [pending_receive, List.append_assoc]
      exact ho.ascending
    · rw [pending_receive, reached_receive_some, Option.getD_some, upTo_append]
      refine ⟨ho.pending_upTo.mono hreached, ?_⟩
      cases u <;> simp [Update.stamp]
    · rw [reached_receive_some, Option.getD_some]
      intro s hs
      exact Nat.max_le.2 ⟨ho.later_from s (List.mem_append_right _ hs), hlater u rfl s hs⟩
    · intro hclosed
      rw [isOpen_receive_some] at hclosed
      exact (List.append_eq_nil_iff.1 (ho.closed hclosed)).2

theorem Next.pending_append {now : List Stamped} {update : Option Update} (hnext : Next update now later) :
    (o.receive update).pending ++ later = o.pending ++ now := by
  rw [pending_receive, List.append_assoc, ← hnext.now_eq]

theorem Awaits.tail {s : Stamped} {rest : List Stamped} (ho : o.Awaits later)
    (hpending : o.pending = s :: rest) :
    ({ o with pending := rest } : Operand).Awaits later where
  ascending := by
    have hascending := ho.ascending
    rw [hpending, List.cons_append] at hascending
    exact (ascending_cons.1 hascending).2
  pending_upTo := (upTo_cons.1 (hpending ▸ ho.pending_upTo)).2
  later_from := ho.later_from
  closed := ho.closed

theorem Awaits.drop (ho : o.Awaits later) (n : Nat) :
    ({ o with pending := o.pending.drop n } : Operand).Awaits later where
  ascending := by
    have hascending := ho.ascending
    rw [← List.take_append_drop n o.pending, List.append_assoc] at hascending
    exact (ascending_append.1 hascending).2.1
  pending_upTo := fun s hs => ho.pending_upTo s (List.mem_of_mem_drop hs)
  later_from := ho.later_from
  closed := ho.closed

/-! ### What the horizon promises -/

theorem exhausted_iff : o.exhausted = true ↔ o.isOpen = false ∧ o.pending = [] := by
  simp [exhausted]

theorem horizon_eq_done_iff : o.horizon = .done ↔ o.exhausted = true := by
  rw [exhausted_iff, horizon]
  split <;> simp_all

theorem horizon_eq_known {stamp : Nat} (hknown : o.horizon = .known stamp) :
    (∃ s rest, o.pending = s :: rest ∧ s.stamp = stamp) ∨ o.pending = [] ∧ o.isOpen = true ∧
    o.reached = some stamp := by
  unfold horizon at hknown
  split at hknown <;> simp_all

theorem Awaits.eq_nil_of_exhausted (ho : o.Awaits later) (hdone : o.exhausted = true) :
    o.pending ++ later = [] := by
  obtain ⟨hopen, hpending⟩ := exhausted_iff.1 hdone
  rw [hpending, ho.closed hopen, List.append_nil]

theorem Awaits.from_of_known (ho : o.Awaits later) {stamp : Nat} (hknown : o.horizon = .known stamp) :
    From stamp (o.pending ++ later) := by
  rcases horizon_eq_known hknown with ⟨s, rest, hpending, rfl⟩ | ⟨hpending, -, hreached⟩
  · have hascending := ho.ascending
    rw [hpending, List.cons_append] at hascending ⊢
    exact from_cons.2 ⟨Nat.le_refl _, (ascending_cons.1 hascending).1⟩
  · have hfrom := ho.later_from
    rw [hreached] at hfrom
    rw [hpending, List.nil_append]
    exact hfrom

theorem Awaits.from_of_notAfter (ho : o.Awaits later) {stamp : Nat}
    (hle : (Horizon.known stamp).notAfter o.horizon = true) : From stamp (o.pending ++ later) := by
  cases hhorizon : o.horizon with
  | unknown => simp [hhorizon, Horizon.notAfter] at hle
  | known other =>
    rw [hhorizon, Horizon.notAfter, decide_eq_true_eq] at hle
    exact (ho.from_of_known hhorizon).mono hle
  | done => exact ho.eq_nil_of_exhausted (horizon_eq_done_iff.1 hhorizon) ▸ from_nil _

theorem Awaits.from_succ_of_not_notAfter (ho : o.Awaits later) {stamp : Nat}
    (hlt : ¬ o.horizon.notAfter (.known stamp) = true) : From (stamp + 1) (o.pending ++ later) := by
  cases hhorizon : o.horizon with
  | unknown => exact absurd (by rw [hhorizon]; rfl) hlt
  | known other =>
    rw [hhorizon, Horizon.notAfter, decide_eq_true_eq] at hlt
    exact (ho.from_of_known hhorizon).mono (Nat.lt_of_not_le hlt)
  | done => exact ho.eq_nil_of_exhausted (horizon_eq_done_iff.1 hhorizon) ▸ from_nil _

theorem Awaits.horizon_le_reached (ho : o.Awaits later) {stamp : Nat} (hknown : o.horizon = .known stamp) :
    stamp ≤ o.reached.getD 0 := by
  rcases horizon_eq_known hknown with ⟨s, rest, hpending, rfl⟩ | ⟨-, -, hreached⟩
  · exact ho.pending_upTo s (by simp [hpending])
  · simp [hreached]

end Operand

namespace Horizon

theorem known_of_stamp? {h : Horizon} {stamp : Nat} (hstamp : h.stamp? = some stamp) : h = known stamp := by
  cases h with
  | known s => exact congrArg known (Option.some.inj hstamp)
  | unknown => cases hstamp
  | done => cases hstamp

end Horizon

/-! ### Releasing in order -/

def Released.events (released : List Released) : List (Side × Stamped) :=
  released.filterMap fun
    | .event side s => some (side, s)
    | .promise _ => none

namespace Released

@[simp] theorem events_nil : events [] = [] := rfl

@[simp] theorem events_event (side : Side) (s : Stamped) (rest : List Released) :
    events (.event side s :: rest) = (side, s) :: events rest := rfl

@[simp] theorem events_promise (stamp : Nat) (rest : List Released) :
    events (.promise stamp :: rest) = events rest := rfl

@[simp] theorem events_append (xs ys : List Released) : events (xs ++ ys) = events xs ++ events ys :=
  List.filterMap_append

theorem stampedOf_map_update (released : List Released) :
    stampedOf (released.map update) = (events released).map Prod.snd := by
  induction released with
  | nil => rfl
  | cons x rest ih => cases x <;> simp [update, ih]

end Released

namespace Operands

def operand (p : Operands) : Side → Operand
  | .left => p.left
  | .right => p.right

/-- Everything two operands still bring, as one sequence. -/
def sequence (p : Operands) (left right : List Stamped) : List (Side × Stamped) :=
  interleave (p.left.pending ++ left) (p.right.pending ++ right)

structure Await (p : Operands) (left right : List Stamped) : Prop where
  left : p.left.Awaits left
  right : p.right.Awaits right

/-- `update` is the next that `side` says of what both sides still bring, and leaves `left'` and `right'`. -/
inductive Hears (update : Option Update) : Side → (left right left' right' : List Stamped) → Prop
  | left {left left' right : List Stamped} (hnext : Operand.Next update left left') :
      Hears update .left left right left' right
  | right {left right right' : List Stamped} (hnext : Operand.Next update right right') :
      Hears update .right left right left right'

variable {p q : Operands} {left right left' right' : List Stamped} {side : Side} {s : Stamped}
  {update : Option Update}

theorem Await.receive (hp : p.Await left right) (hhears : Hears update side left right left' right') :
    (p.receive side update).Await left' right' := by
  cases hhears with
  | left hnext => exact ⟨hp.left.receive hnext, hp.right⟩
  | right hnext => exact ⟨hp.left, hp.right.receive hnext⟩

/-- Receiving moves events from those that are still to arrive to those that are kept. -/
theorem pending_receive_append (hhears : Hears update side left right left' right') :
    (p.receive side update).left.pending ++ left' = p.left.pending ++ left ∧
      (p.receive side update).right.pending ++ right' = p.right.pending ++ right := by
  cases hhears with
  | left hnext => exact ⟨hnext.pending_append, rfl⟩
  | right hnext => exact ⟨rfl, hnext.pending_append⟩

theorem sequence_receive (hhears : Hears update side left right left' right') :
    (p.receive side update).sequence left' right' = p.sequence left right := by
  obtain ⟨hleft, hright⟩ := pending_receive_append (p := p) hhears
  rw [sequence, hleft, hright, sequence]

theorem nextLeft?_eq_some (hnext : p.nextLeft? = some (s, q)) :
    ∃ rest, p.left.pending = s :: rest ∧ q = { p with left := { p.left with pending := rest } } ∧
      (Horizon.known s.stamp).notAfter p.right.horizon = true := by
  unfold nextLeft? at hnext
  split at hnext
  · cases hnext
  · next t rest hpending =>
    split at hnext
    · next hle =>
      obtain ⟨rfl, rfl⟩ := Prod.mk.inj (Option.some.inj hnext)
      exact ⟨rest, hpending, rfl, hle⟩
    · cases hnext

theorem nextRight?_eq_some (hnext : p.nextRight? = some (s, q)) :
    ∃ rest, p.right.pending = s :: rest ∧ q = { p with right := { p.right with pending := rest } } ∧
      ¬ p.left.horizon.notAfter (.known s.stamp) = true := by
  unfold nextRight? at hnext
  split at hnext
  · cases hnext
  · next t rest hpending =>
    split at hnext
    · cases hnext
    · next hlt =>
      obtain ⟨rfl, rfl⟩ := Prod.mk.inj (Option.some.inj hnext)
      exact ⟨rest, hpending, rfl, hlt⟩

/-- If nothing can be released, the first event of the left is held back by what the right may still send. -/
theorem not_notAfter_of_next?_eq_none {rest : List Stamped} (hnext : p.next? = none)
    (hpending : p.left.pending = s :: rest) : ¬ (Horizon.known s.stamp).notAfter p.right.horizon = true := by
  have hstuck := Option.map_eq_none_iff.1 (Option.or_eq_none_iff.1 hnext).1
  rw [nextLeft?, hpending] at hstuck
  simpa using hstuck

/-- If nothing can be released, the first event of the right is held back by what the left may still send. -/
theorem notAfter_of_next?_eq_none {rest : List Stamped} (hnext : p.next? = none)
    (hpending : p.right.pending = s :: rest) : p.left.horizon.notAfter (.known s.stamp) = true := by
  have hstuck := Option.map_eq_none_iff.1 (Option.or_eq_none_iff.1 hnext).2
  rw [nextRight?, hpending] at hstuck
  simpa using hstuck

theorem next?_cases (hnext : p.next? = some (side, s, q)) :
    (side = .left ∧ p.nextLeft? = some (s, q)) ∨ (side = .right ∧ p.nextRight? = some (s, q)) := by
  simp only [next?, Option.or_eq_some_iff, Option.map_eq_some_iff] at hnext
  rcases hnext with ⟨_, hleft, heq⟩ | ⟨-, _, hright, heq⟩ <;> cases heq
  · exact .inl ⟨rfl, hleft⟩
  · exact .inr ⟨rfl, hright⟩

/-- What is released next is the first of everything that the operands still bring. -/
theorem sequence_of_next? (hp : p.Await left right) (hnext : p.next? = some (side, s, q)) :
    p.sequence left right = (side, s) :: q.sequence left right := by
  rcases next?_cases hnext with ⟨rfl, hleft⟩ | ⟨rfl, hright⟩
  · obtain ⟨rest, hpending, rfl, hle⟩ := nextLeft?_eq_some hleft
    rw [sequence, hpending, List.cons_append, interleave_cons_left (hp.right.from_of_notAfter hle)]
    rfl
  · obtain ⟨rest, hpending, rfl, hlt⟩ := nextRight?_eq_some hright
    rw [sequence, hpending, List.cons_append, interleave_cons_right (hp.left.from_succ_of_not_notAfter hlt)]
    rfl

theorem await_of_next? (hp : p.Await left right) (hnext : p.next? = some (side, s, q)) :
    q.Await left right := by
  rcases next?_cases hnext with ⟨rfl, hleft⟩ | ⟨rfl, hright⟩
  · obtain ⟨rest, hpending, rfl, -⟩ := nextLeft?_eq_some hleft
    exact ⟨hp.left.tail hpending, hp.right⟩
  · obtain ⟨rest, hpending, rfl, -⟩ := nextRight?_eq_some hright
    exact ⟨hp.left, hp.right.tail hpending⟩

theorem reached_of_next? (hnext : p.next? = some (side, s, q)) :
    q.left.reached = p.left.reached ∧ q.right.reached = p.right.reached := by
  rcases next?_cases hnext with ⟨rfl, hleft⟩ | ⟨rfl, hright⟩
  · obtain ⟨rest, -, rfl, -⟩ := nextLeft?_eq_some hleft
    exact ⟨rfl, rfl⟩
  · obtain ⟨rest, -, rfl, -⟩ := nextRight?_eq_some hright
    exact ⟨rfl, rfl⟩

theorem isOpen_of_next? (hnext : p.next? = some (side, s, q)) (other : Side) :
    q.isOpen other = p.isOpen other := by
  rcases next?_cases hnext with ⟨rfl, hleft⟩ | ⟨rfl, hright⟩
  · obtain ⟨rest, -, rfl, -⟩ := nextLeft?_eq_some hleft
    cases other <;> rfl
  · obtain ⟨rest, -, rfl, -⟩ := nextRight?_eq_some hright
    cases other <;> rfl

theorem pending_of_next? (hnext : p.next? = some (side, s, q)) :
    q.left.pending <:+ p.left.pending ∧ q.right.pending <:+ p.right.pending := by
  rcases next?_cases hnext with ⟨rfl, hleft⟩ | ⟨rfl, hright⟩
  · obtain ⟨rest, hpending, rfl, -⟩ := nextLeft?_eq_some hleft
    exact ⟨hpending ▸ List.suffix_cons s rest, List.suffix_rfl⟩
  · obtain ⟨rest, hpending, rfl, -⟩ := nextRight?_eq_some hright
    exact ⟨List.suffix_rfl, hpending ▸ List.suffix_cons s rest⟩

/-- The larger of the stamps that two operands have reached. -/
def reach (p : Operands) : Nat :=
  max (p.left.reached.getD 0) (p.right.reached.getD 0)

theorem reach_of_next? (hnext : p.next? = some (side, s, q)) : q.reach = p.reach := by
  obtain ⟨hleft, hright⟩ := reached_of_next? hnext
  rw [reach, reach, hleft, hright]

theorem stamp_le_reach_of_next? (hp : p.Await left right) (hnext : p.next? = some (side, s, q)) :
    s.stamp ≤ p.reach := by
  rcases next?_cases hnext with ⟨rfl, hleft⟩ | ⟨rfl, hright⟩
  · obtain ⟨rest, hpending, -, -⟩ := nextLeft?_eq_some hleft
    exact (hp.left.pending_upTo s (by simp [hpending])).trans (Nat.le_max_left _ _)
  · obtain ⟨rest, hpending, -, -⟩ := nextRight?_eq_some hright
    exact (hp.right.pending_upTo s (by simp [hpending])).trans (Nat.le_max_right _ _)

/-! ### Promises -/

theorem mem_promise {x : Released} :
    x ∈ p.promise ↔ ∃ stamp, (p.left.horizon.earlier p.right.horizon).stamp? = some stamp ∧
      x = .promise stamp := by
  simp [promise, eq_comm]

theorem from_earlier (hp : p.Await left right) {stamp : Nat}
    (hstamp : (p.left.horizon.earlier p.right.horizon).stamp? = some stamp) :
    From stamp (p.left.pending ++ left) ∧ From stamp (p.right.pending ++ right) := by
  have hknown := Horizon.known_of_stamp? hstamp
  by_cases hle : p.left.horizon.notAfter p.right.horizon = true
  · rw [Horizon.earlier, if_pos hle] at hknown
    exact ⟨hp.left.from_of_known hknown, hp.right.from_of_notAfter (hknown ▸ hle)⟩
  · rw [Horizon.earlier, if_neg hle] at hknown
    exact ⟨(hp.left.from_succ_of_not_notAfter (hknown ▸ hle)).mono (Nat.le_succ _),
      hp.right.from_of_known hknown⟩

theorem stamp_le_reach_of_earlier (hp : p.Await left right) {stamp : Nat}
    (hstamp : (p.left.horizon.earlier p.right.horizon).stamp? = some stamp) : stamp ≤ p.reach := by
  have hknown := Horizon.known_of_stamp? hstamp
  rcases Horizon.earlier_eq_or p.left.horizon p.right.horizon with heq | heq <;> rw [heq] at hknown
  · exact (hp.left.horizon_le_reached hknown).trans (Nat.le_max_left _ _)
  · exact (hp.right.horizon_le_reached hknown).trans (Nat.le_max_right _ _)

theorem from_sequence {floor : Nat} (hleft : From floor (p.left.pending ++ left))
    (hright : From floor (p.right.pending ++ right)) :
    From floor ((p.sequence left right).map Prod.snd) :=
  from_merge.2 ⟨hleft, hright⟩

theorem Await.ascending_sequence (hp : p.Await left right) : Ascending ((p.sequence left right).map Prod.snd) :=
  ascending_merge hp.left.ascending hp.right.ascending

/-! ### Releasing all that can be released -/

theorem drain_of_none (hnext : p.next? = none) : p.drain = (p.promise, p) := by
  rw [drain]
  split
  · rfl
  · next hsome => exact absurd (hnext ▸ hsome) (by simp)

theorem drain_of_some (hnext : p.next? = some (side, s, q)) :
    p.drain = (p.promise ++ .event side s :: q.drain.1, q.drain.2) := by
  rw [drain]
  split
  · next hnone => exact absurd (hnext ▸ hnone) (by simp)
  · next side' s' q' hsome =>
    obtain ⟨rfl, rfl, rfl⟩ : side = side' ∧ s = s' ∧ q = q' := by simpa [hnext] using hsome
    rfl

/-- What holds where nothing can be released, and is passed back over every release, holds of all operands. -/
theorem drain_induction {motive : Operands → Prop} (stop : ∀ p, p.next? = none → motive p)
    (release : ∀ p side s q, p.next? = some (side, s, q) → motive q → motive p) (p : Operands) : motive p := by
  induction hkept : p.kept using Nat.strong_induction_on generalizing p with
  | _ n ih =>
    cases hnext : p.next? with
    | none => exact stop p hnext
    | some x =>
      obtain ⟨side, s, q⟩ := x
      exact release p side s q hnext (ih _ (hkept ▸ kept_lt_of_next? hnext) q rfl)

theorem events_promise_nil (p : Operands) : Released.events p.promise = [] := by
  rw [promise]
  cases (p.left.horizon.earlier p.right.horizon).stamp? <;> rfl

theorem next?_drain (p : Operands) : p.drain.2.next? = none := by
  induction p using drain_induction with
  | stop p hnext => rwa [drain_of_none hnext]
  | release p side s q hnext ih => rwa [drain_of_some hnext]

theorem promise_drain (p : Operands) {x : Released} (hx : x ∈ p.drain.2.promise) : x ∈ p.drain.1 := by
  induction p using drain_induction with
  | stop p hnext => rwa [drain_of_none hnext] at hx ⊢
  | release p side s q hnext ih =>
    rw [drain_of_some hnext] at hx ⊢
    exact List.mem_append_right _ (List.mem_cons_of_mem _ (ih hx))

theorem isOpen_drain (p : Operands) (side : Side) : p.drain.2.isOpen side = p.isOpen side := by
  induction p using drain_induction with
  | stop p hnext => rw [drain_of_none hnext]
  | release p _ s q hnext ih => rw [drain_of_some hnext, ih, isOpen_of_next? hnext]

theorem reached_drain (p : Operands) :
    p.drain.2.left.reached = p.left.reached ∧ p.drain.2.right.reached = p.right.reached := by
  induction p using drain_induction with
  | stop p hnext => simp [drain_of_none hnext]
  | release p side s q hnext ih =>
    obtain ⟨hleft, hright⟩ := reached_of_next? hnext
    rw [drain_of_some hnext, ← hleft, ← hright]
    exact ih

theorem pending_drain (p : Operands) :
    p.drain.2.left.pending <:+ p.left.pending ∧ p.drain.2.right.pending <:+ p.right.pending := by
  induction p using drain_induction with
  | stop p hnext =>
    rw [drain_of_none hnext]
    exact ⟨List.suffix_rfl, List.suffix_rfl⟩
  | release p side s q hnext ih =>
    obtain ⟨hleft, hright⟩ := pending_of_next? hnext
    rw [drain_of_some hnext]
    exact ⟨ih.1.trans hleft, ih.2.trans hright⟩

theorem await_drain (hp : p.Await left right) : p.drain.2.Await left right := by
  induction p using drain_induction with
  | stop p hnext => rwa [drain_of_none hnext]
  | release p side s q hnext ih =>
    rw [drain_of_some hnext]
    exact ih (await_of_next? hp hnext)

/-- What is released, followed by what the operands still bring afterwards, is what they brought before. -/
theorem sequence_drain (hp : p.Await left right) :
    p.sequence left right = Released.events p.drain.1 ++ p.drain.2.sequence left right := by
  induction p using drain_induction with
  | stop p hnext => rw [drain_of_none hnext, events_promise_nil, List.nil_append]
  | release p side s q hnext ih =>
    rw [drain_of_some hnext, Released.events_append, events_promise_nil, List.nil_append, Released.events_event,
      List.cons_append, ← ih (await_of_next? hp hnext)]
    exact sequence_of_next? hp hnext

theorem Await.nil (hp : p.Await left right) : p.Await [] [] := by
  have hnil : ∀ {o : Operand} {later : List Stamped}, o.Awaits later → o.Awaits [] := by
    intro o later ho
    refine ⟨?_, ho.pending_upTo, from_nil _, fun _ => rfl⟩
    rw [List.append_nil]
    exact (ascending_append.1 ho.ascending).1
  exact ⟨hnil hp.left, hnil hp.right⟩

theorem mem_sequence {x : Side × Stamped} : x ∈ p.sequence left right ↔
    x.1 = .left ∧ x.2 ∈ p.left.pending ++ left ∨ x.1 = .right ∧ x.2 ∈ p.right.pending ++ right :=
  mem_interleave

theorem upTo_drain {top : Nat} (hp : p.Await left right) (hleft : UpTo top p.left.pending)
    (hright : UpTo top p.right.pending) :
    UpTo top ((Released.events p.drain.1).map Prod.snd) ∧ UpTo top p.drain.2.left.pending ∧
      UpTo top p.drain.2.right.pending := by
  have hall : UpTo top ((p.sequence [] []).map Prod.snd) :=
    upTo_merge.2 ⟨by simpa using hleft, by simpa using hright⟩
  rw [sequence_drain hp.nil, List.map_append, upTo_append] at hall
  obtain ⟨hevents, hkept⟩ := hall
  obtain ⟨hkeptLeft, hkeptRight⟩ := upTo_merge.1 hkept
  exact ⟨hevents, by simpa using hkeptLeft, by simpa using hkeptRight⟩

theorem honest_drain (hp : p.Await left right) :
    Honest (p.drain.1.map Released.update) ((p.drain.2.sequence left right).map Prod.snd) := by
  have hpromise : ∀ {p : Operands} {later : List Stamped}, p.Await left right →
      later = (p.sequence left right).map Prod.snd → Honest (p.promise.map Released.update) later := by
    intro p later hp hlater
    rw [promise]
    cases hstamp : (p.left.horizon.earlier p.right.horizon).stamp? with
    | none => exact honest_nil _
    | some stamp =>
      obtain ⟨hleft, hright⟩ := from_earlier hp hstamp
      exact ⟨hlater ▸ from_sequence hleft hright, honest_nil _⟩
  induction p using drain_induction with
  | stop p hnext =>
    rw [drain_of_none hnext]
    exact hpromise hp rfl
  | release p side s q hnext ih =>
    have hq := await_of_next? hp hnext
    have hsequence := sequence_of_next? hp hnext
    have hdrain := sequence_drain hq
    have hlater : stampedOf (q.drain.1.map Released.update) ++ (q.drain.2.sequence left right).map Prod.snd
        = (q.sequence left right).map Prod.snd := by
      rw [Released.stampedOf_map_update, ← List.map_append, ← hdrain]
    rw [drain_of_some hnext, List.map_append, honest_append]
    refine ⟨hpromise hp ?_, ?_, ih hq⟩
    · rw [List.map_cons, Released.update, stampedOf_event, List.cons_append, hlater, hsequence, List.map_cons]
    · rw [hlater]
      have hascending := hp.ascending_sequence
      rw [hsequence, List.map_cons] at hascending
      exact (ascending_cons.1 hascending).1

theorem stamp_le_reach_drain (hp : p.Await left right) {u : Update} (hu : u ∈ p.drain.1.map Released.update) :
    u.stamp ≤ p.reach := by
  have hpromise : ∀ {p : Operands}, p.Await left right → ∀ x ∈ p.promise, x.update.stamp ≤ p.reach := by
    intro p hp x hx
    obtain ⟨stamp, hstamp, rfl⟩ := mem_promise.1 hx
    exact stamp_le_reach_of_earlier hp hstamp
  obtain ⟨x, hx, rfl⟩ := List.mem_map.1 hu
  clear hu
  induction p using drain_induction with
  | stop p hnext =>
    rw [drain_of_none hnext] at hx
    exact hpromise hp x hx
  | release p side s q hnext ih =>
    rw [drain_of_some hnext, List.mem_append, List.mem_cons] at hx
    rcases hx with hx | rfl | hx
    · exact hpromise hp x hx
    · exact stamp_le_reach_of_next? hp hnext
    · exact (ih (await_of_next? hp hnext) hx).trans (reach_of_next? hnext).le

end Operands

end TimedStreams
