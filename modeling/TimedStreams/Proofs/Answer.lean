import TimedStreams.Proofs.Operands

/-!
# What a task still has to send

`Task.answer` says, from the events that the two operands of a join still bring, what its task still
has to send, not yet raised by the outlet. It is the combinator itself, on whole sequences. The main
statement is `Task.answer_receive`: receiving one update, from either side and in any order of
arrival, sends the beginning of the answer and leaves the rest of it, and what is sent is honest.
-/

namespace TimedStreams

open Stamped Update

namespace Latest

def after (l : Latest) (xs : List (Side × Stamped)) : Latest :=
  xs.foldl (fun l x => l.replace x.1 x.2.event) l

@[simp] theorem after_nil (l : Latest) : l.after [] = l := rfl

@[simp] theorem after_cons (l : Latest) (x : Side × Stamped) (xs : List (Side × Stamped)) :
    l.after (x :: xs) = (l.replace x.1 x.2.event).after xs := rfl

theorem after_append (l : Latest) (xs ys : List (Side × Stamped)) : l.after (xs ++ ys) = (l.after xs).after ys :=
  List.foldl_append

theorem latestPairs_append (l : Latest) (xs ys : List (Side × Stamped)) :
    latestPairs l (xs ++ ys) = latestPairs l xs ++ latestPairs (l.after xs) ys := by
  induction xs generalizing l with
  | nil => rfl
  | cons x rest ih => simp [latestPairs, ih]

theorem react_promise (l : Latest) (stamp : Nat) (rest : List Released) :
    l.react (.promise stamp :: rest) = (.progress stamp :: (l.react rest).1, (l.react rest).2) := rfl

theorem react_event (l : Latest) (side : Side) (s : Stamped) (rest : List Released) :
    l.react (.event side s :: rest)
      = (((l.replace side s.event).joined?.map fun e => Update.event ⟨e, s.stamp⟩).toList
        ++ ((l.replace side s.event).react rest).1, ((l.replace side s.event).react rest).2) := by
  cases hjoined : (l.replace side s.event).joined? <;> simp [react, hjoined]

theorem react_snd (l : Latest) (released : List Released) :
    (l.react released).2 = l.after (Released.events released) := by
  induction released generalizing l with
  | nil => rfl
  | cons x rest ih =>
    cases x with
    | promise stamp => exact ih l
    | event side s => rw [react_event, ih]; rfl

theorem stampedOf_react (l : Latest) (released : List Released) :
    stampedOf (l.react released).1 = latestPairs l (Released.events released) := by
  induction released generalizing l with
  | nil => rfl
  | cons x rest ih =>
    cases x with
    | promise stamp => exact ih l
    | event side s =>
      rw [react_event, stampedOf_append, ih, Released.events_event, latestPairs]
      cases (l.replace side s.event).joined? <;> rfl

theorem progress_mem_react (l : Latest) {released : List Released} {stamp : Nat}
    (hx : .promise stamp ∈ released) :
    .progress stamp ∈ (l.react released).1 := by
  induction released generalizing l with
  | nil => cases hx
  | cons x rest ih =>
    cases x with
    | promise other =>
      rw [react_promise]
      rcases List.mem_cons.1 hx with heq | hx
      · exact Released.promise.inj heq ▸ List.mem_cons_self
      · exact List.mem_cons_of_mem _ (ih l hx)
    | event side s =>
      rw [react_event]
      rcases List.mem_cons.1 hx with heq | hx
      · cases heq
      · exact List.mem_append_right _ (ih _ hx)

theorem exists_of_mem_react (l : Latest) {released : List Released} {u : Update}
    (hu : u ∈ (l.react released).1) :
    ∃ v ∈ released.map Released.update, u.stamp = v.stamp := by
  induction released generalizing l with
  | nil => cases hu
  | cons x rest ih =>
    have hmore : (∃ v ∈ rest.map Released.update, u.stamp = v.stamp) →
        ∃ v ∈ (x :: rest).map Released.update, u.stamp = v.stamp :=
      fun ⟨v, hv, heq⟩ => ⟨v, List.mem_cons_of_mem _ hv, heq⟩
    cases x with
    | promise stamp =>
      rcases List.mem_cons.1 (react_promise l stamp rest ▸ hu) with rfl | hu
      · exact ⟨_, List.mem_cons_self, rfl⟩
      · exact hmore (ih l hu)
    | event side s =>
      rcases List.mem_append.1 (react_event l side s rest ▸ hu) with hu | hu
      · obtain ⟨e, -, rfl⟩ := by simpa using hu
        exact ⟨_, List.mem_cons_self, rfl⟩
      · exact hmore (ih _ hu)

theorem from_latestPairs {floor : Nat} (l : Latest) {xs : List (Side × Stamped)}
    (hxs : From floor (xs.map Prod.snd)) :
    From floor (latestPairs l xs) := by
  intro u hu
  obtain ⟨x, hx, heq⟩ := exists_of_mem_latestPairs hu
  exact heq ▸ hxs _ (List.mem_map_of_mem hx)

/-- Reacting to what was released honestly is honest. -/
theorem honest_react (l : Latest) {released : List Released} {later : List (Side × Stamped)}
    (hreleased : Honest (released.map Released.update) (later.map Prod.snd)) :
    Honest (l.react released).1 (latestPairs (l.after (Released.events released)) later) := by
  induction released generalizing l with
  | nil => exact honest_nil _
  | cons x rest ih =>
    obtain ⟨hx, hrest⟩ := hreleased
    have hfrom : ∀ l : Latest, From x.update.stamp
        (stampedOf (l.react rest).1 ++ latestPairs (l.after (Released.events rest)) later) := by
      intro l
      rw [Released.stampedOf_map_update, ← List.map_append] at hx
      rw [stampedOf_react, ← latestPairs_append]
      exact from_latestPairs l hx
    cases x with
    | promise stamp => exact ⟨hfrom l, ih l hrest⟩
    | event side s =>
      have hmore := ih (l.replace side s.event) hrest
      rw [react_event]
      cases (l.replace side s.event).joined? with
      | none => exact hmore
      | some e => exact ⟨hfrom _, hmore⟩

end Latest

namespace Operands

variable {p : Operands} {left right : List Stamped}

/-- Everything two operands still bring, joined by position. -/
def pairing (p : Operands) (left right : List Stamped) : List Stamped :=
  Stamped.zip (p.left.pending ++ left) (p.right.pending ++ right)

theorem pairUp_snd_left (p : Operands) : p.pairUp.2.left
    = { p.left with pending := p.left.pending.drop (min p.left.pending.length p.right.pending.length) } := rfl

theorem pairUp_snd_right (p : Operands) : p.pairUp.2.right
    = { p.right with pending := p.right.pending.drop (min p.left.pending.length p.right.pending.length) } := rfl

theorem pairing_pairUp (p : Operands) (left right : List Stamped) :
    p.pairing left right = p.pairUp.1 ++ p.pairUp.2.pairing left right :=
  zip_append_append _ _ _ _

theorem await_pairUp (hp : p.Await left right) : p.pairUp.2.Await left right :=
  ⟨hp.left.drop _, hp.right.drop _⟩

theorem Await.ascending_pairing (hp : p.Await left right) : Ascending (p.pairing left right) :=
  ascending_zip hp.left.ascending hp.right.ascending

theorem from_later (hp : p.Await left right) {stamp : Nat}
    (hstamp : (p.left.horizon.later p.right.horizon).stamp? = some stamp) :
    From stamp (p.pairing left right) := by
  have hknown := Horizon.known_of_stamp? hstamp
  rcases Horizon.later_eq_or p.left.horizon p.right.horizon with heq | heq <;> rw [heq] at hknown
  · exact from_zip_left _ (hp.left.from_of_known hknown)
  · exact from_zip_right _ (hp.right.from_of_known hknown)

theorem mem_pairPromise {u : Update} : u ∈ p.pairPromise ↔ p.unpairable = false ∧
    ∃ stamp, (p.left.horizon.later p.right.horizon).stamp? = some stamp ∧ u = .progress stamp := by
  rw [pairPromise]
  split
  · next hdone => simp [hdone]
  · next hdone => simp [hdone, eq_comm]

theorem stampedOf_pairPromise (p : Operands) : stampedOf p.pairPromise = [] := by
  rw [pairPromise]
  split
  · rfl
  · cases (p.left.horizon.later p.right.horizon).stamp? <;> rfl

theorem honest_pairPromise (hp : p.Await left right) : Honest p.pairPromise (p.pairing left right) := by
  rw [pairPromise]
  split
  · exact honest_nil _
  · cases hstamp : (p.left.horizon.later p.right.horizon).stamp? with
    | none => exact honest_nil _
    | some stamp => exact ⟨from_later hp hstamp, honest_nil _⟩

theorem stampedOf_map_event (xs : List Stamped) : stampedOf (xs.map .event) = xs := by
  induction xs with
  | nil => rfl
  | cons s rest ih => rw [List.map_cons, stampedOf_event, ih]

theorem honest_pairUp (hp : p.Await left right) :
    Honest (p.pairUp.1.map .event ++ p.pairUp.2.pairPromise) (p.pairUp.2.pairing left right) := by
  rw [honest_append, stampedOf_pairPromise, List.nil_append]
  refine ⟨honest_map_event ?_, honest_pairPromise (await_pairUp hp)⟩
  rw [← pairing_pairUp]
  exact hp.ascending_pairing

theorem pairing_receive {left' right' : List Stamped} {side : Side} {update : Option Update}
    (hhears : Hears update side left right left' right') :
    (p.receive side update).pairing left' right' = p.pairing left right := by
  obtain ⟨hleft, hright⟩ := pending_receive_append (p := p) hhears
  rw [pairing, hleft, hright, pairing]

theorem Await.sequence_eq_nil (hp : p.Await left right) (hdone : p.finished = true) :
    p.sequence left right = [] := by
  obtain ⟨hleft, hright⟩ := Bool.and_eq_true_iff.1 hdone
  rw [sequence, hp.left.eq_nil_of_exhausted hleft, hp.right.eq_nil_of_exhausted hright, interleave_nil_nil]

theorem Await.pairing_eq_nil (hp : p.Await left right) (hdone : p.unpairable = true) :
    p.pairing left right = [] := by
  rcases Bool.or_eq_true_iff.1 hdone with hleft | hright
  · rw [pairing, hp.left.eq_nil_of_exhausted hleft]
    exact List.zipWith_nil_left
  · rw [pairing, hp.right.eq_nil_of_exhausted hright]
    exact List.zipWith_nil_right

end Operands

/-! ### Tasks -/

namespace Task

/-- What a task still has to send when its operands still bring `left` and `right`, and `top` is the
stamp at which the left completes. -/
def answer (task : Task) (left right : List Stamped) (top : Nat) : List Stamped :=
  match task with
  | merge p => (p.sequence left right).map Prod.snd
  | chain .left => left ++ raiseAll top right
  | chain .right => right
  | chain .finished => []
  | zip p => p.pairing left right
  | combineLatest p latest => latestPairs latest (p.sequence left right)

/-- The instant at which a task finishes when its operands still bring `left` and `right` and
complete at the instants given. -/
def finish (task : Task) (left right : List Stamped) (endLeft endRight : Nat) : Nat :=
  match task with
  | zip p => zipEnd (p.left.pending ++ left) (p.right.pending ++ right) endLeft endRight
  | merge _ | chain _ | combineLatest _ _ => max endLeft endRight

/-- What a task has kept of its operands fits the events that are still to arrive. -/
def Await (task : Task) (left right : List Stamped) : Prop :=
  match task with
  | merge p | zip p | combineLatest p _ => p.Await left right
  | chain _ => Ascending left ∧ Ascending right

variable {task : Task} {side : Side} {update : Option Update}
  {left right left' right' : List Stamped} {top floor : Nat}

theorem await_receive (hawait : task.Await left right)
    (hhears : Operands.Hears update side left right left' right') :
    (task.receive side update).2.Await left' right' := by
  cases task with
  | merge p => exact Operands.await_drain (Operands.Await.receive hawait hhears)
  | zip p => exact Operands.await_pairUp (Operands.Await.receive hawait hhears)
  | combineLatest p latest => exact Operands.await_drain (Operands.Await.receive hawait hhears)
  | chain stage =>
    obtain ⟨hleft, hright⟩ := hawait
    have hboth : Ascending left' ∧ Ascending right' := by
      cases hhears with
      | left hnext => exact ⟨(ascending_append.1 (hnext.now_eq ▸ hleft)).2.1, hright⟩
      | right hnext => exact ⟨hleft, (ascending_append.1 (hnext.now_eq ▸ hright)).2.1⟩
    cases update with
    | some u => exact hboth
    | none => cases stage <;> exact hboth

/-- A chain passes the left on as it comes, and the right raised to where the left completed. -/
theorem answer_receive_chain {stage : ChainStage} (hwants : (chain stage).wants side = true)
    (hhears : Operands.Hears update side left right left' right')
    (hleft : stage = .left → (∀ u, update = some u → u.stamp ≤ top) ∧ (update = none → top ≤ floor)) :
    Honest ((chain stage).receive side update).1
      (((chain stage).receive side update).2.answer left' right' top) ∧
      raiseAll floor (stampedOf ((chain stage).receive side update).1
        ++ ((chain stage).receive side update).2.answer left' right' top)
        = raiseAll floor ((chain stage).answer left right top) := by
  cases stage with
  | finished => simp [wants, finished] at hwants
  | left =>
    cases hhears with
    | right hnext => simp [wants] at hwants
    | left hnext =>
      obtain ⟨rfl, hfrom, hlast⟩ := hnext
      obtain ⟨hbelow, hclose⟩ := hleft rfl
      cases update with
      | none =>
        refine ⟨honest_nil _, ?_⟩
        rw [hlast rfl]
        simp only [receive, answer, Operand.brings_none, stampedOf_nil, List.nil_append]
        rw [raiseAll_raiseAll, Nat.max_eq_left (hclose rfl)]
      | some u =>
        refine ⟨honest_cons.2 ⟨?_, honest_nil _⟩, ?_⟩
        · rw [stampedOf_nil, List.nil_append]
          exact from_append.2 ⟨hfrom u rfl, (from_raiseAll _ _).mono (hbelow u rfl)⟩
        · simp only [receive, answer, Operand.brings, Option.elim_some, List.append_assoc]
  | right =>
    cases hhears with
    | left hnext => simp [wants] at hwants
    | right hnext =>
      obtain ⟨rfl, hfrom, hlast⟩ := hnext
      cases update with
      | none =>
        rw [hlast rfl]
        exact ⟨honest_nil _, rfl⟩
      | some u => exact ⟨honest_cons.2 ⟨hfrom u rfl, honest_nil _⟩, rfl⟩

/-- Receiving an update of either side sends the beginning of the answer and leaves the rest, and
what is sent is honest. -/
theorem answer_receive (floor : Nat) (hwants : task.wants side = true) (hawait : task.Await left right)
    (hhears : Operands.Hears update side left right left' right')
    (hleft : task = chain .left → (∀ u, update = some u → u.stamp ≤ top) ∧ (update = none → top ≤ floor)) :
    Honest (task.receive side update).1 ((task.receive side update).2.answer left' right' top) ∧
      raiseAll floor (stampedOf (task.receive side update).1
          ++ (task.receive side update).2.answer left' right' top)
        = raiseAll floor (task.answer left right top) := by
  cases task with
  | chain stage => exact answer_receive_chain hwants hhears fun hstage => hleft (congrArg chain hstage)
  | merge p =>
    have hp := Operands.Await.receive hawait hhears
    refine ⟨Operands.honest_drain hp, congrArg (raiseAll floor) ?_⟩
    simp only [receive, answer]
    rw [Released.stampedOf_map_update, ← List.map_append, ← Operands.sequence_drain hp,
      Operands.sequence_receive hhears]
  | zip p =>
    have hp := Operands.Await.receive hawait hhears
    refine ⟨Operands.honest_pairUp hp, congrArg (raiseAll floor) ?_⟩
    simp only [receive, answer]
    rw [stampedOf_append, Operands.stampedOf_map_event, Operands.stampedOf_pairPromise, List.append_nil,
      ← Operands.pairing_pairUp, Operands.pairing_receive hhears]
  | combineLatest p latest =>
    have hp := Operands.Await.receive hawait hhears
    simp only [receive, answer, Latest.react_snd]
    refine ⟨Latest.honest_react latest (Operands.honest_drain hp), congrArg (raiseAll floor) ?_⟩
    rw [Latest.stampedOf_react, ← Latest.latestPairs_append, ← Operands.sequence_drain hp,
      Operands.sequence_receive hhears]

theorem answer_eq_nil_of_finished (hawait : task.Await left right) (hdone : task.finished = true) :
    task.answer left right top = [] := by
  cases task with
  | merge p => exact congrArg (List.map Prod.snd) (Operands.Await.sequence_eq_nil hawait hdone)
  | zip p => exact Operands.Await.pairing_eq_nil hawait hdone
  | combineLatest p latest => exact congrArg (latestPairs latest) (Operands.Await.sequence_eq_nil hawait hdone)
  | chain stage =>
    cases stage with
    | finished => rfl
    | left => cases hdone
    | right => cases hdone

theorem ascending_answer (hawait : task.Await left right) (hleft : UpTo top left) :
    Ascending (task.answer left right top) := by
  cases task with
  | merge p => exact Operands.Await.ascending_sequence hawait
  | zip p => exact Operands.Await.ascending_pairing hawait
  | combineLatest p latest =>
    exact ascending_latestPairs (ascending_interleave hawait.left.ascending hawait.right.ascending)
  | chain stage =>
    cases stage with
    | finished => exact ascending_nil
    | right => exact hawait.2
    | left =>
      refine ascending_append.2 ⟨hawait.1, hawait.2.raiseAll top, ?_⟩
      intro s hs
      exact (from_raiseAll top right).mono (hleft s hs)

def kept (task : Task) (side : Side) : List Stamped :=
  match task with
  | merge p | zip p | combineLatest p _ => (p.operand side).pending
  | chain _ => []

theorem upTo_answer (hleft : UpTo top (task.kept .left ++ left)) (hright : UpTo top (task.kept .right ++ right))
    (hfloor : floor ≤ top) : UpTo top (task.answer left right floor) := by
  cases task with
  | merge p => exact upTo_merge.2 ⟨hleft, hright⟩
  | zip p => exact hleft.zip hright
  | combineLatest p latest =>
    intro s hs
    obtain ⟨x, hx, heq⟩ := exists_of_mem_latestPairs hs
    exact heq ▸ upTo_merge.2 ⟨hleft, hright⟩ x.2 (List.mem_map_of_mem hx)
  | chain stage =>
    cases stage with
    | finished => exact upTo_nil _
    | right => exact hright
    | left => exact upTo_append.2 ⟨hleft, UpTo.raiseAll hright hfloor⟩

/-- What a task sends and keeps bears no later stamps than what it had kept and receives. -/
theorem upTo_receive (hawait : task.Await left right)
    (hhears : Operands.Hears update side left right left' right')
    (hkept : ∀ other, UpTo top (task.kept other)) (hbrings : UpTo top (Operand.brings update)) :
    UpTo top (stampedOf (task.receive side update).1) ∧
      ∀ other, UpTo top ((task.receive side update).2.kept other) := by
  have hreceive : ∀ p : Operands, (∀ other, UpTo top (p.operand other).pending) →
      UpTo top (p.receive side update).left.pending ∧ UpTo top (p.receive side update).right.pending := by
    intro p hp
    cases side with
    | left => exact ⟨Operand.pending_receive _ _ ▸ upTo_append.2 ⟨hp .left, hbrings⟩, hp .right⟩
    | right => exact ⟨hp .left, Operand.pending_receive _ _ ▸ upTo_append.2 ⟨hp .right, hbrings⟩⟩
  cases task with
  | chain stage =>
    cases update with
    | some u => exact ⟨hbrings, fun _ => upTo_nil _⟩
    | none => cases stage <;> exact ⟨upTo_nil _, fun _ => upTo_nil _⟩
  | merge p =>
    obtain ⟨hleft, hright⟩ := hreceive p hkept
    obtain ⟨hevents, hkeptLeft, hkeptRight⟩ :=
      Operands.upTo_drain (Operands.Await.receive hawait hhears) hleft hright
    refine ⟨?_, fun other => by cases other; exacts [hkeptLeft, hkeptRight]⟩
    rw [receive, Released.stampedOf_map_update]
    exact hevents
  | combineLatest p latest =>
    obtain ⟨hleft, hright⟩ := hreceive p hkept
    obtain ⟨hevents, hkeptLeft, hkeptRight⟩ :=
      Operands.upTo_drain (Operands.Await.receive hawait hhears) hleft hright
    refine ⟨?_, fun other => by cases other; exacts [hkeptLeft, hkeptRight]⟩
    rw [receive, Latest.stampedOf_react]
    intro s hs
    obtain ⟨x, hx, heq⟩ := exists_of_mem_latestPairs hs
    exact heq ▸ hevents x.2 (List.mem_map_of_mem hx)
  | zip p =>
    obtain ⟨hleft, hright⟩ := hreceive p hkept
    constructor
    · rw [receive, stampedOf_append, Operands.stampedOf_map_event, Operands.stampedOf_pairPromise,
        List.append_nil]
      exact hleft.zip hright
    · intro other
      cases other with
      | left => exact fun s hs => hleft s (List.mem_of_mem_drop hs)
      | right => exact fun s hs => hright s (List.mem_of_mem_drop hs)

/-- Receiving moves the finish only within the past. -/
theorem finish_receive (endLeft endRight : Nat) (hhears : Operands.Hears update side left right left' right')
    (hkept : ∀ other, UpTo top (task.kept other)) (hbrings : UpTo top (Operand.brings update)) :
    max top ((task.receive side update).2.finish left' right' endLeft endRight)
      = max top (task.finish left right endLeft endRight) := by
  cases task with
  | merge p => rfl
  | combineLatest p latest => rfl
  | chain stage =>
    cases update with
    | some u => rfl
    | none => cases stage <;> rfl
  | zip p =>
    cases hhears with
    | left hnext =>
      have hpending : (p.left.receive update).pending ++ left' = p.left.pending ++ left := hnext.pending_append
      have hleft : UpTo top (p.left.receive update).pending :=
        Operand.pending_receive _ _ ▸ upTo_append.2 ⟨hkept .left, hbrings⟩
      simp only [finish]
      rw [← hpending]
      exact max_zipEnd_drop left' right endLeft endRight hleft (hkept .right)
    | right hnext =>
      have hpending : (p.right.receive update).pending ++ right' = p.right.pending ++ right :=
        hnext.pending_append
      have hright : UpTo top (p.right.receive update).pending :=
        Operand.pending_receive _ _ ▸ upTo_append.2 ⟨hkept .right, hbrings⟩
      simp only [finish]
      rw [← hpending]
      exact max_zipEnd_drop left right' endLeft endRight (hkept .left) hright

end Task

end TimedStreams
