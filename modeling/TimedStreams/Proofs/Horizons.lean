import TimedStreams.Proofs.Driving

/-!
# How far a task has promised

A task promises as much as its operands allow: a `merge` and a `combineLatest` the earlier of both
horizons, a `zip` the later. That it promises no less is what `Task.Prompt` says, and readers above
wait no longer than they must. That it promises no more is `Task.Modest`, and so no event of its own
is ever raised. It is an invariant because the horizons of a task never go back, whatever it hears
and whatever it uses up (`Operands.Advances`), and because no update that is sent along the way is
stamped after the horizons that are left when it is sent (`Operands.Attend.drain_notAfter`,
`Operands.Attend.pairUp_notAfter`).

Both together give the frontier of a task exactly (`Task.Serves.frontier_eq`), in terms of what its
producers have sent and how many of their events have been used.
-/

namespace TimedStreams

open Stamped Update

/-! ### The order of horizons -/

namespace Horizon

variable {h k l h' k' : Horizon}

@[simp] theorem notAfter_refl (h : Horizon) : h.notAfter h = true := by
  cases h <;> simp [notAfter]

@[simp] theorem unknown_notAfter (h : Horizon) : unknown.notAfter h = true := by
  cases h <;> rfl

@[simp] theorem notAfter_done (h : Horizon) : h.notAfter done = true := by
  cases h <;> rfl

theorem notAfter_trans (hhk : h.notAfter k = true) (hkl : k.notAfter l = true) : h.notAfter l = true := by
  cases h with
  | unknown => exact unknown_notAfter l
  | done => cases k <;> cases l <;> simp_all [notAfter]
  | known s =>
    cases k <;> cases l <;> simp_all only [notAfter, decide_eq_true_eq, reduceCtorEq]
    exact hhk.trans hkl

theorem notAfter_of_not (hlt : ¬ h.notAfter k = true) : k.notAfter h = true := by
  cases h <;> cases k <;> simp_all [notAfter]
  omega

theorem notAfter_earlier : l.notAfter (h.earlier k) = true ↔ l.notAfter h = true ∧ l.notAfter k = true := by
  rw [earlier]
  split
  · next hle => exact ⟨fun hl => ⟨hl, notAfter_trans hl hle⟩, And.left⟩
  · next hlt => exact ⟨fun hl => ⟨notAfter_trans hl (notAfter_of_not hlt), hl⟩, And.right⟩

theorem notAfter_later : l.notAfter (h.later k) = true ↔ l.notAfter h = true ∨ l.notAfter k = true := by
  rw [later]
  split
  · next hle => exact ⟨.inr, fun hl => hl.elim (notAfter_trans · hle) id⟩
  · next hlt => exact ⟨.inl, fun hl => hl.elim id (notAfter_trans · (notAfter_of_not hlt))⟩

theorem earlier_notAfter_left (h k : Horizon) : (h.earlier k).notAfter h = true :=
  (notAfter_earlier.1 (notAfter_refl _)).1

theorem earlier_notAfter_right (h k : Horizon) : (h.earlier k).notAfter k = true :=
  (notAfter_earlier.1 (notAfter_refl _)).2

theorem earlier_mono (hh : h.notAfter h' = true) (hk : k.notAfter k' = true) :
    (h.earlier k).notAfter (h'.earlier k') = true :=
  notAfter_earlier.2 ⟨notAfter_trans (earlier_notAfter_left h k) hh, notAfter_trans (earlier_notAfter_right h k) hk⟩

theorem done_notAfter : Horizon.done.notAfter h = true ↔ h = done := by
  cases h <;> simp [notAfter]

theorem earlier_eq_done : h.earlier k = done ↔ h = done ∧ k = done := by
  rw [← done_notAfter, notAfter_earlier, done_notAfter, done_notAfter]

theorem later_eq_done : h.later k = done ↔ h = done ∨ k = done := by
  rw [← done_notAfter, notAfter_later, done_notAfter, done_notAfter]

end Horizon

/-! ### Horizons never go back -/

namespace Operand

variable {o : Operand} {producer : Producer} {signal signal' : Signal} {update : Option Update}
  {used kept : List Stamped} {s : Stamped}

theorem horizon_of_cons {rest : List Stamped} (hpending : o.pending = s :: rest) : o.horizon = .known s.stamp := by
  rw [horizon, hpending]

theorem horizon_of_open (hpending : o.pending = []) (hopen : o.isOpen = true) :
    o.horizon = o.reached.elim .unknown .known := by
  cases hreached : o.reached <;> simp [horizon, hpending, hopen, hreached]

theorem horizon_of_closed (hpending : o.pending = []) (hclosed : o.isOpen = false) : o.horizon = .done :=
  horizon_eq_done_iff.2 (exhausted_iff.2 ⟨hclosed, hpending⟩)

/-- Once some events have been used, the horizon is not before any of them. -/
theorem Attends.used_notAfter (ho : o.Attends producer signal) (hpending : o.pending = used ++ kept) (hs : s ∈ used) :
    (Horizon.known s.stamp).notAfter ({ o with pending := kept } : Operand).horizon = true := by
  cases kept with
  | cons t rest =>
    have hascending := ho.follows.ascending
    rw [hpending, ascending_append] at hascending
    have hle : s.stamp ≤ t.stamp := hascending.2.2 s hs t List.mem_cons_self
    exact decide_eq_true hle
  | nil =>
    obtain ⟨read, -, hrises, hkept⟩ := ho.received
    have hmem : s ∈ o.pending := hpending ▸ List.mem_append_left _ hs
    obtain ⟨stamp, hreached, -⟩ := hrises.exists_top (mem_stampedOf.1 (hkept.subset hmem))
    have hle := ho.follows.pending_upTo s hmem
    rw [hreached, Option.getD_some] at hle
    by_cases hopen : o.isOpen = true
    · rw [horizon_of_open (o := { o with pending := [] }) rfl hopen, hreached]
      exact decide_eq_true hle
    · rw [horizon_of_closed (o := { o with pending := [] }) rfl (Bool.eq_false_iff.2 hopen)]
      exact Horizon.notAfter_done _

theorem Attends.horizon_use (ho : o.Attends producer signal) (hpending : o.pending = used ++ kept) :
    o.horizon.notAfter ({ o with pending := kept } : Operand).horizon = true := by
  cases used with
  | nil =>
    rw [List.nil_append] at hpending
    rw [← hpending]
    exact Horizon.notAfter_refl _
  | cons s used =>
    rw [horizon_of_cons hpending]
    exact ho.used_notAfter hpending List.mem_cons_self

theorem Attends.horizon_receive (ho : o.Attends producer signal) (hreads : signal.Reads update signal') :
    o.horizon.notAfter (o.receive update).horizon = true := by
  cases hpending : o.pending with
  | cons s rest =>
    -- The first event that is kept stays the first.
    have hafter : (o.receive update).pending = s :: (rest ++ brings update) := by
      rw [pending_receive, hpending, List.cons_append]
    rw [horizon_of_cons hpending, horizon_of_cons hafter]
    exact Horizon.notAfter_refl _
  | nil =>
    have hafter : (o.receive update).pending = brings update := by
      rw [pending_receive, hpending, List.nil_append]
    cases hreads with
    | done hended hqueue =>
      rw [horizon_of_closed hafter rfl]
      exact Horizon.notAfter_done _
    | @update u rest hqueue =>
      have hopen : o.isOpen = true := by
        by_contra hclosed
        exact absurd ((ho.follows.closed (by simpa using hclosed)).2.symm.trans hqueue) (by simp)
      have hle : o.reached.getD 0 ≤ u.stamp := ho.follows.rises.level_le (hqueue ▸ List.mem_cons_self)
      rw [horizon_of_open hpending hopen]
      cases hreached : o.reached with
      | none => exact Horizon.unknown_notAfter _
      | some stamp =>
        rw [hreached, Option.getD_some] at hle
        cases u with
        | event s =>
          rw [horizon_of_cons hafter]
          exact decide_eq_true hle
        | progress other =>
          rw [horizon_of_open hafter ((isOpen_receive_some _ _).trans hopen), reached_receive_some, hreached,
            Option.getD_some]
          exact decide_eq_true (Nat.le_max_left _ _)

end Operand

namespace Operands

/-- The horizons of `q` are not before those of `p`. -/
structure Advances (p q : Operands) : Prop where
  left : p.left.horizon.notAfter q.left.horizon = true
  right : p.right.horizon.notAfter q.right.horizon = true

variable {p q r : Operands} {first second : Producer} {left right left' right' : Signal} {side : Side}
  {update : Option Update} {s : Stamped}

theorem Advances.refl (p : Operands) : p.Advances p :=
  ⟨Horizon.notAfter_refl _, Horizon.notAfter_refl _⟩

theorem Advances.trans (hpq : p.Advances q) (hqr : q.Advances r) : p.Advances r :=
  ⟨Horizon.notAfter_trans hpq.left hqr.left, Horizon.notAfter_trans hpq.right hqr.right⟩

theorem Advances.earlier (hpq : p.Advances q) :
    (p.left.horizon.earlier p.right.horizon).notAfter (q.left.horizon.earlier q.right.horizon) = true :=
  Horizon.earlier_mono hpq.left hpq.right

theorem Advances.later (hpq : p.Advances q) {h : Horizon}
    (hle : h.notAfter (p.left.horizon.later p.right.horizon) = true) :
    h.notAfter (q.left.horizon.later q.right.horizon) = true := by
  rw [Horizon.notAfter_later] at hle ⊢
  exact hle.imp (Horizon.notAfter_trans · hpq.left) (Horizon.notAfter_trans · hpq.right)

theorem Attend.advances_receive (hp : p.Attend first second left right)
    (hhears : Signal.Hears update side left right left' right') : p.Advances (p.receive side update) := by
  cases hhears with
  | left hreads => exact ⟨hp.left.horizon_receive hreads, Horizon.notAfter_refl _⟩
  | right hreads => exact ⟨Horizon.notAfter_refl _, hp.right.horizon_receive hreads⟩

theorem Attend.advances_next? (hp : p.Attend first second left right) (hnext : p.next? = some (side, s, q)) :
    p.Advances q := by
  rcases next?_cases hnext with ⟨rfl, hleft⟩ | ⟨rfl, hright⟩
  · obtain ⟨rest, hpending, rfl, -⟩ := nextLeft?_eq_some hleft
    have hsplit : p.left.pending = [s] ++ rest := hpending
    exact ⟨hp.left.horizon_use hsplit, Horizon.notAfter_refl _⟩
  · obtain ⟨rest, hpending, rfl, -⟩ := nextRight?_eq_some hright
    have hsplit : p.right.pending = [s] ++ rest := hpending
    exact ⟨Horizon.notAfter_refl _, hp.right.horizon_use hsplit⟩

theorem Attend.of_next? (hp : p.Attend first second left right) (hnext : p.next? = some (side, s, q)) :
    q.Attend first second left right :=
  hp.of_await (await_of_next? hp.await_unread hnext) (reached_of_next? hnext) (isOpen_of_next? hnext)
    (pending_of_next? hnext)

theorem Attend.advances_drain (hp : p.Attend first second left right) : p.Advances p.drain.2 := by
  induction p using drain_induction with
  | stop p hnext =>
    rw [drain_of_none hnext]
    exact .refl p
  | release p side s q hnext ih =>
    rw [drain_of_some hnext]
    exact (hp.advances_next? hnext).trans (ih (hp.of_next? hnext))

theorem stamp_notAfter_of_next? (hnext : p.next? = some (side, s, q)) :
    (Horizon.known s.stamp).notAfter (p.left.horizon.earlier p.right.horizon) = true := by
  rw [Horizon.notAfter_earlier]
  rcases next?_cases hnext with ⟨rfl, hleft⟩ | ⟨rfl, hright⟩
  · obtain ⟨rest, hpending, -, hle⟩ := nextLeft?_eq_some hleft
    exact ⟨Operand.horizon_of_cons hpending ▸ Horizon.notAfter_refl _, hle⟩
  · obtain ⟨rest, hpending, -, hlt⟩ := nextRight?_eq_some hright
    exact ⟨Horizon.notAfter_of_not hlt, Operand.horizon_of_cons hpending ▸ Horizon.notAfter_refl _⟩

theorem promise_notAfter {x : Released} (hx : x ∈ p.promise) :
    (Horizon.known x.update.stamp).notAfter (p.left.horizon.earlier p.right.horizon) = true := by
  obtain ⟨stamp, hstamp, rfl⟩ := mem_promise.1 hx
  rw [Horizon.known_of_stamp? hstamp]
  exact Horizon.notAfter_refl _

/-- Nothing that is released is after the horizons that are left. -/
theorem Attend.drain_notAfter (hp : p.Attend first second left right) {x : Released} (hx : x ∈ p.drain.1) :
    (Horizon.known x.update.stamp).notAfter (p.drain.2.left.horizon.earlier p.drain.2.right.horizon) = true := by
  have hadvances := hp.advances_drain.earlier
  induction p using drain_induction with
  | stop p hnext =>
    rw [drain_of_none hnext] at hx ⊢
    exact promise_notAfter hx
  | release p side s q hnext ih =>
    have hq := hp.of_next? hnext
    rw [drain_of_some hnext] at hx hadvances ⊢
    rcases List.mem_append.1 hx with hx | hx
    · exact Horizon.notAfter_trans (promise_notAfter hx) hadvances
    rcases List.mem_cons.1 hx with rfl | hx
    · exact Horizon.notAfter_trans (stamp_notAfter_of_next? hnext) hadvances
    · exact ih hq hx hq.advances_drain.earlier

theorem Attend.advances_pairUp (hp : p.Attend first second left right) : p.Advances p.pairUp.2 :=
  ⟨hp.left.horizon_use (List.take_append_drop _ _).symm, hp.right.horizon_use (List.take_append_drop _ _).symm⟩

/-- No pair is after the later of the horizons that are left. -/
theorem Attend.pairUp_notAfter (hp : p.Attend first second left right) {u : Stamped} (hu : u ∈ p.pairUp.1) :
    (Horizon.known u.stamp).notAfter (p.pairUp.2.left.horizon.later p.pairUp.2.right.horizon) = true := by
  have hpairs : p.pairUp.1 = Stamped.zip (p.left.pending.take (min p.left.pending.length p.right.pending.length))
      (p.right.pending.take (min p.left.pending.length p.right.pending.length)) :=
    List.zipWith_eq_zipWith_take_min
  rw [hpairs] at hu
  obtain ⟨s, hs, t, ht, rfl⟩ := exists_of_mem_zip hu
  have hleft := hp.left.used_notAfter (List.take_append_drop _ _).symm hs
  have hright := hp.right.used_notAfter (List.take_append_drop _ _).symm ht
  rw [Horizon.notAfter_later]
  rcases Nat.le_total s.stamp t.stamp with hle | hle
  · right
    rw [Stamped.join, Nat.max_eq_right hle]
    exact hright
  · left
    rw [Stamped.join, Nat.max_eq_left hle]
    exact hleft

end Operands

/-! ### Modest tasks -/

theorem Outlet.frontier_sendAll_cases {out : Outlet} {us : List Update} {top : Nat}
    (hfrontier : (out.sendAll us).frontier = some top) :
    out.frontier = some top ∨ ∃ u ∈ us, u.stamp = top := by
  induction us generalizing out with
  | nil => exact .inl hfrontier
  | cons u rest ih =>
    rcases ih hfrontier with hsent | ⟨v, hv, hstamp⟩
    · rw [frontier_send_eq, Option.some_inj, raisedTo_eq] at hsent
      rcases Nat.le_total (out.frontier.getD 0) u.stamp with hle | hle
      · exact .inr ⟨u, List.mem_cons_self, (Nat.max_eq_right hle).symm.trans hsent⟩
      · cases hbefore : out.frontier with
        | none =>
          rw [hbefore, Option.getD_none, Nat.zero_max] at hsent
          exact .inr ⟨u, List.mem_cons_self, hsent⟩
        | some stamp =>
          rw [hbefore, Option.getD_some] at hsent hle
          exact .inl (congrArg some ((Nat.max_eq_left hle).symm.trans hsent))
    · exact .inr ⟨v, List.mem_cons_of_mem _ hv, hstamp⟩

namespace Task

/-- What the operands of a task allow it to promise. A chain passes on what it hears at once. -/
def bound : Task → Horizon
  | merge p | combineLatest p _ => p.left.horizon.earlier p.right.horizon
  | zip p => p.left.horizon.later p.right.horizon
  | chain _ => .done

/-- A task has not promised more than its operands allow. -/
def Modest (task : Task) (out : Outlet) : Prop :=
  ∀ top, out.frontier = some top → (Horizon.known top).notAfter task.bound = true

variable {task : Task} {out : Outlet} {first second : Producer} {left right left' right' : Signal} {side : Side}
  {update : Option Update}

theorem modest_start (kind : Join) : (start kind).Modest {} := by
  intro top hfrontier
  cases hfrontier

/-- What a task hears allows it to promise all that it sends, and all that it had promised. -/
theorem bound_receive (hattends : task.Attends first second left right)
    (hhears : Signal.Hears update side left right left' right') :
    (∀ h : Horizon, h.notAfter task.bound = true → h.notAfter (task.receive side update).2.bound = true) ∧
      ∀ u ∈ (task.receive side update).1, (Horizon.known u.stamp).notAfter (task.receive side update).2.bound = true := by
  cases task with
  | chain stage => exact hattends.elim
  | merge p =>
    have hp := Operands.Attend.receive hattends hhears
    have hadvances := (Operands.Attend.advances_receive hattends hhears).trans hp.advances_drain
    refine ⟨fun h hle => Horizon.notAfter_trans hle hadvances.earlier, fun u hu => ?_⟩
    obtain ⟨x, hx, rfl⟩ := List.mem_map.1 hu
    exact hp.drain_notAfter hx
  | combineLatest p latest =>
    have hp := Operands.Attend.receive hattends hhears
    have hadvances := (Operands.Attend.advances_receive hattends hhears).trans hp.advances_drain
    refine ⟨fun h hle => Horizon.notAfter_trans hle hadvances.earlier, fun u hu => ?_⟩
    obtain ⟨v, hv, hstamp⟩ := Latest.exists_of_mem_react latest hu
    obtain ⟨x, hx, rfl⟩ := List.mem_map.1 hv
    exact hstamp ▸ hp.drain_notAfter hx
  | zip p =>
    have hp := Operands.Attend.receive hattends hhears
    have hadvances := (Operands.Attend.advances_receive hattends hhears).trans hp.advances_pairUp
    refine ⟨fun h hle => hadvances.later hle, fun u hu => ?_⟩
    rcases List.mem_append.1 hu with hu | hu
    · obtain ⟨s, hs, rfl⟩ := List.mem_map.1 hu
      exact hp.pairUp_notAfter hs
    · obtain ⟨-, stamp, hstamp, rfl⟩ := Operands.mem_pairPromise.1 hu
      exact Horizon.known_of_stamp? hstamp ▸ Horizon.notAfter_refl _

theorem Modest.hear (hmodest : task.Modest out) (hattends : task.Attends first second left right)
    (hhears : Signal.Hears update side left right left' right') :
    (task.receive side update).2.Modest (out.sendAll (task.receive side update).1) := by
  obtain ⟨hkept, hsent⟩ := bound_receive hattends hhears
  intro top hfrontier
  rcases Outlet.frontier_sendAll_cases hfrontier with hbefore | ⟨u, hu, rfl⟩
  · exact hkept _ (hmodest top hbefore)
  · exact hsent u hu

/-- A task has finished once its operands allow it any promise. -/
theorem bound_eq_done (hattends : task.Attends first second left right) :
    task.bound = .done ↔ task.finished = true := by
  cases task with
  | chain stage => exact hattends.elim
  | merge p =>
    rw [bound, Horizon.earlier_eq_done, Operand.horizon_eq_done_iff, Operand.horizon_eq_done_iff]
    exact Bool.and_eq_true_iff.symm
  | combineLatest p latest =>
    rw [bound, Horizon.earlier_eq_done, Operand.horizon_eq_done_iff, Operand.horizon_eq_done_iff]
    exact Bool.and_eq_true_iff.symm
  | zip p =>
    rw [bound, Horizon.later_eq_done, Operand.horizon_eq_done_iff, Operand.horizon_eq_done_iff]
    exact Bool.or_eq_true_iff.symm

theorem Prompt.covers (hprompt : task.Prompt out) (hattends : task.Attends first second left right)
    (hmore : task.finished = false) {stamp : Nat} (hbound : task.bound = .known stamp) :
    TimedStreams.covers out.frontier stamp = true := by
  have hstamp : task.bound.stamp? = some stamp := congrArg Horizon.stamp? hbound
  cases task with
  | chain stage => exact hattends.elim
  | merge p => exact hprompt.2 stamp hstamp
  | combineLatest p latest => exact hprompt.2 stamp hstamp
  | zip p => exact hprompt.2 hmore stamp hstamp

/-- A prompt and modest task has promised exactly what its operands allow. -/
theorem Modest.frontier_eq (hmodest : task.Modest out) (hprompt : task.Prompt out)
    (hattends : task.Attends first second left right) (hmore : task.finished = false) :
    out.frontier = task.bound.stamp? := by
  cases hbound : task.bound with
  | done => exact absurd ((bound_eq_done hattends).1 hbound) (by simp [hmore])
  | unknown =>
    cases hfrontier : out.frontier with
    | none => rfl
    | some top =>
      have hle := hmodest top hfrontier
      rw [hbound] at hle
      cases hle
  | known stamp =>
    obtain ⟨top, hfrontier, hge⟩ := Outlet.covers_iff.1 (hprompt.covers hattends hmore hbound)
    have hle := hmodest top hfrontier
    rw [hbound, Horizon.notAfter, decide_eq_true_eq] at hle
    rw [hfrontier, Nat.le_antisymm hle hge]
    rfl

end Task

/-! ### Horizons of producers -/

def Update.latest? (us : List Update) : Option Nat :=
  us.getLast?.map stamp

theorem Update.Rises.eq_latest? {level top : Option Nat} {us : List Update} (hus : Rises level us top) :
    top = (latest? us).or level := by
  induction us generalizing level with
  | nil => exact hus.symm
  | cons u rest ih =>
    rw [ih hus.2, latest?, latest?, List.getLast?_cons]
    cases rest.getLast? <;> rfl

theorem Update.Rises.latest?_eq {us : List Update} {top : Option Nat} (hus : Rises none us top) :
    latest? us = top := by
  rw [hus.eq_latest?, Option.or_none]

namespace Stamped

/-- The events of one side. -/
def ofSide (side : Side) (xs : List (Side × Stamped)) : List Stamped :=
  (xs.filter (·.1 = side)).map Prod.snd

theorem ofSide_append (side : Side) (xs ys : List (Side × Stamped)) :
    ofSide side (xs ++ ys) = ofSide side xs ++ ofSide side ys := by
  simp [ofSide]

theorem interleave_cons_cons (s t : Stamped) (xs ys : List Stamped) : interleave (s :: xs) (t :: ys)
    = if s.stamp ≤ t.stamp then (.left, s) :: interleave xs (t :: ys) else (.right, t) :: interleave (s :: xs) ys := by
  by_cases hle : s.stamp ≤ t.stamp <;> simp [interleave, hle]

theorem ofSide_interleave (xs ys : List Stamped) :
    ofSide .left (interleave xs ys) = xs ∧ ofSide .right (interleave xs ys) = ys := by
  induction xs generalizing ys with
  | nil =>
    rw [interleave_nil_left]
    simp [ofSide, List.filter_map, Function.comp_def]
  | cons s xs ihxs =>
    induction ys with
    | nil =>
      rw [interleave_nil_right]
      simp [ofSide, List.filter_map, Function.comp_def]
    | cons t ys ihys =>
      rw [interleave_cons_cons]
      split
      · obtain ⟨hleft, hright⟩ := ihxs (t :: ys)
        exact ⟨congrArg (s :: ·) hleft, hright⟩
      · obtain ⟨hleft, hright⟩ := ihys
        exact ⟨hleft, congrArg (t :: ·) hright⟩

end Stamped

namespace Producer

/-- How far a producer has got, of whose events a reader has used some: the stamp of the first event that it
has not used, or else the latest stamp that was sent, if there may be more. -/
def horizonAfter (producer : Producer) (used : Nat) : Horizon :=
  match producer.events.drop used, producer.isOpen with
  | s :: _, _ => .known s.stamp
  | [], true => (latest? producer.channel.queue).elim .unknown .known
  | [], false => .done

/-- The number of events of one side in the settled beginning of both. -/
def released (side : Side) (first second : Producer) : Nat :=
  (ofSide side (releasable first second)).length

end Producer

/-- The latest stamp that a join of two producers promises, once it has heard all that they have sent. -/
def Join.promise? (kind : Join) (first second : Producer) : Option Nat :=
  match kind with
  | .merge | .combineLatest =>
    ((first.horizonAfter (Producer.released .left first second)).earlier
      (second.horizonAfter (Producer.released .right first second))).stamp?
  | .zip =>
    let pairs := min first.events.length second.events.length
    ((first.horizonAfter pairs).later (second.horizonAfter pairs)).stamp?
  | .chain =>
    ((first.channel.queue ++ if first.isOpen then [] else second.channel.queue).map Update.stamp).max?

/-! ### Tasks that have read all there is -/

theorem Operand.Attends.horizon_eq {o : Operand} {producer : Producer} {signal : Signal} {used : Nat}
    (ho : o.Attends producer signal) (hread : o.isOpen = true → signal.ReadUp)
    (hpending : o.pending = producer.events.drop used) : o.horizon = producer.horizonAfter used := by
  obtain ⟨read, hqueue, hrises, -⟩ := ho.received
  rw [ho.queue_eq_nil hread, List.append_nil] at hqueue
  rw [horizon, Producer.horizonAfter, ← hpending, hqueue, hrises.latest?_eq, ho.isOpen_eq hread]
  cases o.pending with
  | cons s rest => rfl
  | nil =>
    cases o.isOpen with
    | false => rfl
    | true => cases o.reached <;> rfl

theorem Operand.Attends.pending_suffix {o : Operand} {producer : Producer} {signal : Signal}
    (ho : o.Attends producer signal) (hempty : signal.outlet.queue = []) : o.pending <:+ producer.events := by
  obtain ⟨read, hqueue, -, hpending⟩ := ho.received
  rw [hempty, List.append_nil] at hqueue
  rw [Producer.events, hqueue]
  exact hpending

namespace Operands

variable {p : Operands} {released : List (Side × Stamped)} {first second : Producer} {left right : Signal}

/-- What has not been released of all that was sent is kept. -/
theorem Releasing.pending_eq (hreleasing : p.Releasing released first second left right)
    (hleft : left.outlet.queue = []) (hright : right.outlet.queue = []) :
    p.left.pending = first.events.drop (ofSide .left released).length ∧
      p.right.pending = second.events.drop (ofSide .right released).length := by
  have hsequence : interleave first.events second.events = released ++ interleave p.left.pending p.right.pending := by
    simpa [Operands.sequence, Signal.unread, hleft, hright] using hreleasing.sequence left.maySend_nil right.maySend_nil
  obtain ⟨hfirst, hsecond⟩ := ofSide_interleave first.events second.events
  obtain ⟨hkept, hkept'⟩ := ofSide_interleave p.left.pending p.right.pending
  rw [hsequence, ofSide_append, hkept] at hfirst
  rw [hsequence, ofSide_append, hkept'] at hsecond
  exact ⟨by rw [← hfirst, List.drop_left], by rw [← hsecond, List.drop_left]⟩

end Operands

namespace Task

variable {task : Task} {out : Outlet} {taken : List Update} {first second : Producer} {left right : Signal}

theorem Serves.bound_eq (hserves : task.Serves out taken first second left right)
    (hwaits : task.Waits left right) : task.bound.stamp? = task.kind.promise? first second := by
  obtain ⟨hattends, haccounts, hprompt, -⟩ := hserves
  have hreleased : ∀ {p : Operands} {released : List (Side × Stamped)}, p.Attend first second left right →
      p.Releasing released first second left right → p.next? = none → p.finished = false →
      (p.left.isOpen = true → left.ReadUp) ∧ (p.right.isOpen = true → right.ReadUp) →
      p.left.horizon = first.horizonAfter (Producer.released .left first second) ∧
        p.right.horizon = second.horizonAfter (Producer.released .right first second) := by
    intro p released hp hreleasing hnext hmore ⟨hleft, hright⟩
    obtain ⟨hpending, hpending'⟩ :=
      hreleasing.pending_eq (hp.left.queue_eq_nil hleft) (hp.right.queue_eq_nil hright)
    rw [hreleasing.eq_releasable hp hleft hright hnext hmore] at hpending hpending'
    exact ⟨hp.left.horizon_eq hleft hpending, hp.right.horizon_eq hright hpending'⟩
  cases task with
  | chain stage => exact hattends.elim
  | merge p =>
    obtain ⟨released, hreleasing⟩ := haccounts
    obtain ⟨hleft, hright⟩ :=
      hreleased hattends hreleasing hprompt.1 hwaits.unfinished (hwaits.readUp fun _ => rfl)
    rw [bound, hleft, hright]
    rfl
  | combineLatest p latest =>
    obtain ⟨released, hreleasing, -⟩ := haccounts
    obtain ⟨hleft, hright⟩ :=
      hreleased hattends hreleasing hprompt.1 hwaits.unfinished (hwaits.readUp fun _ => rfl)
    rw [bound, hleft, hright]
    rfl
  | zip p =>
    obtain ⟨hleft, hright⟩ := hwaits.readUp fun _ => rfl
    have hnothing := hattends.left.queue_eq_nil hleft
    have hnothing' := hattends.right.queue_eq_nil hright
    have hsuffix := hattends.left.pending_suffix hnothing
    have hsuffix' := hattends.right.pending_suffix hnothing'
    simp only [Accounts, Signal.unread, hnothing, hnothing', stampedOf_nil, List.length_nil] at haccounts
    -- One side keeps nothing, so all its events are in pairs, and the other keeps what it has sent beyond them.
    have hempty : p.left.pending.length = 0 ∨ p.right.pending.length = 0 :=
      hprompt.1.imp List.length_eq_zero_iff.2 List.length_eq_zero_iff.2
    have hle := hsuffix.length_le
    have hle' := hsuffix'.length_le
    have hused : first.events.length - p.left.pending.length = min first.events.length second.events.length := by
      omega
    have hused' : second.events.length - p.right.pending.length = min first.events.length second.events.length := by
      omega
    have hpending := hused ▸ List.suffix_iff_eq_drop.1 hsuffix
    have hpending' := hused' ▸ List.suffix_iff_eq_drop.1 hsuffix'
    rw [bound, hattends.left.horizon_eq hleft hpending, hattends.right.horizon_eq hright hpending']
    rfl

/-- A task that has read all there is has promised exactly what its producers allow. -/
theorem Serves.frontier_eq (hserves : task.Serves out taken first second left right) (hmodest : task.Modest out)
    (hwaits : task.Waits left right) : out.frontier = task.kind.promise? first second :=
  (hmodest.frontier_eq hserves.prompt hserves.attends hwaits.unfinished).trans (hserves.bound_eq hwaits)

end Task

end TimedStreams
