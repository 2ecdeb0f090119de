import TimedStreams.Proofs.Coherence

/-!
# When nothing more can happen

An evaluation is idle when no step is possible at the time that it is. `Signal.finish` is the
instant at which a signal completes, computed down the tree from the deadlines that are left. The
main result is `Coherent.beyond`: when a coherent tree is idle, every signal in it that has not
ended has promised more than the present and completes after it. So no task waits for what another
could tell it, and the next deadline is never later than the end of the evaluation.
-/

namespace TimedStreams

open Stamped Update

namespace Operands

variable {p : Operands}

/-- The next event of two operands is only held back by an open operand from which nothing is kept. -/
theorem open_of_next?_eq_none (hnext : p.next? = none) (hmore : p.finished = false) :
    (p.left.pending = [] ∧ p.left.isOpen = true) ∨ (p.right.pending = [] ∧ p.right.isOpen = true) := by
  simp only [next?, nextLeft?, nextRight?, finished, Operand.exhausted, Operand.horizon] at hnext hmore
  cases hleft : p.left.pending with
  | nil =>
    cases hopen : p.left.isOpen with
    | true => exact .inl ⟨rfl, rfl⟩
    | false =>
      cases hright : p.right.pending with
      | nil => simp_all
      | cons t rest => simp_all [Horizon.notAfter]
  | cons s rest =>
    cases hright : p.right.pending with
    | nil =>
      cases hopen : p.right.isOpen with
      | true => exact .inr ⟨rfl, rfl⟩
      | false => simp_all [Horizon.notAfter]
    | cons t rest' =>
      simp only [hleft, hright, Horizon.notAfter, decide_eq_true_eq] at hnext
      by_cases hle : s.stamp ≤ t.stamp <;> simp [hle] at hnext

theorem horizon_of_open {o : Operand} {low : Nat} (hpending : o.pending = []) (hopen : o.isOpen = true)
    (hlow : low < o.reached.getD 0) : ∃ stamp, o.horizon = .known stamp ∧ low < stamp := by
  cases hreached : o.reached with
  | none => simp [hreached] at hlow
  | some stamp =>
    refine ⟨stamp, ?_, by simpa [hreached] using hlow⟩
    rw [Operand.horizon, hpending, hopen, hreached]

theorem horizon_cases (o : Operand) : (∃ s rest, o.pending = s :: rest ∧ o.horizon = .known s.stamp) ∨
    (o.pending = [] ∧ o.isOpen = true) ∨ (o.pending = [] ∧ o.horizon = .done) := by
  cases hpending : o.pending with
  | cons s rest => exact .inl ⟨s, rest, rfl, by rw [Operand.horizon, hpending]⟩
  | nil =>
    cases hopen : o.isOpen with
    | true => exact .inr (.inl ⟨rfl, rfl⟩)
    | false => exact .inr (.inr ⟨rfl, by rw [Operand.horizon, hpending, hopen]⟩)

theorem reached_le_of_next?_eq_none {t : Stamped} {rest : List Stamped} (hnext : p.next? = none)
    (hnil : p.left.pending = []) (hopen : p.left.isOpen = true) (hpending : p.right.pending = t :: rest) :
    p.left.reached.getD 0 ≤ t.stamp := by
  refine Nat.le_of_not_lt fun hlate => ?_
  obtain ⟨stamp, hhorizon, hlt⟩ := horizon_of_open hnil hopen hlate
  have hle : stamp ≤ t.stamp := by
    simpa [hhorizon, Horizon.notAfter] using notAfter_of_next?_eq_none hnext hpending
  omega

theorem reached_lt_of_next?_eq_none {s : Stamped} {rest : List Stamped} (hnext : p.next? = none)
    (hnil : p.right.pending = []) (hopen : p.right.isOpen = true) (hpending : p.left.pending = s :: rest)
    (hreached : 0 < p.right.reached.getD 0) : p.right.reached.getD 0 < s.stamp := by
  refine Nat.lt_of_not_le fun hlate => ?_
  have hlow : s.stamp - 1 < p.right.reached.getD 0 := by omega
  obtain ⟨stamp, hhorizon, hle⟩ := horizon_of_open hnil hopen hlow
  have hlt : stamp < s.stamp := by
    simpa [hhorizon, Horizon.notAfter] using not_notAfter_of_next?_eq_none hnext hpending
  omega

/-- If nothing can be released although the open operands have got beyond `low`, the promise is beyond `low`. -/
theorem earlier_of_next?_eq_none {low : Nat} (hnext : p.next? = none) (hmore : p.finished = false)
    (hleft : p.left.isOpen = true → low < p.left.reached.getD 0)
    (hright : p.right.isOpen = true → low < p.right.reached.getD 0) :
    ∃ stamp, (p.left.horizon.earlier p.right.horizon).stamp? = some stamp ∧ low < stamp := by
  rcases open_of_next?_eq_none hnext hmore with ⟨hpending, hopen⟩ | ⟨hpending, hopen⟩
  · obtain ⟨k, hk, hlow⟩ := horizon_of_open hpending hopen (hleft hopen)
    rw [hk, Horizon.earlier]
    rcases horizon_cases p.right with ⟨t, rest, ht, hhorizon⟩ | ⟨hnil, hopen'⟩ | ⟨hnil, hhorizon⟩
    · rw [hhorizon, if_pos (hk ▸ notAfter_of_next?_eq_none hnext ht)]
      exact ⟨k, rfl, hlow⟩
    · obtain ⟨j, hj, hlow'⟩ := horizon_of_open hnil hopen' (hright hopen')
      rw [hj]
      split
      · exact ⟨k, rfl, hlow⟩
      · exact ⟨j, rfl, hlow'⟩
    · rw [hhorizon]
      exact ⟨k, rfl, hlow⟩
  · obtain ⟨j, hj, hlow⟩ := horizon_of_open hpending hopen (hright hopen)
    rw [hj, Horizon.earlier]
    rcases horizon_cases p.left with ⟨s, rest, hs, hhorizon⟩ | ⟨hnil, hopen'⟩ | ⟨hnil, hhorizon⟩
    · rw [hhorizon, if_neg (hj ▸ not_notAfter_of_next?_eq_none hnext hs)]
      exact ⟨j, rfl, hlow⟩
    · obtain ⟨k, hk, hlow'⟩ := horizon_of_open hnil hopen' (hleft hopen')
      rw [hk]
      split
      · exact ⟨k, rfl, hlow'⟩
      · exact ⟨j, rfl, hlow⟩
    · rw [hhorizon]
      exact ⟨j, rfl, hlow⟩

theorem later_of_not_unpairable {low : Nat} (hempty : p.left.pending = [] ∨ p.right.pending = [])
    (hmore : p.unpairable = false) (hleft : p.left.isOpen = true → low < p.left.reached.getD 0)
    (hright : p.right.isOpen = true → low < p.right.reached.getD 0) :
    ∃ stamp, (p.left.horizon.later p.right.horizon).stamp? = some stamp ∧ low < stamp := by
  have hknown : ∀ {o : Operand}, o.exhausted = false → (o.isOpen = true → low < o.reached.getD 0) →
      ∃ stamp, o.horizon = .known stamp ∧ (o.pending = [] → low < stamp) := by
    intro o hexhausted hopen
    rcases horizon_cases o with ⟨s, rest, hpending, hhorizon⟩ | ⟨hnil, hopen'⟩ | ⟨hnil, hhorizon⟩
    · exact ⟨s.stamp, hhorizon, fun hnil => absurd (hpending.symm.trans hnil) (List.cons_ne_nil _ _)⟩
    · obtain ⟨stamp, hstamp, hlow⟩ := horizon_of_open hnil hopen' (hopen hopen')
      exact ⟨stamp, hstamp, fun _ => hlow⟩
    · exact absurd (Operand.horizon_eq_done_iff.1 hhorizon) (by simp [hexhausted])
  obtain ⟨hleftMore, hrightMore⟩ := Bool.or_eq_false_iff.1 hmore
  obtain ⟨k, hk, hlowLeft⟩ := hknown hleftMore hleft
  obtain ⟨j, hj, hlowRight⟩ := hknown hrightMore hright
  rw [hk, hj, Horizon.later, Horizon.notAfter]
  rcases hempty with hnil | hnil
  · have hlow := hlowLeft hnil
    split
    · next hle => exact ⟨j, rfl, hlow.trans_le (of_decide_eq_true hle)⟩
    · exact ⟨k, rfl, hlow⟩
  · have hlow := hlowRight hnil
    split
    · exact ⟨j, rfl, hlow⟩
    · next hle =>
      rw [decide_eq_true_eq] at hle
      exact ⟨k, rfl, by omega⟩

end Operands

namespace Signal

/-- The instant at which a signal completes if every replay wakes at its deadline. -/
def finish : Signal → Nat
  | replay _ next rest => topStamp (next :: rest)
  | manual _ _ | ended _ => 0
  | adjacentPairs _ _ source => source.finish
  | join _ task left right => task.finish left.remaining right.remaining left.finish right.finish

def Idle (due : Nat → Prop) (signal : Signal) : Prop :=
  ∀ signal', ¬ signal.Step due signal'

/-- A signal that a reader has read up to, and that has not ended. -/
structure ReadUp (signal : Signal) : Prop where
  queue_eq : signal.outlet.queue = []
  open_ : signal.hasEnded = false

variable {due : Nat → Prop} {out : Outlet} {task : Task} {previous : Option Event}
  {signal source left right : Signal}

theorem readUp_of_not_reads (hnone : ∀ update signal', ¬ signal.Reads update signal') : signal.ReadUp := by
  have hqueue : signal.outlet.queue = [] := by
    cases hqueue : signal.outlet.queue with
    | nil => rfl
    | cons u rest => exact absurd (.update hqueue) (hnone _ _)
  refine ⟨hqueue, Bool.eq_false_iff.2 ?_⟩
  intro hended
  exact hnone _ _ (.done hended hqueue)

theorem Idle.source_readUp (hidle : (adjacentPairs out previous source).Idle due) :
    source.Idle due ∧ source.ReadUp := by
  refine ⟨fun source' hstep => hidle _ (.source hstep), readUp_of_not_reads ?_⟩
  intro update source' hreads
  cases update with
  | some u => exact hidle _ (.pair hreads)
  | none => exact hidle _ (.close hreads)

theorem Idle.left_readUp (hidle : (join out task left right).Idle due) :
    left.Idle due ∧ (task.wants .left = true → left.ReadUp) := by
  refine ⟨fun left' hstep => hidle _ (.left hstep), fun hwants => readUp_of_not_reads ?_⟩
  intro update left' hreads
  exact hidle _ (.hear hwants (.left hreads))

theorem Idle.right_readUp (hidle : (join out task left right).Idle due) :
    right.Idle due ∧ (task.wants .right = true → right.ReadUp) := by
  refine ⟨fun right' hstep => hidle _ (.right hstep), fun hwants => readUp_of_not_reads ?_⟩
  intro update right' hreads
  exact hidle _ (.hear hwants (.right hreads))

/-- A signal that has promised more than `low` and completes after it. -/
structure Beyond (low : Nat) (signal : Signal) : Prop where
  reach : low < signal.outlet.reach
  finish : low < signal.finish

theorem Beyond.future_from {low : Nat} (hbeyond : signal.Beyond low) (hread : signal.ReadUp) :
    From (low + 1) signal.remaining := by
  rw [remaining_eq, hread.queue_eq, stampedOf_nil, List.nil_append]
  exact signal.future_from.mono hbeyond.reach

end Signal

theorem Operand.Follows.reached_of_readUp {o : Operand} {signal : Signal} (hfollows : o.Follows signal)
    (hread : signal.ReadUp) : o.reached.getD 0 = signal.outlet.reach := by
  have hrises := hfollows.rises
  rw [hread.queue_eq, rises_nil] at hrises
  rw [hrises, Outlet.reach]

theorem Operand.Follows.lt_reached {o : Operand} {signal : Signal} {low : Nat} (hfollows : o.Follows signal)
    (hsignal : o.isOpen = true → signal.ReadUp ∧ signal.Beyond low) (hopen : o.isOpen = true) :
    low < o.reached.getD 0 := by
  obtain ⟨hread, hbeyond⟩ := hsignal hopen
  rw [hfollows.reached_of_readUp hread]
  exact hbeyond.reach

theorem Task.wants_of_isOpen {task : Task} {p : Operands} {side : Side}
    (hp : ∀ side, task.wants side = (!task.finished && p.isOpen side)) (hmore : task.finished = false)
    (hopen : p.isOpen side = true) : task.wants side = true := by
  rw [hp, hmore, hopen]
  rfl

namespace Operands

variable {p : Operands} {out : Outlet} {left right : Signal} {low : Nat}

theorem Follow.beyond_of_next? (hfollow : p.Follow left right) (hnext : p.next? = none)
    (hmore : p.finished = false)
    (hpromise : ∀ stamp, (p.left.horizon.earlier p.right.horizon).stamp? = some stamp →
      covers out.frontier stamp = true)
    (hleft : p.left.isOpen = true → left.ReadUp ∧ left.Beyond low)
    (hright : p.right.isOpen = true → right.ReadUp ∧ right.Beyond low) :
    low < out.reach ∧ low < max left.finish right.finish := by
  have hreachedLeft := hfollow.left.lt_reached hleft
  have hreachedRight := hfollow.right.lt_reached hright
  obtain ⟨stamp, hstamp, hlow⟩ := earlier_of_next?_eq_none hnext hmore hreachedLeft hreachedRight
  refine ⟨hlow.trans_le (Outlet.le_reach_of_covers (hpromise stamp hstamp)), ?_⟩
  rcases open_of_next?_eq_none hnext hmore with ⟨-, hopen⟩ | ⟨-, hopen⟩
  · exact (hleft hopen).2.finish.trans_le (Nat.le_max_left _ _)
  · exact (hright hopen).2.finish.trans_le (Nat.le_max_right _ _)

theorem Follow.beyond_of_pairs (hfollow : p.Follow left right)
    (hempty : p.left.pending = [] ∨ p.right.pending = [])
    (hmore : p.unpairable = false)
    (hpromise : ∀ stamp, (p.left.horizon.later p.right.horizon).stamp? = some stamp →
      covers out.frontier stamp = true)
    (hleft : p.left.isOpen = true → left.ReadUp ∧ left.Beyond low)
    (hright : p.right.isOpen = true → right.ReadUp ∧ right.Beyond low) :
    low < out.reach ∧ low < zipEnd (p.left.pending ++ left.remaining) (p.right.pending ++ right.remaining)
      left.finish right.finish := by
  have hreachedLeft := hfollow.left.lt_reached hleft
  have hreachedRight := hfollow.right.lt_reached hright
  obtain ⟨stamp, hstamp, hlow⟩ := later_of_not_unpairable hempty hmore hreachedLeft hreachedRight
  refine ⟨hlow.trans_le (Outlet.le_reach_of_covers (hpromise stamp hstamp)), ?_⟩
  obtain ⟨hmoreLeft, hmoreRight⟩ := Bool.or_eq_false_iff.1 hmore
  have hopenOf : ∀ {o : Operand}, o.exhausted = false → o.pending = [] → o.isOpen = true := by
    intro o hexhausted hnil
    simpa [Operand.exhausted, hnil] using hexhausted
  rcases hempty with hnil | hnil
  · obtain ⟨hread, hbeyond⟩ := hleft (hopenOf hmoreLeft hnil)
    rw [hnil, List.nil_append]
    cases hopen : p.right.isOpen with
    | true => exact lt_zipEnd _ _ hbeyond.finish (hright hopen).2.finish
    | false =>
      refine lt_zipEnd_left _ hbeyond.finish (hbeyond.future_from hread) ?_
      intro hright
      simp [Operand.exhausted, hopen, (List.append_eq_nil_iff.1 hright).1] at hmoreRight
  · obtain ⟨hread, hbeyond⟩ := hright (hopenOf hmoreRight hnil)
    rw [hnil, List.nil_append]
    cases hopen : p.left.isOpen with
    | true => exact lt_zipEnd _ _ (hleft hopen).2.finish hbeyond.finish
    | false =>
      refine lt_zipEnd_right _ hbeyond.finish (hbeyond.future_from hread) ?_
      intro hleft
      simp [Operand.exhausted, hopen, (List.append_eq_nil_iff.1 hleft).1] at hmoreLeft

end Operands

namespace Signal

/-- If the tree is idle, whatever has not ended is beyond the present. -/
theorem Coherent.beyond {now : Nat} {signal : Signal} (hsignal : signal.Coherent)
    (hidle : signal.Idle (· ≤ now)) :
    signal.hasEnded = true ∨ signal.Beyond now := by
  induction signal with
  | manual out name => exact hsignal.elim
  | ended out => exact .inl rfl
  | replay out next rest =>
    have hlate : now < next.stamp := Nat.lt_of_not_le fun hdue => hidle _ (.wake hdue)
    exact .inr ⟨hlate.trans_le hsignal.2, hlate.trans_le (Nat.le_max_left _ _)⟩
  | adjacentPairs out previous source ih =>
    obtain ⟨-, hrises, hsource⟩ := hsignal
    obtain ⟨hidleSource, hread⟩ := hidle.source_readUp
    rw [hread.queue_eq, rises_nil] at hrises
    rcases ih hsource hidleSource with hended | hbeyond
    · exact absurd hended (by simp [hread.open_])
    · refine .inr ⟨?_, hbeyond.finish⟩
      rw [outlet, Outlet.reach, hrises]
      exact hbeyond.reach
  | join out task left right ihleft ihright =>
    obtain ⟨-, hmore, hfollows, hprompt, hcleft, hcright⟩ := hsignal
    obtain ⟨hidleLeft, hreadLeft⟩ := hidle.left_readUp
    obtain ⟨hidleRight, hreadRight⟩ := hidle.right_readUp
    -- An operand that the task waits for has been read up, so it has not ended and is beyond the present itself.
    have hleft : task.wants .left = true → left.ReadUp ∧ left.Beyond now := fun hwants =>
      ⟨hreadLeft hwants, (ihleft hcleft hidleLeft).resolve_left (by simp [(hreadLeft hwants).open_])⟩
    have hright : task.wants .right = true → right.ReadUp ∧ right.Beyond now := fun hwants =>
      ⟨hreadRight hwants, (ihright hcright hidleRight).resolve_left (by simp [(hreadRight hwants).open_])⟩
    right
    cases task with
    | chain stage =>
      cases stage with
      | finished => cases hmore
      | left =>
        obtain ⟨hread, hbeyond⟩ := hleft rfl
        have hrises := hfollows.1
        rw [hread.queue_eq, rises_nil] at hrises
        refine ⟨?_, hbeyond.finish.trans_le (Nat.le_max_left _ _)⟩
        rw [outlet, Outlet.reach, hrises]
        exact hbeyond.reach
      | right =>
        obtain ⟨hread, hbeyond⟩ := hright rfl
        obtain ⟨-, level, hrises, hreach⟩ := hfollows
        rw [hread.queue_eq, rises_nil] at hrises
        refine ⟨?_, hbeyond.finish.trans_le (Nat.le_max_right _ _)⟩
        rw [outlet, hreach, hrises]
        exact hbeyond.reach.trans_le (Nat.le_max_right _ _)
    | merge p =>
      obtain ⟨hreach, hfinish⟩ := hfollows.1.beyond_of_next? hprompt.1 hmore hprompt.2
        (fun hopen => hleft (Task.wants_of_isOpen (fun _ => rfl) hmore hopen))
        (fun hopen => hright (Task.wants_of_isOpen (fun _ => rfl) hmore hopen))
      exact ⟨hreach, hfinish⟩
    | combineLatest p latest =>
      obtain ⟨hreach, hfinish⟩ := hfollows.1.beyond_of_next? hprompt.1 hmore hprompt.2
        (fun hopen => hleft (Task.wants_of_isOpen (fun _ => rfl) hmore hopen))
        (fun hopen => hright (Task.wants_of_isOpen (fun _ => rfl) hmore hopen))
      exact ⟨hreach, hfinish⟩
    | zip p =>
      obtain ⟨hreach, hfinish⟩ := hfollows.1.beyond_of_pairs hprompt.1 hmore (hprompt.2 hmore)
        (fun hopen => hleft (Task.wants_of_isOpen (fun _ => rfl) hmore hopen))
        (fun hopen => hright (Task.wants_of_isOpen (fun _ => rfl) hmore hopen))
      exact ⟨hreach, hfinish⟩

/-! ### The next deadline -/

theorem exists_le_merge_left {x y : Option Nat} {low : Nat} (hx : ∃ wake, x = some wake ∧ wake ≤ low) :
    ∃ wake, x.merge min y = some wake ∧ wake ≤ low := by
  obtain ⟨wake, rfl, hle⟩ := hx
  cases y with
  | none => exact ⟨wake, rfl, hle⟩
  | some other => exact ⟨min wake other, rfl, (Nat.min_le_left _ _).trans hle⟩

theorem exists_le_merge_right {x y : Option Nat} {low : Nat} (hy : ∃ wake, y = some wake ∧ wake ≤ low) :
    ∃ wake, x.merge min y = some wake ∧ wake ≤ low := by
  obtain ⟨wake, rfl, hle⟩ := hy
  cases x with
  | none => exact ⟨wake, rfl, hle⟩
  | some other => exact ⟨min other wake, rfl, (Nat.min_le_right _ _).trans hle⟩

/-- A step that is not possible at all times wakes a replay, at a deadline that the tree is asleep towards. -/
theorem Step.or_wake {due' : Nat → Prop} {signal signal' : Signal} (clock : Clock) (due : Nat → Prop)
    (hstep : signal.Step due' signal') :
    (∃ other, signal.Step due other) ∨
      ∃ stamp, due' stamp ∧ ∃ wake, signal.nextWake clock = some wake ∧ wake ≤ clock.wakeAt stamp := by
  induction hstep with
  | @wake out next rest hdue => exact .inr ⟨next.stamp, hdue, _, rfl, le_rfl⟩
  | pair hreads => exact .inl ⟨_, .pair hreads⟩
  | close hreads => exact .inl ⟨_, .close hreads⟩
  | hear hwants hhears => exact .inl ⟨_, .hear hwants hhears⟩
  | source hstep ih =>
    rcases ih with ⟨other, hother⟩ | hwake
    · exact .inl ⟨_, .source hother⟩
    · exact .inr hwake
  | left hstep ih =>
    rcases ih with ⟨other, hother⟩ | ⟨stamp, hdue, hwake⟩
    · exact .inl ⟨_, .left hother⟩
    · exact .inr ⟨stamp, hdue, exists_le_merge_left hwake⟩
  | right hstep ih =>
    rcases ih with ⟨other, hother⟩ | ⟨stamp, hdue, hwake⟩
    · exact .inl ⟨_, .right hother⟩
    · exact .inr ⟨stamp, hdue, exists_le_merge_right hwake⟩

/-- The next deadline of a join is that of one of its operands. -/
theorem nextWake_join {clock : Clock} {out : Outlet} {task : Task} {left right : Signal} {wake : Nat}
    (hnext : (join out task left right).nextWake clock = some wake) :
    left.nextWake clock = some wake ∨ right.nextWake clock = some wake := by
  simp only [nextWake] at hnext
  cases hleft : left.nextWake clock with
  | none =>
    rw [hleft, Option.merge_none_left] at hnext
    exact .inr hnext
  | some w =>
    cases hright : right.nextWake clock with
    | none =>
      rw [hleft, hright, Option.merge_none_right] at hnext
      exact .inl hnext
    | some w' =>
      rw [hleft, hright] at hnext
      obtain rfl := Option.some.inj hnext
      rcases Nat.le_total w w' with hle | hle
      · exact .inl (congrArg some (Nat.min_eq_left hle).symm)
      · exact .inr (congrArg some (Nat.min_eq_right hle).symm)

theorem exists_step_of_nextWake (due : Nat → Prop) {clock : Clock} {signal : Signal} {wake : Nat}
    (hnext : signal.nextWake clock = some wake) (hdue : ∀ stamp, clock.wakeAt stamp = wake → due stamp) :
    ∃ signal', signal.Step due signal' := by
  induction signal with
  | manual out name => cases hnext
  | ended out => cases hnext
  | replay out next rest => exact ⟨_, .wake (hdue _ (Option.some.inj hnext))⟩
  | adjacentPairs out previous source ih =>
    obtain ⟨source', hstep⟩ := ih hnext
    exact ⟨_, .source hstep⟩
  | join out task left right ihleft ihright =>
    rcases nextWake_join hnext with hleft | hright
    · obtain ⟨left', hstep⟩ := ihleft hleft
      exact ⟨_, .left hstep⟩
    · obtain ⟨right', hstep⟩ := ihright hright
      exact ⟨_, .right hstep⟩

theorem Idle.of_nextWake_none {due due' : Nat → Prop} {clock : Clock} {signal : Signal}
    (hidle : signal.Idle due)
    (hnext : signal.nextWake clock = none) : signal.Idle due' := by
  intro signal' hstep
  rcases hstep.or_wake clock due with ⟨other, hother⟩ | ⟨-, -, wake, hwake, -⟩
  · exact hidle other hother
  · exact absurd (hnext.symm.trans hwake) (by simp)

theorem Idle.until {due : Nat → Prop} {signal : Signal} {wake now : Nat} (hidle : signal.Idle due)
    (hnext : signal.nextWake .exact = some wake) (hbefore : now < wake) : signal.Idle (· ≤ now) := by
  intro signal' hstep
  rcases hstep.or_wake .exact due with ⟨other, hother⟩ | ⟨stamp, hdue, wake', hwake, hle⟩
  · exact hidle other hother
  · obtain rfl := Option.some.inj (hnext.symm.trans hwake)
    exact absurd hbefore (Nat.not_lt.2 (hle.trans hdue))

theorem Idle.before {due : Nat → Prop} {signal : Signal} {low later : Nat} (hidle : signal.Idle due)
    (hnext : ∀ wake, signal.nextWake .exact = some wake → later ≤ wake) (hlow : low < later) :
    signal.Idle (· ≤ low) := by
  cases hwake : signal.nextWake .exact with
  | none => exact hidle.of_nextWake_none hwake
  | some wake => exact hidle.until hwake (hlow.trans_le (hnext wake hwake))

theorem Idle.lt_nextWake {signal : Signal} {wake now : Nat} (hidle : signal.Idle (· ≤ now))
    (hnext : signal.nextWake .exact = some wake) : now < wake := by
  refine Nat.lt_of_not_le fun hdue => ?_
  obtain ⟨signal', hstep⟩ := exists_step_of_nextWake (· ≤ now) hnext fun stamp hstamp => by
    rw [show stamp = wake from hstamp]
    exact hdue
  exact hidle signal' hstep

/-- A coherent tree in which nothing can ever happen has ended. -/
theorem Coherent.hasEnded_of_idle {signal : Signal} (hsignal : signal.Coherent)
    (hidle : ∀ due, signal.Idle due) :
    signal.hasEnded = true := by
  rcases hsignal.beyond (hidle (· ≤ signal.outlet.reach)) with hended | hbeyond
  · exact hended
  · exact absurd hbeyond.reach (Nat.lt_irrefl _)

end Signal

end TimedStreams
