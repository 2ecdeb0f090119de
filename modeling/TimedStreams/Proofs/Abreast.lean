import TimedStreams.Proofs.Merging

/-!
# When merging interleaves what is delivered

A `merge` goes by the stamps of its operands, but what its reader sees are the instants at which the
events come. `Signal.Abreast` says when both agree: at every instant each operand has promised to be
past what the other sends, and among the events of one instant the stamps put those of the left
first. Then the merge delivers exactly what its operands deliver on their own, interleaved by
instant, and otherwise it does not (`Live.complete_merge_iff`).

That it is needed is shown by what an operand may still do. If it has not got as far as an event of
the other, it may still send one that comes before it, and as the task cannot know which, it has to
hold the other back.
-/

namespace TimedStreams

open Stamped Update

theorem Stamped.exists_other (e : Event) (stamp : Nat) :
    ∃ other : Stamped, other.event ≠ e ∧ other.stamp = stamp := by
  refine ⟨⟨Event.combined e e, stamp⟩, fun hsame => ?_, rfl⟩
  have hsize := congrArg (fun e : Event => sizeOf e.id) hsame
  simp [Event.combined] at hsize

/-- If nothing can be released although each open operand has got past what is kept of the other, nothing is kept. -/
theorem Operands.pending_eq_nil_of_next?_eq_none {p : Operands} (hnext : p.next? = none) (hmore : p.finished = false)
    (hleft : p.left.isOpen = true → ∀ t ∈ p.right.pending, t.stamp < p.left.reached.getD 0)
    (hright : p.right.isOpen = true → ∀ s ∈ p.left.pending,
      s.stamp ≤ p.right.reached.getD 0 ∧ 0 < p.right.reached.getD 0) :
    p.left.pending = [] ∧ p.right.pending = [] := by
  rcases open_of_next?_eq_none hnext hmore with ⟨hnil, hopen⟩ | ⟨hnil, hopen⟩
  · refine ⟨hnil, ?_⟩
    cases hpending : p.right.pending with
    | nil => rfl
    | cons t rest =>
      have hpassed := hleft hopen t (hpending ▸ List.mem_cons_self)
      exact absurd (reached_le_of_next?_eq_none hnext hnil hopen hpending) (Nat.not_le.2 hpassed)
  · refine ⟨?_, hnil⟩
    cases hpending : p.left.pending with
    | nil => rfl
    | cons s rest =>
      obtain ⟨hpassed, hpositive⟩ := hright hopen s (hpending ▸ List.mem_cons_self)
      exact absurd (reached_lt_of_next?_eq_none hnext hnil hopen hpending hpositive) (Nat.not_lt.2 hpassed)

namespace Signal

/-- Nothing that is stamped before `stamp` can still come. -/
def Passed (signal : Signal) (stamp : Nat) : Prop :=
  signal.hasEnded = true ∨ stamp ≤ signal.outlet.reach

/-- At every instant two signals have each passed what the other sends, and of what both send at one
instant the left comes first. -/
structure Abreast (left right : Signal) : Prop where
  left_passed : ∀ now, ∀ s ∈ left.sentAt now, (right.before (now + 1)).Passed s.stamp
  right_passed : ∀ now, ∀ s ∈ right.sentAt now, (left.before (now + 1)).Passed (s.stamp + 1)
  left_first : ∀ now, (merge (left.sentAt now) (right.sentAt now)).map Stamped.event
    = (left.sentAt now ++ right.sentAt now).map Stamped.event

variable {signal left right : Signal} {now stamp : Nat}

theorem mem_sentBefore {s : Stamped} :
    s ∈ signal.sentBefore now ↔ ∃ earlier, earlier < now ∧ s ∈ signal.sentAt earlier := by
  induction now with
  | zero => simp [sentBefore]
  | succ now ih =>
    rw [sentBefore, List.mem_append, ih]
    constructor
    · rintro (⟨earlier, hearlier, hs⟩ | hs)
      · exact ⟨earlier, hearlier.trans (Nat.lt_succ_self now), hs⟩
      · exact ⟨now, Nat.lt_succ_self now, hs⟩
    · rintro ⟨earlier, hearlier, hs⟩
      rcases Nat.lt_succ_iff_lt_or_eq.1 hearlier with hlt | rfl
      · exact .inl ⟨earlier, hlt, hs⟩
      · exact .inr hs

/-- What has been passed stays passed. -/
theorem Passed.mono (hsignal : signal.Coherent) (hpassed : (signal.before now).Passed stamp) {later : Nat}
    (hlater : now ≤ later) : (signal.before later).Passed stamp := by
  induction later, hlater using Nat.le_induction with
  | base => exact hpassed
  | succ later _ ih =>
    have hrun := settle_run .exact later (coherent_before hsignal later)
    have hsettled : ((signal.before later).settle .exact later).Passed stamp := by
      generalize (signal.before later).settle .exact later = settled at hrun
      induction hrun with
      | refl => exact ih
      | tail _ hstep hpassed =>
        obtain ⟨us, hus⟩ := hstep.outlet
        refine .inr ?_
        rw [hus]
        refine (hpassed.resolve_left ?_).trans (Outlet.reach_le_reach_sendAll _ us)
        simp [hstep.hasEnded]
    rw [before_succ, Passed, hasEnded_withQueue, outlet_withQueue]
    exact hsettled

/-- What has been passed is not sent any more. -/
theorem Passed.from_sentAt (hsignal : signal.Fresh) (hpassed : (signal.before now).Passed stamp) :
    From stamp (signal.sentAt now) := by
  have hsent := maySend_before hsignal (maySend_nil (signal.before (now + 1)))
  rw [List.append_nil] at hsent
  rcases hpassed with hended | hreach
  · exact hsent.closed hended ▸ from_nil _
  · exact hsent.from_reach.mono hreach

/-! ### Nothing is held back -/

theorem merge_append_future (hleft : left.Fresh) (hright : right.Fresh)
    (hsent : (ofJoin .merge left right).sentBefore now = merge (left.sentBefore now) (right.sentBefore now)) :
    ∃ floor, ∀ future future', (left.before now).MaySend future → (right.before now).MaySend future' →
      merge (left.sentBefore now ++ future) (right.sentBefore now ++ future')
        = merge (left.sentBefore now) (right.sentBefore now) ++ raiseAll floor (merge future future') := by
  have hjoin := fresh_ofJoin .merge hleft hright
  obtain ⟨p, out, hbefore, hmerging⟩ := merging_before hleft hright now
  have hqueue := stampedOf_queue_before hjoin now
  rw [hbefore, Worker.outlet_signal] at hqueue
  have hnow := (hmerging [] [] (maySend_nil _) (maySend_nil _)).merges
  rw [hqueue, hsent] at hnow
  simp only [List.append_nil, List.nil_append, List.append_right_eq_self] at hnow
  have hkept : merge p.left.pending p.right.pending = [] := List.map_eq_nil_iff.1 hnow
  have hlengths := length_merge p.left.pending p.right.pending
  rw [hkept, List.length_nil] at hlengths
  have hpendingLeft : p.left.pending = [] := List.length_eq_zero_iff.1 (by omega)
  have hpendingRight : p.right.pending = [] := List.length_eq_zero_iff.1 (by omega)
  refine ⟨out.reach, fun future future' hfuture hfuture' => ?_⟩
  have hmerges := (hmerging future future' hfuture hfuture').merges
  rw [hqueue, hsent, hpendingLeft, hpendingRight] at hmerges
  exact hmerges.symm

/-- A merge that has sent as many events as its operands has sent all of them. -/
theorem sentBefore_merge_of_length (hleft : left.Fresh) (hright : right.Fresh)
    (hlength : ((ofJoin .merge left right).sentBefore now).length
      = (left.sentBefore now).length + (right.sentBefore now).length) :
    (ofJoin .merge left right).sentBefore now = merge (left.sentBefore now) (right.sentBefore now) := by
  obtain ⟨p, out, hbefore, hmerging⟩ := merging_before hleft hright now
  have hnow := (hmerging [] [] (maySend_nil _) (maySend_nil _)).merges
  simp only [List.append_nil] at hnow
  have hlengths := congrArg List.length hnow
  rw [length_merge, List.length_append, hlength] at hlengths
  have hrest := List.length_eq_zero_iff.1 (Nat.add_eq_left.1 hlengths)
  rw [hrest, List.append_nil] at hnow
  exact hnow

theorem exists_last_sentBefore (hsignal : signal.Fresh) {s : Stamped} (hs : s ∈ signal.sentBefore now) :
    ∃ xs last, signal.sentBefore now = xs ++ [last] ∧ s.stamp ≤ last.stamp := by
  have hascending := (maySend_sentBefore hsignal (maySend_nil (signal.before now))).ascending
  rw [List.append_nil] at hascending
  rcases List.eq_nil_or_concat' (signal.sentBefore now) with hnil | ⟨xs, last, hlast⟩
  · exact absurd hs (hnil ▸ List.not_mem_nil)
  · refine ⟨xs, last, hlast, ?_⟩
    rw [hlast] at hs hascending
    rcases List.mem_append.1 hs with hs | hs
    · exact (ascending_append.1 hascending).2.2 s hs last (List.mem_singleton_self _)
    · exact (List.mem_singleton.1 hs ▸ le_rfl)

/-- An operand that has not passed an event of the other may still send one that comes before it, so a
merge that holds nothing back has operands that have. -/
theorem passed_of_sentBefore_merge (hleft : left.Fresh) (hright : right.Fresh)
    (hsent : (ofJoin .merge left right).sentBefore now = merge (left.sentBefore now) (right.sentBefore now)) :
    (∀ s ∈ left.sentBefore now, (right.before now).Passed s.stamp) ∧
      (∀ s ∈ right.sentBefore now, (left.before now).Passed (s.stamp + 1)) := by
  obtain ⟨floor, hmore⟩ := merge_append_future hleft hright hsent
  constructor
  · intro s hs
    cases hended : (right.before now).hasEnded with
    | true => exact .inl hended
    | false =>
      refine .inr (Nat.le_of_not_lt fun hlate => ?_)
      obtain ⟨xs, last, hlast, hle⟩ := exists_last_sentBefore hleft hs
      obtain ⟨next, hother, hnext⟩ := exists_other last.event (right.before now).outlet.reach
      have hfuture := hmore [] [next] (maySend_nil _) (maySend_singleton hended hnext.ge)
      have hearlier : ∀ t ∈ right.sentBefore now ++ [next], t.stamp < last.stamp := by
        intro t ht
        have hreach : t.stamp ≤ (right.before now).outlet.reach := by
          rcases List.mem_append.1 ht with ht | ht
          · exact upTo_sentBefore hright hended t ht
          · exact (List.mem_singleton.1 ht ▸ hnext.le)
        omega
      rw [List.append_nil, hlast, merge_concat_left hearlier, merge_nil_left] at hfuture
      have hsame := List.cons.inj (List.append_inj' hfuture rfl).2
      exact hother (congrArg Stamped.event hsame.1).symm
  · intro s hs
    cases hended : (left.before now).hasEnded with
    | true => exact .inl hended
    | false =>
      refine .inr (Nat.succ_le_of_lt (Nat.lt_of_not_le fun hlate => ?_))
      obtain ⟨ys, last, hlast, hle⟩ := exists_last_sentBefore hright hs
      obtain ⟨next, hother, hnext⟩ := exists_other last.event (left.before now).outlet.reach
      have hfuture := hmore [next] [] (maySend_singleton hended hnext.ge) (maySend_nil _)
      have hearlier : UpTo last.stamp (left.sentBefore now ++ [next]) := by
        refine upTo_append.2 ⟨(upTo_sentBefore hleft hended).mono (hlate.trans hle), ?_⟩
        exact upTo_cons.2 ⟨hnext.le.trans (hlate.trans hle), upTo_nil _⟩
      rw [List.append_nil, hlast, merge_concat_right hearlier, merge_nil_right] at hfuture
      have hsame := List.cons.inj (List.append_inj' hfuture rfl).2
      exact hother (congrArg Stamped.event hsame.1).symm

/-- If each operand has passed what the other has sent, the task holds nothing back. -/
theorem sentBefore_merge_of_passed (hleft : left.Fresh) (hright : right.Fresh)
    (hpassedLeft : ∀ s ∈ left.sentBefore now, (right.before now).Passed s.stamp)
    (hpassedRight : ∀ s ∈ right.sentBefore now, (left.before now).Passed (s.stamp + 1)) :
    (ofJoin .merge left right).sentBefore now = merge (left.sentBefore now) (right.sentBefore now) := by
  have hjoin := fresh_ofJoin .merge hleft hright
  obtain ⟨p, out, hbefore, hmerging⟩ := merging_before hleft hright now
  obtain ⟨hawait, hkeptLeft, hkeptRight, hmerges⟩ := hmerging [] [] (maySend_nil _) (maySend_nil _)
  simp only [List.append_nil] at hkeptLeft hkeptRight hmerges
  have hcoherent := coherent_before hjoin.coherent now
  have hqueue := stampedOf_queue_before hjoin now
  rw [hbefore] at hcoherent hqueue
  rw [Worker.outlet_signal] at hqueue
  suffices hnone : p.left.pending = [] ∧ p.right.pending = [] by
    rw [hqueue, hnone.1, hnone.2, merge_nil_left, raiseAll_nil, List.append_nil, List.append_nil] at hmerges
    exact hmerges
  by_cases hdone : p.finished = true
  · obtain ⟨hdoneLeft, hdoneRight⟩ := Bool.and_eq_true_iff.1 hdone
    exact ⟨(Operand.exhausted_iff.1 hdoneLeft).2, (Operand.exhausted_iff.1 hdoneRight).2⟩
  · rw [Worker.signal_merge_unfinished _ _ _ hdone] at hcoherent hbefore
    obtain ⟨-, hmore, ⟨hfollow, -⟩, ⟨hnext, -⟩, -, -⟩ := hcoherent
    cases now with
    | zero => exact ⟨List.suffix_nil.1 hkeptLeft, List.suffix_nil.1 hkeptRight⟩
    | succ now =>
      have hidle := idle_before_succ (ofJoin .merge left right) now
      rw [hbefore] at hidle
      have hreadLeft := fun hopen => hidle.left_readUp.2 (Task.wants_of_isOpen (fun _ => rfl) hmore hopen)
      have hreadRight := fun hopen => hidle.right_readUp.2 (Task.wants_of_isOpen (fun _ => rfl) hmore hopen)
      refine Operands.pending_eq_nil_of_next?_eq_none hnext hmore (fun hopen t ht => ?_) (fun hopen s hs => ?_)
      · rw [hfollow.left.reached_of_readUp (hreadLeft hopen)]
        exact (hpassedRight t (hkeptRight.subset ht)).resolve_left (by simp [(hreadLeft hopen).open_])
      · have hreach := lt_reach_before hright.coherent (hreadRight hopen).open_
        rw [hfollow.right.reached_of_readUp (hreadRight hopen)]
        exact ⟨(hpassedLeft s (hkeptLeft.subset hs)).resolve_left (by simp [(hreadRight hopen).open_]),
          (Nat.zero_le now).trans_lt hreach⟩

/-- A merge that never holds anything back sends at each instant what its operands send at it. -/
theorem sentAt_merge (hleft : left.Fresh) (hright : right.Fresh)
    (hsent : ∀ now, (ofJoin .merge left right).sentBefore now
      = merge (left.sentBefore now) (right.sentBefore now))
    (now : Nat) :
    (ofJoin .merge left right).sentAt now = merge (left.sentAt now) (right.sentAt now) := by
  obtain ⟨hpassedLeft, hpassedRight⟩ := passed_of_sentBefore_merge hleft hright (hsent now)
  have hparts : merge (left.sentBefore now ++ left.sentAt now) (right.sentBefore now ++ right.sentAt now)
      = merge (left.sentBefore now) (right.sentBefore now) ++ merge (left.sentAt now) (right.sentAt now) :=
    merge_append_append (fun s hs => (hpassedLeft s hs).from_sentAt hright)
      fun t ht => (hpassedRight t ht).from_sentAt hleft
  have hnext := hsent (now + 1)
  simp only [sentBefore] at hnext
  rw [hsent now, hparts] at hnext
  exact List.append_cancel_left hnext

/-- Two signals are abreast if merging them never holds anything back, and the left comes first. -/
theorem abreast_iff (hleft : left.Fresh) (hright : right.Fresh) : left.Abreast right ↔
    (∀ now, (ofJoin .merge left right).sentBefore now
        = merge (left.sentBefore now) (right.sentBefore now)) ∧
      ∀ now, ((ofJoin .merge left right).sentAt now).map Stamped.event
        = (left.sentAt now ++ right.sentAt now).map Stamped.event := by
  constructor
  · rintro ⟨hpassedLeft, hpassedRight, hfirst⟩
    have hsent : ∀ now, (ofJoin .merge left right).sentBefore now
        = merge (left.sentBefore now) (right.sentBefore now) := by
      intro now
      refine sentBefore_merge_of_passed hleft hright ?_ ?_
      · intro s hs
        obtain ⟨earlier, hearlier, hs⟩ := mem_sentBefore.1 hs
        exact (hpassedLeft earlier s hs).mono hright.coherent hearlier
      · intro t ht
        obtain ⟨earlier, hearlier, ht⟩ := mem_sentBefore.1 ht
        exact (hpassedRight earlier t ht).mono hleft.coherent hearlier
    refine ⟨hsent, fun now => ?_⟩
    rw [sentAt_merge hleft hright hsent]
    exact hfirst now
  · rintro ⟨hsent, hfirst⟩
    refine ⟨fun now s hs => ?_, fun now t ht => ?_, fun now => ?_⟩
    · have hpassed := passed_of_sentBefore_merge hleft hright (hsent (now + 1))
      exact hpassed.1 s (mem_sentBefore.2 ⟨now, Nat.lt_succ_self now, hs⟩)
    · have hpassed := passed_of_sentBefore_merge hleft hright (hsent (now + 1))
      exact hpassed.2 t (mem_sentBefore.2 ⟨now, Nat.lt_succ_self now, ht⟩)
    · rw [← sentAt_merge hleft hright hsent]
      exact hfirst now

end Signal

/-! ### Punctual signals -/

namespace Signal

/-- No event is sent before its stamp. -/
def Punctual (signal : Signal) : Prop :=
  ∀ now, UpTo now (signal.sentAt now)

variable {signal left right : Signal} {now : Nat}

theorem abreast_of_punctual (hleft : left.Fresh) (hright : right.Fresh) (hpunctualLeft : left.Punctual)
    (hpunctualRight : right.Punctual) : left.Abreast right := by
  have hpassed : ∀ {signal : Signal} {now : Nat}, signal.Fresh →
      (signal.before (now + 1)).Passed (now + 1) := by
    intro signal now hsignal
    cases hended : (signal.before (now + 1)).hasEnded with
    | true => exact .inl hended
    | false => exact .inr (lt_reach_before hsignal.coherent hended)
  refine ⟨fun now s hs => ?_, fun now t ht => ?_, fun now => ?_⟩
  · exact (hpassed hright).imp_right fun hreach =>
      (hpunctualLeft now s hs).trans ((Nat.le_succ now).trans hreach)
  · exact (hpassed hleft).imp_right (Nat.succ_le_succ (hpunctualRight now t ht)).trans
  · rw [merge_eq_append fun s hs => (from_sentAt hright now).mono (hpunctualLeft now s hs)]

theorem Steady.withQueue {firm : Signal → Prop} (hsteady : signal.Steady firm) (queue : List Update) :
    (signal.withQueue queue).Steady firm := by
  cases signal <;> exact hsteady

theorem Timely.read (htimely : signal.Timely now) : (signal.withQueue []).Timely now := by
  cases signal with
  | manual out name => exact htimely
  | ended out => exact upTo_nil _
  | replay out next rest => exact ⟨upTo_nil _, htimely.2⟩
  | adjacentPairs out previous source => exact ⟨upTo_nil _, htimely.2⟩
  | join out task left right => exact ⟨upTo_nil _, htimely.2⟩

theorem timely_settle (hcoherent : signal.Coherent) (hsteady : signal.Steady (OnTime now))
    (htimely : signal.Timely now) :
    (signal.settle .exact now).Steady (OnTime now) ∧ (signal.settle .exact now).Timely now := by
  have hrun := settle_run .exact now hcoherent
  have hall : (signal.settle .exact now).Coherent ∧ (signal.settle .exact now).Steady (OnTime now) ∧
      (signal.settle .exact now).Timely now := by
    generalize signal.settle .exact now = settled at hrun
    induction hrun with
    | refl => exact ⟨hcoherent, hsteady, htimely⟩
    | tail _ hstep ih =>
      obtain ⟨hcoherent, hsteady, htimely⟩ := ih
      exact ⟨hstep.coherent hcoherent, (hstep.remaining (firm_onTime now) hcoherent hsteady).2,
        hstep.timely hcoherent hsteady htimely⟩
  exact hall.2

/-- What is on time at the start stays so, and punctual. -/
theorem timely_before (hsignal : signal.Coherent) (hsteady : signal.Steady (OnTime 0))
    (htimely : signal.Timely 0) (now : Nat) :
    (signal.before now).Steady (OnTime now) ∧ (signal.before now).Timely now := by
  induction now with
  | zero => exact ⟨hsteady, htimely⟩
  | succ now ih =>
    obtain ⟨hsteady, htimely⟩ := timely_settle (coherent_before hsignal now) ih.1 ih.2
    have hread : (signal.before (now + 1)).Steady (OnTime now) := hsteady.withQueue []
    exact ⟨hread.jump (coherent_before hsignal (now + 1)) (idle_before_succ signal now) le_rfl,
      htimely.read.mono (Nat.le_succ now)⟩

theorem punctual_of_timely (hsignal : signal.Coherent) (hsteady : signal.Steady (OnTime 0))
    (htimely : signal.Timely 0) : signal.Punctual := by
  intro now
  obtain ⟨hsteady, htimely⟩ := timely_before hsignal hsteady htimely now
  exact (timely_settle (coherent_before hsignal now) hsteady htimely).2.upTo_queue

end Signal

/-- Where no `zip` occurs in the left operand of a chain, no event is sent before its stamp. -/
theorem Context.punctual_signal (context : Context) {e : Expr} (he : e.ChainsAfter Expr.ZipFree) :
    (context.signal e).Punctual :=
  Signal.punctual_of_timely (context.coherent_signal e) (steady_signal (fun _ => onTime_signal) he)
    (context.timely_signal e)

/-! ### In the order of the instants -/

namespace Live

variable {left right : Signal}

theorem merge_taken_succ (left right : Signal) (now : Nat) :
    merge (before left (now + 1)).taken (before right (now + 1)).taken
      = merge (before left now).taken (before right now).taken
        ++ (left.sentAt now ++ right.sentAt now).map (takenAt now) := by
  have hnow : ∀ {xs : List Stamped}, ∀ s ∈ xs.map (takenAt now), s.stamp = now := by
    intro xs s hs
    obtain ⟨t, -, rfl⟩ := List.mem_map.1 hs
    rfl
  have hparts : merge ((before left now).taken ++ (left.sentAt now).map (takenAt now))
      ((before right now).taken ++ (right.sentAt now).map (takenAt now))
      = merge (before left now).taken (before right now).taken
        ++ merge ((left.sentAt now).map (takenAt now)) ((right.sentAt now).map (takenAt now)) :=
    merge_append_append (fun s hs t ht => (stamp_lt_of_mem_taken hs).le.trans (hnow t ht).ge)
      fun t ht s hs => (stamp_lt_of_mem_taken ht).trans_le (hnow s hs).ge
  have hinstant := merge_eq_append fun s (hs : s ∈ (left.sentAt now).map (takenAt now)) t
    (ht : t ∈ (right.sentAt now).map (takenAt now)) => (hnow s hs).le.trans (hnow t ht).ge
  rw [taken_before_succ, taken_before_succ, hparts, hinstant, List.map_append]

theorem map_takenAt_iff {now : Nat} {xs ys : List Stamped} :
    xs.map (takenAt now) = ys.map (takenAt now) ↔ xs.map Stamped.event = ys.map Stamped.event := by
  constructor
  · intro htaken
    have hevents := congrArg (List.map Stamped.event) htaken
    rw [List.map_map, List.map_map] at hevents
    exact hevents
  · intro hevents
    have htaken := congrArg (List.map fun e => (⟨e, now⟩ : Stamped)) hevents
    rw [List.map_map, List.map_map] at htaken
    exact htaken

/-- Merging interleaves what is taken at every instant if and only if the operands are abreast. -/
theorem taken_merge_iff (hleft : left.Fresh) (hright : right.Fresh) :
    (∀ now, (before (.ofJoin .merge left right) now).taken
        = merge (before left now).taken (before right now).taken) ↔
      left.Abreast right := by
  rw [Signal.abreast_iff hleft hright]
  constructor
  · intro htaken
    refine ⟨fun now => ?_, fun now => ?_⟩
    · have hlength := congrArg List.length (htaken now)
      rw [length_merge, length_taken_before, length_taken_before, length_taken_before] at hlength
      exact Signal.sentBefore_merge_of_length hleft hright hlength
    · have hnext := htaken (now + 1)
      rw [merge_taken_succ, taken_before_succ, htaken now] at hnext
      exact map_takenAt_iff.1 (List.append_cancel_left hnext)
  · rintro ⟨-, hfirst⟩ now
    induction now with
    | zero => exact (merge_nil_left []).symm
    | succ now ih => rw [merge_taken_succ, taken_before_succ, ih, map_takenAt_iff.2 (hfirst now)]

theorem filter_append_of_from {now : Nat} {xs later : List Stamped} (hxs : ∀ s ∈ xs, s.stamp < now)
    (hlater : From now later) : (xs ++ later).filter (·.stamp < now) = xs := by
  have hkeep : xs.filter (·.stamp < now) = xs := List.filter_eq_self.2 fun s hs => decide_eq_true (hxs s hs)
  have hdrop : later.filter (·.stamp < now) = [] :=
    List.filter_eq_nil_iff.2 fun s hs => by simpa using hlater s hs
  rw [List.filter_append, hkeep, hdrop, List.append_nil]

/-- Merging two signals interleaves by instant what each of them delivers on its own if and only if they
are abreast. -/
theorem complete_merge_iff (hleft : left.Fresh) (hright : right.Fresh) :
    (complete .exact (.ofJoin .merge left right)).taken
        = merge (complete .exact left).taken (complete .exact right).taken ↔
      left.Abreast right := by
  have hjoin := Signal.fresh_ofJoin .merge hleft hright
  rw [← taken_merge_iff hleft hright]
  constructor
  · intro hcomplete now
    obtain ⟨laterLeft, hsplitLeft, hfromLeft⟩ := taken_complete_split hleft.coherent now
    obtain ⟨laterRight, hsplitRight, hfromRight⟩ := taken_complete_split hright.coherent now
    obtain ⟨later, hsplit, hfrom⟩ := taken_complete_split hjoin.coherent now
    have hparts : merge ((before left now).taken ++ laterLeft) ((before right now).taken ++ laterRight)
        = merge (before left now).taken (before right now).taken ++ merge laterLeft laterRight :=
      merge_append_append (fun s hs => hfromRight.mono (stamp_lt_of_mem_taken hs).le)
        fun t ht => hfromLeft.mono (stamp_lt_of_mem_taken ht)
    rw [hsplit, hsplitLeft, hsplitRight, hparts] at hcomplete
    -- Both sides are split at the same instant.
    have hbefore := congrArg (List.filter fun s => s.stamp < now) hcomplete
    rwa [filter_append_of_from (fun s hs => stamp_lt_of_mem_taken hs) hfrom,
      filter_append_of_from (fun s hs => ?_) (from_merge.2 ⟨hfromLeft, hfromRight⟩)] at hbefore
    rcases mem_merge.1 hs with hs | hs <;> exact stamp_lt_of_mem_taken hs
  · intro htaken
    obtain ⟨last, hlast⟩ := complete_eq_before hleft.coherent
    obtain ⟨last', hlast'⟩ := complete_eq_before hright.coherent
    obtain ⟨last'', hlast''⟩ := complete_eq_before hjoin.coherent
    have hafter := htaken (last + last' + last'' + 1)
    rw [(hlast _ (by omega)).1, (hlast' _ (by omega)).1, (hlast'' _ (by omega)).1] at hafter
    exact hafter

end Live

end TimedStreams
