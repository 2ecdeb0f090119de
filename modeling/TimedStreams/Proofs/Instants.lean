import TimedStreams.Proofs.Start

/-!
# The evaluation instant by instant

On the exact clock an evaluation passes from one due time to the next. Here it stops at every
instant on the way: `Signal.before signal now` is the signal as it is just before an instant, and
`Signal.sentAt signal now` is what it sends at that instant. Where nothing is due nothing happens,
so in the end the same events have been taken (`Live.complete_eq_before`). The runs of two signals
that wake at different times can so be put side by side, and next to the run of their join.

`Signal.MaySend signal future` says that nothing the signal has promised or done forbids it to send
`future` from now on. What it does send until a later instant is always part of that.
-/

namespace TimedStreams

open Relation Stamped Update

namespace Outlet

theorem sendAll_eq (queue : List Update) (frontier : Option Nat) (us : List Update) :
    sendAll ⟨queue, frontier⟩ us
      = ⟨queue ++ (sendAll ⟨[], frontier⟩ us).queue, (sendAll ⟨[], frontier⟩ us).frontier⟩ := by
  have hsend : ∀ (queue : List Update) (frontier : Option Nat) (u : Update), send ⟨queue, frontier⟩ u
      = ⟨queue ++ (send ⟨[], frontier⟩ u).queue, (send ⟨[], frontier⟩ u).frontier⟩ := by
    intro queue frontier u
    cases u with
    | event s => rfl
    | progress stamp =>
      simp only [send, advance]
      split <;> simp
  induction us generalizing queue frontier with
  | nil => simp
  | cons u rest ih =>
    rw [sendAll_cons, sendAll_cons, hsend queue]
    obtain ⟨sent, top⟩ := send ⟨[], frontier⟩ u
    rw [ih (queue ++ sent), ih sent, List.append_assoc]

/-- What is sent is put behind what has not been read, and rises from the frontier. -/
theorem queue_sendAll (out : Outlet) (us : List Update) :
    ∃ sent, (out.sendAll us).queue = out.queue ++ sent ∧
      Rises out.frontier sent (out.sendAll us).frontier := by
  have heq := sendAll_eq out.queue out.frontier us
  refine ⟨(sendAll ⟨[], out.frontier⟩ us).queue, congrArg queue heq, ?_⟩
  rw [congrArg frontier heq]
  exact rises_sendAll (rises_nil.2 rfl) us

end Outlet

/-! ### What a signal may still send -/

namespace Signal

/-- Nothing that a signal has sent so far forbids it to send these events from now on. -/
structure MaySend (signal : Signal) (future : List Stamped) : Prop where
  ascending : Ascending future
  from_reach : From signal.outlet.reach future
  closed : signal.hasEnded = true → future = []

variable {signal signal' : Signal} {due : Nat → Prop} {future : List Stamped}

theorem maySend_nil (signal : Signal) : signal.MaySend [] :=
  ⟨ascending_nil, from_nil _, fun _ => rfl⟩

theorem maySend_singleton {s : Stamped} (hopen : signal.hasEnded = false)
    (hs : signal.outlet.reach ≤ s.stamp) :
    signal.MaySend [s] :=
  ⟨List.pairwise_singleton _ _, from_cons.2 ⟨hs, from_nil _⟩,
    fun hended => absurd hended (by simp [hopen])⟩

theorem MaySend.withQueue (hsignal : signal.MaySend future) (queue : List Update) :
    (signal.withQueue queue).MaySend future where
  ascending := hsignal.ascending
  from_reach := by
    rw [outlet_withQueue]
    exact hsignal.from_reach
  closed := by
    rw [hasEnded_withQueue]
    exact hsignal.closed

theorem MaySend.of_withQueue {queue : List Update} (hsignal : (signal.withQueue queue).MaySend future) :
    signal.MaySend future := by
  have hback := hsignal.withQueue signal.outlet.queue
  rwa [withQueue_withQueue, withQueue_of_queue_eq rfl] at hback

theorem maySend_of_sendAll {us : List Update} (hopen : signal.hasEnded = false)
    (houtlet : signal'.outlet = signal.outlet.sendAll us) (hfuture : signal'.MaySend future) :
    ∃ sent, signal'.outlet.queue = signal.outlet.queue ++ sent ∧
      signal.MaySend (stampedOf sent ++ future) := by
  obtain ⟨sent, hsent, hrises⟩ := signal.outlet.queue_sendAll us
  have hfrom := hfuture.from_reach
  rw [houtlet] at hfrom
  refine ⟨sent, houtlet ▸ hsent, ?_, ?_, ?_⟩
  · refine ascending_append.2 ⟨hrises.ascending, hfuture.ascending, ?_⟩
    intro s hs
    exact hfrom.mono (hrises.upTo_top s hs)
  · exact from_append.2 ⟨hrises.from_level, hfrom.mono hrises.level_le_top⟩
  · intro hended
    exact absurd hended (by simp [hopen])

theorem Step.maySend (hstep : signal.Step due signal') (hfuture : signal'.MaySend future) :
    ∃ sent, signal'.outlet.queue = signal.outlet.queue ++ sent ∧
      signal.MaySend (stampedOf sent ++ future) := by
  obtain ⟨us, hus⟩ := hstep.outlet
  exact maySend_of_sendAll hstep.hasEnded hus hfuture

theorem maySend_of_run (hrun : ReflTransGen (Step due) signal signal') (hfuture : signal'.MaySend future) :
    ∃ sent, signal'.outlet.queue = signal.outlet.queue ++ sent ∧
      signal.MaySend (stampedOf sent ++ future) := by
  induction hrun using ReflTransGen.head_induction_on with
  | refl => exact ⟨[], (List.append_nil _).symm, hfuture⟩
  | @head first second hstep hrest ih =>
    obtain ⟨later, hlater, hsecond⟩ := ih
    obtain ⟨sent, hsent, hfirst⟩ := hstep.maySend hsecond
    refine ⟨sent ++ later, ?_, ?_⟩
    · rw [hlater, hsent, List.append_assoc]
    · rw [stampedOf_append, List.append_assoc]
      exact hfirst

/-! ### Stopping at every instant -/

theorem Coherent.settle (hsignal : signal.Coherent) (clock : Clock) (now : Nat) :
    (signal.settle clock now).Coherent := by
  have hrun := settle_run clock now hsignal
  generalize signal.settle clock now = settled at hrun
  induction hrun with
  | refl => exact hsignal
  | tail _ hstep ih => exact hstep.coherent ih

theorem settle_eq_of_idle {now : Nat} (hsignal : signal.Coherent) (hidle : signal.Idle (· ≤ now)) :
    signal.settle .exact now = signal := by
  rcases ReflTransGen.cases_head (settle_run .exact now hsignal) with heq | ⟨other, hstep, -⟩
  · exact heq.symm
  · exact absurd hstep (hidle other)

end Signal

namespace Live

/-- The evaluation just before an instant, if it stops at every instant of the exact clock. -/
def before (signal : Signal) : Nat → Live
  | 0 => start signal
  | now + 1 => (before signal now).settleAt .exact now

end Live

namespace Signal

/-- A signal just before an instant, with a reader that has taken all that was sent. -/
def before (signal : Signal) (now : Nat) : Signal :=
  (Live.before signal now).signal

/-- The events that a signal sends at an instant. -/
def sentAt (signal : Signal) (now : Nat) : List Stamped :=
  stampedOf ((signal.before now).settle .exact now).outlet.queue

/-- The events that a signal sends before an instant. -/
def sentBefore (signal : Signal) : Nat → List Stamped
  | 0 => []
  | now + 1 => signal.sentBefore now ++ signal.sentAt now

variable {signal : Signal} {future : List Stamped}

theorem before_zero (signal : Signal) : signal.before 0 = signal := rfl

theorem before_succ (signal : Signal) (now : Nat) :
    signal.before (now + 1) = ((signal.before now).settle .exact now).withQueue [] := rfl

theorem coherent_before (hsignal : signal.Coherent) (now : Nat) : (signal.before now).Coherent := by
  induction now with
  | zero => exact hsignal
  | succ now ih =>
    have hrun : ReflTransGen Live.Acts ((Live.before signal now).atTime now) (Live.before signal (now + 1)) :=
      Live.settleAt_run Clock.neverEarly_exact ih now
    exact Live.coherent_of_run hrun ih

theorem idle_before_succ (signal : Signal) (now : Nat) : (signal.before (now + 1)).Idle (· ≤ now) :=
  (idle_settle .exact now (signal.before now)).withQueue []

theorem queue_before_succ (signal : Signal) (now : Nat) : (signal.before (now + 1)).outlet.queue = [] := by
  rw [before_succ, outlet_withQueue]

theorem stampedOf_queue_before (hsignal : signal.Fresh) (now : Nat) :
    stampedOf (signal.before now).outlet.queue = [] := by
  cases now with
  | zero => exact hsignal.quiet
  | succ now => rw [queue_before_succ, stampedOf_nil]

/-- After an instant, whatever has not ended has promised to send nothing stamped up to it. -/
theorem lt_reach_before (hsignal : signal.Coherent) {now : Nat}
    (hopen : (signal.before (now + 1)).hasEnded = false) :
    now < (signal.before (now + 1)).outlet.reach := by
  rcases (coherent_before hsignal (now + 1)).beyond (idle_before_succ signal now) with hended | hbeyond
  · exact absurd hended (by simp [hopen])
  · exact hbeyond.reach

/-- What may be sent after an instant may be sent before it, behind what is sent at that instant. -/
theorem maySend_before (hsignal : signal.Fresh) {now : Nat}
    (hfuture : (signal.before (now + 1)).MaySend future) :
    (signal.before now).MaySend (signal.sentAt now ++ future) := by
  obtain ⟨sent, hsent, hbefore⟩ :=
    maySend_of_run (settle_run .exact now (coherent_before hsignal.coherent now)) hfuture.of_withQueue
  rw [sentAt, hsent, stampedOf_append, stampedOf_queue_before hsignal, List.nil_append]
  exact hbefore

theorem maySend_sentBefore (hsignal : signal.Fresh) {now : Nat} (hfuture : (signal.before now).MaySend future) :
    signal.MaySend (signal.sentBefore now ++ future) := by
  induction now generalizing future with
  | zero => exact hfuture
  | succ now ih =>
    rw [sentBefore, List.append_assoc]
    exact ih (maySend_before hsignal hfuture)

theorem from_sentAt (hsignal : signal.Fresh) (now : Nat) : From now (signal.sentAt now) := by
  have hsent := maySend_before hsignal (maySend_nil (signal.before (now + 1)))
  rw [List.append_nil] at hsent
  cases now with
  | zero => exact from_zero _
  | succ now =>
    cases hended : (signal.before (now + 1)).hasEnded with
    | true => exact hsent.closed hended ▸ from_nil _
    | false => exact hsent.from_reach.mono (lt_reach_before hsignal.coherent hended)

/-- Nothing that has been sent is stamped after what has been promised. -/
theorem upTo_sentBefore (hsignal : signal.Fresh) {now : Nat} (hopen : (signal.before now).hasEnded = false) :
    UpTo (signal.before now).outlet.reach (signal.sentBefore now) := by
  intro s hs
  have hlast : (signal.before now).MaySend [⟨s.event, (signal.before now).outlet.reach⟩] :=
    maySend_singleton hopen le_rfl
  have hascending := (maySend_sentBefore hsignal hlast).ascending
  exact (ascending_append.1 hascending).2.2 s hs _ (List.mem_singleton_self _)

end Signal

/-! ### What is taken -/

namespace Stamped

/-- An event noted down for the instant at which it is taken. -/
def takenAt (now : Nat) (s : Stamped) : Stamped where
  event := s.event
  stamp := now

end Stamped

namespace Live

variable {signal : Signal} {now : Nat}

theorem taken_before_succ (signal : Signal) (now : Nat) :
    (before signal (now + 1)).taken = (before signal now).taken ++ (signal.sentAt now).map (takenAt now) := by
  have hnoted : ∀ us : List Update, us.flatMap (noted now) = (stampedOf us).map (takenAt now) := by
    intro us
    induction us with
    | nil => rfl
    | cons u rest ih =>
      rw [List.flatMap_cons, ih]
      cases u <;> rfl
  exact congrArg (_ ++ ·) (hnoted _)

theorem length_taken_before (signal : Signal) (now : Nat) :
    (before signal now).taken.length = (signal.sentBefore now).length := by
  induction now with
  | zero => rfl
  | succ now ih =>
    rw [taken_before_succ, Signal.sentBefore, List.length_append, List.length_append, ih, List.length_map]

theorem stamp_lt_of_mem_taken {s : Stamped} (hs : s ∈ (before signal now).taken) : s.stamp < now := by
  induction now with
  | zero => cases hs
  | succ now ih =>
    rw [taken_before_succ, List.mem_append, List.mem_map] at hs
    rcases hs with hs | ⟨t, -, rfl⟩
    · exact (ih hs).trans (Nat.lt_succ_self now)
    · exact Nat.lt_succ_self now

theorem settleAt_congr (clock : Clock) (now : Nat) {live live' : Live} (hsignal : live.signal = live'.signal)
    (htaken : live.taken = live'.taken) : live.settleAt clock now = live'.settleAt clock now := by
  rw [settleAt, settleAt, hsignal, htaken]

/-- Until the next deadline nothing happens. -/
theorem before_until (hsignal : signal.Coherent) {due later : Nat}
    (hnext : (signal.before (now + 1)).nextWake .exact = some due) (hlater : now + 1 ≤ later)
    (hdue : later ≤ due) :
    signal.before later = signal.before (now + 1) ∧
      (before signal later).taken = (before signal (now + 1)).taken := by
  induction later, hlater using Nat.le_induction with
  | base => exact ⟨rfl, rfl⟩
  | succ later hlater ih =>
    obtain ⟨hsame, htaken⟩ := ih (Nat.le_of_succ_le hdue)
    have hidle : (signal.before later).Idle (· ≤ later) :=
      hsame ▸ (Signal.idle_before_succ signal now).until hnext hdue
    have hsettled := Signal.settle_eq_of_idle (Signal.coherent_before hsignal later) hidle
    have hqueue : (signal.before later).outlet.queue = [] := hsame ▸ Signal.queue_before_succ signal now
    constructor
    · rw [Signal.before_succ, hsettled, Signal.withQueue_of_queue_eq hqueue, hsame]
    · rw [taken_before_succ, Signal.sentAt, hsettled, hqueue, stampedOf_nil, List.map_nil, List.append_nil,
        htaken]

theorem advance_before (hsignal : signal.Coherent) (jumps now : Nat) :
    ∃ last, advance .exact jumps (before signal (now + 1)) = before signal (last + 1) := by
  induction jumps generalizing now with
  | zero => exact ⟨now, rfl⟩
  | succ jumps ih =>
    rw [advance]
    cases hnext : (before signal (now + 1)).signal.nextWake .exact with
    | none => exact ⟨now, rfl⟩
    | some due =>
      have hlater : now + 1 ≤ due := by
        refine Nat.lt_of_not_le fun hdue => ?_
        obtain ⟨other, hstep⟩ := Signal.exists_step_of_nextWake (· ≤ now) hnext fun stamp hstamp =>
          (show stamp = due from hstamp).trans_le hdue
        exact Signal.idle_before_succ signal now other hstep
      obtain ⟨hsame, htaken⟩ := before_until hsignal hnext hlater le_rfl
      have hjump : (before signal (now + 1)).settleAt .exact due = before signal (due + 1) :=
        settleAt_congr .exact due hsame.symm htaken.symm
      simp only [hjump]
      exact ih due

/-- Stopping at every instant takes the same events in the end, and then the signal has ended. -/
theorem complete_eq_before (hsignal : signal.Coherent) :
    ∃ last, ∀ now, last < now →
      (before signal now).taken = (complete .exact signal).taken ∧ (signal.before now).hasEnded = true := by
  obtain ⟨last, hlast⟩ := advance_before hsignal signal.unplayed 0
  have hcomplete : complete .exact signal = before signal (last + 1) := hlast
  obtain ⟨-, hfinished⟩ := complete_run drives_exact Clock.neverEarly_exact hsignal
  rw [hcomplete] at hfinished ⊢
  refine ⟨last, fun now hnow => ?_⟩
  have hstays : before signal now = { before signal (last + 1) with now := now - 1 } := by
    induction now, hnow using Nat.le_induction with
    | base => rfl
    | succ now hnow ih =>
      have hsettled : ((before signal now).signal).settle .exact now = (before signal now).signal := by
        rw [ih, Signal.eq_ended_of_hasEnded hfinished.ended, Signal.settle]
      have hqueue : (before signal now).signal.outlet.queue = [] := by
        rw [ih]
        exact hfinished.queue_eq
      rw [before, settleAt, hsettled, hqueue, Signal.withQueue_of_queue_eq hqueue, List.flatMap_nil,
        List.append_nil, ih]
      rfl
  rw [Signal.before, hstays]
  exact ⟨rfl, hfinished.ended⟩

theorem taken_complete_split (hsignal : signal.Coherent) (now : Nat) :
    ∃ later, (complete .exact signal).taken = (before signal now).taken ++ later ∧ From now later := by
  have hmore : ∀ more, ∃ later, (before signal (now + more)).taken = (before signal now).taken ++ later ∧
      From now later := by
    intro more
    induction more with
    | zero => exact ⟨[], (List.append_nil _).symm, from_nil _⟩
    | succ more ih =>
      obtain ⟨later, htaken, hfrom⟩ := ih
      refine ⟨later ++ (signal.sentAt (now + more)).map (takenAt (now + more)), ?_,
        from_append.2 ⟨hfrom, ?_⟩⟩
      · rw [← Nat.add_assoc, taken_before_succ, htaken, List.append_assoc]
      · intro s hs
        obtain ⟨t, -, rfl⟩ := List.mem_map.1 hs
        exact Nat.le_add_right now more
  obtain ⟨last, hlast⟩ := complete_eq_before hsignal
  rw [← (hlast (now + (last + 1)) (by omega)).1]
  exact hmore (last + 1)

end Live

end TimedStreams
