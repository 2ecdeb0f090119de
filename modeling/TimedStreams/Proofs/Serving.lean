import TimedStreams.Proofs.Producers

/-!
# Tasks that serve driven operands

`Task.Serves` ties a task to the producers of its two operands. For all that they may still send,
the task has sent a beginning of its answer and will send the rest; it has released only what is
settled; and it is prompt. Whatever the task hears keeps this (`Task.Serves.hear`), and so does
whatever the producers send (`Task.Serves.grow`), in any order.

From it follows what has been sent once the task has read all that there is: for a `merge` and a
`combineLatest` what the settled beginning of both operands gives, for a `zip` all pairs. A task that
has finished has sent its whole answer, and its join can send no more (`Join.Completes`).

A `chain` is left out: it keeps nothing of its operands, and needs none of this.
-/

namespace TimedStreams

open Stamped Update

/-- Whether a join of two producers can send no more. -/
def Join.Completes (kind : Join) (first second : Producer) : Prop :=
  match kind with
  | .zip => first.isOpen = false ∧ first.events.length ≤ second.events.length ∨
      second.isOpen = false ∧ second.events.length ≤ first.events.length
  | .merge | .chain | .combineLatest => first.isOpen = false ∧ second.isOpen = false

/-! ### Producers that send more -/

namespace Producer

/-- A producer with its signal, and the same after it has sent some more, or has completed. -/
structure Grows (producer : Producer) (signal : Signal) (producer' : Producer) (signal' : Signal) : Prop where
  sent : ∃ us, signal'.outlet.queue = signal.outlet.queue ++ us ∧
    producer'.channel.queue = producer.channel.queue ++ us ∧
    ∀ {future : List Stamped}, signal'.MaySend future → signal.MaySend (stampedOf us ++ future)
  follows : ∀ {o : Operand}, o.Follows signal → o.Follows signal'
  hasEnded : signal.hasEnded = !producer.isOpen → signal'.hasEnded = !producer'.isOpen
  closed : producer.isOpen = false → producer'.isOpen = false

variable {producer producer' first second first' second' : Producer}
  {signal signal' left right left' right' : Signal}

theorem Grows.refl (producer : Producer) (signal : Signal) : producer.Grows signal producer signal where
  sent := ⟨[], by simp, by simp, fun hfuture => hfuture⟩
  follows := id
  hasEnded := id
  closed := id

theorem grows_of_sendAll (us : List Update) (hopen : producer.isOpen = true) (hended : signal.hasEnded = false)
    (hfrontier : producer.channel.frontier = signal.outlet.frontier)
    (houtlet : signal'.outlet = signal.outlet.sendAll us)
    (hchannel : producer'.channel = producer.channel.sendAll us)
    (hended' : signal'.hasEnded = !producer'.isOpen) : producer.Grows signal producer' signal' where
  sent := by
    have hsignal : signal'.outlet = _ := houtlet.trans (Outlet.sendAll_eq _ signal.outlet.frontier us)
    have hproducer : producer'.channel = _ := hchannel.trans (Outlet.sendAll_eq _ producer.channel.frontier us)
    rw [hfrontier] at hproducer
    refine ⟨_, congrArg Outlet.queue hsignal, congrArg Outlet.queue hproducer, ?_⟩
    intro future hfuture
    obtain ⟨sent, hsent, hbefore⟩ := Signal.maySend_of_sendAll hended houtlet hfuture
    rw [congrArg Outlet.queue hsignal] at hsent
    exact List.append_cancel_left hsent ▸ hbefore
  follows := fun hfollows => hfollows.sendAll hended houtlet
  hasEnded := fun _ => hended'
  closed := fun hclosed => absurd hclosed (by simp [hopen])

theorem Grows.events (hgrows : producer.Grows signal producer' signal') :
    ∃ xs, signal'.unread = signal.unread ++ xs ∧ producer'.events = producer.events ++ xs ∧
      ∀ {future : List Stamped}, signal'.MaySend future → signal.MaySend (xs ++ future) := by
  obtain ⟨us, hqueue, hchannel, hfuture⟩ := hgrows.sent
  refine ⟨stampedOf us, ?_, ?_, hfuture⟩
  · rw [Signal.unread, hqueue, stampedOf_append, Signal.unread]
  · rw [Producer.events, hchannel, stampedOf_append, Producer.events]

theorem Grows.any_queue (hgrows : producer.Grows signal producer' signal') {test : Update → Bool}
    (htest : (!producer.isOpen || producer.channel.queue.any test) = true) :
    (!producer'.isOpen || producer'.channel.queue.any test) = true := by
  obtain ⟨us, -, hchannel, -⟩ := hgrows.sent
  rcases Bool.or_eq_true_iff.1 htest with hclosed | hany
  · rw [hgrows.closed (by simpa using hclosed)]
    rfl
  · rw [hchannel, List.any_append, hany, Bool.true_or, Bool.or_true]

theorem Grows.settled (hfirst : first.Grows left first' left') (hsecond : second.Grows right second' right')
    {x : Side × Stamped} (hx : Producer.settled first second x = true) :
    Producer.settled first' second' x = true := by
  obtain ⟨side, s⟩ := x
  cases side with
  | left => exact hsecond.any_queue hx
  | right => exact hfirst.any_queue hx

end Producer

theorem Operand.Attends.grow {o : Operand} {producer producer' : Producer} {signal signal' : Signal}
    (ho : o.Attends producer signal) (hgrows : producer.Grows signal producer' signal') :
    o.Attends producer' signal' := by
  obtain ⟨us, hqueue, hchannel, -⟩ := hgrows.sent
  obtain ⟨hfollows, hended, read, hread, hrises, hpending⟩ := ho
  refine ⟨hgrows.follows hfollows, hgrows.hasEnded hended, read, ?_, hrises, hpending⟩
  rw [hchannel, hread, hqueue, List.append_assoc]

namespace Operands

variable {p : Operands} {first second first' second' : Producer} {left right left' right' : Signal}
  {released : List (Side × Stamped)}

theorem Attend.grow (hp : p.Attend first second left right) (hfirst : first.Grows left first' left')
    (hsecond : second.Grows right second' right') : p.Attend first' second' left' right' :=
  ⟨hp.left.grow hfirst, hp.right.grow hsecond⟩

theorem Releasing.grow (hreleasing : p.Releasing released first second left right)
    (hfirst : first.Grows left first' left') (hsecond : second.Grows right second' right') :
    p.Releasing released first' second' left' right' where
  settled := fun x hx => hfirst.settled hsecond (hreleasing.settled x hx)
  sequence := by
    intro future future' hfuture hfuture'
    obtain ⟨xs, hunread, hevents, hbefore⟩ := hfirst.events
    obtain ⟨ys, hunread', hevents', hbefore'⟩ := hsecond.events
    rw [hunread, hevents, hunread', hevents']
    simp only [List.append_assoc]
    exact hreleasing.sequence (hbefore hfuture) (hbefore' hfuture')

end Operands

/-! ### The task -/

namespace Task

def kind : Task → Join
  | merge _ => .merge
  | chain _ => .chain
  | zip _ => .zip
  | combineLatest _ _ => .combineLatest

theorem kind_start (kind : Join) : (start kind).kind = kind := by
  cases kind <;> rfl

theorem kind_receive (task : Task) (side : Side) (update : Option Update) :
    (task.receive side update).2.kind = task.kind := by
  cases task with
  | chain stage =>
    cases update with
    | some u => rfl
    | none => cases stage <;> rfl
  | merge p => rfl
  | zip p => rfl
  | combineLatest p latest => rfl

/-- The operands of a task have received the beginning of what was sent to them. -/
def Attends (task : Task) (first second : Producer) (left right : Signal) : Prop :=
  match task with
  | merge p | zip p | combineLatest p _ => p.Attend first second left right
  | chain _ => False

/-- What a task keeps accounts for all that was sent to it: what is not kept or unread was released in
order, or has found a partner. -/
def Accounts (task : Task) (first second : Producer) (left right : Signal) : Prop :=
  match task with
  | merge p => ∃ released, p.Releasing released first second left right
  | combineLatest p latest =>
    ∃ released, p.Releasing released first second left right ∧ latest = Latest.after {} released
  | zip p => p.left.pending.length + left.unread.length + second.events.length
      = p.right.pending.length + right.unread.length + first.events.length
  | chain _ => False

/-- A task with its outlet, of which `taken` has been read, serves the producers of its operands. -/
structure Serves (task : Task) (out : Outlet) (taken : List Update) (first second : Producer)
    (left right : Signal) : Prop where
  attends : task.Attends first second left right
  accounts : task.Accounts first second left right
  prompt : task.Prompt out
  answers : ∀ {future future' : List Stamped}, left.MaySend future → right.MaySend future' →
    stampedOf (taken ++ out.queue)
        ++ raiseAll out.reach (task.answer (left.unread ++ future) (right.unread ++ future') 0)
      = (start task.kind).answer (first.events ++ future) (second.events ++ future') 0

variable {task : Task} {out : Outlet} {taken : List Update} {first second first' second' : Producer}
  {left right left' right' : Signal} {side : Side} {update : Option Update} {future future' : List Stamped}

theorem Attends.sound (hattends : task.Attends first second left right) :
    left.outlet.Sound ∧ right.outlet.Sound := by
  cases task with
  | chain stage => exact hattends.elim
  | merge p => exact ⟨Operand.Attends.sound hattends.left, Operand.Attends.sound hattends.right⟩
  | zip p => exact ⟨Operand.Attends.sound hattends.left, Operand.Attends.sound hattends.right⟩
  | combineLatest p latest => exact ⟨Operand.Attends.sound hattends.left, Operand.Attends.sound hattends.right⟩

theorem Attends.await (hattends : task.Attends first second left right) (hfuture : left.MaySend future)
    (hfuture' : right.MaySend future') : task.Await (left.unread ++ future) (right.unread ++ future') := by
  cases task with
  | chain stage => exact hattends.elim
  | merge p => exact Operands.Attend.await hattends hfuture hfuture'
  | zip p => exact Operands.Attend.await hattends hfuture hfuture'
  | combineLatest p latest => exact Operands.Attend.await hattends hfuture hfuture'

theorem serves_start {kind : Join} (hkind : kind ≠ .chain) (hleft : ({} : Operand).Attends {} left)
    (hright : ({} : Operand).Attends {} right) : (start kind).Serves {} [] {} {} left right := by
  have hempty : ∀ {signal : Signal}, ({} : Operand).Attends {} signal → signal.outlet.queue = [] := by
    rintro signal ⟨-, -, read, hqueue, -, -⟩
    exact (List.append_eq_nil_iff.1 hqueue.symm).2
  have hunread : left.unread = [] := congrArg stampedOf (hempty hleft)
  have hunread' : right.unread = [] := congrArg stampedOf (hempty hright)
  have hreleasing : ({} : Operands).Releasing [] {} {} left right := by
    refine ⟨fun _ hx => absurd hx List.not_mem_nil, ?_⟩
    intro future future' _ _
    rw [hunread, hunread']
    rfl
  refine ⟨?_, ?_, prompt_start kind, ?_⟩
  · cases kind with
    | chain => exact absurd rfl hkind
    | merge => exact ⟨hleft, hright⟩
    | zip => exact ⟨hleft, hright⟩
    | combineLatest => exact ⟨hleft, hright⟩
  · cases kind with
    | chain => exact absurd rfl hkind
    | merge => exact ⟨[], hreleasing⟩
    | zip =>
      show 0 + left.unread.length + 0 = 0 + right.unread.length + 0
      rw [hunread, hunread']
    | combineLatest => exact ⟨[], hreleasing, rfl⟩
  · intro future future' _ _
    rw [hunread, hunread', kind_start]
    exact raiseAll_zero _

/-! ### Hearing -/

theorem Attends.hear (hattends : task.Attends first second left right)
    (hhears : Signal.Hears update side left right left' right') :
    (task.receive side update).2.Attends first second left' right' := by
  cases task with
  | chain stage => exact hattends.elim
  | merge p => exact (Operands.Attend.receive hattends hhears).drain
  | zip p => exact (Operands.Attend.receive hattends hhears).pairUp
  | combineLatest p latest => exact (Operands.Attend.receive hattends hhears).drain

theorem Accounts.hear (haccounts : task.Accounts first second left right)
    (hattends : task.Attends first second left right)
    (hhears : Signal.Hears update side left right left' right') :
    (task.receive side update).2.Accounts first second left' right' := by
  cases task with
  | chain stage => exact hattends.elim
  | merge p =>
    obtain ⟨released, hreleasing⟩ := haccounts
    exact ⟨_, hreleasing.hear hattends hhears⟩
  | combineLatest p latest =>
    obtain ⟨released, hreleasing, rfl⟩ := haccounts
    refine ⟨_, hreleasing.hear hattends hhears, ?_⟩
    rw [Latest.react_snd, Latest.after_append]
  | zip p =>
    obtain ⟨hsound, hsound'⟩ := hattends.sound
    obtain ⟨hleft, hright⟩ := Operands.pending_receive_append (p := p)
      (hhears.next hsound hsound' left'.maySend_nil right'.maySend_nil)
    have hlengthLeft := congrArg List.length hleft
    have hlengthRight := congrArg List.length hright
    simp only [List.append_nil, List.length_append] at hlengthLeft hlengthRight
    simp only [Accounts, receive, Operands.pairUp_snd_left, Operands.pairUp_snd_right,
      List.length_drop] at haccounts ⊢
    omega

theorem Serves.hear (hserves : task.Serves out taken first second left right) (hwants : task.wants side = true)
    (hhears : Signal.Hears update side left right left' right') :
    (task.receive side update).2.Serves (out.sendAll (task.receive side update).1) taken first second
      left' right' where
  attends := hserves.attends.hear hhears
  accounts := hserves.accounts.hear hserves.attends hhears
  prompt := prompt_receive
  answers := by
    intro future future' hfuture hfuture'
    obtain ⟨hbefore, hbefore'⟩ := hhears.maySend hfuture hfuture'
    obtain ⟨hsound, hsound'⟩ := hserves.attends.sound
    have hleft : task = chain .left →
        (∀ u, update = some u → u.stamp ≤ 0) ∧ (update = none → 0 ≤ out.reach) := by
      rintro rfl
      exact hserves.attends.elim
    obtain ⟨hhonest, hanswer⟩ := answer_receive out.reach hwants (hserves.attends.await hbefore hbefore')
      (hhears.next hsound hsound' hfuture hfuture') hleft
    have hsent := Outlet.stampedOf_queue_sendAll out hhonest
    rw [hanswer] at hsent
    rw [stampedOf_append, List.append_assoc, hsent, kind_receive, ← List.append_assoc, ← stampedOf_append]
    exact hserves.answers hbefore hbefore'

/-! ### Being sent more -/

theorem Attends.grow (hattends : task.Attends first second left right) (hfirst : first.Grows left first' left')
    (hsecond : second.Grows right second' right') : task.Attends first' second' left' right' := by
  cases task with
  | chain stage => exact hattends.elim
  | merge p => exact Operands.Attend.grow hattends hfirst hsecond
  | zip p => exact Operands.Attend.grow hattends hfirst hsecond
  | combineLatest p latest => exact Operands.Attend.grow hattends hfirst hsecond

theorem Accounts.grow (haccounts : task.Accounts first second left right)
    (hfirst : first.Grows left first' left') (hsecond : second.Grows right second' right') : task.Accounts first' second' left' right' := by
  cases task with
  | chain stage => exact haccounts.elim
  | merge p =>
    obtain ⟨released, hreleasing⟩ := haccounts
    exact ⟨released, hreleasing.grow hfirst hsecond⟩
  | combineLatest p latest =>
    obtain ⟨released, hreleasing, hlatest⟩ := haccounts
    exact ⟨released, hreleasing.grow hfirst hsecond, hlatest⟩
  | zip p =>
    obtain ⟨xs, hunread, hevents, -⟩ := hfirst.events
    obtain ⟨ys, hunread', hevents', -⟩ := hsecond.events
    simp only [Accounts, hunread, hevents, hunread', hevents', List.length_append] at haccounts ⊢
    omega

theorem Serves.grow (hserves : task.Serves out taken first second left right)
    (hfirst : first.Grows left first' left') (hsecond : second.Grows right second' right') :
    task.Serves out taken first' second' left' right' where
  attends := hserves.attends.grow hfirst hsecond
  accounts := hserves.accounts.grow hfirst hsecond
  prompt := hserves.prompt
  answers := by
    intro future future' hfuture hfuture'
    obtain ⟨xs, hunread, hevents, hbefore⟩ := hfirst.events
    obtain ⟨ys, hunread', hevents', hbefore'⟩ := hsecond.events
    rw [hunread, hevents, hunread', hevents']
    simp only [List.append_assoc]
    exact hserves.answers (hbefore hfuture) (hbefore' hfuture')

theorem Serves.take {u : Update} {rest : List Update} (hserves : task.Serves out taken first second left right)
    (hqueue : out.queue = u :: rest) :
    task.Serves { out with queue := rest } (taken ++ [u]) first second left right where
  attends := hserves.attends
  accounts := hserves.accounts
  prompt := by
    have hprompt := hserves.prompt
    cases task <;> exact hprompt
  answers := by
    intro future future' hfuture hfuture'
    have hanswers := hserves.answers hfuture hfuture'
    rw [hqueue] at hanswers
    rw [List.append_assoc, List.singleton_append]
    exact hanswers

/-! ### Finished tasks -/

theorem Serves.output_of_finished (hserves : task.Serves out taken first second left right)
    (hdone : task.finished = true) :
    stampedOf (taken ++ out.queue) = (start task.kind).answer first.events second.events 0 := by
  have hanswers := hserves.answers left.maySend_nil right.maySend_nil
  have hawait := hserves.attends.await left.maySend_nil right.maySend_nil
  rw [answer_eq_nil_of_finished hawait hdone] at hanswers
  simpa using hanswers

theorem Serves.completes_of_finished (hserves : task.Serves out taken first second left right)
    (hdone : task.finished = true) : task.kind.Completes first second := by
  obtain ⟨hattends, haccounts, -, -⟩ := hserves
  have hboth : ∀ {p : Operands}, p.Attend first second left right → p.finished = true →
      first.isOpen = false ∧ second.isOpen = false := by
    intro p hp hdone
    obtain ⟨hleft, hright⟩ := Bool.and_eq_true_iff.1 hdone
    exact ⟨hp.left.isOpen_eq_false (Operand.exhausted_iff.1 hleft).1,
      hp.right.isOpen_eq_false (Operand.exhausted_iff.1 hright).1⟩
  cases task with
  | chain stage => exact hattends.elim
  | merge p => exact hboth hattends hdone
  | combineLatest p latest => exact hboth hattends hdone
  | zip p =>
    simp only [Accounts, Signal.unread] at haccounts
    rcases Bool.or_eq_true_iff.1 hdone with hleft | hright
    · obtain ⟨hclosed, hempty⟩ := Operand.exhausted_iff.1 hleft
      have hunread := (hattends.left.follows.closed hclosed).2
      refine .inl ⟨hattends.left.isOpen_eq_false hclosed, ?_⟩
      rw [hempty, hunread, stampedOf_nil, List.length_nil] at haccounts
      omega
    · obtain ⟨hclosed, hempty⟩ := Operand.exhausted_iff.1 hright
      have hunread := (hattends.right.follows.closed hclosed).2
      refine .inr ⟨hattends.right.isOpen_eq_false hclosed, ?_⟩
      rw [hempty, hunread, stampedOf_nil, List.length_nil] at haccounts
      omega

/-! ### Tasks that have read all there is -/

/-- Nothing has been raised if something else follows unraised. -/
theorem eq_of_append_raiseAll {floor : Nat} {sent done later : List Stamped}
    (hsplit : sent ++ raiseAll floor later = done ++ later) : sent = done :=
  (List.append_inj' hsplit (by simp [raiseAll])).1

/-- The task has not finished, but it has read all that its operands have sent. -/
structure Waits (task : Task) (left right : Signal) : Prop where
  unfinished : task.finished = false
  left : task.wants .left = true → left.ReadUp
  right : task.wants .right = true → right.ReadUp

theorem Waits.readUp {p : Operands} (hwaits : task.Waits left right)
    (hp : ∀ side, task.wants side = (!task.finished && p.isOpen side)) :
    (p.left.isOpen = true → left.ReadUp) ∧ (p.right.isOpen = true → right.ReadUp) := by
  have hwants : ∀ side, p.isOpen side = true → task.wants side = true := fun side hopen =>
    Task.wants_of_isOpen hp hwaits.unfinished hopen
  exact ⟨fun hopen => hwaits.left (hwants .left hopen), fun hopen => hwaits.right (hwants .right hopen)⟩

theorem Serves.output_merge (hserves : task.Serves out taken first second left right)
    (hwaits : task.Waits left right) (hkind : task.kind = .merge) :
    stampedOf (taken ++ out.queue) = (Producer.releasable first second).map Prod.snd := by
  cases task with
  | chain stage => cases hkind
  | zip p => cases hkind
  | combineLatest p latest => cases hkind
  | merge p =>
    obtain ⟨hattends, ⟨released, hreleasing⟩, hprompt, hanswers⟩ := hserves
    obtain ⟨hleft, hright⟩ := hwaits.readUp fun _ => rfl
    have hsplit := hanswers left.maySend_nil right.maySend_nil
    have hsequence := hreleasing.sequence left.maySend_nil right.maySend_nil
    rw [← hreleasing.eq_releasable hattends hleft hright hprompt.1 hwaits.unfinished]
    refine eq_of_append_raiseAll (hsplit.trans ?_)
    exact (congrArg (List.map Prod.snd) hsequence).trans List.map_append

theorem Serves.output_combineLatest (hserves : task.Serves out taken first second left right)
    (hwaits : task.Waits left right) (hkind : task.kind = .combineLatest) :
    stampedOf (taken ++ out.queue) = latestPairs {} (Producer.releasable first second) := by
  cases task with
  | chain stage => cases hkind
  | merge p => cases hkind
  | zip p => cases hkind
  | combineLatest p latest =>
    obtain ⟨hattends, ⟨released, hreleasing, rfl⟩, hprompt, hanswers⟩ := hserves
    obtain ⟨hleft, hright⟩ := hwaits.readUp fun _ => rfl
    have hsplit := hanswers left.maySend_nil right.maySend_nil
    have hsequence := hreleasing.sequence left.maySend_nil right.maySend_nil
    rw [← hreleasing.eq_releasable hattends hleft hright hprompt.1 hwaits.unfinished]
    refine eq_of_append_raiseAll (hsplit.trans ?_)
    exact (congrArg (latestPairs {}) hsequence).trans (Latest.latestPairs_append _ _ _)

theorem Serves.output_zip (hserves : task.Serves out taken first second left right)
    (hwaits : task.Waits left right) (hkind : task.kind = .zip) :
    stampedOf (taken ++ out.queue) = Stamped.zip first.events second.events := by
  cases task with
  | chain stage => cases hkind
  | merge p => cases hkind
  | combineLatest p latest => cases hkind
  | zip p =>
    obtain ⟨hattends, -, hprompt, hanswers⟩ := hserves
    obtain ⟨hleft, hright⟩ := hwaits.readUp fun _ => rfl
    have hsplit : stampedOf (taken ++ out.queue)
        ++ raiseAll out.reach (p.pairing (left.unread ++ []) (right.unread ++ []))
        = Stamped.zip (first.events ++ []) (second.events ++ []) := hanswers left.maySend_nil right.maySend_nil
    have hnone : p.pairing [] [] = [] := by
      rcases hprompt.1 with hempty | hempty
      · rw [Operands.pairing, hempty]
        exact List.zipWith_nil_left
      · rw [Operands.pairing, hempty]
        exact List.zipWith_nil_right
    rw [Signal.unread, Signal.unread, hattends.left.queue_eq_nil hleft,
      hattends.right.queue_eq_nil hright] at hsplit
    simpa [hnone] using hsplit

/-- A task that waits waits for a producer that may send more. -/
theorem Serves.not_completes (hserves : task.Serves out taken first second left right)
    (hwaits : task.Waits left right) : ¬ task.kind.Completes first second := by
  obtain ⟨hattends, haccounts, hprompt, -⟩ := hserves
  have hmore := hwaits.unfinished
  have hboth : ∀ {p : Operands}, p.Attend first second left right → p.next? = none → p.finished = false →
      (p.left.isOpen = true → left.ReadUp) ∧ (p.right.isOpen = true → right.ReadUp) →
      ¬ (first.isOpen = false ∧ second.isOpen = false) := by
    intro p hp hnext hmore ⟨hleft, hright⟩ ⟨hfirst, hsecond⟩
    rw [hp.left.isOpen_eq hleft] at hfirst
    rw [hp.right.isOpen_eq hright] at hsecond
    rcases Operands.open_of_next?_eq_none hnext hmore with ⟨-, hopen⟩ | ⟨-, hopen⟩
    · exact absurd hopen (by simp [hfirst])
    · exact absurd hopen (by simp [hsecond])
  cases task with
  | chain stage => exact hattends.elim
  | merge p => exact hboth hattends hprompt.1 hmore (hwaits.readUp fun _ => rfl)
  | combineLatest p latest => exact hboth hattends hprompt.1 hmore (hwaits.readUp fun _ => rfl)
  | zip p =>
    obtain ⟨hleft, hright⟩ := hwaits.readUp fun _ => rfl
    obtain ⟨hmoreLeft, hmoreRight⟩ := Bool.or_eq_false_iff.1 hmore
    simp only [Accounts, Signal.unread, hattends.left.queue_eq_nil hleft, hattends.right.queue_eq_nil hright,
      stampedOf_nil, List.length_nil] at haccounts
    -- One side keeps nothing. If it were closed it would be exhausted, and so the other side has sent more.
    rintro (⟨hclosed, hle⟩ | ⟨hclosed, hle⟩)
    · rw [hattends.left.isOpen_eq hleft] at hclosed
      have hkept : p.left.pending ≠ [] := fun hempty => by
        simp [Operand.exhausted, hclosed, hempty] at hmoreLeft
      have hempty := hprompt.1.resolve_left hkept
      have hpos := List.length_pos_of_ne_nil hkept
      rw [hempty, List.length_nil] at haccounts
      omega
    · rw [hattends.right.isOpen_eq hright] at hclosed
      have hkept : p.right.pending ≠ [] := fun hempty => by
        simp [Operand.exhausted, hclosed, hempty] at hmoreRight
      have hempty := hprompt.1.resolve_right hkept
      have hpos := List.length_pos_of_ne_nil hkept
      rw [hempty, List.length_nil] at haccounts
      omega

end Task

end TimedStreams
