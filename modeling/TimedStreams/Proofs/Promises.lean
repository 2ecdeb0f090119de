import TimedStreams.Proofs.LiveJoins
import TimedStreams.Proofs.Circuits

/-!
# Promises are passed on exactly

However the producers of a combinator are driven, whenever it is idle and has not ended the latest
stamp that it has sent is known (`Driven.promises_exact`): of a `merge` and a `combineLatest` the
earlier horizon of both producers, of a `zip` the later one, of the pairs of neighbours the latest
stamp of their producer, and of a chain the largest stamp of everything that it has heard. A chain is
the only one that ever raises a stamp. At every point of a run, idle or not, the others have sent the
first events of what their rule makes of all that was sent to them.

A chain keeps nothing of its operands, so that it needs an invariant of its own: its outlet is that of
a single producer that has sent all that the chain has heard (`Driven.Chained`).
-/

namespace TimedStreams

open Relation Stamped Update

namespace Outlet

theorem sendAll_append (out : Outlet) (us vs : List Update) :
    out.sendAll (us ++ vs) = (out.sendAll us).sendAll vs :=
  List.foldl_append

theorem frontier_sendAll (us : List Update) :
    (({} : Outlet).sendAll us).frontier = (us.map Update.stamp).max? := by
  have hfold : ∀ (out : Outlet) (stamp : Nat) (us : List Update), out.frontier = some stamp →
      (out.sendAll us).frontier = some ((us.map Update.stamp).foldl max stamp) := by
    intro out stamp us hfrontier
    induction us generalizing out stamp with
    | nil => exact hfrontier
    | cons u rest ih =>
      rw [sendAll_cons, ih (out.send u) (max stamp u.stamp), List.map_cons, List.foldl_cons]
      rw [frontier_send_eq, hfrontier]
      rfl
  cases us with
  | nil => rfl
  | cons u rest =>
    rw [sendAll_cons, hfold _ u.stamp rest (frontier_send_eq {} u), List.map_cons, List.max?_cons']

end Outlet

namespace Driven

variable {d d' : Driven} {side : Side} {u : Update}

def sent (d : Driven) : List Update :=
  d.taken ++ d.signal.outlet.queue

theorem Moves.rises (hmoves : Moves d d') (hd : Rises none d.sent d.signal.outlet.frontier) :
    Rises none d'.sent d'.signal.outlet.frontier := by
  have hdrive : ∀ (side : Side) (producer : Producer) (f : Outlet → Signal),
      (∀ out, ∃ us, (f out).outlet = out.sendAll us) →
      Rises none (d.drive side producer f).sent (d.drive side producer f).signal.outlet.frontier := by
    intro side producer f hf
    obtain ⟨us, hus⟩ : ∃ us, (d.signal.mapManual side.name f).outlet = d.signal.outlet.sendAll us :=
      Signal.outlet_mapManual hf
    have hsent := Outlet.rises_append_sendAll hd us
    rw [← hus] at hsent
    exact hsent
  cases hmoves with
  | send u hopen => exact hdrive _ _ _ fun out => ⟨[u], rfl⟩
  | close hopen => exact hdrive _ _ _ fun out => ⟨[], rfl⟩
  | take hreads => exact hreads.rises hd
  | work hstep =>
    obtain ⟨us, hus⟩ := hstep.outlet
    rw [sent, hus]
    exact Outlet.rises_append_sendAll hd us

theorem latest?_of_run {kind : Join} (hrun : ReflTransGen Moves (start kind) d) :
    latest? d.sent = d.signal.outlet.frontier := by
  have hrises : Rises none d.sent d.signal.outlet.frontier := by
    induction hrun with
    | refl => exact rises_nil.2 rfl
    | tail _ hmoves ih => exact hmoves.rises ih
  exact hrises.latest?_eq

/-! ### Joins that read both operands -/

/-- The task of the join, if it has not finished, has promised no more than it may. -/
def Restrained (d : Driven) : Prop :=
  ∀ {out : Outlet} {task : Task} {left right : Signal}, d.signal = .join out task left right → task.Modest out

theorem restrained_start (kind : Join) : (start kind).Restrained := by
  intro out task left right hsignal
  cases hsignal
  exact Task.modest_start kind

theorem Moves.restrained (hmoves : Moves d d') (hd : d.Accounted) (hmodest : d.Restrained) : d'.Restrained := by
  intro out task left right hsignal
  cases hd with
  | finished hbefore houtput hcompletes =>
    have hended := (hmoves.ended (by rw [hbefore]; rfl)).1
    rw [hsignal] at hended
    cases hended
  | running hbefore hkind hmore hserves =>
    cases hmoves with
    | send u hopen =>
      rw [Driven.send, signal_drive, hbefore] at hsignal
      cases hsignal
      exact hmodest hbefore
    | close hopen =>
      rw [Driven.close, signal_drive, hbefore] at hsignal
      cases hsignal
      exact hmodest hbefore
    | take hreads =>
      cases hreads with
      | update hqueue =>
        rw [hbefore] at hsignal
        cases hsignal
        have hkept := hmodest hbefore
        exact hkept
    | work hstep =>
      rw [hbefore] at hstep
      cases hstep with
      | left hstep => exact absurd hstep Producer.not_step_named
      | right hstep => exact absurd hstep Producer.not_step_named
      | hear hwants hhears =>
        change Signal.Worker.signal _ _ _ = _ at hsignal
        rw [Signal.Worker.signal_hear hwants] at hsignal
        split at hsignal
        · cases hsignal
        · cases hsignal
          exact (hmodest hbefore).hear hserves.attends hhears

theorem restrained_of_run {kind : Join} (hkind : kind ≠ .chain) (hrun : ReflTransGen Moves (start kind) d) :
    d.Restrained := by
  induction hrun with
  | refl => exact restrained_start kind
  | tail hbefore hmoves ih => exact hmoves.restrained (accounted_of_run hkind hbefore).1 ih

theorem Accounted.frontier_eq (hd : d.Accounted) (hmodest : d.Restrained) (hidle : d.Idle)
    (hopen : d.signal.hasEnded = false) : d.signal.outlet.frontier = d.kind.promise? d.left d.right := by
  have hnone := hidle fun _ => True
  cases hd with
  | finished hsignal houtput hcompletes =>
    rw [hsignal] at hopen
    cases hopen
  | running hsignal hkind hmore hserves =>
    rw [hsignal] at hnone ⊢
    rw [← hkind]
    exact hserves.frontier_eq (hmodest hsignal) ⟨hmore, hnone.left_readUp.2, hnone.right_readUp.2⟩

/-- Whatever has been sent so far are the first events of the answer to all that the producers have sent. -/
theorem Accounted.output_begins (hd : d.Accounted) :
    d.output <+: (Task.start d.kind).answer d.left.events d.right.events 0 := by
  cases hd with
  | finished hsignal houtput hcompletes => exact houtput ▸ List.prefix_rfl
  | running hsignal hkind hmore hserves =>
    have hanswers := hserves.answers (Signal.maySend_nil _) (Signal.maySend_nil _)
    rw [List.append_nil, List.append_nil, List.append_nil, List.append_nil, hkind] at hanswers
    rw [output, hsignal]
    exact ⟨_, hanswers⟩

/-! ### Chains -/

/-- A chain has sent what a single producer would have sent that has sent all that the chain has heard. -/
inductive Chained (d : Driven) : Prop
  | left {out : Outlet} {read unread : List Update}
      (hsignal : d.signal = .join out (.chain .left) (d.left.signal .left unread)
        (d.right.signal .right d.right.channel.queue))
      (hqueue : d.left.channel.queue = read ++ unread)
      (hsent : ⟨d.taken ++ out.queue, out.frontier⟩ = ({} : Outlet).sendAll read)
  | right {out : Outlet} {read unread : List Update} (hclosed : d.left.isOpen = false)
      (hsignal : d.signal = .join out (.chain .right) (d.left.signal .left []) (d.right.signal .right unread))
      (hqueue : d.right.channel.queue = read ++ unread)
      (hsent : ⟨d.taken ++ out.queue, out.frontier⟩ = ({} : Outlet).sendAll (d.left.channel.queue ++ read))
  | finished {out : Outlet} (hclosed : d.left.isOpen = false) (hclosed' : d.right.isOpen = false)
      (hsignal : d.signal = .ended out)
      (hsent : ⟨d.taken ++ out.queue, out.frontier⟩
        = ({} : Outlet).sendAll (d.left.channel.queue ++ d.right.channel.queue))

theorem chained_start : (start .chain).Chained :=
  .left rfl (List.append_nil _).symm rfl

/-- What a chain forwards, it sends behind all that it has forwarded. -/
theorem sendAll_read {out : Outlet} {read taken : List Update}
    (hsent : ⟨taken ++ out.queue, out.frontier⟩ = ({} : Outlet).sendAll read) (u : Update) :
    ⟨taken ++ (out.send u).queue, (out.send u).frontier⟩ = ({} : Outlet).sendAll (read ++ [u]) := by
  rw [Outlet.sendAll_append, ← hsent, Outlet.sendAll_prepend]
  rfl

theorem Chained.work {due : Nat → Prop} {signal' : Signal} (hd : d.Chained) (hstep : d.signal.Step due signal') :
    ({ d with signal := signal' } : Driven).Chained := by
  cases hd with
  | finished hclosed hclosed' hsignal hsent =>
    rw [hsignal] at hstep
    cases hstep
  | @left out read unread hsignal hqueue hsent =>
    rw [hsignal] at hstep
    cases hstep with
    | left hstep => exact absurd hstep Producer.not_step_named
    | right hstep => exact absurd hstep Producer.not_step_named
    | hear hwants hhears =>
      rw [Signal.Worker.signal_hear hwants]
      cases hhears with
      | right hreads => simp [Task.wants] at hwants
      | left hreads =>
        rcases Producer.reads_named hreads with ⟨u, rest, rfl, rfl, rfl⟩ | ⟨rfl, rfl, hclosed, rfl⟩
        · have hread : d.left.channel.queue = (read ++ [u]) ++ rest := by simpa using hqueue
          exact .left rfl hread (sendAll_read hsent u)
        · rw [List.append_nil] at hqueue
          refine .right hclosed rfl (List.nil_append _).symm ?_
          rw [hqueue, List.append_nil]
          exact hsent
  | @right out read unread hclosed hsignal hqueue hsent =>
    rw [hsignal] at hstep
    cases hstep with
    | left hstep => exact absurd hstep Producer.not_step_named
    | right hstep => exact absurd hstep Producer.not_step_named
    | hear hwants hhears =>
      rw [Signal.Worker.signal_hear hwants]
      cases hhears with
      | left hreads => simp [Task.wants] at hwants
      | right hreads =>
        rcases Producer.reads_named hreads with ⟨u, rest, rfl, rfl, rfl⟩ | ⟨rfl, rfl, hclosed', rfl⟩
        · have hread : d.right.channel.queue = (read ++ [u]) ++ rest := by simpa using hqueue
          have hforwarded := sendAll_read hsent u
          rw [List.append_assoc] at hforwarded
          exact .right hclosed rfl hread hforwarded
        · rw [List.append_nil] at hqueue
          refine .finished hclosed hclosed' rfl ?_
          rw [hqueue]
          exact hsent

theorem Chained.hasManual (hd : d.Chained) (hopen : (d.producer side).isOpen = true) :
    d.signal.hasManual side.name = true := by
  have hears : ∀ {out : Outlet} {task : Task} {unread unread' : List Update},
      d.signal = .join out task (d.left.signal .left unread) (d.right.signal .right unread') →
      d.signal.hasManual side.name = true := by
    intro out task unread unread' hsignal
    rw [hsignal, Signal.hasManual, Producer.hasManual_signal, Producer.hasManual_signal, Bool.or_eq_true_iff]
    cases side with
    | left => exact .inl (Bool.and_eq_true_iff.2 ⟨hopen, rfl⟩)
    | right => exact .inr (Bool.and_eq_true_iff.2 ⟨hopen, rfl⟩)
  cases hd with
  | left hsignal hqueue hsent => exact hears hsignal
  | right hclosed hsignal hqueue hsent => exact hears hsignal
  | finished hclosed hclosed' hsignal hsent =>
    cases side with
    | left => exact absurd hopen (by simp [producer, hclosed])
    | right => exact absurd hopen (by simp [producer, hclosed'])

theorem Chained.drive {producer' : Producer} {f : Outlet → Signal} (hd : d.Chained)
    (hopen : (d.producer side).isOpen = true)
    (hheard : ∀ unread, ∃ us, f ⟨unread, (d.producer side).channel.frontier⟩ = producer'.signal side (unread ++ us) ∧
      producer'.channel.queue = (d.producer side).channel.queue ++ us) :
    (d.drive side producer' f).Chained := by
  cases hd with
  | @left out read unread hsignal hqueue hsent =>
    have hkept : (⟨(d.drive side producer' f).taken ++ out.queue, out.frontier⟩ : Outlet) = ({} : Outlet).sendAll read :=
      hsent
    cases side with
    | left =>
      obtain ⟨us, hf, hchannel⟩ := hheard unread
      have hread : producer'.channel.queue = read ++ (unread ++ us) := by
        rw [hchannel, ← List.append_assoc, ← hqueue]
        rfl
      have hdriven := signal_drive_left producer' f hopen hsignal
      rw [show f ⟨unread, d.left.channel.frontier⟩ = _ from hf] at hdriven
      exact .left hdriven hread hkept
    | right =>
      obtain ⟨us, hf, hchannel⟩ := hheard d.right.channel.queue
      have hdriven := signal_drive_right producer' f hopen hsignal
      rw [show f ⟨d.right.channel.queue, d.right.channel.frontier⟩ = _ from hf] at hdriven
      rw [show d.right.channel.queue ++ us = _ from hchannel.symm] at hdriven
      exact .left hdriven hqueue hkept
  | @right out read unread hclosed hsignal hqueue hsent =>
    cases side with
    | left => exact absurd hopen (by simp [producer, hclosed])
    | right =>
      obtain ⟨us, hf, hchannel⟩ := hheard unread
      have hread : producer'.channel.queue = read ++ (unread ++ us) := by
        rw [hchannel, ← List.append_assoc, ← hqueue]
        rfl
      have hdriven := signal_drive_right producer' f hopen hsignal
      rw [show f ⟨unread, d.right.channel.frontier⟩ = _ from hf] at hdriven
      exact .right hclosed hdriven hread hsent
  | finished hclosed hclosed' hsignal hsent =>
    cases side with
    | left => exact absurd hopen (by simp [producer, hclosed])
    | right => exact absurd hopen (by simp [producer, hclosed'])

theorem Chained.take {signal' : Signal} (hd : d.Chained) (hreads : d.signal.Reads (some u) signal') :
    ({ d with signal := signal', taken := d.taken ++ [u] } : Driven).Chained := by
  cases hreads with
  | @update _ rest hqueue =>
    have hsame : ∀ {out : Outlet}, out.queue = u :: rest →
        (⟨d.taken ++ [u] ++ rest, out.frontier⟩ : Outlet) = ⟨d.taken ++ out.queue, out.frontier⟩ := by
      intro out hout
      rw [hout, List.append_assoc, List.singleton_append]
    cases hd with
    | left hsignal hread hsent =>
      rw [hsignal] at hqueue ⊢
      exact .left rfl hread ((hsame hqueue).trans hsent)
    | right hclosed hsignal hread hsent =>
      rw [hsignal] at hqueue ⊢
      exact .right hclosed rfl hread ((hsame hqueue).trans hsent)
    | finished hclosed hclosed' hsignal hsent =>
      rw [hsignal] at hqueue ⊢
      exact .finished hclosed hclosed' rfl ((hsame hqueue).trans hsent)

theorem Moves.chained (hmoves : Moves d d') (hd : d.Chained) : d'.Chained := by
  cases hmoves with
  | work hstep => exact hd.work hstep
  | take hreads => exact hd.take hreads
  | send u hopen =>
    refine hd.drive hopen fun unread => ?_
    rw [hd.hasManual hopen, ← Producer.named_send hopen]
    obtain ⟨us, hqueue, hchannel, -⟩ := (Producer.grows_send hopen Side.left.name unread u).sent
    rw [Producer.outlet_named, Producer.outlet_named] at hqueue
    exact ⟨us, congrArg _ hqueue, hchannel⟩
  | close hopen =>
    refine hd.drive hopen fun unread => ⟨[], ?_, (List.append_nil _).symm⟩
    rw [List.append_nil]
    rfl

theorem chained_of_run (hrun : ReflTransGen Moves (start .chain) d) : d.Chained := by
  induction hrun with
  | refl => exact chained_start
  | tail _ hmoves ih => exact hmoves.chained ih

/-- An idle chain has promised what a single producer would have promised of all that the chain has heard. -/
theorem Chained.frontier_eq (hd : d.Chained) (hidle : d.Idle) (hopen : d.signal.hasEnded = false) :
    d.signal.outlet.frontier = Join.promise? .chain d.left d.right := by
  have hnone := hidle fun _ => True
  cases hd with
  | @left out read unread hsignal hqueue hsent =>
    rw [hsignal] at hnone ⊢
    obtain ⟨hempty, hmore⟩ := hnone.left_readUp.2 rfl
    obtain rfl : unread = [] := by simpa [Producer.signal] using hempty
    have hleft : d.left.isOpen = true := by simpa [Producer.signal] using hmore
    have hfrontier := congrArg Outlet.frontier hsent
    rw [List.append_nil] at hqueue
    rw [Outlet.frontier_sendAll, ← hqueue] at hfrontier
    rw [Join.promise?, if_pos hleft, List.append_nil]
    exact hfrontier
  | @right out read unread hclosed hsignal hqueue hsent =>
    rw [hsignal] at hnone ⊢
    obtain ⟨hempty, -⟩ := hnone.right_readUp.2 rfl
    obtain rfl : unread = [] := by simpa [Producer.signal] using hempty
    have hfrontier := congrArg Outlet.frontier hsent
    rw [List.append_nil] at hqueue
    rw [Outlet.frontier_sendAll, ← hqueue] at hfrontier
    rw [Join.promise?, if_neg (by simp [hclosed])]
    exact hfrontier
  | finished hclosed hclosed' hsignal hsent =>
    rw [hsignal] at hopen
    cases hopen

/-! ### All combinators -/

/-- Whenever a combinator over driven producers is idle and has not ended, the latest stamp that it has sent
is exactly the one that its producers allow; and at every point of a run no combinator but a chain has sent an
event with any other stamp than its rule gives. -/
theorem promises_exact :
    (∀ (kind : Join) (d : Driven), ReflTransGen Moves (start kind) d → d.Idle → d.signal.hasEnded = false →
      latest? d.sent = kind.promise? d.left d.right) ∧
    (∀ (name : String) (c : Circuit),
      ReflTransGen Circuit.Moves (.start (.ofAdjacentPairs (.manual {} name))) c → c.Idle →
      c.signal.hasEnded = false → latest? c.sent = latest? (c.source name).channel.queue) ∧
    (∀ d, ReflTransGen Moves (start .merge) d → d.output <+: Stamped.merge d.left.events d.right.events) ∧
    (∀ d, ReflTransGen Moves (start .zip) d → d.output <+: Stamped.zip d.left.events d.right.events) ∧
    (∀ d, ReflTransGen Moves (start .combineLatest) d →
      d.output <+: latestPairs {} (interleave d.left.events d.right.events)) ∧
    (∀ (name : String) (c : Circuit),
      ReflTransGen Circuit.Moves (.start (.ofAdjacentPairs (.manual {} name))) c →
      c.output <+: pairsAfter none (c.source name).events) := by
  have hprefix : ∀ {kind : Join} {d : Driven}, kind ≠ .chain → ReflTransGen Moves (start kind) d →
      d.output <+: (Task.start kind).answer d.left.events d.right.events 0 := by
    intro kind d hkind hrun
    obtain ⟨hd, rfl⟩ := accounted_of_run hkind hrun
    exact hd.output_begins
  refine ⟨?_, ?_, fun d hrun => hprefix (by decide) hrun, fun d hrun => hprefix (by decide) hrun,
    fun d hrun => hprefix (by decide) hrun, fun name c hrun => (Circuit.pairs_of_run hrun).output_begins⟩
  · intro kind d hrun hidle hopen
    rw [latest?_of_run hrun]
    by_cases hkind : kind = .chain
    · subst hkind
      exact (chained_of_run hrun).frontier_eq hidle hopen
    · obtain ⟨hd, rfl⟩ := accounted_of_run hkind hrun
      exact hd.frontier_eq (restrained_of_run hkind hrun) hidle hopen
  · intro name c hrun hidle hopen
    have hrisen := Circuit.rises_of_run rfl hrun
    rw [hrisen.sent.latest?_eq, (hrisen.source name).latest?_eq]
    exact (Circuit.pairs_of_run hrun).frontier_eq hidle hopen

/-- Of two events at 5 a merge has sent both once the left has completed, and promises no more than 5. -/
theorem promises_exact_tied :
    ReflTransGen Moves (start .merge) (tied .merge) ∧ (tied .merge).Idle ∧ (tied .merge).signal.hasEnded = false ∧
      latest? (tied .merge).sent = some 5 ∧
      (tied .zip).output <+: [⟨Event.combined (.tick 1 0) (.tick 2 0), 5⟩] := by
  obtain ⟨hpromises, -, -, hzip, -⟩ := promises_exact
  obtain ⟨hrun, hidle⟩ := tied_run (show Join.merge ≠ .chain by decide)
  obtain ⟨hrunZip, -⟩ := tied_run (show Join.zip ≠ .chain by decide)
  have hopen : (tied .merge).signal.hasEnded = false := by decide +kernel
  refine ⟨hrun, hidle, hopen, ?_, hzip _ hrunZip⟩
  rw [hpromises .merge _ hrun hidle hopen, Join.promise?, Producer.released, Producer.released, releasable_tied]
  decide +kernel

end Driven

end TimedStreams
