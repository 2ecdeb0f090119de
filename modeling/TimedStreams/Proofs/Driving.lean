import TimedStreams.Engine.Session
import TimedStreams.Proofs.Serving

/-!
# Joins driven from outside

A driven join reads two manual producers. At any time either producer may send an update or
complete, the task may take any step that it can take, and the reader may take what was sent
(`Driven.Moves`), in any order and any number of times. That is what happens in a session, whose
writes are moves followed by settling (`Driven.session_send`, `Driven.session_close`), only that a
session always lets the task become idle between two writes.

Of whatever was driven so the task has served the producers as long as the join has not ended, and
if it has ended the whole answer has been sent (`Driven.Accounted`). A chain is left out, as in
`Task.Serves`.
-/

namespace TimedStreams

open Relation Stamped Update

def Side.name : Side → String
  | .left => "left"
  | .right => "right"

theorem Outlet.frontier_send_eq (out : Outlet) (u : Update) :
    (out.send u).frontier = some (raisedTo out.frontier u.stamp) := by
  cases u with
  | event s => rfl
  | progress stamp =>
    rw [send, advance]
    split
    · next hcovers =>
      obtain ⟨top, htop, hle⟩ := covers_iff.1 hcovers
      simp [htop, raisedTo, Update.stamp, hle]
    · next hcovers =>
      cases hfrontier : out.frontier with
      | none => rfl
      | some top =>
        simp only [hfrontier, covers, Option.any_some, decide_eq_true_eq] at hcovers
        simp [raisedTo, Update.stamp, (Nat.lt_of_not_le hcovers).le]

namespace Producer

/-- Sends an update. If nobody hears it only the frontier moves. -/
def send (producer : Producer) (heard : Bool) (u : Update) : Producer :=
  let sent := producer.channel.send u
  { producer with channel := if heard then sent else { producer.channel with frontier := sent.frontier } }

@[simp] theorem isOpen_send (producer : Producer) (heard : Bool) (u : Update) :
    (producer.send heard u).isOpen = producer.isOpen := rfl

theorem frontier_send (producer : Producer) (heard : Bool) (u : Update) :
    (producer.send heard u).channel.frontier = some (raisedTo producer.channel.frontier u.stamp) := by
  rw [← Outlet.frontier_send_eq]
  cases heard <;> rfl

def close (producer : Producer) : Producer :=
  { producer with isOpen := false }

/-- The signal of a manual producer of some name, of which `unread` is still to be read. -/
def named (producer : Producer) (name : String) (unread : List Update) : Signal :=
  if producer.isOpen then .manual ⟨unread, producer.channel.frontier⟩ name
  else .ended ⟨unread, producer.channel.frontier⟩

def signal (producer : Producer) (side : Side) (unread : List Update) : Signal :=
  producer.named side.name unread

end Producer

/-- A join of two manual producers, and its reader. -/
structure Driven where
  kind : Join
  left : Producer := {}
  right : Producer := {}
  signal : Signal
  /-- What the reader has taken so far. -/
  taken : List Update := []

namespace Driven

def start (kind : Join) : Driven where
  kind := kind
  signal := .ofJoin kind (.manual {} Side.left.name) (.manual {} Side.right.name)

def producer (d : Driven) : Side → Producer
  | .left => d.left
  | .right => d.right

/-- The join after the producer of one side has done something, which does `f` to the outlet of its signal. -/
def drive (d : Driven) (side : Side) (producer : Producer) (f : Outlet → Signal) : Driven :=
  { d with
    left := match side with
      | .left => producer
      | .right => d.left
    right := match side with
      | .left => d.right
      | .right => producer
    signal := d.signal.mapManual side.name f }

theorem signal_drive (d : Driven) (side : Side) (producer : Producer) (f : Outlet → Signal) :
    (d.drive side producer f).signal = d.signal.mapManual side.name f := rfl

def send (d : Driven) (side : Side) (u : Update) : Driven :=
  d.drive side ((d.producer side).send (d.signal.hasManual side.name) u) fun out =>
    .manual (out.send u) side.name

def close (d : Driven) (side : Side) : Driven :=
  d.drive side (d.producer side).close .ended

def settle (d : Driven) : Driven :=
  { d with signal := d.signal.settle .exact 0 }

/-- The events that the join has sent so far, read or not. -/
def output (d : Driven) : List Stamped :=
  stampedOf (d.taken ++ d.signal.outlet.queue)

/-- The task can take no step. -/
def Idle (d : Driven) : Prop :=
  ∀ due, d.signal.Idle due

inductive Moves : Driven → Driven → Prop
  | send {d : Driven} {side : Side} (u : Update) (hopen : (d.producer side).isOpen = true) :
      Moves d (d.send side u)
  | close {d : Driven} {side : Side} (hopen : (d.producer side).isOpen = true) : Moves d (d.close side)
  | work {d : Driven} {due : Nat → Prop} {signal' : Signal} (hstep : d.signal.Step due signal') :
      Moves d { d with signal := signal' }
  | take {d : Driven} {u : Update} {signal' : Signal} (hreads : d.signal.Reads (some u) signal') :
      Moves d { d with signal := signal', taken := d.taken ++ [u] }

/-! ### Sessions -/

def session (d : Driven) : Session where
  signal := some d.signal
  label := d.kind.tag
  reporting := none
  emitters := [⟨Side.left.name, d.left.channel.frontier, d.left.isOpen⟩,
    ⟨Side.right.name, d.right.channel.frontier, d.right.isOpen⟩]

theorem session_start (context : Context) (kind : Join) :
    Session.start context (.join kind (.manual Side.left.name) (.manual Side.right.name)) none
      = (start kind).session.settle := rfl

theorem session_settle (d : Driven) : d.session.settle.signal = some d.settle.signal := rfl

variable {d d' : Driven} {side : Side} {u : Update}

theorem find?_session (d : Driven) (side : Side) : d.session.emitters.find? (·.name == side.name)
    = some ⟨side.name, (d.producer side).channel.frontier, (d.producer side).isOpen⟩ := by
  cases side <;> rfl

theorem session_send (hopen : (d.producer side).isOpen = true) :
    (d.session.send side.name u).2 = (d.send side u).session.settle := by
  rw [Session.send, find?_session, hopen]
  refine congrArg Session.settle ?_
  cases side with
  | left => simp [session, send, drive, producer, Producer.frontier_send, Side.name]
  | right => simp [session, send, drive, producer, Producer.frontier_send, Side.name]

theorem session_close (hopen : (d.producer side).isOpen = true) :
    (d.session.close side.name).2 = (d.close side).session.settle := by
  rw [Session.close, find?_session, hopen]
  refine congrArg Session.settle ?_
  cases side with
  | left => simp [session, close, drive, producer, Producer.close, Side.name]
  | right => simp [session, close, drive, producer, Producer.close, Side.name]

theorem session_send_refused (hopen : (d.producer side).isOpen = true) (hended : d.signal.hasEnded = true)
    (s : Stamped) : (d.session.send side.name (.event s)).1 = .refused .consumerGone := by
  have hsignal : d.session.signal = some (.ended d.signal.outlet) :=
    congrArg some (Signal.eq_ended_of_hasEnded hended)
  rw [Session.send, find?_session, hopen, hsignal]
  rfl

end Driven

/-! ### The signals of the producers -/

namespace Producer

variable {producer : Producer} {name other : String} {unread : List Update} {signal' : Signal} {u : Update}

@[simp] theorem outlet_named (producer : Producer) (name : String) (unread : List Update) :
    (producer.named name unread).outlet = ⟨unread, producer.channel.frontier⟩ := by
  rw [named]
  split <;> rfl

@[simp] theorem hasEnded_named (producer : Producer) (name : String) (unread : List Update) :
    (producer.named name unread).hasEnded = !producer.isOpen := by
  cases hopen : producer.isOpen <;> simp [named, hopen, Signal.hasEnded]

theorem hasManual_named (producer : Producer) (name other : String) (unread : List Update) :
    (producer.named name unread).hasManual other = (producer.isOpen && name == other) := by
  cases hopen : producer.isOpen <;> simp [named, hopen, Signal.hasManual]

theorem mapManual_named_self (f : Outlet → Signal) (hopen : producer.isOpen = true) :
    (producer.named name unread).mapManual name f = f ⟨unread, producer.channel.frontier⟩ := by
  rw [named, if_pos hopen, Signal.mapManual, if_pos (beq_self_eq_true _)]

theorem mapManual_named_of_ne (f : Outlet → Signal) (hname : name ≠ other) :
    (producer.named name unread).mapManual other f = producer.named name unread := by
  rw [named]
  split
  · rw [Signal.mapManual, if_neg (by simpa using hname)]
  · rfl

theorem not_step_named {due : Nat → Prop} : ¬ (producer.named name unread).Step due signal' := by
  rw [named]
  split <;> exact fun hstep => nomatch hstep

theorem unfinished_named : (producer.named name unread).Unfinished := by
  rw [named]
  split <;> trivial

theorem withQueue_named (producer : Producer) (name : String) (unread rest : List Update) :
    (producer.named name unread).withQueue rest = producer.named name rest := by
  rw [named, named]
  split <;> rfl

/-- Whoever reads gets the first update that is unread or, when there is none, sees that the producer has closed. -/
theorem reads_named {update : Option Update} (hreads : (producer.named name unread).Reads update signal') :
    (∃ u rest, update = some u ∧ unread = u :: rest ∧ signal' = producer.named name rest) ∨
      (update = none ∧ unread = [] ∧ producer.isOpen = false ∧ signal' = producer.named name unread) := by
  cases hreads with
  | @update u rest hqueue =>
    rw [outlet_named] at hqueue
    exact .inl ⟨u, rest, rfl, hqueue, withQueue_named producer name unread rest⟩
  | done hended hqueue =>
    rw [outlet_named] at hqueue
    rw [hasEnded_named, Bool.not_eq_true'] at hended
    exact .inr ⟨rfl, hqueue, hended, rfl⟩

theorem exists_of_reads {update : Option Update} (hreads : (producer.named name unread).Reads update signal') :
    ∃ rest, signal' = producer.named name rest := by
  obtain ⟨-, rest, -, -, hsignal⟩ | ⟨-, -, -, hsignal⟩ := reads_named hreads
  · exact ⟨rest, hsignal⟩
  · exact ⟨unread, hsignal⟩

theorem named_send (hopen : producer.isOpen = true) (name : String) (unread : List Update) (u : Update) :
    (producer.send true u).named name (Outlet.send ⟨unread, producer.channel.frontier⟩ u).queue
      = .manual (Outlet.send ⟨unread, producer.channel.frontier⟩ u) name := by
  rw [named, isOpen_send, if_pos hopen, frontier_send, ← Outlet.frontier_send_eq ⟨unread, _⟩]

theorem grows_send (hopen : producer.isOpen = true) (name : String) (unread : List Update) (u : Update) :
    producer.Grows (producer.named name unread) (producer.send true u)
      ((producer.send true u).named name (Outlet.send ⟨unread, producer.channel.frontier⟩ u).queue) := by
  have hfrontier : (producer.send true u).channel.frontier
      = (Outlet.send ⟨unread, producer.channel.frontier⟩ u).frontier := by
    rw [frontier_send, Outlet.frontier_send_eq]
  refine grows_of_sendAll [u] hopen (by simp [hopen]) (by simp) ?_ rfl (by simp)
  rw [outlet_named, outlet_named, hfrontier]
  rfl

theorem grows_close (hopen : producer.isOpen = true) (name : String) (unread : List Update) :
    producer.Grows (producer.named name unread) producer.close (producer.close.named name unread) :=
  grows_of_sendAll [] hopen (by simp [hopen]) (by simp) (by simp [close]) rfl (by simp)

theorem hasManual_signal (producer : Producer) (side other : Side) (unread : List Update) :
    (producer.signal side unread).hasManual other.name = (producer.isOpen && side == other) := by
  have hname : (side.name == other.name) = (side == other) := by
    cases side <;> cases other <;> decide
  rw [signal, hasManual_named, hname]

end Producer

theorem Join.Completes.mono {kind : Join} {first second first' second' : Producer}
    (hcompletes : kind.Completes first second) (hfirst : first'.events = first.events)
    (hsecond : second'.events = second.events) (hclosed : first.isOpen = false → first'.isOpen = false)
    (hclosed' : second.isOpen = false → second'.isOpen = false) : kind.Completes first' second' := by
  cases kind with
  | zip =>
    rw [Completes, hfirst, hsecond]
    exact hcompletes.imp (And.imp_left hclosed) (And.imp_left hclosed')
  | merge => exact hcompletes.imp hclosed hclosed'
  | chain => exact hcompletes.imp hclosed hclosed'
  | combineLatest => exact hcompletes.imp hclosed hclosed'

namespace Driven

/-- What a driven join has sent accounts for all that was sent to it. -/
inductive Accounted (d : Driven) : Prop
  | running {out : Outlet} {task : Task} {unread unread' : List Update}
      (hsignal : d.signal = .join out task (d.left.signal .left unread) (d.right.signal .right unread'))
      (hkind : task.kind = d.kind) (hmore : task.finished = false)
      (hserves : task.Serves out d.taken d.left d.right (d.left.signal .left unread)
        (d.right.signal .right unread'))
  | finished {out : Outlet} (hsignal : d.signal = .ended out)
      (houtput : d.output = (Task.start d.kind).answer d.left.events d.right.events 0)
      (hcompletes : d.kind.Completes d.left d.right)

variable {d d' : Driven} {side : Side} {u : Update}

theorem accounted_start {kind : Join} (hkind : kind ≠ .chain) : (start kind).Accounted := by
  have hattends : ∀ side : Side, ({} : Operand).Attends {} (Producer.signal {} side []) := fun side =>
    ⟨⟨ascending_nil, upTo_nil _, rfl, fun hclosed => by cases hclosed⟩, rfl, [], rfl, rfl, List.suffix_rfl⟩
  refine .running rfl (Task.kind_start kind) ?_ (Task.serves_start hkind (hattends .left) (hattends .right))
  cases kind <;> rfl

theorem Accounted.work {due : Nat → Prop} {signal' : Signal} (hd : d.Accounted)
    (hstep : d.signal.Step due signal') :
    ({ d with signal := signal' } : Driven).Accounted := by
  cases hd with
  | finished hsignal _ _ =>
    rw [hsignal] at hstep
    cases hstep
  | @running out task unread unread' hsignal hkind hmore hserves =>
    rw [hsignal] at hstep
    cases hstep with
    | left hstep => exact absurd hstep Producer.not_step_named
    | right hstep => exact absurd hstep Producer.not_step_named
    | @hear _ _ side update _ _ left' right' hwants hhears =>
      have hheard := hserves.hear hwants hhears
      have hkind' := (Task.kind_receive task side update).trans hkind
      obtain ⟨rest, rest', rfl, rfl⟩ : ∃ rest rest', left' = d.left.signal .left rest ∧
          right' = d.right.signal .right rest' := by
        cases hhears with
        | left hreads =>
          obtain ⟨rest, hrest⟩ := Producer.exists_of_reads hreads
          exact ⟨rest, unread', hrest, rfl⟩
        | right hreads =>
          obtain ⟨rest, hrest⟩ := Producer.exists_of_reads hreads
          exact ⟨unread, rest, rfl, hrest⟩
      rw [Signal.Worker.signal_hear hwants]
      split
      · next hdone =>
        refine .finished rfl ?_ ?_
        · rw [← hkind']
          exact hheard.output_of_finished hdone
        · exact hkind' ▸ hheard.completes_of_finished hdone
      · next hnot => exact .running rfl hkind' (Bool.eq_false_iff.2 hnot) hheard

theorem Accounted.take {signal' : Signal} (hd : d.Accounted) (hreads : d.signal.Reads (some u) signal') :
    ({ d with signal := signal', taken := d.taken ++ [u] } : Driven).Accounted := by
  cases hreads with
  | @update _ rest hqueue =>
    cases hd with
    | running hsignal hkind hmore hserves =>
      rw [hsignal] at hqueue ⊢
      exact .running rfl hkind hmore (hserves.take hqueue)
    | finished hsignal houtput hcompletes =>
      refine .finished (by rw [hsignal]; rfl) ?_ hcompletes
      rw [output, hqueue] at houtput
      rw [output, Signal.outlet_withQueue, List.append_assoc, List.singleton_append]
      exact houtput

/-- What the left producer does is done to the left operand. -/
theorem signal_drive_left {out : Outlet} {task : Task} {unread unread' : List Update} (producer' : Producer)
    (f : Outlet → Signal) (hopen : d.left.isOpen = true)
    (hsignal : d.signal = .join out task (d.left.signal .left unread) (d.right.signal .right unread')) :
    (d.drive .left producer' f).signal
      = .join out task (f ⟨unread, d.left.channel.frontier⟩) (d.right.signal .right unread') := by
  have hself : (d.left.signal .left unread).mapManual Side.left.name f = f ⟨unread, d.left.channel.frontier⟩ :=
    Producer.mapManual_named_self f hopen
  have hother : (d.right.signal .right unread').mapManual Side.left.name f = d.right.signal .right unread' :=
    Producer.mapManual_named_of_ne f (by decide)
  rw [signal_drive, hsignal, Signal.mapManual, hself, hother]

theorem signal_drive_right {out : Outlet} {task : Task} {unread unread' : List Update} (producer' : Producer)
    (f : Outlet → Signal) (hopen : d.right.isOpen = true)
    (hsignal : d.signal = .join out task (d.left.signal .left unread) (d.right.signal .right unread')) :
    (d.drive .right producer' f).signal
      = .join out task (d.left.signal .left unread) (f ⟨unread', d.right.channel.frontier⟩) := by
  have hself : (d.right.signal .right unread').mapManual Side.right.name f
      = f ⟨unread', d.right.channel.frontier⟩ := Producer.mapManual_named_self f hopen
  have hother : (d.left.signal .left unread).mapManual Side.right.name f = d.left.signal .left unread :=
    Producer.mapManual_named_of_ne f (by decide)
  rw [signal_drive, hsignal, Signal.mapManual, hself, hother]

/-- What one producer does is accounted for, whether it is heard or not. -/
theorem Accounted.drive {producer' : Producer} {f : Outlet → Signal} (hd : d.Accounted)
    (hopen : (d.producer side).isOpen = true)
    (hheard : d.signal.hasManual side.name = true → ∀ unread, ∃ rest,
      f ⟨unread, (d.producer side).channel.frontier⟩ = producer'.signal side rest ∧
        (d.producer side).Grows ((d.producer side).signal side unread) producer' (producer'.signal side rest))
    (hunheard : d.signal.hasManual side.name = false → producer'.events = (d.producer side).events) :
    (d.drive side producer' f).Accounted := by
  cases hd with
  | @finished out hsignal houtput hcompletes =>
    have hevents := hunheard (by rw [hsignal]; rfl)
    have hended : (d.drive side producer' f).signal = .ended out := by
      rw [signal_drive, hsignal]
      rfl
    have hoverall : (d.drive side producer' f).output = d.output := by
      rw [output, output, hended, hsignal]
      rfl
    rw [← hoverall] at houtput
    cases side with
    | left =>
      refine .finished hended ?_ (hcompletes.mono hevents rfl (fun hclosed => absurd hclosed ?_) id)
      · exact houtput.trans (congrArg (Task.answer _ · d.right.events 0) hevents.symm)
      · simp [show d.left.isOpen = true from hopen]
    | right =>
      refine .finished hended ?_ (hcompletes.mono rfl hevents id (fun hclosed => absurd hclosed ?_))
      · exact houtput.trans (congrArg (Task.answer _ d.left.events · 0) hevents.symm)
      · simp [show d.right.isOpen = true from hopen]
  | @running out task unread unread' hsignal hkind hmore hserves =>
    have hears : ∀ other : Side, d.signal.hasManual other.name = (d.producer other).isOpen := by
      intro other
      rw [hsignal, Signal.hasManual, Producer.hasManual_signal, Producer.hasManual_signal]
      cases other <;> simp [producer]
    have hgrows := hheard ((hears side).trans hopen)
    cases side with
    | left =>
      obtain ⟨rest, hf, hleft⟩ := hgrows unread
      have hdriven := signal_drive_left producer' f hopen hsignal
      rw [show f ⟨unread, d.left.channel.frontier⟩ = _ from hf] at hdriven
      exact .running hdriven hkind hmore (hserves.grow hleft (.refl _ _))
    | right =>
      obtain ⟨rest, hf, hright⟩ := hgrows unread'
      have hdriven := signal_drive_right producer' f hopen hsignal
      rw [show f ⟨unread', d.right.channel.frontier⟩ = _ from hf] at hdriven
      exact .running hdriven hkind hmore (hserves.grow (.refl _ _) hright)

theorem Accounted.send (hd : d.Accounted) (hopen : (d.producer side).isOpen = true) (u : Update) :
    (d.send side u).Accounted := by
  refine hd.drive hopen ?_ ?_
  · intro hheard unread
    rw [hheard]
    refine ⟨_, ?_, Producer.grows_send hopen side.name unread u⟩
    rw [Producer.signal, Producer.named_send hopen]
  · intro hheard
    rw [hheard]
    rfl

theorem Accounted.close (hd : d.Accounted) (hopen : (d.producer side).isOpen = true) :
    (d.close side).Accounted :=
  hd.drive hopen (fun _ unread => ⟨unread, rfl, Producer.grows_close hopen side.name unread⟩) fun _ => rfl

/-- Whatever happens to a driven join is accounted for. -/
theorem Moves.accounted (hmoves : Moves d d') (hd : d.Accounted) : d'.Accounted := by
  cases hmoves with
  | send u hopen => exact hd.send hopen u
  | close hopen => exact hd.close hopen
  | work hstep => exact hd.work hstep
  | take hreads => exact hd.take hreads

theorem Moves.kind_eq (hmoves : Moves d d') : d'.kind = d.kind := by
  cases hmoves <;> rfl

theorem accounted_of_run {kind : Join} (hkind : kind ≠ .chain) (hrun : ReflTransGen Moves (start kind) d) :
    d.Accounted ∧ d.kind = kind := by
  induction hrun with
  | refl => exact ⟨accounted_start hkind, rfl⟩
  | tail _ hmoves ih => exact ⟨hmoves.accounted ih.1, hmoves.kind_eq.trans ih.2⟩

/-! ### Settling -/

theorem Accounted.unfinished (hd : d.Accounted) : d.signal.Unfinished := by
  cases hd with
  | running hsignal hkind hmore hserves =>
    rw [hsignal]
    exact ⟨hmore, Producer.unfinished_named, Producer.unfinished_named⟩
  | finished hsignal _ _ =>
    rw [hsignal]
    trivial

theorem settle_run (hmore : d.signal.Unfinished) : ReflTransGen Moves d d.settle :=
  ReflTransGen.lift (fun signal => { d with signal }) (fun _ _ hstep => Moves.work hstep) _ _
    (hmore.settle_run .exact 0)

theorem Accounted.settle_run (hd : d.Accounted) : ReflTransGen Moves d d.settle :=
  Driven.settle_run hd.unfinished

theorem Accounted.nextWake_eq (hd : d.Accounted) : d.signal.nextWake .exact = none := by
  have hmanual : ∀ {producer : Producer} {side : Side} {unread : List Update},
      (producer.signal side unread).nextWake .exact = none := by
    intro producer side unread
    rw [Producer.signal, Producer.named]
    split <;> rfl
  cases hd with
  | running hsignal hkind hmore hserves =>
    rw [hsignal, Signal.nextWake, hmanual, hmanual]
    rfl
  | finished hsignal _ _ =>
    rw [hsignal]
    rfl

theorem Moves.accounted_of_run (hrun : ReflTransGen Moves d d') (hd : d.Accounted) : d'.Accounted := by
  induction hrun with
  | refl => exact hd
  | tail _ hmoves ih => exact hmoves.accounted ih

theorem idle_settle (hawake : d.settle.signal.nextWake .exact = none) : d.settle.Idle :=
  fun _ => (Signal.idle_settle .exact 0 d.signal).of_nextWake_none hawake

theorem Accounted.idle_settle (hd : d.Accounted) : d.settle.Idle :=
  Driven.idle_settle (Moves.accounted_of_run hd.settle_run hd).nextWake_eq

end Driven

end TimedStreams
