import TimedStreams.Proofs.Horizons

/-!
# Circuits driven from outside

A circuit is a signal whose leaves are manual producers, known by their names, together with its
reader. Any producer whose signal is still read may send an update or complete, any task may take
any step that it can take, and the reader may take what was sent (`Circuit.Moves`), in any order and
any number of times. `Driven` is the same for a single join, whose producers are known by their sides
and may go on after it has ended.

Whatever happens, what a circuit has sent rises to its frontier (`Circuit.rises_of_run`). The pairs
of neighbours are the one combinator that reads a single signal, and `Circuit.Pairs` ties what it has
sent to all that its producer has sent or may still send.
-/

namespace TimedStreams

open Relation Stamped Update

/-! ### What was sent rises -/

namespace Outlet

variable {taken : List Update} {out : Outlet}

/-- All that was sent, of which `taken` has been read, still rises to the frontier when more is sent. -/
theorem rises_append_sendAll (hout : Rises none (taken ++ out.queue) out.frontier) (us : List Update) :
    Rises none (taken ++ (out.sendAll us).queue) (out.sendAll us).frontier := by
  obtain ⟨sent, hqueue, hrises⟩ := out.queue_sendAll us
  rw [hqueue, ← List.append_assoc]
  exact hout.append hrises

/-- Whatever has been read is still in front of what is sent. -/
theorem sendAll_prepend (taken : List Update) (out : Outlet) (us : List Update) :
    sendAll ⟨taken ++ out.queue, out.frontier⟩ us = ⟨taken ++ (out.sendAll us).queue, (out.sendAll us).frontier⟩ := by
  have hsent : out.sendAll us = _ := sendAll_eq out.queue out.frontier us
  rw [sendAll_eq (taken ++ out.queue), hsent, List.append_assoc]

end Outlet

namespace Signal

variable {signal signal' : Signal} {name : String} {f : Outlet → Signal} {taken : List Update} {u : Update}

theorem outlet_mapManual (hf : ∀ out, ∃ us, (f out).outlet = out.sendAll us) :
    ∃ us, (signal.mapManual name f).outlet = signal.outlet.sendAll us := by
  cases signal with
  | manual out other =>
    rw [mapManual]
    split
    · exact hf out
    · exact ⟨[], rfl⟩
  | replay out next rest => exact ⟨[], rfl⟩
  | adjacentPairs out previous source => exact ⟨[], rfl⟩
  | join out task left right => exact ⟨[], rfl⟩
  | ended out => exact ⟨[], rfl⟩

theorem Reads.rises (hreads : signal.Reads (some u) signal')
    (hsent : Rises none (taken ++ signal.outlet.queue) signal.outlet.frontier) :
    Rises none (taken ++ [u] ++ signal'.outlet.queue) signal'.outlet.frontier := by
  cases hreads with
  | @update _ rest hqueue =>
    rw [hqueue] at hsent
    rw [outlet_withQueue, List.append_assoc, List.singleton_append]
    exact hsent

end Signal

/-! ### Circuits -/

/-- A signal over manual producers, and its reader. -/
structure Circuit where
  /-- All that each producer has sent, by its name. -/
  source : String → Producer := fun _ => {}
  signal : Signal
  /-- What the reader has taken so far. -/
  taken : List Update := []

namespace Circuit

def start (signal : Signal) : Circuit where
  signal := signal

/-- All that the circuit has sent so far, read or not. -/
def sent (c : Circuit) : List Update :=
  c.taken ++ c.signal.outlet.queue

/-- The events that the circuit has sent so far. -/
def output (c : Circuit) : List Stamped :=
  stampedOf c.sent

/-- No task can take a step. -/
def Idle (c : Circuit) : Prop :=
  ∀ due, c.signal.Idle due

/-- The circuit after the producer of some name has done something, which does `f` to the outlet of its signal. -/
def drive (c : Circuit) (name : String) (producer : Producer) (f : Outlet → Signal) : Circuit :=
  { c with
    source := Function.update c.source name producer
    signal := c.signal.mapManual name f }

def send (c : Circuit) (name : String) (u : Update) : Circuit :=
  c.drive name ((c.source name).send true u) fun out => .manual (out.send u) name

def close (c : Circuit) (name : String) : Circuit :=
  c.drive name (c.source name).close .ended

def settle (c : Circuit) : Circuit :=
  { c with signal := c.signal.settle .exact 0 }

inductive Moves : Circuit → Circuit → Prop
  | send {c : Circuit} {name : String} (u : Update) (hheard : c.signal.hasManual name = true) :
      Moves c (c.send name u)
  | close {c : Circuit} {name : String} (hheard : c.signal.hasManual name = true) : Moves c (c.close name)
  | work {c : Circuit} {due : Nat → Prop} {signal' : Signal} (hstep : c.signal.Step due signal') :
      Moves c { c with signal := signal' }
  | take {c : Circuit} {u : Update} {signal' : Signal} (hreads : c.signal.Reads (some u) signal') :
      Moves c { c with signal := signal', taken := c.taken ++ [u] }

variable {c c' : Circuit} {signal : Signal}

theorem settle_run (hmore : c.signal.Unfinished) : ReflTransGen Moves c c.settle :=
  ReflTransGen.lift (fun signal => { c with signal }) (fun _ _ hstep => Moves.work hstep) _ _
    (hmore.settle_run .exact 0)

theorem idle_settle (hawake : c.settle.signal.nextWake .exact = none) : c.settle.Idle :=
  fun _ => (Signal.idle_settle .exact 0 c.signal).of_nextWake_none hawake

/-- What has been sent, by the circuit and by its producers, rises. -/
structure Risen (c : Circuit) : Prop where
  sent : Rises none c.sent c.signal.outlet.frontier
  source : ∀ name, Rises none (c.source name).channel.queue (c.source name).channel.frontier

theorem Risen.drive {name : String} {producer : Producer} {f : Outlet → Signal} (hc : c.Risen)
    (hproducer : Rises none producer.channel.queue producer.channel.frontier)
    (hf : ∀ out, ∃ us, (f out).outlet = out.sendAll us) : (c.drive name producer f).Risen where
  sent := by
    obtain ⟨us, hus⟩ : ∃ us, (c.signal.mapManual name f).outlet = c.signal.outlet.sendAll us :=
      Signal.outlet_mapManual hf
    have hsent := Outlet.rises_append_sendAll hc.sent us
    rw [← hus] at hsent
    exact hsent
  source := by
    intro other
    by_cases hother : other = name
    · subst hother
      have hself : (c.drive other producer f).source other = producer := Function.update_self ..
      rw [hself]
      exact hproducer
    · have hsame : (c.drive name producer f).source other = c.source other := Function.update_of_ne hother ..
      rw [hsame]
      exact hc.source other

theorem Moves.risen (hmoves : Moves c c') (hc : c.Risen) : c'.Risen := by
  cases hmoves with
  | send u hheard => exact hc.drive (Outlet.rises_send (hc.source _) u) fun out => ⟨[u], rfl⟩
  | close hheard => exact hc.drive (hc.source _) fun out => ⟨[], rfl⟩
  | take hreads => exact ⟨hreads.rises hc.sent, hc.source⟩
  | work hstep =>
    obtain ⟨us, hus⟩ := hstep.outlet
    refine ⟨?_, hc.source⟩
    rw [Circuit.sent, hus]
    exact Outlet.rises_append_sendAll hc.sent us

theorem rises_of_run (hsignal : signal.outlet = {}) (hrun : ReflTransGen Moves (start signal) c) : c.Risen := by
  induction hrun with
  | refl =>
    refine ⟨?_, fun _ => rfl⟩
    rw [sent, start, hsignal]
    rfl
  | tail _ hmoves ih => exact hmoves.risen ih

/-! ### Pairs of neighbours -/

/-- What the pairs of neighbours have sent, and what they would send if this was the last to come, are the
pairs of all that their producer has sent. -/
inductive Pairs (name : String) (c : Circuit) : Prop
  | running {out : Outlet} {previous : Option Event} {unread : List Update}
      (hsignal : c.signal = .adjacentPairs out previous ((c.source name).named name unread))
      (hunread : Rises out.frontier unread (c.source name).channel.frontier)
      (hanswers : ∀ later, c.output ++ pairsAfter previous (stampedOf unread ++ later)
        = pairsAfter none ((c.source name).events ++ later))
  | finished {out : Outlet} (hsignal : c.signal = .ended out)
      (houtput : c.output = pairsAfter none (c.source name).events)

variable {name : String}

theorem pairs_start (name : String) : (start (.ofAdjacentPairs (.manual {} name))).Pairs name :=
  .running rfl rfl fun _ => rfl

theorem pairsAfter_cons (previous : Option Event) (u : Update) (later : List Stamped) :
    pairsAfter previous (stampedOf [u] ++ later)
      = stampedOf [Signal.pairWith previous u] ++ pairsAfter (Signal.newestAfter previous u) later := by
  cases u with
  | progress stamp => rfl
  | event s => cases previous <;> rfl

/-- A pair is sent as it is: it is no earlier than the frontier, and so it is not raised. -/
theorem stampedOf_send_pairWith {taken : List Update} {out : Outlet} {u : Update} (previous : Option Event)
    (hle : out.reach ≤ u.stamp) :
    stampedOf (taken ++ (out.send (Signal.pairWith previous u)).queue)
      = stampedOf (taken ++ out.queue) ++ stampedOf [Signal.pairWith previous u] := by
  have hfrom : From out.reach (stampedOf [Signal.pairWith previous u]) := by
    intro s hs
    have hevent := List.mem_singleton.1 (mem_stampedOf.1 hs)
    have hstamp : s.stamp = u.stamp := (congrArg Update.stamp hevent).trans (Signal.stamp_pairWith previous u)
    exact hstamp ▸ hle
  rw [stampedOf_append, Outlet.stampedOf_queue_send, raiseAll_eq_self hfrom, ← List.append_assoc, ← stampedOf_append]

theorem Pairs.work {due : Nat → Prop} {signal' : Signal} (hc : c.Pairs name) (hstep : c.signal.Step due signal') :
    ({ c with signal := signal' } : Circuit).Pairs name := by
  cases hc with
  | finished hsignal houtput =>
    rw [hsignal] at hstep
    cases hstep
  | @running out previous unread hsignal hunread hanswers =>
    rw [hsignal] at hstep
    have hsent : c.output = stampedOf (c.taken ++ out.queue) := by
      rw [output, sent, hsignal]
      rfl
    cases hstep with
    | source hstep => exact absurd hstep Producer.not_step_named
    | close hreads =>
      obtain ⟨u, rest, hnone, -⟩ | ⟨-, rfl, -⟩ := Producer.reads_named hreads
      · cases hnone
      refine .finished rfl ?_
      have hall := hanswers []
      rw [stampedOf_nil, List.append_nil, List.append_nil] at hall
      cases previous <;> exact hsent.symm.trans ((List.append_nil _).symm.trans hall)
    | @pair _ _ _ source' u hreads =>
      obtain ⟨_, rest, ⟨rfl⟩, rfl, rfl⟩ | ⟨hsome, -⟩ := Producer.reads_named hreads
      · obtain ⟨hle, hrest⟩ := hunread
        have hstamp : (Signal.pairWith previous u).stamp = u.stamp := Signal.stamp_pairWith previous u
        have hfrontier : (out.send (Signal.pairWith previous u)).frontier = some u.stamp :=
          hstamp ▸ Outlet.frontier_send (hstamp ▸ hle)
        refine .running rfl (hfrontier ▸ hrest) fun later => ?_
        have hpair := pairsAfter_cons previous u (stampedOf rest ++ later)
        rw [← List.append_assoc, ← stampedOf_append, List.singleton_append] at hpair
        have hanswer := hanswers later
        rw [hsent, hpair, ← List.append_assoc, ← stampedOf_send_pairWith previous hle] at hanswer
        exact hanswer
      · cases hsome

/-- What the producer does is heard, as long as the pairs have not ended. -/
theorem Pairs.drive {other : String} {producer : Producer} {f : Outlet → Signal} (hc : c.Pairs name)
    (hheard : c.signal.hasManual other = true)
    (hproducer : (c.source other).isOpen = true → ∀ unread, ∃ rest,
      f ⟨unread, (c.source other).channel.frontier⟩ = producer.named other rest ∧
        (c.source other).Grows ((c.source other).named other unread) producer (producer.named other rest)) :
    (c.drive other producer f).Pairs name := by
  cases hc with
  | finished hsignal houtput =>
    rw [hsignal] at hheard
    cases hheard
  | @running out previous unread hsignal hunread hanswers =>
    rw [hsignal, Signal.hasManual, Producer.hasManual_named, Bool.and_eq_true_iff, beq_iff_eq] at hheard
    obtain ⟨hopen, rfl⟩ := hheard
    obtain ⟨rest, hf, hgrows⟩ := hproducer hopen unread
    have hsource : (c.drive name producer f).source name = producer := Function.update_self ..
    have hdriven : (c.drive name producer f).signal = .adjacentPairs out previous (producer.named name rest) := by
      rw [Circuit.drive, hsignal, Signal.mapManual, Producer.mapManual_named_self f hopen, hf]
    refine .running (hsource.symm ▸ hdriven) ?_ fun later => ?_
    · have hfollows : (⟨[], out.frontier, true⟩ : Operand).Follows ((c.source name).named name unread) := by
        refine ⟨ascending_nil, upTo_nil _, ?_, fun hclosed => by cases hclosed⟩
        rw [Producer.outlet_named]
        exact hunread
      have hrises := (hgrows.follows hfollows).rises
      rw [Producer.outlet_named] at hrises
      exact hsource.symm ▸ hrises
    · obtain ⟨xs, hxs, hevents, -⟩ := hgrows.events
      simp only [Signal.unread, Producer.outlet_named] at hxs
      have houtput : (c.drive name producer f).output = c.output := by
        rw [output, output, sent, sent, hdriven, hsignal]
        rfl
      rw [houtput, hsource, hxs, hevents, List.append_assoc, List.append_assoc]
      exact hanswers (xs ++ later)

theorem Pairs.take {u : Update} {signal' : Signal} (hc : c.Pairs name) (hreads : c.signal.Reads (some u) signal') :
    ({ c with signal := signal', taken := c.taken ++ [u] } : Circuit).Pairs name := by
  cases hreads with
  | @update _ rest hqueue =>
    have houtput : ({ c with signal := c.signal.withQueue rest, taken := c.taken ++ [u] } : Circuit).output
        = c.output := by
      rw [output, output, sent, sent, hqueue, Signal.outlet_withQueue, List.append_assoc, List.singleton_append]
    cases hc with
    | @running out previous unread hsignal hunread hanswers =>
      have htaken : c.signal.withQueue rest
          = .adjacentPairs { out with queue := rest } previous ((c.source name).named name unread) := by
        rw [hsignal]
        rfl
      refine .running htaken hunread fun later => ?_
      rw [houtput]
      exact hanswers later
    | finished hsignal hall =>
      exact .finished (by rw [hsignal]; rfl) (houtput.trans hall)

theorem Moves.pairs (hmoves : Moves c c') (hc : c.Pairs name) : c'.Pairs name := by
  cases hmoves with
  | work hstep => exact hc.work hstep
  | take hreads => exact hc.take hreads
  | send u hheard =>
    refine hc.drive hheard fun hopen unread => ⟨_, ?_, Producer.grows_send hopen _ unread u⟩
    rw [Producer.named_send hopen]
  | close hheard =>
    exact hc.drive hheard fun hopen unread => ⟨unread, rfl, Producer.grows_close hopen _ unread⟩

theorem pairs_of_run (hrun : ReflTransGen Moves (start (.ofAdjacentPairs (.manual {} name))) c) : c.Pairs name := by
  induction hrun with
  | refl => exact pairs_start name
  | tail _ hmoves ih => exact hmoves.pairs ih

/-- Whatever has been sent so far are the first pairs of all that the producer has sent. -/
theorem Pairs.output_begins (hc : c.Pairs name) : c.output <+: pairsAfter none (c.source name).events := by
  cases hc with
  | finished hsignal houtput => exact houtput ▸ List.prefix_rfl
  | running hsignal hunread hanswers =>
    have hall := hanswers []
    rw [List.append_nil, List.append_nil] at hall
    exact ⟨_, hall⟩

theorem Pairs.frontier_eq (hc : c.Pairs name) (hidle : c.Idle) (hopen : c.signal.hasEnded = false) :
    c.signal.outlet.frontier = (c.source name).channel.frontier := by
  cases hc with
  | finished hsignal houtput =>
    rw [hsignal] at hopen
    cases hopen
  | @running out previous unread hsignal hunread hanswers =>
    have hnone := hidle fun _ => True
    rw [hsignal] at hnone
    have hqueue := hnone.source_readUp.2.queue_eq
    rw [Producer.outlet_named] at hqueue
    obtain rfl : unread = [] := hqueue
    rw [hsignal]
    exact hunread

end Circuit

end TimedStreams
