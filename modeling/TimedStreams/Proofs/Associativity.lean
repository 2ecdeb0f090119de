import TimedStreams.Proofs.Circuits
import TimedStreams.Proofs.LiveJoins
import TimedStreams.Proofs.Views

/-!
# Nested merges

A merge whose operands are merges does not see the producers at the leaves. It sees what the inner
merges have sent, and that depends on when their tasks and its own have run. `MergeTree.Carries`
follows a circuit of merges of any depth: every inner merge is a producer of its own, which has sent
what was taken from it and what is still unread, and the task that reads it serves that producer.
Whatever happens at the leaves, every merge on the way up sends more of the same
(`MergeTree.Carries.drive`, `MergeTree.Carries.step`).

Once all tasks are idle each merge is seen as its producers merged, and so the outermost one as the
merged views of all leaves (`MergeTree.Carries.view_eq`). Merging views is associative, and with it
merging live signals (`Circuit.merge_assoc_of_idle`).
-/

namespace TimedStreams

open Relation Stamped Update

/-- Merges of manual producers, nested in any way. -/
inductive MergeTree where
  | leaf (name : String)
  | node (left right : MergeTree)

namespace MergeTree

def signal : MergeTree → Signal
  | leaf name => .manual {} name
  | node left right => .ofJoin .merge left.signal right.signal

def names : MergeTree → List String
  | leaf name => [name]
  | node left right => left.names ++ right.names

def view (source : String → Producer) : MergeTree → View
  | leaf name => (source name).view
  | node left right => (left.view source).merge (right.view source)

variable {source source' : String → Producer} {tree : MergeTree}

theorem view_congr (hsame : ∀ name ∈ tree.names, source name = source' name) :
    tree.view source = tree.view source' := by
  induction tree with
  | leaf name => exact congrArg Producer.view (hsame name (List.mem_singleton_self name))
  | node left right ihleft ihright =>
    have hleft := ihleft fun name hname => hsame name (List.mem_append_left _ hname)
    have hright := ihright fun name hname => hsame name (List.mem_append_right _ hname)
    rw [view, view, hleft, hright]

theorem ascending_view (hsource : ∀ name, Ascending (source name).events) (tree : MergeTree) :
    Ascending (tree.view source).events := by
  induction tree with
  | leaf name => exact hsource name
  | node left right ihleft ihright => exact View.ascending_merge ihleft ihright

/-! ### Running merges -/

/-- A circuit of merges at some point of a run, and what its outermost signal has sent so far. -/
inductive Carries (source : String → Producer) : MergeTree → Signal → Producer → Prop
  | leaf {name : String} {producer : Producer} {unread : List Update} (hproducer : source name = producer) :
      Carries source (.leaf name) (producer.named name unread) producer
  | running {x y : MergeTree} {out : Outlet} {p : Operands} {left right : Signal} {first second : Producer}
      {taken : List Update} (hx : Carries source x left first) (hy : Carries source y right second)
      (hmore : p.finished = false) (hserves : (Task.merge p).Serves out taken first second left right)
      (hmodest : (Task.merge p).Modest out) (hsent : Rises none (taken ++ out.queue) out.frontier) :
      Carries source (.node x y) (.join out (.merge p) left right) ⟨⟨taken ++ out.queue, out.frontier⟩, true⟩
  | ended {x y : MergeTree} {out : Outlet} {taken : List Update}
      (hview : (⟨⟨taken ++ out.queue, out.frontier⟩, false⟩ : Producer).view = (MergeTree.node x y).view source)
      (hclosed : ∀ name ∈ (MergeTree.node x y).names, (source name).isOpen = false) :
      Carries source (.node x y) (.ended out) ⟨⟨taken ++ out.queue, out.frontier⟩, false⟩

variable {signal signal' : Signal} {history : Producer} {update : Option Update} {due : Nat → Prop}
  {name : String} {producer : Producer} {f : Outlet → Signal}

theorem Carries.hasEnded (hcarries : tree.Carries source signal history) : signal.hasEnded = !history.isOpen := by
  cases hcarries with
  | leaf => exact Producer.hasEnded_named _ _ _
  | running => rfl
  | ended => rfl

/-- What has completed has sent the merged views of its leaves, which have all completed. -/
theorem Carries.of_closed (hcarries : tree.Carries source signal history) (hclosed : history.isOpen = false) :
    history.view = tree.view source ∧ ∀ name ∈ tree.names, (source name).isOpen = false := by
  cases hcarries with
  | leaf hproducer =>
    subst hproducer
    refine ⟨rfl, fun name hname => ?_⟩
    rw [List.mem_singleton.1 hname]
    exact hclosed
  | running => cases hclosed
  | ended hview hall => exact ⟨hview, hall⟩

/-- Reading a merge takes nothing from what it has sent. -/
theorem Carries.reads (hcarries : tree.Carries source signal history) (hreads : signal.Reads update signal') :
    tree.Carries source signal' history := by
  cases hreads with
  | done => exact hcarries
  | @update u rest hqueue =>
    have hsame : ∀ (taken : List Update) {out : Outlet}, out.queue = u :: rest →
        taken ++ out.queue = taken ++ [u] ++ rest := by
      intro taken out hout
      rw [hout, List.append_assoc, List.singleton_append]
    cases hcarries with
    | leaf hproducer =>
      rw [Producer.withQueue_named]
      exact .leaf hproducer
    | @running _ _ out _ _ _ _ _ taken hx hy hmore hserves hmodest hsent =>
      rw [show taken ++ out.queue = _ from hsame taken hqueue] at hsent ⊢
      exact .running hx hy hmore (hserves.take hqueue) hmodest hsent
    | @ended _ _ out taken hview hclosed =>
      rw [show taken ++ out.queue = _ from hsame taken hqueue] at hview ⊢
      exact .ended hview hclosed

/-- A merge that hears something sends what it answers behind what it has sent. -/
theorem Carries.hear {x y : MergeTree} {out : Outlet} {p : Operands} {left right left' right' : Signal}
    {first second : Producer} {taken : List Update} {side : Side}
    (hx : x.Carries source left first) (hy : y.Carries source right second)
    (hserves : (Task.merge p).Serves out taken first second left right) (hmodest : (Task.merge p).Modest out)
    (hsent : Rises none (taken ++ out.queue) out.frontier) (hwants : (Task.merge p).wants side = true)
    (hhears : Signal.Hears update side left right left' right') :
    ∃ history', (MergeTree.node x y).Carries source
        ((Signal.Worker.hear side ⟨.merge p, out⟩ update).signal left' right') history' ∧
      (⟨⟨taken ++ out.queue, out.frontier⟩, true⟩ : Producer).Grows (.join out (.merge p) left right) history'
        ((Signal.Worker.hear side ⟨.merge p, out⟩ update).signal left' right') := by
  have hheard := hserves.hear hwants hhears
  have hchannel := (Outlet.sendAll_prepend taken out ((Task.merge p).receive side update).1).symm
  rw [Signal.Worker.signal_hear hwants]
  split
  · next hdone =>
    obtain ⟨hfirst, hsecond⟩ : first.isOpen = false ∧ second.isOpen = false := hheard.completes_of_finished hdone
    obtain ⟨hviewx, hclosedx⟩ := hx.of_closed hfirst
    obtain ⟨hviewy, hclosedy⟩ := hy.of_closed hsecond
    have hmerged : (MergeTree.node x y).view source = ⟨Stamped.merge first.events second.events, .done⟩ := by
      rw [view, ← hviewx, ← hviewy,
        View.merge_of_done (Producer.level_eq_done.2 hfirst) (Producer.level_eq_done.2 hsecond)]
      rfl
    refine ⟨_, .ended ?_ ?_, Producer.grows_of_sendAll _ rfl rfl rfl rfl hchannel rfl⟩
    · rw [hmerged]
      exact View.ext (hheard.output_of_finished hdone) (Producer.level_eq_done.2 rfl)
    · intro name hname
      exact (List.mem_append.1 hname).elim (hclosedx name) (hclosedy name)
  · next hnot =>
    obtain ⟨hx', hy'⟩ : x.Carries source left' first ∧ y.Carries source right' second := by
      cases hhears with
      | left hreads => exact ⟨hx.reads hreads, hy⟩
      | right hreads => exact ⟨hx, hy.reads hreads⟩
    exact ⟨_, .running hx' hy' (Bool.eq_false_iff.2 hnot) hheard (hmodest.hear hserves.attends hhears)
      (Outlet.rises_append_sendAll hsent _), Producer.grows_of_sendAll _ rfl rfl rfl rfl hchannel rfl⟩

theorem Carries.step (hcarries : tree.Carries source signal history) (hstep : signal.Step due signal') :
    ∃ history', tree.Carries source signal' history' ∧ history.Grows signal history' signal' := by
  induction hcarries generalizing signal' with
  | leaf => exact absurd hstep Producer.not_step_named
  | ended => cases hstep
  | @running x y out p left right first second taken hx hy hmore hserves hmodest hsent ihx ihy =>
    cases hstep with
    | hear hwants hhears => exact hx.hear hy hserves hmodest hsent hwants hhears
    | @left _ _ _ left' _ hstep =>
      obtain ⟨first', hx', hgrows⟩ := ihx hstep
      exact ⟨_, .running hx' hy hmore (hserves.grow hgrows (.refl _ _)) hmodest hsent,
        Producer.grows_of_sendAll [] rfl rfl rfl rfl rfl rfl⟩
    | @right _ _ _ _ right' hstep =>
      obtain ⟨second', hy', hgrows⟩ := ihy hstep
      exact ⟨_, .running hx hy' hmore (hserves.grow (.refl _ _) hgrows) hmodest hsent,
        Producer.grows_of_sendAll [] rfl rfl rfl rfl rfl rfl⟩

theorem Carries.isOpen_of_hasManual (hcarries : tree.Carries source signal history)
    (hheard : signal.hasManual name = true) : (source name).isOpen = true := by
  induction hcarries with
  | leaf hproducer =>
    rw [Producer.hasManual_named, Bool.and_eq_true_iff, beq_iff_eq] at hheard
    obtain ⟨hopen, rfl⟩ := hheard
    rw [hproducer]
    exact hopen
  | ended => cases hheard
  | running hx hy hmore hserves hmodest hsent ihx ihy => exact (Bool.or_eq_true_iff.1 hheard).elim ihx ihy

/-- Who has not completed is heard. -/
theorem Carries.hasManual (hcarries : tree.Carries source signal history) (hname : name ∈ tree.names)
    (hopen : (source name).isOpen = true) : signal.hasManual name = true := by
  induction hcarries with
  | leaf hproducer =>
    obtain rfl := List.mem_singleton.1 hname
    rw [Producer.hasManual_named, ← hproducer, hopen, Bool.true_and, beq_self_eq_true]
  | ended hview hclosed => exact absurd (hclosed name hname) (by simp [hopen])
  | running hx hy hmore hserves hmodest hsent ihx ihy =>
    rw [Signal.hasManual, Bool.or_eq_true_iff]
    exact (List.mem_append.1 hname).imp ihx ihy

theorem Carries.unfinished (hcarries : tree.Carries source signal history) : signal.Unfinished := by
  induction hcarries with
  | leaf hproducer => exact Producer.unfinished_named
  | ended hview hclosed => trivial
  | running hx hy hmore hserves hmodest hsent ihx ihy => exact ⟨hmore, ihx, ihy⟩

theorem Carries.nextWake_eq (hcarries : tree.Carries source signal history) (clock : Clock) :
    signal.nextWake clock = none := by
  induction hcarries with
  | @leaf name producer unread hproducer =>
    rw [Producer.named]
    split <;> rfl
  | ended hview hclosed => rfl
  | running hx hy hmore hserves hmodest hsent ihx ihy =>
    rw [Signal.nextWake, ihx, ihy]
    rfl

/-- What a producer does that has not completed, all merges above it pass on. -/
theorem Carries.drive (hcarries : tree.Carries source signal history) (hopen : (source name).isOpen = true)
    (hproducer : ∀ unread, ∃ rest,
      f ⟨unread, (source name).channel.frontier⟩ = producer.named name rest ∧
        (source name).Grows ((source name).named name unread) producer (producer.named name rest)) :
    ∃ history', tree.Carries (Function.update source name producer) (signal.mapManual name f) history' ∧
      history.Grows signal history' (signal.mapManual name f) := by
  induction hcarries with
  | @leaf other _ unread hother =>
    subst hother
    by_cases hname : other = name
    · subst hname
      obtain ⟨rest, hf, hgrows⟩ := hproducer unread
      rw [Producer.mapManual_named_self f hopen, hf]
      exact ⟨producer, .leaf (Function.update_self ..), hgrows⟩
    · rw [Producer.mapManual_named_of_ne f hname]
      exact ⟨source other, .leaf (Function.update_of_ne hname ..), .refl _ _⟩
  | @ended x y _ _ hview hclosed =>
    have hsame : ∀ other ∈ (node x y).names, source other = Function.update source name producer other := by
      intro other hmem
      have hother : other ≠ name := by
        rintro rfl
        exact absurd (hclosed other hmem) (by simp [hopen])
      exact (Function.update_of_ne hother ..).symm
    refine ⟨_, .ended (hview.trans (view_congr hsame)) ?_, .refl _ _⟩
    intro other hmem
    exact hsame other hmem ▸ hclosed other hmem
  | running hx hy hmore hserves hmodest hsent ihx ihy =>
    obtain ⟨first', hx', hfirst⟩ := ihx
    obtain ⟨second', hy', hsecond⟩ := ihy
    exact ⟨_, .running hx' hy' hmore (hserves.grow hfirst hsecond) hmodest hsent,
      Producer.grows_of_sendAll [] rfl rfl rfl rfl rfl rfl⟩

/-- Once all tasks are idle, what has been sent is seen as all leaves merged. -/
theorem Carries.view_eq (hcarries : tree.Carries source signal history) (hidle : signal.Idle due) :
    history.view = tree.view source := by
  induction hcarries with
  | leaf hproducer => exact congrArg Producer.view hproducer.symm
  | ended hview hclosed => exact hview
  | running hx hy hmore hserves hmodest hsent ihx ihy =>
    obtain ⟨hidleLeft, hreadLeft⟩ := hidle.left_readUp
    obtain ⟨hidleRight, hreadRight⟩ := hidle.right_readUp
    rw [hserves.view_eq hmodest ⟨hmore, hreadLeft, hreadRight⟩ hsent, ihx hidleLeft, ihy hidleRight, view]

theorem outlet_signal (tree : MergeTree) : tree.signal.outlet = {} := by
  cases tree <;> rfl

theorem carries_signal (tree : MergeTree) : tree.Carries (fun _ => {}) tree.signal {} := by
  induction tree with
  | leaf name => exact .leaf rfl
  | node x y ihx ihy =>
    have hattends : ∀ {tree : MergeTree}, tree.Carries (fun _ => {}) tree.signal {} →
        ({} : Operand).Attends {} tree.signal := by
      intro tree hcarries
      refine ⟨⟨ascending_nil, upTo_nil _, ?_, fun hclosed => by cases hclosed⟩, hcarries.hasEnded, [], ?_, rfl,
        List.suffix_rfl⟩
      · rw [outlet_signal]
        rfl
      · rw [outlet_signal]
        rfl
    have hserves : (Task.start .merge).Serves {} [] {} {} x.signal y.signal :=
      Task.serves_start (by decide) (hattends ihx) (hattends ihy)
    exact .running ihx ihy rfl hserves (Task.modest_start .merge) rfl

end MergeTree

/-! ### Circuits of merges -/

namespace Circuit

variable {c c' : Circuit} {tree : MergeTree}

/-- A circuit of merges has sent what its outermost merge has sent. -/
def Merges (tree : MergeTree) (c : Circuit) : Prop :=
  ∃ history, tree.Carries c.source c.signal history ∧ history.channel.queue = c.sent

theorem merges_start (tree : MergeTree) : (start tree.signal).Merges tree := by
  refine ⟨{}, tree.carries_signal, ?_⟩
  rw [sent, start, tree.outlet_signal]
  rfl

theorem Merges.drive {name : String} {producer : Producer} {f : Outlet → Signal} (hc : c.Merges tree)
    (hheard : c.signal.hasManual name = true)
    (hproducer : (c.source name).isOpen = true → ∀ unread, ∃ rest,
      f ⟨unread, (c.source name).channel.frontier⟩ = producer.named name rest ∧
        (c.source name).Grows ((c.source name).named name unread) producer (producer.named name rest)) :
    (c.drive name producer f).Merges tree := by
  obtain ⟨history, hcarries, hsent⟩ := hc
  have hopen := hcarries.isOpen_of_hasManual hheard
  obtain ⟨history', hcarries', hgrows⟩ := hcarries.drive hopen (hproducer hopen)
  obtain ⟨us, hqueue, hchannel, -⟩ := hgrows.sent
  refine ⟨history', hcarries', ?_⟩
  rw [hchannel, hsent, sent, sent, Circuit.drive, hqueue, List.append_assoc]

theorem Moves.merges (hmoves : Moves c c') (hc : c.Merges tree) : c'.Merges tree := by
  cases hmoves with
  | send u hheard =>
    refine hc.drive hheard fun hopen unread => ⟨_, ?_, Producer.grows_send hopen _ unread u⟩
    rw [Producer.named_send hopen]
  | close hheard => exact hc.drive hheard fun hopen unread => ⟨unread, rfl, Producer.grows_close hopen _ unread⟩
  | work hstep =>
    obtain ⟨history, hcarries, hsent⟩ := hc
    obtain ⟨history', hcarries', hgrows⟩ := hcarries.step hstep
    obtain ⟨us, hqueue, hchannel, -⟩ := hgrows.sent
    refine ⟨history', hcarries', ?_⟩
    rw [hchannel, hsent, sent, sent, hqueue, List.append_assoc]
  | take hreads =>
    obtain ⟨history, hcarries, hsent⟩ := hc
    refine ⟨history, hcarries.reads hreads, ?_⟩
    cases hreads with
    | @update u rest hqueue =>
      rw [hsent, sent, sent, hqueue, Signal.outlet_withQueue, List.append_assoc, List.singleton_append]

theorem Merges.of_run (hrun : ReflTransGen Moves c c') (hc : c.Merges tree) : c'.Merges tree := by
  induction hrun with
  | refl => exact hc
  | tail _ hmoves ih => exact hmoves.merges ih

theorem Merges.hasManual {name : String} (hc : c.Merges tree) (hname : name ∈ tree.names)
    (hopen : (c.source name).isOpen = true) : c.signal.hasManual name = true := by
  obtain ⟨history, hcarries, -⟩ := hc
  exact hcarries.hasManual hname hopen

theorem Merges.settle_run (hc : c.Merges tree) : ReflTransGen Moves c c.settle := by
  obtain ⟨history, hcarries, -⟩ := hc
  exact Circuit.settle_run hcarries.unfinished

theorem Merges.idle_settle (hc : c.Merges tree) : c.settle.Idle := by
  obtain ⟨history, hcarries, -⟩ := hc.of_run hc.settle_run
  exact Circuit.idle_settle (hcarries.nextWake_eq .exact)

/-- An idle circuit of merges has sent the events of all leaves merged, and has ended if all of them have
completed. -/
theorem merged_of_idle (hrun : ReflTransGen Moves (start tree.signal) c) (hidle : c.Idle) :
    c.output = (tree.view c.source).events ∧
      (c.signal.hasEnded = true ↔ (tree.view c.source).level = .done) := by
  obtain ⟨history, hcarries, hsent⟩ := (merges_start tree).of_run hrun
  have hview := hcarries.view_eq (hidle fun _ => True)
  refine ⟨?_, ?_⟩
  · rw [output, ← hsent, ← hview]
    rfl
  · rw [← hview, Producer.level_eq_done, hcarries.hasEnded, Bool.not_eq_true']

/-- However the producers at the leaves of three merge trees are driven, and whatever the tasks and the readers
do in between, when all tasks are idle `merge(merge(x, y), z)` and `merge(x, merge(y, z))` have sent the same
events in the same order, and one has ended if and only if the other has. -/
theorem merge_assoc_of_idle {x y z : MergeTree}
    (hrun : ReflTransGen Moves (start (.ofJoin .merge (.ofJoin .merge x.signal y.signal) z.signal)) c)
    (hrun' : ReflTransGen Moves (start (.ofJoin .merge x.signal (.ofJoin .merge y.signal z.signal))) c')
    (hsource : ∀ name ∈ x.names ++ y.names ++ z.names, c.source name = c'.source name)
    (hidle : c.Idle) (hidle' : c'.Idle) :
    c.output = c'.output ∧ (c.signal.hasEnded = true ↔ c'.signal.hasEnded = true) := by
  have hleft : ReflTransGen Moves (start (MergeTree.node (.node x y) z).signal) c := hrun
  have hright : ReflTransGen Moves (start (MergeTree.node x (.node y z)).signal) c' := hrun'
  obtain ⟨houtput, hended⟩ := merged_of_idle hleft hidle
  obtain ⟨houtput', hended'⟩ := merged_of_idle hright hidle'
  have hascending : ∀ tree : MergeTree, Ascending (tree.view c.source).events :=
    MergeTree.ascending_view fun name => ((rises_of_run rfl hrun).source name).ascending
  have hnames : ∀ name ∈ (MergeTree.node x (.node y z)).names, c.source name = c'.source name := by
    intro name hname
    rw [MergeTree.names, MergeTree.names, ← List.append_assoc] at hname
    exact hsource name hname
  have hsame : (MergeTree.node (.node x y) z).view c.source = (MergeTree.node x (.node y z)).view c'.source :=
    (View.merge_assoc (hascending x) (hascending y) (hascending z)).trans (MergeTree.view_congr hnames)
  rw [houtput, houtput', hended, hended', hsame]
  exact ⟨rfl, .rfl⟩

/-- Three producers send an event at one instant, in the order opposite to that of the merges, two of them
complete, and all tasks become idle. -/
def tied (signal : Signal) : Circuit :=
  let sent := (((start signal).send "z" (.event ⟨.tick 3 0, 5⟩)).send "y" (.event ⟨.tick 2 0, 5⟩)).send "x"
    (.event ⟨.tick 1 0, 5⟩)
  ((sent.close "x").close "y").settle

theorem tied_run (hnames : ∀ name ∈ ["x", "y", "z"], name ∈ tree.names) :
    ReflTransGen Moves (start tree.signal) (tied tree.signal) ∧ (tied tree.signal).Idle := by
  have hmay : ∀ (name : String) {c : Circuit}, name ∈ ["x", "y", "z"] →
      ReflTransGen Moves (start tree.signal) c → (c.source name).isOpen = true →
      c.signal.hasManual name = true :=
    fun _ _ hname hrun hopen => ((merges_start tree).of_run hrun).hasManual (hnames _ hname) hopen
  have hz := ReflTransGen.single (Moves.send (.event ⟨.tick 3 0, 5⟩) (hmay "z" (by simp) .refl rfl))
  have hy := hz.tail (.send (.event ⟨.tick 2 0, 5⟩) (hmay "y" (by simp) hz rfl))
  have hx := hy.tail (.send (.event ⟨.tick 1 0, 5⟩) (hmay "x" (by simp) hy rfl))
  have hx' := hx.tail (.close (hmay "x" (by simp) hx rfl))
  have hy' := hx'.tail (.close (hmay "y" (by simp) hx' rfl))
  have hmerges := (merges_start tree).of_run hy'
  exact ⟨hy'.trans hmerges.settle_run, hmerges.idle_settle⟩

theorem merge_assoc_of_idle_tied :
    (tied (.ofJoin .merge (.ofJoin .merge (.manual {} "x") (.manual {} "y")) (.manual {} "z"))).output
        = (tied (.ofJoin .merge (.manual {} "x") (.ofJoin .merge (.manual {} "y") (.manual {} "z")))).output ∧
      (tied (.ofJoin .merge (.ofJoin .merge (.manual {} "x") (.manual {} "y")) (.manual {} "z"))).output
        = [⟨.tick 1 0, 5⟩, ⟨.tick 2 0, 5⟩, ⟨.tick 3 0, 5⟩] := by
  have hleft := @tied_run (.node (.node (.leaf "x") (.leaf "y")) (.leaf "z")) fun _ hname => hname
  have hright := @tied_run (.node (.leaf "x") (.node (.leaf "y") (.leaf "z"))) fun _ hname => hname
  have hsame := @merge_assoc_of_idle _ _ (.leaf "x") (.leaf "y") (.leaf "z") hleft.1 hright.1 (fun _ _ => rfl)
    hleft.2 hright.2
  exact ⟨hsame.1, by decide +kernel⟩

end Circuit

end TimedStreams
