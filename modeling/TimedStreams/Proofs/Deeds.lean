import TimedStreams.Proofs.Punctual
import TimedStreams.Proofs.Serving

/-!
# What a step does, and where

A producer owns the signals it reads, so whatever lives in an evaluation has a place in the tree: the
path from the outermost signal to it. A step happens at one place. A replay wakes there for the next
event of its agenda, a task goes on, or a task completes, and then it lets go of its operands
(`Deed`). `Signal.Does` is `Signal.Step` with that information.

Nothing is replayed that was not still to be replayed at that place, and nothing of it gets lost: after
a step the rest of every agenda is where it was, or with an operand that has been released
(`Does.conserves`). Only a `zip` releases operands that could still wake (`Does.ended_of_complete`).
-/

namespace TimedStreams

open Stamped Update

/-- Where an operand is, seen from its reader. -/
inductive Place where
  | source
  | side (side : Side)
  deriving DecidableEq

/-- A signal, and the place that it has or had. -/
structure Holding where
  path : List Place
  signal : Signal

inductive Deed where
  /-- A replay wakes for an event. -/
  | wake (s : Stamped)
  /-- A task receives an update, and goes on. -/
  | work
  /-- A task completes and lets go of its operands; `none` stands for a task of adjacent pairs. -/
  | complete (kind : Option Join) (operands : List (Place × Signal))

namespace Deed

/-- What was replayed at `place` by a deed at `path`. -/
def wokenAt (path place : List Place) : Deed → List Stamped
  | wake s => if path = place then [s] else []
  | work | complete _ _ => []

/-- The signals that nobody reads after a deed. -/
def released (path : List Place) : Deed → List Holding
  | wake _ | work => []
  | complete _ operands => operands.map fun operand => ⟨path ++ [operand.1], operand.2⟩

end Deed

namespace Signal

/-- What is still to be replayed at a place. -/
def agendaAt : Signal → List Place → List Stamped
  | replay _ next rest, place =>
    match place with
    | [] => next :: rest
    | _ => []
  | adjacentPairs _ _ source, place =>
    match place with
    | .source :: below => source.agendaAt below
    | _ => []
  | join _ _ left right, place =>
    match place with
    | .side .left :: below => left.agendaAt below
    | .side .right :: below => right.agendaAt below
    | _ => []
  | manual _ _, _ | ended _, _ => []
termination_by structural signal => signal

def operands : Signal → List (Place × Signal)
  | adjacentPairs _ _ source => [(.source, source)]
  | join _ _ left right => [(.side .left, left), (.side .right, right)]
  | replay _ _ _ | manual _ _ | ended _ => []

/-- One thing happens at a place in the tree. -/
inductive Does (due : Nat → Prop) : List Place → Deed → Signal → Signal → Prop
  | wake {out : Outlet} {next : Stamped} {rest : List Stamped} (hdue : due next.stamp) :
      Does due [] (.wake next) (replay out next rest) (announce (out.emit next) rest)
  | pair {out : Outlet} {previous : Option Event} {source source' : Signal} {u : Update}
      (hreads : source.Reads (some u) source') :
      Does due [] .work (adjacentPairs out previous source)
        (adjacentPairs (out.send (pairWith previous u)) (newestAfter previous u) source')
  | close {out : Outlet} {previous : Option Event} {source source' : Signal} (hreads : source.Reads none source') :
      Does due [] (.complete none [(.source, source')]) (adjacentPairs out previous source) (ended out)
  | hear {out : Outlet} {task : Task} {side : Side} {update : Option Update} {left right left' right' : Signal}
      (hwants : task.wants side = true) (hhears : Hears update side left right left' right')
      (hmore : (task.receive side update).2.finished = false) :
      Does due [] .work (join out task left right)
        (join (out.sendAll (task.receive side update).1) (task.receive side update).2 left' right')
  | finish {out : Outlet} {task : Task} {side : Side} {update : Option Update} {left right left' right' : Signal}
      (hwants : task.wants side = true) (hhears : Hears update side left right left' right')
      (hdone : (task.receive side update).2.finished = true) :
      Does due [] (.complete (some task.kind) [(.side .left, left'), (.side .right, right')]) (join out task left right)
        (ended (out.sendAll (task.receive side update).1))
  | source {path : List Place} {deed : Deed} {out : Outlet} {previous : Option Event} {source source' : Signal}
      (hdoes : Does due path deed source source') :
      Does due (.source :: path) deed (adjacentPairs out previous source) (adjacentPairs out previous source')
  | left {path : List Place} {deed : Deed} {out : Outlet} {task : Task} {left left' right : Signal}
      (hdoes : Does due path deed left left') :
      Does due (.side .left :: path) deed (join out task left right) (join out task left' right)
  | right {path : List Place} {deed : Deed} {out : Outlet} {task : Task} {left right right' : Signal}
      (hdoes : Does due path deed right right') :
      Does due (.side .right :: path) deed (join out task left right) (join out task left right')

variable {due : Nat → Prop} {path : List Place} {deed : Deed} {signal signal' left right left' right' : Signal}
  {side : Side} {update : Option Update}

theorem Does.step (hdoes : signal.Does due path deed signal') : signal.Step due signal' := by
  induction hdoes with
  | wake hdue => exact .wake hdue
  | pair hreads => exact .pair hreads
  | close hreads => exact .close hreads
  | @hear out task side update left right left' right' hwants hhears hmore =>
    have hstep : (join out task left right).Step due _ := .hear hwants hhears
    rwa [Worker.signal_hear hwants, if_neg (by simp [hmore])] at hstep
  | @finish out task side update left right left' right' hwants hhears hdone =>
    have hstep : (join out task left right).Step due _ := .hear hwants hhears
    rwa [Worker.signal_hear hwants, if_pos hdone] at hstep
  | source _ ih => exact .source ih
  | left _ ih => exact .left ih
  | right _ ih => exact .right ih

/-- Every step happens somewhere. -/
theorem Step.exists_does (hstep : signal.Step due signal') : ∃ path deed, signal.Does due path deed signal' := by
  induction hstep with
  | wake hdue => exact ⟨[], _, .wake hdue⟩
  | pair hreads => exact ⟨[], _, .pair hreads⟩
  | close hreads => exact ⟨[], _, .close hreads⟩
  | @hear out task side update left right left' right' hwants hhears =>
    rw [Worker.signal_hear hwants]
    split
    · next hdone => exact ⟨[], _, .finish hwants hhears hdone⟩
    · next hmore => exact ⟨[], _, .hear hwants hhears (Bool.eq_false_iff.2 hmore)⟩
  | source _ ih =>
    obtain ⟨path, deed, hdoes⟩ := ih
    exact ⟨_, deed, .source hdoes⟩
  | left _ ih =>
    obtain ⟨path, deed, hdoes⟩ := ih
    exact ⟨_, deed, .left hdoes⟩
  | right _ ih =>
    obtain ⟨path, deed, hdoes⟩ := ih
    exact ⟨_, deed, .right hdoes⟩

/-! ### What is still to be replayed -/

@[simp] theorem agendaAt_withQueue (signal : Signal) (queue : List Update) (place : List Place) :
    (signal.withQueue queue).agendaAt place = signal.agendaAt place := by
  cases signal <;> rfl

theorem agendaAt_of_hasEnded (hended : signal.hasEnded = true) (place : List Place) : signal.agendaAt place = [] := by
  rw [eq_ended_of_hasEnded hended]
  rfl

theorem Reads.agendaAt (hreads : signal.Reads update signal') (place : List Place) :
    signal'.agendaAt place = signal.agendaAt place := by
  cases hreads with
  | update hqueue => exact agendaAt_withQueue _ _ _
  | done hended hqueue => rfl

theorem Hears.agendaAt (hhears : Hears update side left right left' right') (place : List Place) :
    left'.agendaAt place = left.agendaAt place ∧ right'.agendaAt place = right.agendaAt place := by
  cases hhears with
  | left hreads => exact ⟨hreads.agendaAt place, rfl⟩
  | right hreads => exact ⟨rfl, hreads.agendaAt place⟩

theorem agendaAt_announce (out : Outlet) (agenda : List Stamped) : (announce out agenda).agendaAt [] = agenda := by
  cases agenda <;> rfl

theorem agendaAt_announce_cons (out : Outlet) (agenda : List Stamped) (first : Place) (place : List Place) :
    (announce out agenda).agendaAt (first :: place) = [] := by
  cases agenda <;> rfl

end Signal

/-! ### Every agenda has one place -/

def nonempty (lists : List (List Stamped)) : List (List Stamped) :=
  lists.filter fun xs => !xs.isEmpty

@[simp] theorem nonempty_nil : nonempty [] = [] := rfl

@[simp] theorem nonempty_nil_cons (rest : List (List Stamped)) : nonempty ([] :: rest) = nonempty rest := rfl

theorem nonempty_eq_nil {lists : List (List Stamped)} (hlists : ∀ xs ∈ lists, xs = []) : nonempty lists = [] := by
  refine List.filter_eq_nil_iff.2 fun xs hxs => ?_
  rw [hlists xs hxs]
  decide

theorem exists_of_nonempty {lists : List (List Stamped)} {xs : List Stamped} (hlists : nonempty lists = nonempty [xs])
    (hxs : xs ≠ []) : ∃ ys ∈ lists, ys ≠ [] := by
  by_contra hnone
  push Not at hnone
  rw [nonempty_eq_nil hnone] at hlists
  exact hxs (by simpa [nonempty] using hlists.symm)

theorem nonempty_cons (xs : List Stamped) (rest : List (List Stamped)) :
    nonempty (xs :: rest) = nonempty [xs] ++ nonempty rest :=
  List.filter_append [xs] rest

@[simp] theorem nonempty_cons_nil_cons (xs : List Stamped) (rest : List (List Stamped)) :
    nonempty (xs :: [] :: rest) = nonempty (xs :: rest) := by
  rw [nonempty_cons, nonempty_nil_cons, ← nonempty_cons]

theorem nonempty_injective {xs ys : List Stamped} (hsame : nonempty [xs] = nonempty [ys]) : xs = ys := by
  cases xs <;> cases ys <;> simp_all [nonempty]

theorem nonempty_append (xs ys : List (List Stamped)) : nonempty (xs ++ ys) = nonempty xs ++ nonempty ys :=
  List.filter_append _ _

theorem nonempty_cases (before : List (List Stamped)) {after : List (List Stamped)} {xs rest : List Stamped}
    (hlists : nonempty (before ++ xs :: after) = nonempty [rest]) :
    (xs = [] ∧ nonempty before ++ nonempty after = nonempty [rest]) ∨
      (xs ≠ [] ∧ xs = rest ∧ nonempty before = [] ∧ nonempty after = []) := by
  rw [nonempty_append, nonempty_cons] at hlists
  cases xs with
  | nil => exact .inl ⟨rfl, hlists⟩
  | cons s xs =>
    refine .inr ⟨List.cons_ne_nil _ _, ?_⟩
    have hxs : nonempty [s :: xs] = [s :: xs] := rfl
    rw [hxs] at hlists
    cases rest with
    | nil => simp at hlists
    | cons t rest =>
      have hrest : nonempty [t :: rest] = [t :: rest] := rfl
      rw [hrest, List.append_eq_singleton_iff] at hlists
      rcases hlists with ⟨hbefore, hsame⟩ | ⟨-, hnone⟩
      · obtain ⟨hhead, hafter⟩ := List.cons.inj hsame
        exact ⟨hhead, hbefore, hafter⟩
      · simp at hnone

/-- A list of which a first part is used up may be split over several, of which at most one is not empty. -/
theorem nonempty_replace {before after lists : List (List Stamped)} {xs rest used left : List Stamped}
    (hlists : nonempty (before ++ xs :: after) = nonempty [rest]) (hxs : xs = used ++ left)
    (hleft : nonempty [left] = nonempty lists) :
    ∃ rest', rest = used ++ rest' ∧ nonempty (before ++ (lists ++ after)) = nonempty [rest'] := by
  rcases nonempty_cases before hlists with ⟨hnone, hothers⟩ | ⟨-, rfl, hbefore, hafter⟩
  · obtain ⟨rfl, rfl⟩ := List.append_eq_nil_iff.1 (hxs.symm.trans hnone)
    refine ⟨rest, rfl, ?_⟩
    rw [nonempty_append, nonempty_append, ← hleft]
    exact hothers
  · refine ⟨left, hxs, ?_⟩
    rw [nonempty_append, nonempty_append, hbefore, hafter, ← hleft, List.append_nil, List.nil_append]

namespace Holding

variable {first : Place} {path place : List Place} {signal : Signal}

/-- What is still to be replayed at a place, if the signal has or had its own above it. -/
def agendaAt (holding : Holding) (place : List Place) : List Stamped :=
  (place.dropPrefix? holding.path).elim [] holding.signal.agendaAt

/-- The holding seen from one level further up. -/
def below (first : Place) (holding : Holding) : Holding :=
  { holding with path := first :: holding.path }

@[simp] theorem agendaAt_here (signal : Signal) (place : List Place) :
    (⟨[], signal⟩ : Holding).agendaAt place = signal.agendaAt place := by
  cases place <;> rfl

@[simp] theorem agendaAt_cons_nil (first : Place) (path : List Place) (signal : Signal) :
    (⟨first :: path, signal⟩ : Holding).agendaAt [] = [] := rfl

theorem agendaAt_cons_self (first : Place) (path place : List Place) (signal : Signal) :
    (⟨first :: path, signal⟩ : Holding).agendaAt (first :: place) = (⟨path, signal⟩ : Holding).agendaAt place := by
  simp [agendaAt, List.dropPrefix?]

theorem path_of_agendaAt {holding : Holding} (hagenda : holding.agendaAt place ≠ []) : holding.path <+: place := by
  rw [agendaAt] at hagenda
  cases hdrop : place.dropPrefix? holding.path with
  | none => exact absurd (by rw [hdrop]; rfl) hagenda
  | some below =>
    obtain ⟨path, hplace, hsame⟩ := List.dropPrefix?_eq_some_iff.1 hdrop
    rw [hplace, eq_of_beq hsame]
    exact List.prefix_append _ _

theorem agendaAt_of_hasEnded {holding : Holding} (hended : holding.signal.hasEnded = true) (place : List Place) :
    holding.agendaAt place = [] := by
  rw [agendaAt]
  cases place.dropPrefix? holding.path with
  | none => rfl
  | some below => exact Signal.agendaAt_of_hasEnded hended below

theorem agendaAt_cons_of_ne {other : Place} (hne : other ≠ first) (path place : List Place) (signal : Signal) :
    (⟨first :: path, signal⟩ : Holding).agendaAt (other :: place) = [] := by
  simp [agendaAt, List.dropPrefix?, hne]

end Holding

namespace Deed

theorem released_cons (first : Place) (path : List Place) (deed : Deed) :
    deed.released (first :: path) = (deed.released path).map (Holding.below first) := by
  cases deed with
  | wake s => rfl
  | work => rfl
  | complete kind operands => simp [released, Holding.below]

theorem wokenAt_cons_self (first : Place) (path place : List Place) (deed : Deed) :
    deed.wokenAt (first :: path) (first :: place) = deed.wokenAt path place := by
  cases deed <;> simp [wokenAt]

theorem mem_wokenAt {path place : List Place} {deed : Deed} {s : Stamped} :
    s ∈ deed.wokenAt path place ↔ deed = .wake s ∧ path = place := by
  cases deed with
  | wake t => by_cases hplace : path = place <;> simp [wokenAt, hplace, eq_comm]
  | work => simp [wokenAt]
  | complete kind operands => simp [wokenAt]

/-- Only a task that completes lets go of anything, and what it lets go of was below it. -/
theorem of_mem_released {path : List Place} {deed : Deed} {holding : Holding} (hholding : holding ∈ deed.released path) :
    (∃ kind operands, deed = .complete kind operands) ∧ path <+: holding.path := by
  cases deed with
  | wake s => cases hholding
  | work => cases hholding
  | complete kind operands =>
    obtain ⟨operand, -, rfl⟩ := List.mem_map.1 hholding
    exact ⟨⟨kind, operands, rfl⟩, List.prefix_append _ _⟩

theorem wokenAt_of_ne {path place : List Place} (hne : path ≠ place) (deed : Deed) : deed.wokenAt path place = [] := by
  cases deed <;> simp [wokenAt, hne]

end Deed

namespace Signal

variable {due : Nat → Prop} {path : List Place} {deed : Deed} {signal signal' : Signal}

/-- Below one operand nothing happens that does not happen in it. -/
theorem conserves_below {first : Place} {place : List Place} {agenda agenda' : List Stamped}
    (hoperand : ∃ rest, agenda = deed.wokenAt path place ++ rest ∧
      nonempty [rest] = nonempty (agenda' :: (deed.released path).map (·.agendaAt place))) :
    ∃ rest, agenda = deed.wokenAt (first :: path) (first :: place) ++ rest ∧
      nonempty [rest] = nonempty (agenda' :: (deed.released (first :: path)).map (·.agendaAt (first :: place))) := by
  have hmap : (deed.released (first :: path)).map (·.agendaAt (first :: place))
      = (deed.released path).map (·.agendaAt place) := by
    rw [Deed.released_cons, List.map_map]
    exact List.map_congr_left fun holding _ => Holding.agendaAt_cons_self first holding.path place holding.signal
  rwa [hmap, Deed.wokenAt_cons_self]

theorem conserves_beside {first : Place} {place : List Place} (hplace : ∀ below, place ≠ first :: below)
    (agenda : List Stamped) :
    ∃ rest, agenda = deed.wokenAt (first :: path) place ++ rest ∧
      nonempty [rest] = nonempty (agenda :: (deed.released (first :: path)).map (·.agendaAt place)) := by
  have hnone : ∀ xs ∈ (deed.released (first :: path)).map (·.agendaAt place), xs = [] := by
    rw [Deed.released_cons, List.map_map, List.forall_mem_map]
    intro holding _
    cases place with
    | nil => exact Holding.agendaAt_cons_nil first holding.path holding.signal
    | cons other below =>
      refine Holding.agendaAt_cons_of_ne (fun hsame => ?_) holding.path below holding.signal
      exact hplace below (congrArg (· :: below) hsame)
  refine ⟨agenda, ?_, ?_⟩
  · rw [Deed.wokenAt_of_ne fun hsame => hplace path hsame.symm, List.nil_append]
  · rw [nonempty_cons agenda (List.map _ _), nonempty_eq_nil hnone, List.append_nil]

/-- A step keeps what is still to be replayed at every place: but for the event that was replayed there, it is
where it was, or with a signal that has been released. -/
theorem Does.conserves (hdoes : signal.Does due path deed signal') (place : List Place) :
    ∃ rest, signal.agendaAt place = deed.wokenAt path place ++ rest ∧
      nonempty [rest] = nonempty (signal'.agendaAt place :: (deed.released path).map (·.agendaAt place)) := by
  induction hdoes generalizing place with
  | @wake out next rest hdue =>
    cases place with
    | nil => exact ⟨rest, rfl, by rw [agendaAt_announce]; rfl⟩
    | cons first below => exact ⟨[], rfl, by rw [agendaAt_announce_cons]; rfl⟩
  | @pair out previous source source' u hreads =>
    refine ⟨(adjacentPairs out previous source).agendaAt place, rfl, ?_⟩
    rcases place with _ | ⟨_ | side, below⟩
    · rfl
    · rw [agendaAt, agendaAt, hreads.agendaAt]
      rfl
    · rfl
  | @close out previous source source' hreads =>
    refine ⟨(adjacentPairs out previous source).agendaAt place, rfl, ?_⟩
    rcases place with _ | ⟨_ | side, below⟩
    · rfl
    · simp [Deed.released, Holding.agendaAt_cons_self, agendaAt, hreads.agendaAt]
    · simp [Deed.released, Holding.agendaAt_cons_of_ne, agendaAt]
  | @hear out task side update left right left' right' hwants hhears hmore =>
    refine ⟨(join out task left right).agendaAt place, rfl, ?_⟩
    rcases place with _ | ⟨_ | side, below⟩
    · rfl
    · rfl
    · obtain ⟨hleft, hright⟩ := hhears.agendaAt below
      cases side with
      | left => rw [agendaAt, agendaAt, hleft]; rfl
      | right => rw [agendaAt, agendaAt, hright]; rfl
  | @finish out task side update left right left' right' hwants hhears hdone =>
    refine ⟨(join out task left right).agendaAt place, rfl, ?_⟩
    rcases place with _ | ⟨_ | side, below⟩
    · rfl
    · simp [Deed.released, Holding.agendaAt_cons_of_ne, agendaAt]
    · obtain ⟨hleft, hright⟩ := hhears.agendaAt below
      cases side with
      | left => simp [Deed.released, Holding.agendaAt_cons_self, Holding.agendaAt_cons_of_ne, agendaAt, hleft]
      | right => simp [Deed.released, Holding.agendaAt_cons_self, Holding.agendaAt_cons_of_ne, agendaAt, hright]
  -- A place is below the operand that acts, or beside it, or it is that of the signal itself.
  | source _ ih =>
    rcases place with _ | ⟨_ | side, below⟩
    · exact conserves_beside (by simp) []
    · exact conserves_below (ih below)
    · exact conserves_beside (by simp) []
  | @left path deed out task left left' right _ ih =>
    rcases place with _ | ⟨_ | _ | _, below⟩
    · exact conserves_beside (by simp) []
    · exact conserves_beside (by simp) []
    · exact conserves_below (ih below)
    · exact conserves_beside (by simp) (right.agendaAt below)
  | @right path deed out task left right right' _ ih =>
    rcases place with _ | ⟨_ | _ | _, below⟩
    · exact conserves_beside (by simp) []
    · exact conserves_beside (by simp) []
    · exact conserves_beside (by simp) (left.agendaAt below)
    · exact conserves_below (ih below)

theorem Does.due_of_wake (hdoes : signal.Does due path deed signal') {s : Stamped} (hwake : deed = .wake s) :
    due s.stamp := by
  induction hdoes with
  | wake hdue =>
    obtain rfl := Deed.wake.inj hwake
    exact hdue
  | pair hreads => cases hwake
  | close hreads => cases hwake
  | hear hwants hhears hmore => cases hwake
  | finish hwants hhears hdone => cases hwake
  | source _ ih => exact ih hwake
  | left _ ih => exact ih hwake
  | right _ ih => exact ih hwake

theorem Does.agendaAt_eq_nil (hdoes : signal.Does due path deed signal') {place : List Place}
    (hnone : signal.agendaAt place = []) : signal'.agendaAt place = [] := by
  obtain ⟨rest, hrest, hnonempty⟩ := hdoes.conserves place
  obtain ⟨-, rfl⟩ := List.append_eq_nil_iff.1 (hrest.symm.trans hnone)
  rcases nonempty_cases [] hnonempty.symm with ⟨hsame, -⟩ | ⟨-, hsame, -⟩
  · exact hsame
  · exact hsame

/-- A task that has completed has nothing below it. -/
theorem Does.agendaAt_of_complete (hdoes : signal.Does due path deed signal') {place : List Place} {kind : Option Join}
    {operands : List (Place × Signal)} (hcomplete : deed = .complete kind operands) (hbelow : path <+: place) :
    signal'.agendaAt place = [] := by
  induction hdoes generalizing place with
  | wake hdue => cases hcomplete
  | pair hreads => cases hcomplete
  | hear hwants hhears hmore => cases hcomplete
  | close hreads => rfl
  | finish hwants hhears hdone => rfl
  | source _ ih =>
    obtain ⟨below, rfl⟩ := hbelow
    exact ih hcomplete (List.prefix_append _ below)
  | left _ ih =>
    obtain ⟨below, rfl⟩ := hbelow
    exact ih hcomplete (List.prefix_append _ below)
  | right _ ih =>
    obtain ⟨below, rfl⟩ := hbelow
    exact ih hcomplete (List.prefix_append _ below)

/-! ### What is let go of -/

/-- Only a `zip` completes while its operands go on. -/
theorem Does.ended_of_complete (hdoes : signal.Does due path deed signal') (hsignal : signal.Coherent)
    (hzip : ∀ operands, deed ≠ .complete (some .zip) operands) :
    ∀ holding ∈ deed.released path, holding.signal.hasEnded = true := by
  induction hdoes with
  | wake hdue => simp [Deed.released]
  | pair hreads => simp [Deed.released]
  | hear hwants hhears hmore => simp [Deed.released]
  | close hreads =>
    cases hreads with
    | done hended hqueue => simpa [Deed.released] using hended
  | @finish out task side update left right left' right' hwants hhears hdone =>
    obtain ⟨-, -, hfollows, -, hleft, hright⟩ := hsignal
    obtain ⟨hleft', hright'⟩ := hhears.coherent hleft hright
    have hfollows' := hfollows.receive hwants hhears hleft' hright'
    have hended := hfollows'.hasEnded_of_finished hdone fun p hp => by
      have hkind := congrArg Task.kind hp
      rw [Task.kind_receive] at hkind
      exact hzip _ (by rw [hkind]; rfl)
    simpa [Deed.released] using hended
  | source _ ih =>
    rw [Deed.released_cons]
    simpa [Holding.below] using ih hsignal.2.2 hzip
  | left _ ih =>
    obtain ⟨-, -, -, -, hleft, -⟩ := hsignal
    rw [Deed.released_cons]
    simpa [Holding.below] using ih hleft hzip
  | right _ ih =>
    obtain ⟨-, -, -, -, -, hright⟩ := hsignal
    rw [Deed.released_cons]
    simpa [Holding.below] using ih hright hzip

/-- What is still to be replayed is let go of only by a `zip` above it. -/
theorem Does.zip_of_released (hdoes : signal.Does due path deed signal') (hsignal : signal.Coherent) {place : List Place}
    {holding : Holding} (hholding : holding ∈ deed.released path) (hagenda : holding.agendaAt place ≠ []) :
    (∃ operands, deed = .complete (some .zip) operands) ∧ path <+: place := by
  refine ⟨?_, (Deed.of_mem_released hholding).2.trans (Holding.path_of_agendaAt hagenda)⟩
  by_contra hzip
  have hended := hdoes.ended_of_complete hsignal (fun operands hcomplete => hzip ⟨operands, hcomplete⟩) holding hholding
  exact hagenda (Holding.agendaAt_of_hasEnded hended place)

theorem exists_wake_le {place : List Place} {next : Stamped} {rest : List Stamped}
    (hagenda : signal.agendaAt place = next :: rest) :
    ∃ wake, signal.nextWake .exact = some wake ∧ wake ≤ next.stamp := by
  induction signal generalizing place with
  | manual out name => cases hagenda
  | ended out => cases hagenda
  | replay out first later =>
    cases place with
    | nil =>
      obtain ⟨rfl, -⟩ := List.cons.inj hagenda
      exact ⟨_, rfl, le_rfl⟩
    | cons first below => cases hagenda
  | adjacentPairs out previous source ih =>
    rcases place with _ | ⟨_ | side, below⟩
    · cases hagenda
    · exact ih hagenda
    · cases hagenda
  | join out task left right ihleft ihright =>
    rcases place with _ | ⟨_ | _ | _, below⟩
    · cases hagenda
    · cases hagenda
    · exact exists_le_merge_left (ihleft hagenda)
    · exact exists_le_merge_right (ihright hagenda)

end Signal

namespace Holding

variable {due : Nat → Prop} {path : List Place} {deed : Deed} {signal signal' : Signal}

def operands (holding : Holding) : List Holding :=
  holding.signal.operands.map fun operand => ⟨holding.path ++ [operand.1], operand.2⟩

theorem conserves (hdoes : signal.Does due path deed signal') (above place : List Place) :
    ∃ rest, (⟨above, signal⟩ : Holding).agendaAt place = deed.wokenAt (above ++ path) place ++ rest ∧
      nonempty [rest] = nonempty ((⟨above, signal'⟩ : Holding).agendaAt place ::
        (deed.released (above ++ path)).map (·.agendaAt place)) := by
  induction above generalizing place with
  | nil => simpa only [List.nil_append, agendaAt_here] using hdoes.conserves place
  | cons first above ih =>
    rcases place with _ | ⟨other, below⟩
    · exact Signal.conserves_beside (by simp) []
    · by_cases hsame : other = first
      · subst hsame
        rw [agendaAt_cons_self, agendaAt_cons_self]
        exact Signal.conserves_below (ih below)
      · rw [agendaAt_cons_of_ne hsame, agendaAt_cons_of_ne hsame]
        exact Signal.conserves_beside (fun _ heq => hsame (List.cons.inj heq).1) []

theorem path_of_mem_operands {holding operand : Holding} (hoperand : operand ∈ holding.operands) :
    holding.path <+: operand.path := by
  obtain ⟨_, -, rfl⟩ := List.mem_map.1 hoperand
  exact List.prefix_append _ _

theorem nonempty_operands_elsewhere {holding : Holding} (hpath : ¬ holding.path <+: place) :
    nonempty (holding.operands.map (·.agendaAt place)) = [] := by
  refine nonempty_eq_nil fun xs hxs => ?_
  obtain ⟨operand, hoperand, rfl⟩ := List.mem_map.1 hxs
  by_contra hany
  exact hpath ((path_of_mem_operands hoperand).trans (path_of_agendaAt hany))

/-- The operands of a signal have all that is to be replayed below it, unless it is a replay itself. -/
theorem nonempty_operands (holding : Holding) (place : List Place) :
    nonempty (holding.operands.map (·.agendaAt place)) = nonempty [holding.agendaAt place] ∨
      nonempty (holding.operands.map (·.agendaAt place)) = [] := by
  obtain ⟨above, signal⟩ := holding
  induction above generalizing place with
  | nil =>
    cases signal with
    | manual out name => exact .inr rfl
    | ended out => exact .inr rfl
    | replay out next rest => exact .inr rfl
    | adjacentPairs out previous source =>
      rcases place with _ | ⟨_ | side, below⟩
      · exact .inr rfl
      · exact .inl (by simp [operands, Signal.operands, agendaAt_cons_self, Signal.agendaAt])
      · exact .inr rfl
    | join out task left right =>
      rcases place with _ | ⟨_ | _ | _, below⟩
      · exact .inr rfl
      · exact .inr rfl
      · exact .inl (by
          simp [operands, Signal.operands, agendaAt_cons_self, agendaAt_cons_of_ne, Signal.agendaAt])
      · exact .inl (by
          simp [operands, Signal.operands, agendaAt_cons_self, agendaAt_cons_of_ne, Signal.agendaAt])
  | cons first above ih =>
    by_cases hpath : first :: above <+: place
    · obtain ⟨below, rfl⟩ := hpath
      simpa [operands, agendaAt_cons_self, Function.comp_def] using ih (above ++ below)
    · exact .inr (nonempty_operands_elsewhere hpath)

end Holding

end TimedStreams
