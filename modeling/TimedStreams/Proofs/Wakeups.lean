import TimedStreams.Proofs.ExactClock
import TimedStreams.Proofs.Household
import TimedStreams.Proofs.Progress

/-!
# How often the clock wakes somebody

What a deed uses up and what it lets go of add up to what was there before (`Signal.Does.tally`):
no event to be replayed is ever in two places. So the wake-ups of a household and the events that it
can still replay add up to the same number until an orphan with events is cancelled, which takes a
`zip` or a reader who drops the outermost signal.

Every household gets on: within an instant only so much can happen, and whatever has happened, the
clock can then pass (`Household.ends`). Once the reader has dropped the outermost signal nobody wakes
any more (`Household.wakeups_of_dropped`).
-/

namespace TimedStreams

open Relation Stamped Update

namespace Deed

def wakes : Deed → Nat
  | wake _ => 1
  | work | complete _ _ => 0

/-- The signals that nobody reads after a deed, wherever it is done. -/
def freed : Deed → List Signal
  | wake _ | work => []
  | complete _ operands => operands.map Prod.snd

theorem map_signal_released (path : List Place) (deed : Deed) : (deed.released path).map Holding.signal = deed.freed := by
  cases deed <;> simp [released, freed]

end Deed

namespace Signal

variable {due : Nat → Prop} {path : List Place} {deed : Deed} {signal signal' : Signal} {side : Side}
  {update : Option Update} {left right left' right' : Signal}

/-! ### What adds up -/

/-- The agendas of a tree, counted somehow. -/
def tally (count : List Stamped → Nat) : Signal → Nat
  | replay _ next rest => count (next :: rest)
  | adjacentPairs _ _ source => source.tally count
  | join _ _ left right => left.tally count + right.tally count
  | manual _ _ | ended _ => 0

theorem unplayed_eq_tally (signal : Signal) : signal.unplayed = signal.tally List.length := by
  induction signal with
  | manual out name => rfl
  | ended out => rfl
  | replay out next rest => rfl
  | adjacentPairs out previous source ih => exact ih
  | join out task left right ihleft ihright => rw [unplayed, tally, ihleft, ihright]

theorem dueCount_eq_tally (clock : Clock) (now : Nat) (signal : Signal) :
    signal.dueCount clock now
      = signal.tally fun agenda => (agenda.takeWhile fun s => clock.wakeAt s.stamp ≤ now).length := by
  induction signal with
  | manual out name => rfl
  | ended out => rfl
  | replay out next rest => rfl
  | adjacentPairs out previous source ih => exact ih
  | join out task left right ihleft ihright => rw [dueCount, tally, ihleft, ihright]

theorem Reads.tally (hreads : signal.Reads update signal') (count : List Stamped → Nat) :
    signal'.tally count = signal.tally count := by
  cases hreads with
  | update hqueue => cases signal <;> rfl
  | done hended hqueue => rfl

theorem Hears.tally (hhears : Hears update side left right left' right') (count : List Stamped → Nat) :
    left'.tally count + right'.tally count = left.tally count + right.tally count := by
  cases hhears with
  | left hreads => rw [hreads.tally]
  | right hreads => rw [hreads.tally]

/-- Whatever a wake-up takes off its agenda, the rest is still there, in the tree or with what is let go of. -/
theorem Does.tally {count : List Stamped → Nat} (hdoes : signal.Does due path deed signal') (hnone : count [] = 0)
    (hcount : ∀ next rest, due next.stamp → count rest + 1 = count (next :: rest)) :
    signal'.tally count + (deed.freed.map (Signal.tally count)).sum + deed.wakes = signal.tally count := by
  induction hdoes with
  | @wake out next rest hdue =>
    rw [Signal.tally, ← hcount next rest hdue]
    cases rest with
    | nil => simp [announce, Signal.tally, Deed.freed, Deed.wakes, hnone]
    | cons s rest => simp [announce, Signal.tally, Deed.freed, Deed.wakes]
  | pair hreads => simpa [Signal.tally, Deed.freed, Deed.wakes] using hreads.tally count
  | close hreads => simpa [Signal.tally, Deed.freed, Deed.wakes] using hreads.tally count
  | hear hwants hhears hmore => simpa [Signal.tally, Deed.freed, Deed.wakes] using hhears.tally count
  | finish hwants hhears hdone => simpa [Signal.tally, Deed.freed, Deed.wakes] using hhears.tally count
  | source _ ih => exact ih
  | left _ ih =>
    simp only [Signal.tally]
    omega
  | right _ ih =>
    simp only [Signal.tally]
    omega

theorem Does.unplayed (hdoes : signal.Does due path deed signal') :
    signal'.unplayed + (deed.freed.map Signal.unplayed).sum + deed.wakes = signal.unplayed := by
  have hsame : Signal.unplayed = Signal.tally List.length := funext unplayed_eq_tally
  rw [hsame]
  exact hdoes.tally rfl fun _ _ _ => rfl

theorem Does.dueCount {clock : Clock} {now : Nat}
    (hdoes : signal.Does (fun stamp => clock.wakeAt stamp ≤ now) path deed signal') :
    signal'.dueCount clock now + (deed.freed.map (Signal.dueCount clock now)).sum + deed.wakes
      = signal.dueCount clock now := by
  have hsame : Signal.dueCount clock now = Signal.tally _ := funext (dueCount_eq_tally clock now)
  rw [hsame]
  refine hdoes.tally rfl fun next rest hdue => ?_
  simp [hdue]

/-! ### What is used up -/

def weight (signal : Signal) : Nat :=
  signal.effort + signal.parts.length

theorem Reads.length_parts (hreads : signal.Reads update signal') : signal'.parts.length = signal.parts.length := by
  cases hreads with
  | update hqueue => cases signal <;> rfl
  | done hended hqueue => rfl

theorem Hears.length_parts (hhears : Hears update side left right left' right') :
    left'.parts.length + right'.parts.length = left.parts.length + right.parts.length := by
  cases hhears with
  | left hreads => rw [hreads.length_parts]
  | right hreads => rw [hreads.length_parts]

theorem Does.length_parts (hdoes : signal.Does due path deed signal') :
    signal'.parts.length + (deed.freed.map (·.parts.length)).sum = signal.parts.length := by
  induction hdoes with
  | @wake out next rest hdue => cases rest <;> rfl
  | pair hreads => simpa [parts, Deed.freed] using hreads.length_parts
  | close hreads => simpa [parts, Deed.freed, Nat.add_comm] using hreads.length_parts
  | hear hwants hhears hmore => simpa [parts, Deed.freed] using hhears.length_parts
  | finish hwants hhears hdone => simpa [parts, Deed.freed, Nat.add_comm] using hhears.length_parts
  | source _ ih =>
    simp only [parts, List.length_cons]
    omega
  | left _ ih =>
    simp only [parts, List.length_cons, List.length_append]
    omega
  | right _ ih =>
    simp only [parts, List.length_cons, List.length_append]
    omega

/-- Every deed uses something up, what it lets go of included. -/
theorem Does.effort_lt (hdoes : signal.Does due path deed signal') :
    signal'.effort + (deed.freed.map effort).sum < signal.effort := by
  have hless := hdoes.step.effort_lt
  induction hdoes with
  | wake hdue => exact hless
  | pair hreads => exact hless
  | hear hwants hhears hmore => exact hless
  | @close out previous source source' hreads =>
    have hsource : source'.effort = source.effort := by
      cases hreads with
      | done hended hqueue => rfl
    simp only [Deed.freed, List.map_cons, List.map_nil, List.sum_cons, List.sum_nil, effort]
    omega
  | @finish out task side update left right left' right' hwants hhears hdone =>
    have hreceive : _ < (join out task left right).effort := effort_receive_lt hwants hhears
    simp only [Deed.freed, List.map_cons, List.map_nil, List.sum_cons, List.sum_nil, effort] at hreceive ⊢
    omega
  | source hdoes ih =>
    have hsource := ih hdoes.step.effort_lt
    simp only [effort]
    omega
  | left hdoes ih =>
    have hleft := ih hdoes.step.effort_lt
    simp only [effort]
    omega
  | right hdoes ih =>
    have hright := ih hdoes.step.effort_lt
    simp only [effort]
    omega

end Signal

namespace Household

variable {h h' : Household} {agenda rest lost : List Stamped} {place : List Place}

/-! ### Every household gets on -/

/-- The weight of all that can still happen at the time that it is, the drop of the outermost signal included. -/
def weight (h : Household) : Nat :=
  (match h.reader with
    | .holds signal => signal.weight + 1
    | .dropped _ => 0) + (h.orphans.map fun holding => holding.signal.weight).sum

theorem sum_weight_released {due : Nat → Prop} {path : List Place} {deed : Deed} {signal signal' : Signal}
    (hdoes : signal.Does due path deed signal') (above : List Place) :
    signal'.weight + ((deed.released (above ++ path)).map fun holding => holding.signal.weight).sum < signal.weight := by
  have heffort := hdoes.effort_lt
  have hparts := hdoes.length_parts
  have hreleased : ((deed.released (above ++ path)).map fun holding => holding.signal.weight).sum
      = (deed.freed.map Signal.effort).sum + (deed.freed.map (·.parts.length)).sum := by
    rw [← Deed.map_signal_released (above ++ path), List.map_map, List.map_map, ← List.sum_map_add]
    rfl
  rw [hreleased, Signal.weight, Signal.weight]
  omega

theorem sum_weight_operands (holding : Holding) :
    (holding.operands.map fun holding => holding.signal.weight).sum < holding.signal.weight := by
  obtain ⟨path, signal⟩ := holding
  cases signal with
  | manual out name => simp [Holding.operands, Signal.operands, Signal.weight, Signal.parts]
  | ended out => simp [Holding.operands, Signal.operands, Signal.weight, Signal.parts]
  | replay out next rest => simp [Holding.operands, Signal.operands, Signal.weight, Signal.parts]
  | adjacentPairs out previous source =>
    simp [Holding.operands, Signal.operands, Signal.weight, Signal.parts, Signal.effort]
    omega
  | join out task left right =>
    simp [Holding.operands, Signal.operands, Signal.weight, Signal.parts, Signal.effort]
    omega

theorem Moves.progress (hmoves : h.Moves h') :
    (h'.now = h.now ∧ h'.weight < h.weight) ∨ (h.now < h'.now ∧ h'.weight = h.weight) := by
  cases hmoves with
  | work hdoes =>
    have hless := sum_weight_released hdoes []
    refine .inl ⟨rfl, ?_⟩
    simp only [weight, List.map_append, List.sum_append, List.nil_append] at hless ⊢
    omega
  | read hreads =>
    have heffort := hreads.effort_some
    have hparts := hreads.length_parts
    refine .inl ⟨rfl, ?_⟩
    simp only [weight, Signal.weight]
    omega
  | @stray now reader signal signal' above path deed before after log hdoes =>
    have hless := sum_weight_released hdoes above
    refine .inl ⟨rfl, ?_⟩
    simp only [weight, List.map_append, List.sum_append, List.map_cons, List.sum_cons] at hless ⊢
    omega
  | @cancel now reader holding before after log =>
    have hless := sum_weight_operands holding
    refine .inl ⟨rfl, ?_⟩
    simp only [weight, List.map_append, List.sum_append, List.map_cons, List.sum_cons] at hless ⊢
    omega
  | drop hidle =>
    refine .inl ⟨rfl, ?_⟩
    simp [weight]
  | pass hlater hidle hnext => exact .inr ⟨hlater, rfl⟩

theorem exists_moves (h : Household) : ∃ h', h.Moves h' := by
  obtain ⟨now, reader, orphans, log⟩ := h
  cases orphans with
  | cons holding after => exact ⟨_, .cancel []⟩
  | nil =>
    cases reader with
    | dropped since => exact ⟨_, .pass (Nat.lt_succ_self now) (by simp) (by simp)⟩
    | holds signal =>
      by_cases hidle : signal.Idle (· ≤ now)
      · refine ⟨_, .pass (Nat.lt_succ_self now) (fun _ hsame => Reader.holds.inj hsame ▸ hidle) ?_⟩
        rintro _ hsame wake hwake
        obtain rfl := Reader.holds.inj hsame
        exact hidle.lt_nextWake hwake
      · simp only [Signal.Idle, not_forall, not_not] at hidle
        obtain ⟨signal', hstep⟩ := hidle
        obtain ⟨path, deed, hdoes⟩ := hstep.exists_does
        exact ⟨_, .work hdoes⟩

/-- Every run gets to every instant, whatever is chosen on the way. -/
theorem ends (h : Household) (bound : Nat) :
    Ends (fun h h' => h.now < bound ∧ h.Moves h') (bound ≤ ·.now) h := by
  refine Ends.of_invariant (fun _ => True) (fun h => (bound - h.now) + h.weight) ?_ ?_ trivial
  · rintro h h' - ⟨hbefore, hmoves⟩
    refine ⟨trivial, ?_⟩
    rcases hmoves.progress with ⟨hnow, hless⟩ | ⟨hlater, hsame⟩
    · rw [hnow]
      omega
    · rw [hsame]
      omega
  · intro h _ hstop
    by_contra hbefore
    obtain ⟨h', hmoves⟩ := h.exists_moves
    exact hstop h' ⟨Nat.lt_of_not_le hbefore, hmoves⟩

/-! ### After the outermost signal has been dropped -/

/-- The number of sleeps that have ended. -/
def wakeups (h : Household) : Nat :=
  (h.log.map fun r => r.deed.wakes).sum

theorem Ledger.mem_rest {now : Nat} {reader : Reader} {above path : List Place} {deed : Deed} {signal signal' : Signal}
    {before after : List Holding} {log : List Record} {s : Stamped} (hdoes : signal.Does (· ≤ now) path deed signal')
    (hledger : Ledger agenda place ⟨now, reader, before ++ ⟨above, signal⟩ :: after, log⟩ rest lost)
    (hs : s ∈ deed.wokenAt (above ++ path) place) : s ∈ rest := by
  obtain ⟨left, hleft, -⟩ := Holding.conserves hdoes above place
  have hlists : nonempty ((reader.agendaAt place :: before.map (·.agendaAt place)) ++
      (⟨above, signal⟩ : Holding).agendaAt place :: after.map (·.agendaAt place)) = nonempty [rest] := by
    simpa [agendas] using hledger.agendas_eq
  rcases nonempty_cases _ hlists with ⟨hnone, -⟩ | ⟨-, hall, -⟩
  · rw [hnone] at hleft
    rw [(List.append_eq_nil_iff.1 hleft.symm).1] at hs
    cases hs
  · rw [← hall, hleft]
    exact List.mem_append_left _ hs

theorem Moves.wakeups_of_dropped {start : Signal} {since : Nat} (hmoves : h.Moves h')
    (hkeeps : ∀ place, h.Keeps (start.agendaAt place) place) (hdropped : h.reader = .dropped since) :
    h'.reader = .dropped since ∧ h'.wakeups = h.wakeups := by
  cases hmoves with
  | work hdoes => cases hdropped
  | read hreads => cases hdropped
  | drop hidle => cases hdropped
  | cancel => exact ⟨hdropped, rfl⟩
  | pass hlater hidle hnext => exact ⟨hdropped, rfl⟩
  | @stray now reader signal signal' above path deed before after log hdoes =>
    refine ⟨hdropped, ?_⟩
    cases deed with
    | work => simp [wakeups, Deed.wakes]
    | complete kind operands => simp [wakeups, Deed.wakes]
    | wake s =>
      -- It would wake for an event that is due by now, and all that is left is due later.
      obtain ⟨-, rest, lost, hledger, howned⟩ := hkeeps (above ++ path)
      have hs : s ∈ rest := hledger.mem_rest hdoes (Deed.mem_wokenAt.2 ⟨rfl, rfl⟩)
      have hlater := howned.dropped since hdropped s hs
      have hnow := howned.torn_now since (.inl hdropped) (List.ne_nil_of_mem hs)
      have hdue := hdoes.due_of_wake rfl
      simp only at hnow
      omega

theorem wakeups_of_dropped {start : Signal} {since : Nat} (hrun : ReflTransGen Moves h h')
    (hagenda : ∀ place, Ascending (start.agendaAt place)) (hkeeps : ∀ place, h.Keeps (start.agendaAt place) place)
    (hdropped : h.reader = .dropped since) : h'.wakeups = h.wakeups := by
  suffices hboth : h'.reader = .dropped since ∧ h'.wakeups = h.wakeups from hboth.2
  induction hrun with
  | refl => exact ⟨hdropped, rfl⟩
  | tail hfirst hlast ih =>
    obtain ⟨hreader, hsame⟩ := ih
    have hkept := fun place => (hkeeps place).of_run hfirst (hagenda place)
    obtain ⟨hreader', hlastSame⟩ := hlast.wakeups_of_dropped hkept hreader
    exact ⟨hreader', hlastSame.trans hsame⟩

/-! ### Without `zip` -/

/-- As long as the reader holds a tree without `zip`, nothing that could still wake is let go of. -/
structure Sums (total : Nat) (h : Household) (signal : Signal) : Prop where
  coherent : signal.Coherent
  onTime : signal.OnTime h.now
  ended : ∀ holding ∈ h.orphans, holding.signal.hasEnded = true
  total_eq : h.wakeups + signal.unplayed = total

theorem not_zip {now : Nat} {due : Nat → Prop} {path : List Place} {deed : Deed} {signal signal' : Signal}
    (hdoes : signal.Does due path deed signal') (hsignal : signal.OnTime now) (operands : List (Place × Signal)) :
    deed ≠ .complete (some .zip) operands := by
  induction hdoes with
  | wake hdue => simp
  | pair hreads => simp
  | close hreads => simp
  | hear hwants hhears hmore => simp
  | @finish out task side update left right left' right' hwants hhears hdone =>
    obtain ⟨hzip, -⟩ := hsignal
    cases task with
    | zip p => exact absurd rfl (hzip p)
    | merge p => simp [Task.kind]
    | chain stage => simp [Task.kind]
    | combineLatest p latest => simp [Task.kind]
  | source _ ih => exact ih hsignal.2
  | left _ ih => exact ih hsignal.2.2.1
  | right _ ih => exact ih hsignal.2.2.2

theorem unplayed_of_hasEnded {signal : Signal} (hended : signal.hasEnded = true) : signal.unplayed = 0 := by
  rw [Signal.eq_ended_of_hasEnded hended]
  rfl

/-- What is let go of has nothing left to replay, so a deed only turns events into wake-ups. -/
theorem Sums.work {now total : Nat} {signal signal' : Signal} {path : List Place} {deed : Deed} {orphans : List Holding}
    {log : List Record} (hdoes : signal.Does (· ≤ now) path deed signal')
    (hsums : Sums total ⟨now, .holds signal, orphans, log⟩ signal) :
    Sums total ⟨now, .holds signal', deed.released path ++ orphans, log ++ [⟨now, path, deed⟩]⟩ signal' := by
  obtain ⟨hcoherent, honTime, hended, htotal⟩ := hsums
  have hreleased := hdoes.ended_of_complete hcoherent (not_zip hdoes honTime)
  have hfreed : (deed.freed.map Signal.unplayed).sum = 0 := by
    rw [← Deed.map_signal_released path, List.map_map, List.sum_eq_zero]
    simp only [List.mem_map, Function.comp]
    rintro _ ⟨holding, hholding, rfl⟩
    exact unplayed_of_hasEnded (hreleased holding hholding)
  have hunplayed := hdoes.unplayed
  refine ⟨hdoes.step.coherent hcoherent, (hdoes.step.onTime hcoherent honTime).1, ?_, ?_⟩
  · intro holding hholding
    exact (List.mem_append.1 hholding).elim (hreleased holding) (hended holding)
  · simp only [wakeups, List.map_append, List.sum_append, List.map_cons, List.map_nil, List.sum_cons,
      List.sum_nil] at htotal ⊢
    omega

theorem Moves.sums {total : Nat} (hmoves : h.Moves h')
    (hsums : ∀ signal, h.reader = .holds signal → h.Sums total signal) :
    ∀ signal, h'.reader = .holds signal → h'.Sums total signal := by
  cases hmoves with
  | work hdoes =>
    rintro _ hsame
    obtain rfl := Reader.holds.inj hsame
    exact (hsums _ rfl).work hdoes
  | @read now signal signal' u orphans log hreads =>
    obtain ⟨hcoherent, honTime, hended, htotal⟩ := hsums signal rfl
    rintro _ hsame
    obtain rfl := Reader.holds.inj hsame
    refine ⟨hreads.coherent hcoherent, hreads.onTime honTime, hended, ?_⟩
    rw [Signal.unplayed_eq_tally, hreads.tally, ← Signal.unplayed_eq_tally]
    exact htotal
  | @stray now reader signal signal' above path deed before after log hdoes =>
    intro held hheld
    have hended := (hsums held hheld).ended ⟨above, signal⟩ (by simp)
    exact absurd (hended.symm.trans hdoes.step.hasEnded) (by simp)
  | @cancel now reader holding before after log =>
    intro held hheld
    obtain ⟨hcoherent, honTime, hended, htotal⟩ := hsums held hheld
    have hnone : holding.operands = [] := by
      rw [Holding.operands, Signal.eq_ended_of_hasEnded (hended holding (by simp))]
      rfl
    refine ⟨hcoherent, honTime, fun other hother => ?_, htotal⟩
    rw [hnone, List.nil_append] at hother
    exact hended other (by
      simp only [List.mem_append, List.mem_cons] at hother ⊢
      exact hother.imp_right .inr)
  | drop hidle => simp
  | @pass now later reader log hlater hidle hnext =>
    intro held hheld
    obtain ⟨hcoherent, honTime, hended, htotal⟩ := hsums held hheld
    obtain ⟨low, rfl⟩ : ∃ low, later = low + 1 := ⟨later - 1, by omega⟩
    have hquiet := (hidle held hheld).before (hnext held hheld) (Nat.lt_succ_self low)
    exact ⟨hcoherent, honTime.jump hcoherent hquiet (Nat.le_of_lt_succ hlater), by simp, htotal⟩

/-- In a run without `zip` in which the reader never drops the outermost signal, every event is replayed. -/
theorem wakeups_of_hasEnded {signal last : Signal} (hcoherent : signal.Coherent) (honTime : signal.OnTime 0)
    (hrun : ReflTransGen Moves (start signal) h) (hholds : h.reader = .holds last) (hended : last.hasEnded = true) :
    h.wakeups = signal.unplayed := by
  have hsums : ∀ held, h.reader = .holds held → h.Sums signal.unplayed held := by
    clear hholds
    induction hrun with
    | refl =>
      rintro _ hsame
      obtain rfl := Reader.holds.inj hsame
      exact ⟨hcoherent, honTime, by simp [start], Nat.zero_add _⟩
    | tail _ hlast ih => exact hlast.sums ih
  have htotal := (hsums last hholds).total_eq
  rwa [unplayed_of_hasEnded hended, Nat.add_zero] at htotal

end Household

end TimedStreams
