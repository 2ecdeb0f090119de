import TimedStreams.Proofs.Deeds

/-!
# Who owns the replays

A reader holds the outermost signal until it drops it. A task that completes lets go of its operands,
and whoever ends lets go of all that it owned. What nobody reads any more is an orphan: it does not
end at once, but is cancelled at some later point of the same instant, and until then it may go on
as it likes. The clock moves only once all that is held is idle and all orphans are gone. A
`Household` is such an evaluation with a log of all that was done.

A place is torn down when the reader drops the outermost signal and when a `zip` above it completes
(`Household.TornDown`). What becomes of the events to be replayed at a place is kept in two parts.
The `Ledger` splits them into those that were replayed, those that still will be and those that never
will be; at any time at most one signal, held or orphaned, replays at the place. `Owned` says why an
event may be lost: whatever is still to be replayed has either an owner up to the reader, or a
teardown at this very instant.
-/

namespace TimedStreams

open Relation Stamped

/-- Something that was done, and when and where. -/
structure Record where
  instant : Nat
  path : List Place
  deed : Deed

/-- Whether a `zip` completed on the way to a place. -/
def Record.Closes (place : List Place) (r : Record) : Prop :=
  (∃ operands, r.deed = .complete (some .zip) operands) ∧ r.path <+: place

inductive Reader where
  | holds (signal : Signal)
  | dropped (since : Nat)

def Reader.agendaAt (reader : Reader) (place : List Place) : List Stamped :=
  match reader with
  | holds signal => signal.agendaAt place
  | dropped _ => []

structure Household where
  now : Nat := 0
  reader : Reader
  /-- What nobody reads and has not been cancelled yet. -/
  orphans : List Holding := []
  log : List Record := []

namespace Household

def start (signal : Signal) : Household :=
  { reader := .holds signal }

inductive Moves : Household → Household → Prop
  | work {now : Nat} {signal signal' : Signal} {path : List Place} {deed : Deed} {orphans : List Holding}
      {log : List Record} (hdoes : signal.Does (· ≤ now) path deed signal') :
      Moves ⟨now, .holds signal, orphans, log⟩
        ⟨now, .holds signal', deed.released path ++ orphans, log ++ [⟨now, path, deed⟩]⟩
  | read {now : Nat} {signal signal' : Signal} {u : Update} {orphans : List Holding} {log : List Record}
      (hreads : signal.Reads (some u) signal') :
      Moves ⟨now, .holds signal, orphans, log⟩ ⟨now, .holds signal', orphans, log⟩
  | stray {now : Nat} {reader : Reader} {signal signal' : Signal} {above path : List Place} {deed : Deed}
      {before after : List Holding} {log : List Record} (hdoes : signal.Does (· ≤ now) path deed signal') :
      Moves ⟨now, reader, before ++ ⟨above, signal⟩ :: after, log⟩
        ⟨now, reader, before ++ ⟨above, signal'⟩ :: (deed.released (above ++ path) ++ after),
          log ++ [⟨now, above ++ path, deed⟩]⟩
  | cancel {now : Nat} {reader : Reader} {holding : Holding} (before : List Holding) {after : List Holding} {log : List Record} :
      Moves ⟨now, reader, before ++ holding :: after, log⟩ ⟨now, reader, before ++ (holding.operands ++ after), log⟩
  /-- The reader drops the outermost signal while nothing else can happen. -/
  | drop {now : Nat} {signal : Signal} {log : List Record} (hidle : signal.Idle (· ≤ now)) :
      Moves ⟨now, .holds signal, [], log⟩ ⟨now, .dropped now, [⟨[], signal⟩], log⟩
  | pass {now later : Nat} {reader : Reader} {log : List Record} (hlater : now < later)
      (hidle : ∀ signal, reader = .holds signal → signal.Idle (· ≤ now))
      (hnext : ∀ signal, reader = .holds signal → ∀ wake, signal.nextWake .exact = some wake → later ≤ wake) :
      Moves ⟨now, reader, [], log⟩ ⟨later, reader, [], log⟩

/-- The events that have been replayed at a place, in the order in which they were. -/
def woken (h : Household) (place : List Place) : List Stamped :=
  h.log.flatMap fun r => r.deed.wokenAt r.path place

/-- What is still to be replayed at a place: by the signal that the reader holds, and by the orphans. -/
def agendas (h : Household) (place : List Place) : List (List Stamped) :=
  h.reader.agendaAt place :: h.orphans.map (·.agendaAt place)

/-- The reader has dropped the outermost signal at that instant, or a `zip` above the place has completed. -/
def TornDown (h : Household) (place : List Place) (instant : Nat) : Prop :=
  h.reader = .dropped instant ∨ ∃ r ∈ h.log, r.instant = instant ∧ r.Closes place

/-- What has become of the events of an agenda: those that have been replayed, those that still will be, and those
that never will be. -/
structure Ledger (agenda : List Stamped) (place : List Place) (h : Household) (rest lost : List Stamped) : Prop where
  agenda_eq : agenda = h.woken place ++ (rest ++ lost)
  agendas_eq : nonempty (h.agendas place) = nonempty [rest]
  ahead : From h.now rest
  woken_upTo : UpTo h.now (h.woken place)
  punctual : ∀ r ∈ h.log, ∀ s ∈ r.deed.wokenAt r.path place, s.stamp = r.instant
  lost_after : ∀ s ∈ lost, ∃ instant ≤ s.stamp, h.TornDown place instant

/-- Why events at a place may be lost. -/
structure Owned (place : List Place) (h : Household) (rest : List Stamped) : Prop where
  torn_upTo : ∀ instant, h.TornDown place instant → instant ≤ h.now ∧ UpTo instant (h.woken place)
  torn_now : ∀ instant, h.TornDown place instant → rest ≠ [] → instant = h.now
  held : h.reader.agendaAt place ≠ [] → ∀ instant, ¬ h.TornDown place instant
  let_go : rest ≠ [] → h.reader.agendaAt place = [] → ∃ instant, h.TornDown place instant
  orphaned : ∀ holding ∈ h.orphans, holding.path <+: place → h.reader.agendaAt place = []
  dropped : ∀ since, h.reader = .dropped since → From (since + 1) rest

variable {agenda rest lost : List Stamped} {place path above : List Place} {deed : Deed} {h h' : Household}
  {signal signal' : Signal}

/-! ### What a deed changes -/

/-- One more deed stands in the log, and the reader has not dropped the outermost signal meanwhile. -/
structure Notes (path : List Place) (deed : Deed) (h h' : Household) : Prop where
  now_eq : h'.now = h.now
  dropped_iff : ∀ since, h'.reader = .dropped since ↔ h.reader = .dropped since
  log_eq : h'.log = h.log ++ [⟨h.now, path, deed⟩]

theorem Notes.woken (hnotes : Notes path deed h h') (place : List Place) :
    h'.woken place = h.woken place ++ deed.wokenAt path place := by
  simp [Household.woken, hnotes.log_eq]

theorem Notes.tornDown_iff (hnotes : Notes path deed h h') {instant : Nat} :
    h'.TornDown place instant ↔
      h.TornDown place instant ∨ (instant = h.now ∧ Record.Closes place ⟨h.now, path, deed⟩) := by
  simp only [TornDown, hnotes.dropped_iff, hnotes.log_eq, List.mem_append, List.mem_singleton, or_and_right, exists_or,
    exists_eq_left, or_assoc, eq_comm (a := instant)]

/-- A deed at a place of which the agenda is one of several. -/
theorem Ledger.note (before after : List (List Stamped)) {lists : List (List Stamped)} {xs : List Stamped}
    (hledger : h.Ledger agenda place rest lost) (hnotes : Notes path deed h h')
    (hdue : ∀ s ∈ deed.wokenAt path place, s.stamp ≤ h.now)
    (hconserves : ∃ left, xs = deed.wokenAt path place ++ left ∧ nonempty [left] = nonempty lists)
    (hagendas : h.agendas place = before ++ xs :: after)
    (hagendas' : h'.agendas place = before ++ (lists ++ after)) :
    ∃ rest', rest = deed.wokenAt path place ++ rest' ∧ h'.Ledger agenda place rest' lost := by
  obtain ⟨left, hxs, hleft⟩ := hconserves
  obtain ⟨rest', hrest, hnonempty⟩ := nonempty_replace (hagendas ▸ hledger.agendas_eq) hxs hleft
  have hahead := hledger.ahead
  rw [hrest, from_append] at hahead
  refine ⟨rest', hrest, ?_, hagendas' ▸ hnonempty, ?_, ?_, ?_, ?_⟩
  · rw [hledger.agenda_eq, hnotes.woken, hrest, List.append_assoc, List.append_assoc]
  · rw [hnotes.now_eq]
    exact hahead.2
  · rw [hnotes.woken, hnotes.now_eq, upTo_append]
    exact ⟨hledger.woken_upTo, hdue⟩
  · rw [hnotes.log_eq]
    intro r hr
    rcases List.mem_append.1 hr with hr | hr
    · exact hledger.punctual r hr
    · rw [List.mem_singleton.1 hr]
      intro s hs
      exact Nat.le_antisymm (hdue s hs) (hahead.1 s hs)
  · intro s hs
    obtain ⟨instant, hle, htorn⟩ := hledger.lost_after s hs
    exact ⟨instant, hle, hnotes.tornDown_iff.2 (.inl htorn)⟩

/-- What a deed leaves to be replayed stays torn down if it was, and may be torn down now. -/
theorem Owned.torn_note {rest' : List Stamped} (howned : h.Owned place rest) (hnotes : Notes path deed h h')
    (hrest : rest = deed.wokenAt path place ++ rest') (hupTo : UpTo h'.now (h'.woken place)) {instant : Nat}
    (htorn : h'.TornDown place instant) :
    (instant ≤ h'.now ∧ UpTo instant (h'.woken place)) ∧ (rest' ≠ [] → instant = h'.now) := by
  rw [hnotes.now_eq]
  rcases hnotes.tornDown_iff.1 htorn with htorn | ⟨rfl, -⟩
  · obtain ⟨hle, hwoken⟩ := howned.torn_upTo instant htorn
    by_cases hnone : rest = []
    · obtain ⟨hsame, rfl⟩ := List.append_eq_nil_iff.1 (hrest.symm.trans hnone)
      rw [hnotes.woken, hsame, List.append_nil]
      exact ⟨⟨hle, hwoken⟩, fun hmore => absurd rfl hmore⟩
    · obtain rfl := howned.torn_now instant htorn hnone
      rw [hnotes.now_eq] at hupTo
      exact ⟨⟨le_rfl, hupTo⟩, fun _ => rfl⟩
  · rw [hnotes.now_eq] at hupTo
    exact ⟨⟨le_rfl, hupTo⟩, fun _ => rfl⟩

/-! ### What each move keeps -/

variable {now : Nat} {reader : Reader} {orphans before after : List Holding} {log : List Record}

theorem keeps_work (hcoherent : signal.Coherent) (hdoes : signal.Does (· ≤ now) path deed signal')
    (hledger : Ledger agenda place ⟨now, .holds signal, orphans, log⟩ rest lost)
    (howned : Owned place ⟨now, .holds signal, orphans, log⟩ rest) :
    ∃ rest', Ledger agenda place ⟨now, .holds signal', deed.released path ++ orphans, log ++ [⟨now, path, deed⟩]⟩ rest'
        lost ∧
      Owned place ⟨now, .holds signal', deed.released path ++ orphans, log ++ [⟨now, path, deed⟩]⟩ rest' := by
  have hnotes : Notes path deed ⟨now, .holds signal, orphans, log⟩
      ⟨now, .holds signal', deed.released path ++ orphans, log ++ [⟨now, path, deed⟩]⟩ := ⟨rfl, by simp, rfl⟩
  have hdue : ∀ s ∈ deed.wokenAt path place, s.stamp ≤ now := fun s hs =>
    hdoes.due_of_wake (Deed.mem_wokenAt.1 hs).1
  have hconserves := hdoes.conserves place
  obtain ⟨rest', hrest, hledger'⟩ := hledger.note [] _ hnotes hdue hconserves rfl (by
    simp [agendas, Reader.agendaAt])
  have htorn := fun instant (h : TornDown _ place instant) => howned.torn_note hnotes hrest hledger'.woken_upTo h
  refine ⟨rest', hledger', fun instant h => (htorn instant h).1, fun instant h => (htorn instant h).2, ?_, ?_, ?_, ?_⟩
  · intro hheld instant h
    rcases hnotes.tornDown_iff.1 h with h | ⟨-, ⟨operands, hcomplete⟩, hbelow⟩
    · exact howned.held (mt hdoes.agendaAt_eq_nil hheld) instant h
    · exact hheld (hdoes.agendaAt_of_complete hcomplete hbelow)
  · -- If the agenda has gone from below the reader, it is that of an operand which was let go of.
    intro hmore hgone
    by_cases hnone : signal.agendaAt place = []
    · obtain ⟨instant, h⟩ := howned.let_go (by rw [hrest]; simp [hmore]) hnone
      exact ⟨instant, hnotes.tornDown_iff.2 (.inl h)⟩
    · obtain ⟨left, hleft, hnonempty⟩ := hconserves
      have hsame : left = rest' := by
        rcases nonempty_cases [] hledger.agendas_eq with ⟨hgone, -⟩ | ⟨-, hall, -⟩
        · exact absurd hgone hnone
        · exact List.append_cancel_left (hleft.symm.trans (hall.trans hrest))
      rw [show signal'.agendaAt place = [] from hgone, nonempty_nil_cons] at hnonempty
      obtain ⟨xs, hxs, hany⟩ := exists_of_nonempty hnonempty.symm (hsame ▸ hmore)
      obtain ⟨holding, hholding, rfl⟩ := List.mem_map.1 hxs
      exact ⟨now, hnotes.tornDown_iff.2 (.inr ⟨rfl, hdoes.zip_of_released hcoherent hholding hany⟩)⟩
  · intro holding hholding hbelow
    rcases List.mem_append.1 hholding with hreleased | hold
    · obtain ⟨⟨kind, operands, hcomplete⟩, hpath⟩ := Deed.of_mem_released hreleased
      exact hdoes.agendaAt_of_complete hcomplete (hpath.trans hbelow)
    · exact hdoes.agendaAt_eq_nil (howned.orphaned holding hold hbelow)
  · intro since hdropped
    cases hdropped

theorem keeps_read {u : Update} (hreads : signal.Reads (some u) signal')
    (hledger : Ledger agenda place ⟨now, .holds signal, orphans, log⟩ rest lost)
    (howned : Owned place ⟨now, .holds signal, orphans, log⟩ rest) :
    Ledger agenda place ⟨now, .holds signal', orphans, log⟩ rest lost ∧
      Owned place ⟨now, .holds signal', orphans, log⟩ rest := by
  have hagenda : (Reader.holds signal').agendaAt place = (Reader.holds signal).agendaAt place := hreads.agendaAt place
  have htorn : ∀ instant, TornDown ⟨now, .holds signal', orphans, log⟩ place instant ↔
      TornDown ⟨now, .holds signal, orphans, log⟩ place instant := by simp [TornDown]
  constructor
  · refine { hledger with agendas_eq := ?_, lost_after := by simpa only [htorn] using hledger.lost_after }
    rw [agendas, hagenda]
    exact hledger.agendas_eq
  · refine ⟨?_, ?_, ?_, ?_, ?_, ?_⟩
    · exact fun instant h => howned.torn_upTo instant ((htorn instant).1 h)
    · exact fun instant h => howned.torn_now instant ((htorn instant).1 h)
    · simpa only [htorn, hagenda] using howned.held
    · simpa only [htorn, hagenda] using howned.let_go
    · simpa only [hagenda] using howned.orphaned
    · intro since hdropped
      cases hdropped

theorem keeps_stray (hdoes : signal.Does (· ≤ now) path deed signal')
    (hledger : Ledger agenda place ⟨now, reader, before ++ ⟨above, signal⟩ :: after, log⟩ rest lost)
    (howned : Owned place ⟨now, reader, before ++ ⟨above, signal⟩ :: after, log⟩ rest) :
    ∃ rest', Ledger agenda place ⟨now, reader, before ++ ⟨above, signal'⟩ :: (deed.released (above ++ path) ++ after),
        log ++ [⟨now, above ++ path, deed⟩]⟩ rest' lost ∧
      Owned place ⟨now, reader, before ++ ⟨above, signal'⟩ :: (deed.released (above ++ path) ++ after),
        log ++ [⟨now, above ++ path, deed⟩]⟩ rest' := by
  have hnotes : Notes (above ++ path) deed ⟨now, reader, before ++ ⟨above, signal⟩ :: after, log⟩
      ⟨now, reader, before ++ ⟨above, signal'⟩ :: (deed.released (above ++ path) ++ after),
        log ++ [⟨now, above ++ path, deed⟩]⟩ := ⟨rfl, by simp, rfl⟩
  have hdue : ∀ s ∈ deed.wokenAt (above ++ path) place, s.stamp ≤ now := fun s hs =>
    hdoes.due_of_wake (Deed.mem_wokenAt.1 hs).1
  obtain ⟨rest', hrest, hledger'⟩ := hledger.note (reader.agendaAt place :: before.map (·.agendaAt place))
    (after.map (·.agendaAt place)) hnotes hdue (Holding.conserves hdoes above place) (by simp [agendas])
    (by simp [agendas])
  have htorn := fun instant (h : TornDown _ place instant) => howned.torn_note hnotes hrest hledger'.woken_upTo h
  have hmore : rest' ≠ [] → rest ≠ [] := fun hmore => by simp [hrest, hmore]
  have hgone : above <+: place → reader.agendaAt place = [] := howned.orphaned ⟨above, signal⟩ (by simp)
  refine ⟨rest', hledger', fun instant h => (htorn instant h).1, fun instant h => (htorn instant h).2, ?_, ?_, ?_, ?_⟩
  · intro hheld instant h
    rcases hnotes.tornDown_iff.1 h with h | ⟨-, -, hbelow⟩
    · exact howned.held hheld instant h
    · exact hheld (hgone ((List.prefix_append above path).trans hbelow))
  · intro hleft hheld
    obtain ⟨instant, h⟩ := howned.let_go (hmore hleft) hheld
    exact ⟨instant, hnotes.tornDown_iff.2 (.inl h)⟩
  · intro holding hholding hbelow
    simp only [List.mem_append, List.mem_cons] at hholding
    rcases hholding with hold | rfl | hreleased | hold
    · exact howned.orphaned holding (by simp [hold]) hbelow
    · exact hgone hbelow
    · exact hgone (((List.prefix_append above path).trans (Deed.of_mem_released hreleased).2).trans hbelow)
    · exact howned.orphaned holding (by simp [hold]) hbelow
  · intro since hdropped
    have hfrom := howned.dropped since hdropped
    rw [hrest, from_append] at hfrom
    exact hfrom.2

theorem keeps_cancel {holding : Holding}
    (hledger : Ledger agenda place ⟨now, reader, before ++ holding :: after, log⟩ rest lost)
    (howned : Owned place ⟨now, reader, before ++ holding :: after, log⟩ rest) :
    ∃ rest' lost', Ledger agenda place ⟨now, reader, before ++ (holding.operands ++ after), log⟩ rest' lost' ∧
      Owned place ⟨now, reader, before ++ (holding.operands ++ after), log⟩ rest' := by
  have horphaned : ∀ other ∈ before ++ (holding.operands ++ after), other.path <+: place →
      reader.agendaAt place = [] := by
    intro other hother hbelow
    simp only [List.mem_append] at hother
    rcases hother with hold | hoperand | hold
    · exact howned.orphaned other (by simp [hold]) hbelow
    · exact howned.orphaned holding (by simp) ((Holding.path_of_mem_operands hoperand).trans hbelow)
    · exact howned.orphaned other (by simp [hold]) hbelow
  have hlists : nonempty ((reader.agendaAt place :: before.map (·.agendaAt place)) ++ holding.agendaAt place ::
      after.map (·.agendaAt place)) = nonempty [rest] := by
    simpa [agendas] using hledger.agendas_eq
  have hagendas : agendas ⟨now, reader, before ++ (holding.operands ++ after), log⟩ place
      = (reader.agendaAt place :: before.map (·.agendaAt place)) ++
        (holding.operands.map (·.agendaAt place) ++ after.map (·.agendaAt place)) := by
    simp [agendas]
  by_cases hkept : nonempty (holding.operands.map (·.agendaAt place)) = nonempty [holding.agendaAt place]
  · obtain ⟨rest', hrest, hnonempty⟩ := nonempty_replace hlists (List.nil_append _).symm hkept.symm
    obtain rfl : rest = rest' := hrest
    exact ⟨rest, lost, { hledger with agendas_eq := hagendas ▸ hnonempty }, { howned with orphaned := horphaned }⟩
  · -- The orphan is a replay itself, and its agenda is lost; the place has been torn down before.
    have hnone := (holding.nonempty_operands place).resolve_left hkept
    have hany : holding.agendaAt place ≠ [] := fun hsame => hkept (by rw [hnone, hsame]; rfl)
    obtain ⟨-, hall, hbefore, hafter⟩ := (nonempty_cases _ hlists).resolve_left fun hempty => hany hempty.1
    have hmore : rest ≠ [] := hall ▸ hany
    obtain ⟨instant, htorn⟩ := howned.let_go hmore
      (howned.orphaned holding (by simp) (Holding.path_of_agendaAt hany))
    refine ⟨[], rest ++ lost, { hledger with agenda_eq := ?_, agendas_eq := ?_, ahead := from_nil _, lost_after := ?_ }, ?_⟩
    · rw [hledger.agenda_eq, List.nil_append]
      rfl
    · rw [hagendas, nonempty_append, nonempty_append, hbefore, hafter, hnone]
      rfl
    · intro s hs
      rcases List.mem_append.1 hs with hs | hs
      · exact ⟨instant, ((howned.torn_upTo instant htorn).1).trans (hledger.ahead s hs), htorn⟩
      · exact hledger.lost_after s hs
    · exact { howned with
        torn_now := fun _ _ hmore => absurd rfl hmore
        let_go := fun hmore => absurd rfl hmore
        orphaned := horphaned
        dropped := fun _ _ => from_nil _ }

theorem Ledger.rest_eq (hledger : Ledger agenda place ⟨now, reader, [], log⟩ rest lost) :
    reader.agendaAt place = rest :=
  nonempty_injective hledger.agendas_eq

theorem Ledger.ahead_of_nextWake {later : Nat} (hagenda : Ascending agenda)
    (hledger : Ledger agenda place ⟨now, .holds signal, [], log⟩ rest lost)
    (hnext : ∀ wake, signal.nextWake .exact = some wake → later ≤ wake) : From later rest := by
  have hascending : Ascending rest := by
    rw [hledger.agenda_eq, ascending_append, ascending_append] at hagenda
    exact hagenda.2.1.1
  cases hrest : rest with
  | nil => exact from_nil _
  | cons next others =>
    obtain ⟨wake, hwake, hle⟩ := Signal.exists_wake_le (hledger.rest_eq.trans hrest)
    have hlater := (hnext wake hwake).trans hle
    rw [hrest, ascending_cons] at hascending
    exact from_cons.2 ⟨hlater, hascending.1.mono hlater⟩

theorem keeps_drop (hagenda : Ascending agenda) (hidle : signal.Idle (· ≤ now))
    (hledger : Ledger agenda place ⟨now, .holds signal, [], log⟩ rest lost)
    (howned : Owned place ⟨now, .holds signal, [], log⟩ rest) :
    Ledger agenda place ⟨now, .dropped now, [⟨[], signal⟩], log⟩ rest lost ∧
      Owned place ⟨now, .dropped now, [⟨[], signal⟩], log⟩ rest := by
  have htorn : ∀ {instant}, TornDown ⟨now, .dropped now, [⟨[], signal⟩], log⟩ place instant →
      TornDown ⟨now, .holds signal, [], log⟩ place instant ∨ instant = now := by
    rintro instant (hdropped | hlog)
    · exact .inr (Reader.dropped.inj hdropped).symm
    · exact .inl (.inr hlog)
  constructor
  · refine { hledger with agendas_eq := ?_, lost_after := ?_ }
    · simpa [agendas, Reader.agendaAt] using hledger.agendas_eq
    · intro s hs
      obtain ⟨instant, hle, hdropped | hlog⟩ := hledger.lost_after s hs
      · cases hdropped
      · exact ⟨instant, hle, .inr hlog⟩
  · refine ⟨fun instant h => ?_, fun instant h hmore => ?_, fun hheld => absurd rfl hheld, fun _ _ => ⟨now, .inl rfl⟩,
      fun _ _ _ => rfl, fun since hdropped => ?_⟩
    · rcases htorn h with h | rfl
      · exact howned.torn_upTo instant h
      · exact ⟨le_rfl, hledger.woken_upTo⟩
    · rcases htorn h with h | h
      · exact howned.torn_now instant h hmore
      · exact h
    · obtain rfl := Reader.dropped.inj hdropped
      exact hledger.ahead_of_nextWake hagenda fun wake hwake => hidle.lt_nextWake hwake

theorem keeps_pass {later : Nat} (hagenda : Ascending agenda) (hlater : now < later)
    (hnext : ∀ signal, reader = .holds signal → ∀ wake, signal.nextWake .exact = some wake → later ≤ wake)
    (hledger : Ledger agenda place ⟨now, reader, [], log⟩ rest lost)
    (howned : Owned place ⟨now, reader, [], log⟩ rest) :
    Ledger agenda place ⟨later, reader, [], log⟩ rest lost ∧ Owned place ⟨later, reader, [], log⟩ rest := by
  constructor
  · refine { hledger with ahead := ?_, woken_upTo := hledger.woken_upTo.mono hlater.le }
    cases reader with
    | holds signal => exact hledger.ahead_of_nextWake hagenda (hnext signal rfl)
    | dropped since => exact hledger.rest_eq ▸ from_nil _
  · refine { howned with torn_upTo := fun instant h => ?_, torn_now := fun instant h hmore => ?_ }
    · obtain ⟨hle, hupTo⟩ := howned.torn_upTo instant h
      exact ⟨hle.trans hlater.le, hupTo⟩
    · exact absurd h (howned.held (hledger.rest_eq ▸ hmore) instant)

/-! ### Every run -/

/-- What every run keeps at a place, if the tree began with that agenda there. -/
structure Keeps (agenda : List Stamped) (place : List Place) (h : Household) : Prop where
  coherent : ∀ signal, h.reader = .holds signal → signal.Coherent
  kept : ∃ rest lost, h.Ledger agenda place rest lost ∧ h.Owned place rest

theorem keeps_start (hcoherent : signal.Coherent) (place : List Place) :
    (start signal).Keeps (signal.agendaAt place) place where
  coherent := fun _ hsame => Reader.holds.inj hsame ▸ hcoherent
  kept := by
    have htorn : ∀ instant, ¬ (start signal).TornDown place instant := by simp [TornDown, start]
    refine ⟨signal.agendaAt place, [], ⟨?_, rfl, from_zero _, upTo_nil _, ?_, ?_⟩, ⟨?_, ?_, ?_, ?_, ?_, ?_⟩⟩
    · exact (List.append_nil _).symm
    · simp [start]
    · simp
    · exact fun instant h => absurd h (htorn instant)
    · exact fun instant h => absurd h (htorn instant)
    · exact fun _ => htorn
    · exact fun hmore hnone => absurd hnone hmore
    · simp [start]
    · simp [start]

theorem Moves.keeps (hmoves : h.Moves h') (hagenda : Ascending agenda) (hkeeps : h.Keeps agenda place) :
    h'.Keeps agenda place := by
  obtain ⟨hcoherent, rest, lost, hledger, howned⟩ := hkeeps
  cases hmoves with
  | work hdoes =>
    have hsignal := hcoherent _ rfl
    obtain ⟨rest', hledger', howned'⟩ := keeps_work hsignal hdoes hledger howned
    exact ⟨fun _ hsame => Reader.holds.inj hsame ▸ hdoes.step.coherent hsignal, rest', lost, hledger', howned'⟩
  | read hreads =>
    obtain ⟨hledger', howned'⟩ := keeps_read hreads hledger howned
    exact ⟨fun _ hsame => Reader.holds.inj hsame ▸ hreads.coherent (hcoherent _ rfl), rest, lost, hledger', howned'⟩
  | stray hdoes =>
    obtain ⟨rest', hledger', howned'⟩ := keeps_stray hdoes hledger howned
    exact ⟨hcoherent, rest', lost, hledger', howned'⟩
  | cancel =>
    obtain ⟨rest', lost', hledger', howned'⟩ := keeps_cancel hledger howned
    exact ⟨hcoherent, rest', lost', hledger', howned'⟩
  | drop hidle =>
    obtain ⟨hledger', howned'⟩ := keeps_drop hagenda hidle hledger howned
    exact ⟨by simp, rest, lost, hledger', howned'⟩
  | pass hlater hidle hnext =>
    obtain ⟨hledger', howned'⟩ := keeps_pass hagenda hlater hnext hledger howned
    exact ⟨hcoherent, rest, lost, hledger', howned'⟩

theorem Keeps.of_run (hrun : ReflTransGen Moves h h') (hagenda : Ascending agenda) (hkeeps : h.Keeps agenda place) :
    h'.Keeps agenda place := by
  induction hrun with
  | refl => exact hkeeps
  | tail _ hlast ih => exact hlast.keeps hagenda ih

/-! ### What it comes to -/

/-- The events of an agenda are replayed in their order, each at its deadline: all that are due before the place is torn
down, none that is due later. -/
structure Accounts (agenda : List Stamped) (place : List Place) (h : Household) : Prop where
  in_order : h.woken place <+: agenda
  at_deadline : ∀ r ∈ h.log, ∀ s, r.path = place → r.deed = .wake s → r.instant = s.stamp
  none_lost : ∀ bound ≤ h.now, (∀ instant, h.TornDown place instant → bound ≤ instant) →
    agenda.filter (·.stamp < bound) <+: h.woken place
  none_late : ∀ instant, h.TornDown place instant → ∀ s ∈ h.woken place, s.stamp ≤ instant

/-- Of an ascending list, what is stamped before an instant comes first. -/
theorem filter_lt_prefix {xs : List Stamped} (hxs : Ascending xs) (bound : Nat) :
    xs.filter (·.stamp < bound) <+: xs := by
  induction xs with
  | nil => exact List.prefix_rfl
  | cons s xs ih =>
    obtain ⟨hfrom, hascending⟩ := ascending_cons.1 hxs
    by_cases hbefore : s.stamp < bound
    · rw [List.filter_cons_of_pos (by simpa using hbefore)]
      exact (List.prefix_cons_inj s).2 (ih hascending)
    · rw [List.filter_cons_of_neg (by simpa using hbefore), List.filter_eq_nil_iff.2]
      · exact List.nil_prefix
      · intro t ht
        simpa using (Nat.le_of_not_lt hbefore).trans (hfrom t ht)

theorem Keeps.accounts (hagenda : Ascending agenda) (hkeeps : h.Keeps agenda place) : h.Accounts agenda place := by
  obtain ⟨-, rest, lost, hledger, howned⟩ := hkeeps
  refine ⟨⟨rest ++ lost, hledger.agenda_eq.symm⟩, ?_, ?_, fun instant h => (howned.torn_upTo instant h).2⟩
  · intro r hr s hpath hwake
    exact (hledger.punctual r hr s (Deed.mem_wokenAt.2 ⟨hwake, hpath⟩)).symm
  · intro bound hbound htorn
    have hlater : (rest ++ lost).filter (·.stamp < bound) = [] := by
      refine List.filter_eq_nil_iff.2 fun s hs => ?_
      rw [decide_eq_true_eq, Nat.not_lt]
      rcases List.mem_append.1 hs with hs | hs
      · exact hbound.trans (hledger.ahead s hs)
      · obtain ⟨instant, hle, h⟩ := hledger.lost_after s hs
        exact (htorn instant h).trans hle
    rw [hledger.agenda_eq, ascending_append] at hagenda
    rw [hledger.agenda_eq, List.filter_append, hlater, List.append_nil]
    exact filter_lt_prefix hagenda.1 bound

end Household

end TimedStreams
