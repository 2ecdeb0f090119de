import TimedStreams.Proofs.Calendar
import TimedStreams.Proofs.Rereading
import TimedStreams.Proofs.RoundTrips
import TimedStreams.Proofs.Surveys

/-!
# Reports that are read back

An event is written as a document with one level more than the deeper of its identity and its payload, and a
report adds three levels to those of its events. The reader of each understands it as long as it may open as
many levels (`Event.ofJson?_toJson`, `Report.ofJson?_toJson`), so the text of a report is read back if it has no
more levels than `Json.maxDepth`, and otherwise it is refused. Only its times may come out as others, though
not far away (`Report.restored_render`). They are the same if they are decimals of few digits
(`Report.restored_of_isDecimal`).
-/

namespace TimedStreams

open Binary64 Json

namespace Json

variable {x : Float} {depth : ℕ}

/-! ### Levels of lists -/

theorem levelsOfItems_le {items : List Json} : levelsOfItems items ≤ depth ↔ ∀ item ∈ items, item.levels ≤ depth := by
  induction items with
  | nil => simp [levelsOfItems]
  | cons item items ih => rw [levelsOfItems, max_le_iff, ih, List.forall_mem_cons]

theorem levelsOfMembers_le {members : List (Option String × Json)} :
    levelsOfMembers members ≤ depth ↔ ∀ member ∈ members, member.2.levels ≤ depth := by
  induction members with
  | nil => simp [levelsOfMembers]
  | cons member members ih => rw [levelsOfMembers, max_le_iff, ih, List.forall_mem_cons]

theorem levels_array_le {items : List Json} :
    (array items).levels ≤ depth + 1 ↔ ∀ item ∈ items, item.levels ≤ depth := by
  rw [levels, Nat.add_comm, Nat.add_le_add_iff_right, levelsOfItems_le]

theorem levels_record_le {members : List (String × Json)} :
    (record members).levels ≤ depth + 1 ↔ ∀ member ∈ members, member.2.levels ≤ depth := by
  rw [record, levels, Nat.add_comm, Nat.add_le_add_iff_right, levelsOfMembers_le, List.forall_mem_map]

theorem levels_array_pos (items : List Json) : 0 < (array items).levels := by
  rw [levels]
  omega

theorem levels_record_pos (members : List (String × Json)) : 0 < (record members).levels := by
  rw [record, levels]
  omega

theorem properItems_iff {items : List Json} : ProperItems items ↔ ∀ item ∈ items, item.Proper := by
  induction items with
  | nil => simp [ProperItems]
  | cons item items ih => rw [ProperItems, ih, List.forall_mem_cons]

theorem proper_record {members : List (String × Json)} :
    (record members).Proper ↔ ∀ member ∈ members, member.2.Proper := by
  rw [record, Proper]
  induction members with
  | nil => simp [ProperMembers]
  | cons member members ih => simp [ProperMembers, ih]

theorem mapM_ite {α β : Type} {read : α → Option β} {g : α → β} {p : α → Prop} [DecidablePred p] {xs : List α}
    (hread : ∀ x ∈ xs, read x = if p x then some (g x) else none) :
    xs.mapM read = if ∀ x ∈ xs, p x then some (xs.map g) else none := by
  induction xs with
  | nil => simp
  | cons x xs ih =>
    obtain ⟨hfirst, hrest⟩ := List.forall_mem_cons.1 hread
    rw [List.mapM_cons, hfirst, ih hrest]
    by_cases hx : p x
    · by_cases hxs : ∀ y ∈ xs, p y
      · rw [if_pos hx, if_pos hxs, if_pos (List.forall_mem_cons.2 ⟨hx, hxs⟩)]
        rfl
      · rw [if_pos hx, if_neg hxs, if_neg fun h => hxs (List.forall_mem_cons.1 h).2]
        rfl
    · rw [if_neg hx, if_neg fun h => hx (List.forall_mem_cons.1 h).1]
      rfl

/-! ### Times -/

theorem proper_float (x : Float) : (float x).Proper := by
  by_cases hx : x.isFinite = true
  · obtain ⟨m, e, hshape⟩ := exists_shape_of_isFinite hx
    rw [float_of_shape hshape]
    exact isNumber_magnitude (toBits_of_shape hshape).1 _
  · rw [float, if_neg hx]
    trivial

theorem levels_float (x : Float) : (float x).levels = 0 := by
  rw [float]
  split <;> rfl

/-- The double that is read where a double has been written. -/
def reread (x : Float) : Float :=
  (float x).toFloat?.getD x

theorem reread_spec (hx : x.isFinite = true) : (float x).toFloat? = some (reread x) ∧ (reread x).isFinite = true ∧
    |toRat (reread x) - toRat x| ≤ |toRat x| / 2 ^ 50 + 2 ^ (-1073 : ℤ) := by
  obtain ⟨y, hy, hfinite, hclose⟩ := exists_toFloat?_float hx
  rw [reread, hy, Option.getD_some]
  exact ⟨rfl, hfinite, hclose⟩

theorem IsDecimal.reread (hx : IsDecimal x) : reread x = x := by
  rw [Json.reread, hx.toFloat?_float, Option.getD_some]

/-- A double whose digits are read as the next double. -/
theorem reread_ne : reread 13.263728565504675 ≠ 13.263728565504675 := by
  have hshape : shape 13.263728565504675 = .finite false 7466815378143782 (-49) := by decide +kernel
  have hreading : reading (decimal 7466815378143782 (-49)) = (13263728565504675, -15) := by decide +kernel
  have hcanonical := (toBits_of_shape hshape).1
  rw [reread, float_of_shape hshape, toFloat?_magnitude hcanonical (by decide), hreading, scale?, if_pos (by decide),
    if_neg (by decide)]
  decide +kernel

end Json

/-! ### Events -/

namespace Event

variable {e : Event}

def reread (e : Event) : Event :=
  e.withTime (Json.reread e.time)

theorem proper_toJson (e : Event) : e.toJson.Proper := by
  simp [toJson, proper_record, EventId.proper_toJson, Value.proper_toJson, proper_float, Color.toJson, proper_text]

theorem levels_toJson_le {depth : ℕ} :
    e.toJson.levels ≤ depth + 1 ↔ (EventId.toJson e.id).levels ≤ depth ∧ (Value.toJson e.value).levels ≤ depth := by
  simp [toJson, levels_record_le, levels_float, Color.toJson, text, levels]

theorem Color.ofJson?_toJson (depth : ℕ) (c : Color) : Color.ofJson? depth c.toJson = some c := by
  cases c <;> rfl

theorem ofJson?_toJson (htime : e.time.isFinite = true) (depth : ℕ) :
    ofJson? depth e.toJson = if e.toJson.levels ≤ depth then some e.reread else none := by
  cases depth with
  | zero => exact (if_neg (Nat.not_le.2 (levels_record_pos _))).symm
  | succ depth =>
    have hfields : fields? ["id", "time", "color", "value"] e.toJson
        = some [some (EventId.toJson e.id), some (float e.time), some e.color.toJson, some (Value.toJson e.value)] := rfl
    rw [ofJson?, hfields]
    simp only [Option.bind_eq_bind, Option.bind_some, EventId.ofJson?_toJson, (reread_spec htime).1,
      Color.ofJson?_toJson, Value.ofJson?_toJson, levels_toJson_le]
    by_cases hid : (EventId.toJson e.id).levels ≤ depth <;> by_cases hvalue : (Value.toJson e.value).levels ≤ depth <;>
      simp [hid, hvalue, reread, withTime]

end Event

/-! ### Reports -/

namespace Report

variable {r : Report}

/-- What is asked of a report to be written: it began at a point in calendar time, no identifier has two traces, and
all times are finite. -/
structure Writable (r : Report) : Prop where
  startedAt : r.startedAt.Readable
  ids : (r.traces.map Prod.fst).Nodup
  times : ∀ t ∈ r.times, t.isFinite = true

theorem mem_times_of_mem {entry : Uuid × List Event} {e : Event} (hentry : entry ∈ r.traces) (he : e ∈ entry.2) :
    e.time ∈ r.times :=
  List.mem_append_left _ (List.mem_flatMap.2 ⟨entry, hentry, List.mem_map_of_mem he⟩)

theorem mem_times_of_latest {t : Float} (ht : r.latestInputTime = some t) : t ∈ r.times :=
  List.mem_append_right _ (Option.mem_toList.2 ht)

def reread (r : Report) : Report where
  startedAt := r.startedAt.folded
  latestInputTime := r.latestInputTime.map Json.reread
  traces := r.traces.map fun entry => (entry.1, entry.2.map Event.reread)

theorem proper_toJson (r : Report) : r.toJson.Proper := by
  have hlatest : (r.latestInputTime.elim null float).Proper := by
    cases r.latestInputTime with
    | none => trivial
    | some t => exact proper_float t
  have htraces : ∀ entry ∈ r.traces, (array (entry.2.map Event.toJson)).Proper := by
    intro entry _
    rw [Proper, properItems_iff, List.forall_mem_map]
    exact fun e _ => e.proper_toJson
  rw [toJson, proper_record]
  simp only [List.forall_mem_cons, List.not_mem_nil, false_imp_iff, implies_true, and_true]
  exact ⟨proper_text _, hlatest, proper_record.2 (List.forall_mem_map.2 htraces)⟩

theorem levels_toJson_le {depth : ℕ} : r.toJson.levels ≤ depth + 2 ↔
    ∀ entry ∈ r.traces, (array (entry.2.map Event.toJson)).levels ≤ depth := by
  have hlatest : (r.latestInputTime.elim null float).levels = 0 := by
    cases r.latestInputTime with
    | none => rfl
    | some t => exact levels_float t
  have hstarted : (text r.startedAt.render).levels = 0 := rfl
  rw [toJson, levels_record_le]
  simp only [List.forall_mem_cons, List.not_mem_nil, false_imp_iff, implies_true, and_true, hlatest, hstarted,
    Nat.zero_le, true_and]
  rw [levels_record_le, List.forall_mem_map]

/-- A report has four levels, and those of the identities and the payloads of its events below them. -/
theorem levels_toJson_le_iff {depth : ℕ} : r.toJson.levels ≤ depth + 4 ↔ ∀ entry ∈ r.traces, ∀ e ∈ entry.2,
    (EventId.toJson e.id).levels ≤ depth ∧ (Value.toJson e.value).levels ≤ depth := by
  rw [levels_toJson_le]
  simp only [levels_array_le, List.forall_mem_map, Event.levels_toJson_le]

theorem traceOfJson?_toJson {id : Uuid} {events : List Event} (htimes : ∀ e ∈ events, e.time.isFinite = true)
    (depth : ℕ) :
    traceOfJson? depth (some id.render) (array (events.map Event.toJson))
      = if (array (events.map Event.toJson)).levels ≤ depth then some (id, events.map Event.reread) else none := by
  cases depth with
  | zero => exact (if_neg (Nat.not_le.2 (levels_array_pos _))).symm
  | succ depth =>
    have hevents : (events.map Event.toJson).mapM (Event.ofJson? depth)
        = if ∀ e ∈ events, e.toJson.levels ≤ depth then some (events.map Event.reread) else none := by
      rw [List.mapM_map]
      exact mapM_ite fun e he => Event.ofJson?_toJson (htimes e he) depth
    simp only [traceOfJson?, Uuid.read?_render, hevents, levels_array_le, List.forall_mem_map, Option.bind_eq_bind,
      Option.bind_some]
    split <;> rfl

theorem timeOfJson?_toJson (hr : r.Writable) :
    timeOfJson? (some (r.latestInputTime.elim null float)) = some (r.latestInputTime.map Json.reread) := by
  cases hlatest : r.latestInputTime with
  | none => rfl
  | some t =>
    have hfinite := hr.times t (mem_times_of_latest hlatest)
    have hread := (reread_spec hfinite).1
    obtain ⟨m, e, hshape⟩ := exists_shape_of_isFinite hfinite
    rw [float_of_shape hshape] at hread
    rw [Option.elim_some, float_of_shape hshape]
    exact congrArg (Option.map some) hread

theorem ofTraces_eq (startedAt : Timestamp) (latest : Option Float) {traces : List (Uuid × List Event)}
    (hkeys : (traces.map Prod.fst).Nodup) : ofTraces startedAt latest traces = ⟨startedAt, latest, traces⟩ :=
  congrArg (Report.mk startedAt latest) (traces_ofTraces hkeys startedAt latest)

theorem ids_reread (r : Report) : r.reread.traces.map Prod.fst = r.traces.map Prod.fst := by
  rw [reread, List.map_map]
  rfl

theorem trace?_reread (r : Report) (id : Uuid) : r.reread.trace? id = (r.trace? id).map (List.map Event.reread) := by
  rw [trace?, trace?, reread, List.find?_map, Option.map_map, Option.map_map]
  rfl

theorem two_le_levels (r : Report) : 2 ≤ r.toJson.levels := by
  by_contra hlt
  have hmembers := levels_record_le.1 (Nat.le_of_lt_succ (not_le.1 hlt) : r.toJson.levels ≤ 0 + 1)
  have htraces := hmembers _ (List.mem_cons_of_mem _ (List.mem_cons_of_mem _ List.mem_cons_self))
  exact absurd htraces (Nat.not_le.2 (levels_record_pos _))

/-- A report is read back with its times as they are read, if it has no more levels than may be opened. -/
theorem ofJson?_toJson (hr : r.Writable) (depth : ℕ) :
    ofJson? depth r.toJson = if r.toJson.levels ≤ depth then some r.reread else none := by
  have hlevels := r.two_le_levels
  match depth with
  | 0 => exact (if_neg (by omega)).symm
  | 1 => exact (if_neg (by omega)).symm
  | depth + 2 =>
    have hfields : fields? ["started_at", "latest_input_time", "traces"] r.toJson
        = some [some (text r.startedAt.render), some (r.latestInputTime.elim null float),
          some (record (r.traces.map fun entry => (entry.1.render, array (entry.2.map Event.toJson))))] := rfl
    have htraces : r.traces.mapM (fun entry =>
          traceOfJson? depth (some entry.1.render) (array (entry.2.map Event.toJson)))
        = if ∀ entry ∈ r.traces, (array (entry.2.map Event.toJson)).levels ≤ depth then some r.reread.traces else none :=
      mapM_ite fun entry hentry =>
        traceOfJson?_toJson (fun e he => hr.times e.time (mem_times_of_mem hentry he)) depth
    have hkeys : (r.reread.traces.map Prod.fst).Nodup := ids_reread r ▸ hr.ids
    rw [ofJson?, hfields]
    simp only [Option.bind_eq_bind, Option.bind_some, record, List.map_map, List.mapM_map, Function.comp_def,
      toString?, text, Timestamp.read?_render hr.startedAt, timeOfJson?_toJson hr, htraces, levels_toJson_le]
    split
    · exact congrArg some (ofTraces_eq _ _ hkeys)
    · rfl

/-! ### Texts -/

theorem restored_of_writable (hr : r.Writable) :
    restored ofJson? r.render.toList = if r.toJson.levels ≤ maxDepth then some r.reread else none := by
  rw [restored, render, String.toList_ofList, show r.toJson.pretty = r.toJson.write .pretty from rfl,
    read?_write .pretty r.proper_toJson, Option.bind_some, ofJson?_toJson hr]

/-- If all times are decimals of few digits then a report is read back as it was. -/
theorem restored_of_isDecimal (hr : r.Writable) (hdecimal : ∀ t ∈ r.times, IsDecimal t)
    (hle : r.toJson.levels ≤ maxDepth) :
    restored ofJson? r.render.toList = some { r with startedAt := r.startedAt.folded } := by
  have hlatest : r.latestInputTime.map Json.reread = r.latestInputTime := by
    cases hlatest : r.latestInputTime with
    | none => rfl
    | some t => exact congrArg some (hdecimal t (mem_times_of_latest hlatest)).reread
  have hevents : ∀ entry ∈ r.traces, entry.2.map Event.reread = entry.2 := by
    intro entry hentry
    calc entry.2.map Event.reread = entry.2.map id := List.map_congr_left fun e he =>
          congrArg e.withTime (hdecimal e.time (mem_times_of_mem hentry he)).reread
      _ = entry.2 := List.map_id _
  have htraces : r.traces.map (fun entry => (entry.1, entry.2.map Event.reread)) = r.traces := by
    calc r.traces.map (fun entry => (entry.1, entry.2.map Event.reread)) = r.traces.map id :=
          List.map_congr_left fun entry hentry => Prod.ext rfl (hevents entry hentry)
      _ = r.traces := List.map_id _
  rw [restored_of_writable hr, if_pos hle, reread, hlatest, htraces]

def sample (time : Float) (value : Value) : Report where
  startedAt := ⟨0, 0⟩
  latestInputTime := none
  traces := [(.ofNat 0, [{ id := .single (.ofNat 0), time, value }])]

theorem writable_sample {time : Float} (htime : time.isFinite = true) (value : Value) :
    (sample time value).Writable where
  startedAt := show Timestamp.Readable ⟨0, 0⟩ from ⟨by decide, by decide⟩
  ids := List.nodup_singleton _
  times := fun _ ht => List.mem_singleton.1 ht ▸ htime

theorem trace?_sample (time : Float) (value : Value) :
    (sample time value).trace? (.ofNat 0) = some [{ id := .single (.ofNat 0), time, value }] :=
  trace?_of_mem (List.nodup_singleton _) List.mem_cons_self

/-- A payload that is paired again and again. -/
def nested : ℕ → Value
  | 0 => .single (.int 0)
  | n + 1 => .pair (nested n) (.single (.int 0))

theorem levels_nested (n : ℕ) : (Value.toJson (nested n)).levels = 2 * n + 1 := by
  have hleaf : (Value.toJson (.single (.int 0))).levels = 1 := rfl
  induction n with
  | zero => rfl
  | succ n ih =>
    have hpair : (Value.toJson (nested (n + 1))).levels
        = max (Value.toJson (nested n)).levels (Value.toJson (.single (.int 0))).levels + 1 + 1 := by
      rw [← levels_pair, ← levels_tagged]
      rfl
    rw [hpair, ih, hleaf]
    omega

theorem levels_sample_le (time : Float) (n : ℕ) : (sample time (nested n)).toJson.levels ≤ maxDepth ↔ n ≤ 61 := by
  have hdepth : maxDepth = 123 + 4 := rfl
  have hid : (EventId.toJson (.single (.ofNat 0))).levels = 1 := rfl
  rw [hdepth, levels_toJson_le_iff]
  simp only [sample, List.forall_mem_singleton, hid, levels_nested]
  omega

/-- The text of a report is read back if no more than `maxDepth` arrays and objects are nested in it, and otherwise it
is refused. All is as it was, except that a time is what is read where it has been written. This is a number in any
case, which differs from the time in its last bits at most, and it is the same if the time is a decimal of few digits. -/
theorem restored_render (hr : r.Writable) :
    (r.toJson.levels ≤ maxDepth → ∃ r', restored ofJson? r.render.toList = some r' ∧
      r'.startedAt = r.startedAt.folded ∧ r'.latestInputTime = r.latestInputTime.map Json.reread ∧
      ∀ id, r'.trace? id = (r.trace? id).map (List.map fun e => e.withTime (Json.reread e.time))) ∧
    (maxDepth < r.toJson.levels → restored ofJson? r.render.toList = none) ∧
    (∀ t ∈ r.times, (float t).toFloat? = some (Json.reread t) ∧ (Json.reread t).isFinite = true ∧
      |toRat (Json.reread t) - toRat t| ≤ |toRat t| / 2 ^ 50 + 2 ^ (-1073 : ℤ)) ∧
    ∀ t, IsDecimal t → Json.reread t = t := by
  refine ⟨fun hle => ⟨r.reread, ?_, rfl, rfl, r.trace?_reread⟩, fun hlt => ?_,
    fun t ht => reread_spec (hr.times t ht), fun t ht => ht.reread⟩
  · rw [restored_of_writable hr, if_pos hle]
  · rw [restored_of_writable hr, if_neg (Nat.not_le.2 hlt)]

/-- A half is a decimal of few digits, so an event at this time is read back as it was. -/
theorem restored_render_half : (sample 0.5 (nested 0)).Writable ∧ (sample 0.5 (nested 0)).toJson.levels ≤ maxDepth ∧
    ∃ r', restored ofJson? (sample 0.5 (nested 0)).render.toList = some r' ∧
      r'.trace? (.ofNat 0) = (sample 0.5 (nested 0)).trace? (.ofNat 0) := by
  have hr : (sample 0.5 (nested 0)).Writable := writable_sample (by decide +kernel) _
  have hle := (levels_sample_le 0.5 0).2 (by decide)
  obtain ⟨hread, -, -, hexact⟩ := restored_render hr
  obtain ⟨r', hr', -, -, htraces⟩ := hread hle
  have hhalf := hexact 0.5 ⟨_, .fraction (by decide : 5 ≤ 10 ^ 15) (by decide : 1 ≤ 22), .inl rfl⟩
  refine ⟨hr, hle, r', hr', ?_⟩
  rw [htraces, trace?_sample, Option.map_some, List.map_singleton, Event.withTime, hhalf]

/-- With one level too many a report is not read back, nor is every time as it was. -/
theorem sample_not_restored :
    ((sample 0.5 (nested 62)).Writable ∧ restored ofJson? (sample 0.5 (nested 62)).render.toList = none) ∧
    (sample 13.263728565504675 (nested 0)).Writable ∧
      ∃ r', restored ofJson? (sample 13.263728565504675 (nested 0)).render.toList = some r' ∧
        r'.trace? (.ofNat 0) ≠ (sample 13.263728565504675 (nested 0)).trace? (.ofNat 0) := by
  have hdeep : (sample 0.5 (nested 62)).Writable := writable_sample (by decide +kernel) _
  have hflat : (sample 13.263728565504675 (nested 0)).Writable := writable_sample (by decide +kernel) _
  refine ⟨⟨hdeep, ?_⟩, hflat, (sample 13.263728565504675 (nested 0)).reread, ?_, ?_⟩
  · rw [restored_of_writable hdeep, if_neg fun hle => absurd ((levels_sample_le _ _).1 hle) (by decide)]
  · rw [restored_of_writable hflat, if_pos ((levels_sample_le _ _).2 (by decide))]
  · rw [trace?_reread, trace?_sample]
    intro hsame
    have htime := congrArg Event.time (List.cons.inj (Option.some.inj hsame)).1
    exact reread_ne htime

end Report

end TimedStreams
