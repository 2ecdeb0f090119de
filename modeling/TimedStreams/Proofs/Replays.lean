import TimedStreams.Proofs.Deadlines
import TimedStreams.Proofs.EngineRuns

/-!
# What can be replayed

Before a run a timeline is checked by comparing doubles: no quotient of a time and the speed may
exceed the horizon. The replay itself turns each quotient into whole nanoseconds and stops, without
a word to its reader, at the first that it cannot schedule. `Replayable.lean` shows that what passes
the check is scheduled. Here is the converse. A double above the horizon is above it by more than a
nanosecond, whatever its exponent, so rounding never brings one back; and what is not a number, or
carries a minus sign, is above nothing. Both draw the line at the same double
(`Instant.isSome_ofSeconds?_iff`), and a replay delivers its whole timeline exactly if the check
lets it pass (`Timeline.check_eq_ok_iff`).
-/

namespace TimedStreams

open Float.Model UnpackedFloat Stamped

namespace Binary64

variable {x : Float}

theorem unpack_of_nan (hx : shape x = .nan) : x.toModel.unpack = .notANumber := by
  rw [shape] at hx
  split at hx
  · next hexponent =>
    split at hx
    · cases hx
    · next hfraction =>
      have hones := (field_eq_iff (-1#_) (toNat_unpackExponent x)).2 hexponent
      have hnonzero := mt (field_eq_iff 0#_ (toNat_unpackMantissa x)).1 hfraction
      rw [Float.Model.unpack, UnpackedFloat.unpack]
      simp only [hones, hnonzero, if_true, if_false]
  · split at hx <;> cases hx

/-- No positive number is below what carries a minus sign. -/
theorem lt_unpack_of_isNegative (hx : isNegative x = true) {m : ℕ} {e : ℤ} (hm : 0 < m) :
    (UnpackedFloat.finite .positive m e hm).lt x.toModel.unpack = false := by
  rw [Float.Model.unpack, UnpackedFloat.unpack]
  simp only [unpackSign_eq, hx, signOf_true]
  split
  · split <;> rfl
  · split
    · split <;> rfl
    · rfl

end Binary64

namespace Instant

variable {x : Float}

theorem lt_of_horizonSeconds_lt (hlate : horizonSeconds < x) :
    (horizonSeconds.toModel.unpack).lt x.toModel.unpack = true :=
  of_decide_eq_true hlate

theorem not_horizonSeconds_lt (hx : Binary64.shape x = .nan ∨ Binary64.isNegative x = true) :
    ¬ horizonSeconds < x := by
  intro hlate
  have hlt := lt_of_horizonSeconds_lt hlate
  rw [unpack_horizonSeconds] at hlt
  rcases hx with hnan | hnegative
  · rw [Binary64.unpack_of_nan hnan] at hlt
    cases hlt
  · rw [Binary64.lt_unpack_of_isNegative hnegative] at hlt
    cases hlt

/-- A number of seconds beyond the horizon is still beyond it in whole nanoseconds. -/
theorem horizon_lt_roundDivEven {m : ℕ} {e : ℤ} (hx : Binary64.shape x = .finite false m e)
    (hlate : horizonSeconds < x) :
    horizon < Binary64.roundDivEven (m * 2 ^ e.toNat * nanosPerSecond) (2 ^ (-e).toNat) := by
  have hlt := lt_of_horizonSeconds_lt hlate
  refine Binary64.le_roundDivEven (Nat.two_pow_pos _) ?_
  have hhorizon : horizon = 31536000 * 10 ^ 9 := rfl
  have hnanos : nanosPerSecond = 10 ^ 9 := rfl
  rw [hhorizon, hnanos]
  rcases Binary64.unpack_of_finite hx with ⟨-, hunpack⟩ | ⟨hm, -, hunpack⟩
  · rw [unpack_horizonSeconds, hunpack] at hlt
    cases hlt
  · obtain ⟨hcanonical, -⟩ := Binary64.toBits_of_shape hx
    rw [unpack_horizonSeconds, hunpack, Binary64.signOf_false] at hlt
    -- The last bit of the horizon weighs 2 ^ -28 seconds. If that of x weighs less then x is smaller,
    -- if it weighs the same x is larger by a multiple of it, and if more then x is 2 ^ 25 seconds at least.
    rcases Int.lt_trichotomy e (-28) with hsmall | rfl | hlarge
    · simp [UnpackedFloat.lt, UnpackedFloat.compare, Int.compare_eq_gt.2 hsmall] at hlt
    · have hmantissa : 31536000 * 2 ^ 28 < m := by
        simpa [UnpackedFloat.lt, UnpackedFloat.compare, Nat.compare_eq_lt] using hlt
      show (31536000 * 10 ^ 9 + 1) * 2 ^ 28 ≤ m * 2 ^ 0 * 10 ^ 9
      omega
    · have hwide := hcanonical.normal (by omega)
      have hpart : 2 ^ (-e).toNat ≤ 2 ^ 27 := Nat.pow_le_pow_right (by decide) (by omega)
      have hwhole : 1 ≤ 2 ^ e.toNat := Nat.one_le_two_pow
      calc (31536000 * 10 ^ 9 + 1) * 2 ^ (-e).toNat ≤ (31536000 * 10 ^ 9 + 1) * 2 ^ 27 :=
            Nat.mul_le_mul_left _ hpart
        _ ≤ 2 ^ 52 * 1 * 10 ^ 9 := by decide
        _ ≤ m * 2 ^ e.toNat * 10 ^ 9 := Nat.mul_le_mul_right _ (Nat.mul_le_mul hwide hwhole)

theorem isSome_ofSeconds?_iff : (ofSeconds? x).isSome = true ↔ ¬ horizonSeconds < x := by
  refine ⟨fun hsome hlate => ?_, isSome_ofSeconds?⟩
  rw [ofSeconds?] at hsome
  split at hsome
  · next hnan => exact not_horizonSeconds_lt (.inl hnan) hlate
  · next hinfinite => exact not_horizonSeconds_lt (.inr (Binary64.isNegative_of_shape (.inl hinfinite))) hlate
  · next hfinite => exact not_horizonSeconds_lt (.inr (Binary64.isNegative_of_shape (.inr ⟨_, _, hfinite⟩))) hlate
  · cases hsome
  · next m e hfinite =>
    have hbeyond := horizon_lt_roundDivEven hfinite hlate
    simp [Binary64.fraction, Nat.not_le.2 hbeyond] at hsome

end Instant

theorem Stamped.climb_of_ascending {floor : Nat} {xs : List Stamped} (hxs : Ascending xs) (hfrom : From floor xs) :
    climb floor xs = xs := by
  induction xs generalizing floor with
  | nil => rfl
  | cons s rest ih =>
    obtain ⟨hfloor, -⟩ := from_cons.1 hfrom
    obtain ⟨hrest, hascending⟩ := ascending_cons.1 hxs
    rw [climb, raise_eq_self hfloor, Nat.max_eq_right hfloor, ih hascending hrest]

namespace Context

variable {context : Context}

/-- A leaf of an accepted context stands for its whole timeline, each event at its deadline. -/
theorem Accepted.untimed_input (haccepted : context.Accepted) (source : Input) :
    context.untimed (.input source) = (context.timeline source).schedule context.speed :=
  climb_of_ascending (haccepted.ascending_schedule source) (from_zero _)

end Context

namespace Timeline

variable {timeline : Timeline} {speed : Float}

theorem check_eq_ok_iff_forall :
    timeline.check speed = .ok () ↔ ∀ e ∈ timeline.events, (deadline? e.time speed).isSome = true := by
  refine ⟨fun hcheck e he => isSome_deadline? hcheck he, fun hdue => ?_⟩
  have hnone : timeline.events.find? (fun e => Instant.horizonSeconds < e.time / speed) = none := by
    refine List.find?_eq_none.2 fun e he => ?_
    simpa using Instant.isSome_ofSeconds?_iff.1 (hdue e he)
  rw [check, hnone]

theorem map_event_schedule (timeline : Timeline) (speed : Float) :
    (timeline.schedule speed).map Stamped.event = timeline.events := by
  rw [schedule, List.map_map]
  exact List.map_id _

/-- An agenda is cut short by the first event without a deadline. -/
theorem map_event_agendaOf (speed : Float) (events : List Event) :
    (agendaOf speed events).map Stamped.event = events.takeWhile fun e => (deadline? e.time speed).isSome := by
  induction events with
  | nil => rfl
  | cons e rest ih =>
    cases hdue : deadline? e.time speed with
    | none => simp [agendaOf, hdue]
    | some due => simp [agendaOf, hdue, ih]

theorem map_event_agenda_eq_iff :
    (timeline.agenda speed).map Stamped.event = timeline.events ↔
      ∀ e ∈ timeline.events, (deadline? e.time speed).isSome = true := by
  rw [agenda, map_event_agendaOf]
  exact List.takeWhile_eq_self_iff

/-- The check before a replay lets a timeline pass exactly if every event of it has a deadline, and exactly
if the replay gets to its end. In an accepted context every pass over an input delivers all its events: at
their deadlines on the exact clock, and in the order of the timeline on a late one. -/
theorem check_eq_ok_iff (timeline : Timeline) (speed : Float) :
    (timeline.check speed = .ok () ↔ ∀ e ∈ timeline.events, (deadline? e.time speed).isSome = true) ∧
    (timeline.check speed = .ok () ↔ (timeline.agenda speed).map Stamped.event = timeline.events) ∧
    ∀ context : Context, context.Accepted → ∀ source : Input,
      Ends Live.ExactStep
          (fun last => last.Finished ∧ last.taken.map Stamped.event = (context.timeline source).events ∧
            ∀ s ∈ last.taken, deadline? s.event.time context.speed = some s.stamp)
          (.start (context.signal (.input source))) ∧
        Ends Live.LateStep
          (fun last => last.Finished ∧ last.taken.map Stamped.event = (context.timeline source).events)
          (.start (context.signal (.input source))) := by
  refine ⟨check_eq_ok_iff_forall, check_eq_ok_iff_forall.trans map_event_agenda_eq_iff.symm, ?_⟩
  intro context haccepted source
  have hevents : context.untimed (.input source) = (context.timeline source).schedule context.speed :=
    haccepted.untimed_input source
  have hmap := map_event_schedule (context.timeline source) context.speed
  have hexact := (context.tracks_signal haccepted (e := .input source) trivial).ends
  have hlate := (context.orders_untimed haccepted (e := .input source) trivial).ends_late
  refine ⟨hexact.mono fun last hlast => ?_, hlate.mono fun last hlast => ?_⟩
  · obtain ⟨hfinished, htaken, -⟩ := hlast
    have htaken : last.taken = (context.timeline source).schedule context.speed := htaken.trans hevents
    refine ⟨hfinished, htaken ▸ hmap, fun s hs => ?_⟩
    rw [htaken, schedule] at hs
    obtain ⟨e, he, rfl⟩ := List.mem_map.1 hs
    obtain ⟨due, hdue⟩ := Option.isSome_iff_exists.1 (isSome_deadline? (haccepted.check source) he)
    rw [hdue, Option.getD_some]
  · obtain ⟨hfinished, htaken⟩ := hlast
    exact ⟨hfinished, by rw [htaken, hevents, hmap]⟩

/-- The second input is checked, and replayed to its end. -/
theorem check_eq_ok_iff_outlasted :
    Context.outlasted.Accepted ∧ (Context.outlasted.timeline .second).check Context.outlasted.speed = .ok () ∧
      Ends Live.LateStep
        (fun last => last.Finished ∧
          last.taken.map Stamped.event = (Context.outlasted.timeline .second).events)
        (.start (Context.outlasted.signal (.input .second))) := by
  obtain ⟨-, hagenda, hreplays⟩ := check_eq_ok_iff (Context.outlasted.timeline .second) Context.outlasted.speed
  refine ⟨Context.accepted_outlasted, hagenda.2 ?_, (hreplays .outlasted Context.accepted_outlasted .second).2⟩
  decide +kernel

end Timeline

end TimedStreams
