import Mathlib
import TimedStreams.Engine.Context

/-!
# Accepted inputs can be replayed to their end

A context is refused if it holds an event due beyond the horizon, where time and horizon are
compared as doubles. An event is scheduled by turning its time into whole nanoseconds, which gives
no instant beyond the horizon. The two checks are of different kinds, and here they are shown to
agree: a double that does not exceed the horizon stands for a number of seconds that does not, and
rounding to nanoseconds does not lead past it. So in an accepted context every event has a deadline
(`Context.isSome_deadline?`), and none is dropped from the agenda.
-/

namespace TimedStreams

open Float.Model UnpackedFloat

namespace Binary64

theorem roundDivEven_le {num den bound : Nat} (hden : 0 < den) (hle : num ≤ bound * den) :
    roundDivEven num den ≤ bound := by
  have hquotient : num / den ≤ bound := Nat.div_le_of_le_mul (by rw [Nat.mul_comm]; exact hle)
  simp only [roundDivEven]
  split
  · exact hquotient
  · next hround =>
    rcases Nat.lt_or_eq_of_le hquotient with hlt | heq
    · exact hlt
    · -- The quotient is the bound itself, so nothing remains that could be rounded up.
      have hsplit := Nat.div_add_mod num den
      rw [heq, Nat.mul_comm den bound] at hsplit
      have hmod : num % den = 0 := by omega
      exact absurd (by simp [hmod, hden]) hround

/-! ### The fields of a double -/

theorem toNat_unpackExponent (x : Float) :
    (@unpackExponent .binary64 x.toModel.toBits.toBitVec).toNat = exponentField x := by
  rw [unpackExponent, BitVec.toNat_cast, BitVec.extractLsb_toNat, Nat.shiftRight_eq_div_pow]
  rfl

theorem toNat_unpackMantissa (x : Float) :
    (@unpackMantissa .binary64 x.toModel.toBits.toBitVec).toNat = fractionField x := by
  rw [unpackMantissa, BitVec.toNat_cast, BitVec.extractLsb_toNat, Nat.shiftRight_zero]
  rfl

def signOf (negative : Bool) : Sign :=
  if negative then .negative else .positive

@[simp] theorem signOf_true : signOf true = .negative := rfl

@[simp] theorem signOf_false : signOf false = .positive := rfl

theorem unpackSign_eq (x : Float) :
    Sign.ofBitVec (@unpackSign .binary64 x.toModel.toBits.toBitVec) = signOf (isNegative x) := by
  have hlt : x.toModel.toBits.toBitVec.toNat < 2 ^ 64 := x.toModel.toBits.toBitVec.isLt
  have hbit : (@unpackSign .binary64 x.toModel.toBits.toBitVec).toNat = x.toModel.toBits.toBitVec.toNat / 2 ^ 63 := by
    rw [unpackSign, BitVec.toNat_cast, BitVec.extractLsb_toNat, Nat.shiftRight_eq_div_pow]
    have hless : x.toModel.toBits.toBitVec.toNat / 2 ^ 63 < 2 := by omega
    exact Nat.mod_eq_of_lt hless
  cases hx : isNegative x with
  | true =>
    have hle : 2 ^ 63 ≤ x.toModel.toBits.toBitVec.toNat := of_decide_eq_true hx
    have hone : @unpackSign .binary64 x.toModel.toBits.toBitVec = 1#1 := by
      refine BitVec.eq_of_toNat_eq (hbit.trans ?_)
      rw [show (1#1).toNat = 1 from rfl]
      omega
    rw [hone]
    rfl
  | false =>
    have hless : x.toModel.toBits.toBitVec.toNat < 2 ^ 63 := Nat.lt_of_not_le (of_decide_eq_false hx)
    have hzero : @unpackSign .binary64 x.toModel.toBits.toBitVec = 0#1 :=
      BitVec.eq_of_toNat_eq (hbit.trans (Nat.div_eq_of_lt hless))
    rw [hzero]
    rfl

theorem fractionField_lt (x : Float) : fractionField x < 2 ^ 52 :=
  Nat.mod_lt _ (by decide)

theorem field_eq_iff {width : Nat} {field : BitVec width} (value : BitVec width) {n : Nat}
    (hfield : field.toNat = n) :
    field = value ↔ n = value.toNat := by
  rw [← hfield, BitVec.toNat_inj]

theorem toNat_append_unpackMantissa (x : Float) :
    (1#1 ++ @unpackMantissa .binary64 x.toModel.toBits.toBitVec).toNat = 2 ^ 52 + fractionField x := by
  rw [BitVec.toNat_append, toNat_unpackMantissa, ← Nat.shiftLeft_add_eq_or_of_lt (fractionField_lt x)]
  rfl

theorem unpack_of_infinite {x : Float} {negative : Bool} (hx : shape x = .infinite negative) :
    x.toModel.unpack = .infinity (signOf negative) := by
  unfold shape at hx
  split at hx
  · next hexponent =>
    split at hx
    · next hfraction =>
      have hones := (field_eq_iff (-1#_) (toNat_unpackExponent x)).2 hexponent
      have hzeros := (field_eq_iff 0#_ (toNat_unpackMantissa x)).2 hfraction
      rw [Float.Model.unpack, UnpackedFloat.unpack]
      simp only [hones, hzeros, if_true, unpackSign_eq, Shape.infinite.inj hx]
    · cases hx
  · split at hx <;> cases hx

theorem unpack_of_finite {x : Float} {negative : Bool} {mantissa : Nat} {exponent : Int}
    (hx : shape x = .finite negative mantissa exponent) :
    mantissa = 0 ∧ x.toModel.unpack = .zero (signOf negative) ∨
      ∃ hpos, mantissa < 2 ^ 53 ∧ x.toModel.unpack = .finite (signOf negative) mantissa exponent hpos := by
  have hsmall := fractionField_lt x
  rw [shape, Nat.pow_eq, Nat.pow_eq] at hx
  split at hx
  · split at hx <;> cases hx
  · next hexponent =>
    have hones := mt (field_eq_iff (-1#_) (toNat_unpackExponent x)).1 hexponent
    split at hx
    · next hsubnormal =>
      obtain ⟨rfl, rfl, rfl⟩ := Shape.finite.inj hx
      have hzeros := (field_eq_iff 0#_ (toNat_unpackExponent x)).2 hsubnormal
      have hones' : ¬ (0#11 = -1#11) := by decide
      by_cases hfraction : fractionField x = 0
      · refine .inl ⟨hfraction, ?_⟩
        have hmantissa := (field_eq_iff 0#_ (toNat_unpackMantissa x)).2 hfraction
        rw [Float.Model.unpack, UnpackedFloat.unpack]
        simp only [hzeros, hones', hmantissa, unpackSign_eq, if_false, if_true, dite_true]
      · refine .inr ⟨Nat.pos_of_ne_zero hfraction, by omega, ?_⟩
        have hmantissa := mt (field_eq_iff 0#_ (toNat_unpackMantissa x)).1 hfraction
        rw [Float.Model.unpack, UnpackedFloat.unpack]
        simp only [hzeros, hones', hmantissa, unpackSign_eq, if_false, if_true, dite_false, toNat_unpackMantissa]
        rfl
    · next hnormal =>
      obtain ⟨rfl, rfl, rfl⟩ := Shape.finite.inj hx
      have hzeros := mt (field_eq_iff 0#_ (toNat_unpackExponent x)).1 hnormal
      refine .inr ⟨by omega, by omega, ?_⟩
      rw [Float.Model.unpack, UnpackedFloat.unpack]
      have hvalue := toNat_append_unpackMantissa x
      simp only [hones, hzeros, unpackSign_eq, if_false, hvalue, toNat_unpackExponent]
      rfl

end Binary64

namespace Instant

theorem unpack_horizonSeconds :
    horizonSeconds.toModel.unpack = .finite .positive (31536000 * 2 ^ 28) (-28) (by decide) := rfl

theorem isSome_ofSeconds? {x : Float} (hx : ¬ horizonSeconds < x) : (ofSeconds? x).isSome = true := by
  have hcompare : (horizonSeconds.toModel.unpack).compare x.toModel.unpack ≠ some .lt := by
    intro heq
    apply hx
    have hlt : (horizonSeconds.toModel.unpack).lt x.toModel.unpack = true := by
      rw [UnpackedFloat.lt, heq]
      rfl
    exact decide_eq_true hlt
  rw [ofSeconds?]
  split
  · rfl
  · rfl
  · rfl
  · next hshape =>
    rw [unpack_horizonSeconds, Binary64.unpack_of_infinite hshape] at hcompare
    exact absurd rfl hcompare
  · next mantissa exponent hshape =>
    have hbound : mantissa * 2 ^ exponent.toNat ≤ 31536000 * 2 ^ (-exponent).toNat := by
      rcases Binary64.unpack_of_finite hshape with ⟨rfl, -⟩ | ⟨hpos, hsmall, hunpack⟩
      · simp
      · rw [unpack_horizonSeconds, hunpack, Binary64.signOf_false] at hcompare
        rcases Int.lt_trichotomy exponent (-28) with hlt | rfl | hgt
        · -- Fifty-three bits at most, the last of them far enough behind the point.
          have hexponent : exponent.toNat = 0 := by omega
          have hpow : 2 ^ 29 ≤ 2 ^ (-exponent).toNat := Nat.pow_le_pow_right (by decide) (by omega)
          rw [hexponent]
          omega
        · have hmantissa : mantissa ≤ 31536000 * 2 ^ 28 := by
            refine Nat.le_of_not_lt fun hlt => hcompare ?_
            simp only [UnpackedFloat.compare]
            rw [Nat.compare_eq_lt.2 hlt]
            rfl
          simpa using hmantissa
        · refine absurd ?_ hcompare
          simp only [UnpackedFloat.compare]
          rw [Int.compare_eq_lt.2 hgt]
          rfl
    have hnanos : Binary64.roundDivEven (mantissa * 2 ^ exponent.toNat * nanosPerSecond)
      (2 ^ (-exponent).toNat) ≤ horizon := by
      refine Binary64.roundDivEven_le (Nat.two_pow_pos _) ?_
      have hscaled := Nat.mul_le_mul_right nanosPerSecond hbound
      rwa [Nat.mul_right_comm 31536000] at hscaled
    exact (congrArg Option.isSome (if_pos hnanos)).trans rfl

end Instant

namespace Timeline

/-- The events with their deadlines, none left out. -/
def schedule (timeline : Timeline) (speed : Float) : List Stamped :=
  timeline.events.map fun e => ⟨e, (deadline? e.time speed).getD 0⟩

theorem agendaOf_eq {speed : Float} {events : List Event}
    (hdue : ∀ e ∈ events, (deadline? e.time speed).isSome = true) :
    agendaOf speed events = events.map fun e => ⟨e, (deadline? e.time speed).getD 0⟩ := by
  induction events with
  | nil => rfl
  | cons e rest ih =>
    obtain ⟨due, hsome⟩ := Option.isSome_iff_exists.1 (hdue e List.mem_cons_self)
    rw [agendaOf, hsome, ih fun f hf => hdue f (List.mem_cons_of_mem _ hf), List.map_cons, hsome,
      Option.getD_some]

theorem isSome_deadline? {timeline : Timeline} {speed : Float} (hcheck : timeline.check speed = .ok ())
    {e : Event}
    (he : e ∈ timeline.events) : (deadline? e.time speed).isSome = true := by
  unfold check at hcheck
  split at hcheck
  · cases hcheck
  · next hnone =>
    refine Instant.isSome_ofSeconds? fun hlate => ?_
    exact absurd (decide_eq_true hlate) (List.find?_eq_none.1 hnone e he)

end Timeline

theorem Fault.of_bind_eq_ok {α β : Type} {x : Except Fault α} {f : α → Except Fault β} {b : β}
    (hbind : x.bind f = .ok b) :
    ∃ a, x = .ok a ∧ f a = .ok b := by
  cases x with
  | error fault => cases hbind
  | ok a => exact ⟨a, rfl, hbind⟩

namespace Context

/-- A context that was made of two inputs without fault. -/
def Accepted (context : Context) : Prop :=
  ∃ first second speed, Context.make first second speed = .ok context

theorem make_eq_ok_iff {first second : List Event} {speed : Float} {context : Context} :
    make first second speed = .ok context ↔
      context.speed = speed ∧ Factor.speed.check speed = .ok () ∧
        (Timeline.ofFiniteEvents first = .ok context.first ∧ Timeline.ofFiniteEvents second = .ok context.second) ∧
        context.first.check speed = .ok () ∧ context.second.check speed = .ok () := by
  constructor
  · intro hmake
    obtain ⟨_, hspeed, hmake⟩ := Fault.of_bind_eq_ok hmake
    obtain ⟨left, hfirst, hmake⟩ := Fault.of_bind_eq_ok hmake
    obtain ⟨right, hsecond, hmake⟩ := Fault.of_bind_eq_ok hmake
    obtain ⟨_, hleft, hmake⟩ := Fault.of_bind_eq_ok hmake
    obtain ⟨_, hright, hmake⟩ := Fault.of_bind_eq_ok hmake
    cases hmake
    exact ⟨rfl, hspeed, ⟨hfirst, hsecond⟩, hleft, hright⟩
  · rintro ⟨rfl, hspeed, ⟨hfirst, hsecond⟩, hleft, hright⟩
    rw [make, hspeed, hfirst, hsecond]
    simp only [bind, Except.bind]
    rw [hleft, hright]
    rfl

theorem Accepted.timeline {context : Context} (haccepted : context.Accepted) (source : Input) :
    ∃ events, Timeline.ofFiniteEvents events = .ok (context.timeline source) ∧
      (context.timeline source).check context.speed = .ok () := by
  obtain ⟨first, second, speed, hmake⟩ := haccepted
  obtain ⟨rfl, -, ⟨hfirst, hsecond⟩, hleft, hright⟩ := make_eq_ok_iff.1 hmake
  cases source with
  | first => exact ⟨first, hfirst, hleft⟩
  | second => exact ⟨second, hsecond, hright⟩

theorem Accepted.check {context : Context} (haccepted : context.Accepted) (source : Input) :
    (context.timeline source).check context.speed = .ok () := by
  obtain ⟨-, -, hcheck⟩ := haccepted.timeline source
  exact hcheck

theorem Accepted.speed {context : Context} (haccepted : context.Accepted) :
    Factor.speed.check context.speed = .ok () := by
  obtain ⟨first, second, speed, hmake⟩ := haccepted
  obtain ⟨rfl, hspeed, -⟩ := make_eq_ok_iff.1 hmake
  exact hspeed

/-- In an accepted context no event is dropped from an agenda. -/
theorem Accepted.agenda_eq {context : Context} (haccepted : context.Accepted) (source : Input) :
    (context.timeline source).agenda context.speed = (context.timeline source).schedule context.speed :=
  Timeline.agendaOf_eq fun _ he => Timeline.isSome_deadline? (haccepted.check source) he

theorem accepted_of {context : Context} (hspeed : Factor.speed.check context.speed = .ok ())
    (hfinite : ∀ source, ∀ e ∈ (context.timeline source).events, e.time.isFinite = true)
    (hdue : ∀ source, ∀ e ∈ (context.timeline source).events, ¬ Instant.horizonSeconds < e.time / context.speed) :
    context.Accepted := by
  have hread : ∀ source, Timeline.ofFiniteEvents (context.timeline source).events = .ok (context.timeline source) := by
    intro source
    have hnone : (context.timeline source).events.find? (fun e => !e.time.isFinite) = none := by
      refine List.find?_eq_none.2 fun e he => ?_
      simp [hfinite source e he]
    have hsorted : Timeline.ofEvents (context.timeline source).events = context.timeline source := by
      rw [Timeline.ofEvents]
      congr 1
      exact List.mergeSort_of_pairwise (context.timeline source).sorted
    rw [Timeline.ofFiniteEvents, hnone, hsorted]
  have hcheck : ∀ source, (context.timeline source).check context.speed = .ok () := by
    intro source
    have hnone : (context.timeline source).events.find?
      (fun e => Instant.horizonSeconds < e.time / context.speed) = none := by
      refine List.find?_eq_none.2 fun e he => ?_
      simpa using hdue source e he
    rw [Timeline.check, hnone]
  exact ⟨context.first.events, context.second.events, context.speed,
    make_eq_ok_iff.2 ⟨rfl, hspeed, ⟨hread .first, hread .second⟩, hcheck .first, hcheck .second⟩⟩

end Context

end TimedStreams
