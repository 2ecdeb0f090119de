import TimedStreams.Proofs.Quotients
import TimedStreams.Proofs.Sequence

/-!
# Deadlines along a timeline

The events of a timeline are sorted by their recorded times, in the total order of doubles. Each is
due at its time divided by the speed, as a double, and that rounded to whole nanoseconds. Both
roundings keep the order, so in an accepted context the deadlines never decrease along a timeline
(`Context.Accepted.ascending_schedule`).
-/

namespace TimedStreams

namespace Instant

theorem eq_roundDivEven_of_shape {x : Float} {m : ℕ} {e : ℤ} {a : Nat} (hx : Binary64.shape x = .finite false m e)
    (ha : ofSeconds? x = some a) :
    a = Binary64.roundDivEven (m * 2 ^ e.toNat * nanosPerSecond) (2 ^ (-e).toNat) := by
  rw [ofSeconds?, hx] at ha
  simp only [Binary64.fraction, Nat.pow_eq] at ha
  obtain ⟨-, hnanos⟩ := Option.ite_none_right_eq_some.1 ha
  exact (Option.some.inj hnanos).symm

theorem ofSeconds?_mono {x y : Float} {m k : ℕ} {e f : ℤ} {a b : Nat} (hx : Binary64.shape x = .finite false m e)
    (hy : Binary64.shape y = .finite false k f) (hle : (m : ℚ) * 2 ^ e ≤ k * 2 ^ f) (ha : ofSeconds? x = some a)
    (hb : ofSeconds? y = some b) : a ≤ b := by
  have hvalue : ∀ (m : ℕ) (e : ℤ), (m : ℚ) * 2 ^ e = (m * 2 ^ e.toNat : ℕ) / (2 ^ (-e).toNat : ℕ) := by
    intro m e
    have hsplit : e = e.toNat - (-e).toNat := by omega
    nth_rewrite 1 [hsplit]
    rw [zpow_sub₀ two_ne_zero, zpow_natCast, zpow_natCast]
    push_cast
    ring
  rw [eq_roundDivEven_of_shape hx ha, eq_roundDivEven_of_shape hy hb]
  refine Binary64.roundDivEven_mono (by positivity) (by positivity) ?_
  rw [hvalue, hvalue, div_le_div_iff₀ (by positivity) (by positivity)] at hle
  have hcross : m * 2 ^ e.toNat * 2 ^ (-f).toNat ≤ k * 2 ^ f.toNat * 2 ^ (-e).toNat := by exact_mod_cast hle
  calc m * 2 ^ e.toNat * nanosPerSecond * 2 ^ (-f).toNat
      = m * 2 ^ e.toNat * 2 ^ (-f).toNat * nanosPerSecond := Nat.mul_right_comm _ _ _
    _ ≤ k * 2 ^ f.toNat * 2 ^ (-e).toNat * nanosPerSecond := Nat.mul_le_mul_right _ hcross
    _ = k * 2 ^ f.toNat * nanosPerSecond * 2 ^ (-e).toNat := Nat.mul_right_comm _ _ _

theorem ofSeconds?_of_isNegative {x : Float} (hx : Binary64.isNegative x = true) : ofSeconds? x = some 0 := by
  have hshape : Binary64.shape x = .nan ∨ Binary64.shape x = .infinite true ∨ ∃ m e, Binary64.shape x = .finite true m e := by
    rw [Binary64.shape, hx]
    split
    · split
      · exact .inr (.inl rfl)
      · exact .inl rfl
    · split
      · exact .inr (.inr ⟨_, _, rfl⟩)
      · exact .inr (.inr ⟨_, _, rfl⟩)
  rcases hshape with h | h | ⟨m, e, h⟩ <;> rw [ofSeconds?, h]

theorem deadline_mono {x y speed : Float} (hspeed : Factor.speed.check speed = .ok ()) (hx : x.isFinite = true)
    (hy : y.isFinite = true) (hrank : Binary64.rank x ≤ Binary64.rank y) {a b : Nat}
    (ha : Timeline.deadline? x speed = some a) (hb : Timeline.deadline? y speed = some b) : a ≤ b := by
  obtain ⟨m₂, e₂, hm₂, hunpack⟩ := Binary64.unpack_of_factor hspeed
  rw [Timeline.deadline?] at ha hb
  cases hsign : Binary64.isNegative x with
  | true =>
    rw [ofSeconds?_of_isNegative (Binary64.isNegative_div hx hsign hunpack)] at ha
    exact Option.some.inj ha ▸ Nat.zero_le b
  | false =>
    have hsign' : Binary64.isNegative y = false := by
      refine Bool.eq_false_iff.2 fun hnegative => ?_
      have hle : Nat.pow 2 63 ≤ y.toBits.toNat := of_decide_eq_true hnegative
      rw [Binary64.rank, Binary64.rank, hsign, hnegative] at hrank
      simp only [Bool.false_eq_true, if_false, if_true] at hrank
      omega
    obtain ⟨m, e, hshape⟩ := Binary64.exists_shape_of_isFinite hx
    obtain ⟨k, f, hshape'⟩ := Binary64.exists_shape_of_isFinite hy
    rw [hsign] at hshape
    rw [hsign'] at hshape'
    have hle := Binary64.value_le_of_rank_le hshape hshape' hrank
    obtain ⟨n, t, hrounds, ⟨hinfinite, -⟩ | ⟨m', e', hquotient, hvalue⟩⟩ := Binary64.nearest_div hshape hunpack
    · rw [ofSeconds?, hinfinite] at ha
      cases ha
    obtain ⟨n', t', hrounds', ⟨hinfinite, -⟩ | ⟨k', f', hquotient', hvalue'⟩⟩ := Binary64.nearest_div hshape' hunpack
    · rw [ofSeconds?, hinfinite] at hb
      cases hb
    refine ofSeconds?_mono hquotient hquotient' ?_ ha hb
    rw [hvalue, hvalue']
    refine hrounds.mono hrounds' ?_
    gcongr

end Instant

namespace Context

open Stamped

/-- The times of an accepted context are numbers. -/
theorem Accepted.isFinite {context : Context} (haccepted : context.Accepted) (source : Input) {e : Event}
    (he : e ∈ (context.timeline source).events) : e.time.isFinite = true := by
  have hread : ∀ {events : List Event} {timeline : Timeline}, Timeline.ofFiniteEvents events = .ok timeline →
      ∀ e ∈ timeline.events, e.time.isFinite = true := by
    intro events timeline hread e he
    rw [Timeline.ofFiniteEvents] at hread
    split at hread
    · cases hread
    · next hnone =>
      cases hread
      have hmem : e ∈ events := (List.mergeSort_perm events _).mem_iff.1 he
      simpa using List.find?_eq_none.1 hnone e hmem
  obtain ⟨events, hevents, -⟩ := haccepted.timeline source
  exact hread hevents e he

/-- The deadlines of an accepted context never decrease along a timeline. -/
theorem Accepted.ascending_schedule {context : Context} (haccepted : context.Accepted) (source : Input) :
    Ascending ((context.timeline source).schedule context.speed) := by
  rw [Ascending, Timeline.schedule, List.pairwise_map]
  refine (context.timeline source).sorted.imp_of_mem ?_
  intro e f he hf hef
  have hdue := fun g hg => Timeline.isSome_deadline? (haccepted.check source) (e := g) hg
  obtain ⟨a, ha⟩ := Option.isSome_iff_exists.1 (hdue e he)
  obtain ⟨b, hb⟩ := Option.isSome_iff_exists.1 (hdue f hf)
  rw [ha, hb]
  exact Instant.deadline_mono haccepted.speed (haccepted.isFinite source he) (haccepted.isFinite source hf)
    (of_decide_eq_true hef) ha hb

end Context

end TimedStreams
