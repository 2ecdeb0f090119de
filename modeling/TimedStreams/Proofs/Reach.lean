import Mathlib
import TimedStreams.Proofs.Nearest

/-!
# What reads back as a double

Not one number but an interval of them is rounded to a double. `Decimal.Reach` gives its ends as numerators over
one denominator, in quarters of the last bit of the double, so that a decimal of some grid of powers of ten is
compared with them in whole numbers (`Decimal.Reach.has_iff`). If any decimal of a grid lies in the reach, so does
one next to the double, and that is the one that is taken (`Decimal.Reach.of_nearest?`,
`Decimal.Reach.isSome_nearest?`). The reach holds just the numbers that are rounded to the double
(`Decimal.Reach.exists_rounds`, `Decimal.Reach.has_of_rounds`). That of a power of two is half as wide below it as
above, since doubles lie twice as close there.
-/

namespace TimedStreams.Decimal

open Binary64

/-! ### Grids of powers of ten -/

namespace Reach

variable {r : Reach} {tie : Tie} {c : ℕ} {e : ℤ}

/-- A number reads back as the double. -/
def Has (r : Reach) (q : ℚ) : Prop :=
  if r.closed then (r.low : ℚ) ≤ q * r.denominator ∧ q * r.denominator ≤ r.high
  else (r.low : ℚ) < q * r.denominator ∧ q * r.denominator < r.high

/-- A double lies inside what reads back as it. -/
structure Sound (r : Reach) : Prop where
  denominator_pos : 0 < r.denominator
  low_lt : r.low < r.value
  lt_high : r.value < r.high

theorem cast_unit (r : Reach) (e : ℤ) :
    ((r.denominator * 10 ^ e.toNat : ℕ) : ℚ) = 10 ^ e * r.denominator * 10 ^ (-e).toNat := by
  have hten : (10 : ℚ) ^ e * 10 ^ (-e).toNat = 10 ^ e.toNat := by
    rw [← zpow_natCast, ← zpow_natCast, ← zpow_add₀ (by norm_num)]
    congr 1
    omega
  push_cast
  rw [← hten]
  ring

theorem has_iff (c : ℕ) (e : ℤ) :
    r.Has (c * 10 ^ e) ↔
      if r.closed then r.low * 10 ^ (-e).toNat ≤ c * (r.denominator * 10 ^ e.toNat) ∧
        c * (r.denominator * 10 ^ e.toNat) ≤ r.high * 10 ^ (-e).toNat
      else r.low * 10 ^ (-e).toNat < c * (r.denominator * 10 ^ e.toNat) ∧
        c * (r.denominator * 10 ^ e.toNat) < r.high * 10 ^ (-e).toNat := by
  have hpos : (0 : ℚ) < 10 ^ (-e).toNat := by positivity
  have hscale : (c : ℚ) * 10 ^ e * r.denominator * 10 ^ (-e).toNat
      = ((c * (r.denominator * 10 ^ e.toNat) : ℕ) : ℚ) := by
    rw [Nat.cast_mul, cast_unit]
    ring
  have hle : ∀ a b : ℚ, a ≤ b ↔ a * 10 ^ (-e).toNat ≤ b * 10 ^ (-e).toNat := fun a b =>
    (mul_le_mul_iff_left₀ hpos).symm
  have hlt : ∀ a b : ℚ, a < b ↔ a * 10 ^ (-e).toNat < b * 10 ^ (-e).toNat := fun a b =>
    (mul_lt_mul_iff_left₀ hpos).symm
  rw [Has, hle, hle _ (r.high : ℚ), hlt, hlt _ (r.high : ℚ), hscale]
  norm_cast

/-- The decimal of a grid just below the double. -/
def down (r : Reach) (e : ℤ) : ℕ :=
  r.value * 10 ^ (-e).toNat / (r.denominator * 10 ^ e.toNat)

theorem lt_scaled (hr : r.Sound) (e : ℤ) : r.low * 10 ^ (-e).toNat < r.value * 10 ^ (-e).toNat ∧
    r.value * 10 ^ (-e).toNat < r.high * 10 ^ (-e).toNat :=
  ⟨Nat.mul_lt_mul_of_pos_right hr.low_lt (by positivity), Nat.mul_lt_mul_of_pos_right hr.lt_high (by positivity)⟩

theorem down_le (hr : r.Sound) (e : ℤ) :
    r.down e * (r.denominator * 10 ^ e.toNat) ≤ r.value * 10 ^ (-e).toNat ∧
      r.value * 10 ^ (-e).toNat < (r.down e + 1) * (r.denominator * 10 ^ e.toNat) :=
  ⟨Nat.div_mul_le_self _ _,
    (Nat.div_lt_iff_lt_mul (Nat.mul_pos hr.denominator_pos (by positivity))).1 (Nat.lt_succ_self _)⟩

def ReachesDown (r : Reach) (e : ℤ) : Prop :=
  if r.closed then r.low * 10 ^ (-e).toNat ≤ r.down e * (r.denominator * 10 ^ e.toNat)
  else r.low * 10 ^ (-e).toNat < r.down e * (r.denominator * 10 ^ e.toNat)

instance (r : Reach) (e : ℤ) : Decidable (r.ReachesDown e) :=
  inferInstanceAs (Decidable (if r.closed then r.low * 10 ^ (-e).toNat ≤ r.down e * (r.denominator * 10 ^ e.toNat)
    else r.low * 10 ^ (-e).toNat < r.down e * (r.denominator * 10 ^ e.toNat)))

def ReachesUp (r : Reach) (e : ℤ) : Prop :=
  if r.closed then (r.down e + 1) * (r.denominator * 10 ^ e.toNat) ≤ r.high * 10 ^ (-e).toNat
  else (r.down e + 1) * (r.denominator * 10 ^ e.toNat) < r.high * 10 ^ (-e).toNat

instance (r : Reach) (e : ℤ) : Decidable (r.ReachesUp e) :=
  inferInstanceAs (Decidable (if r.closed then (r.down e + 1) * (r.denominator * 10 ^ e.toNat) ≤ r.high * 10 ^ (-e).toNat
    else (r.down e + 1) * (r.denominator * 10 ^ e.toNat) < r.high * 10 ^ (-e).toNat))

theorem has_down (hr : r.Sound) (e : ℤ) : r.Has (r.down e * 10 ^ e) ↔ r.ReachesDown e := by
  have hhigh := (down_le hr e).1.trans_lt (lt_scaled hr e).2
  rw [has_iff, ReachesDown]
  split
  · exact and_iff_left hhigh.le
  · exact and_iff_left hhigh

theorem has_up (hr : r.Sound) (e : ℤ) : r.Has ((r.down e + 1 : ℕ) * 10 ^ e) ↔ r.ReachesUp e := by
  have hlow := (lt_scaled hr e).1.trans (down_le hr e).2
  rw [has_iff, ReachesUp]
  split
  · exact and_iff_right hlow.le
  · exact and_iff_right hlow

/-- Whether the decimal above the double is taken if both next to it read back. -/
def upIsNearer (r : Reach) (tie : Tie) (e : ℤ) : Bool :=
  let unit := r.denominator * 10 ^ e.toNat
  let past := r.value * 10 ^ (-e).toNat % unit
  unit < 2 * past || (unit == 2 * past && (tie == .up || r.down e % 2 == 1))

theorem nearest?_eq (r : Reach) (tie : Tie) (e : ℤ) : r.nearest? tie e =
    if r.ReachesUp e ∧ (r.upIsNearer tie e = true ∨ ¬ r.ReachesDown e) then some (r.down e + 1)
    else if r.ReachesDown e then some (r.down e) else none := by
  have hstep : r.nearest? tie e =
      if (decide (r.ReachesUp e) && (r.upIsNearer tie e || !decide (r.ReachesDown e))) then some (r.down e + 1)
      else if r.ReachesDown e then some (r.down e) else none := rfl
  rw [hstep]
  simp only [Bool.and_eq_true, decide_eq_true_eq, Bool.or_eq_true, Bool.not_eq_true', decide_eq_false_iff_not]

/-- The decimal that is taken is next to the double on its grid, and reads back. -/
theorem of_nearest? (hr : r.Sound) (hc : r.nearest? tie e = some c) :
    r.Has (c * 10 ^ e) ∧ (c = r.down e ∨ c = r.down e + 1) := by
  rw [nearest?_eq] at hc
  split at hc
  · next hup =>
    obtain rfl := Option.some.inj hc
    exact ⟨(has_up hr e).2 hup.1, .inr rfl⟩
  · split at hc
    · next hdown =>
      obtain rfl := Option.some.inj hc
      exact ⟨(has_down hr e).2 hdown, .inl rfl⟩
    · cases hc

theorem isSome_nearest? (hc : r.Has (c * 10 ^ e)) (tie : Tie) : (r.nearest? tie e).isSome := by
  have hnext : r.ReachesDown e ∨ r.ReachesUp e := by
    rw [has_iff] at hc
    rw [ReachesDown, ReachesUp]
    rcases Nat.lt_or_ge (r.down e) c with hlt | hge
    · have hle := Nat.mul_le_mul_right (r.denominator * 10 ^ e.toNat) (Nat.succ_le_of_lt hlt)
      right
      split at hc
      · next hclosed => exact (if_pos hclosed).symm ▸ hle.trans hc.2
      · next hopen => exact (if_neg hopen).symm ▸ hle.trans_lt hc.2
    · have hle := Nat.mul_le_mul_right (r.denominator * 10 ^ e.toNat) hge
      left
      split at hc
      · next hclosed => exact (if_pos hclosed).symm ▸ hc.1.trans hle
      · next hopen => exact (if_neg hopen).symm ▸ hc.1.trans_le hle
  rw [nearest?_eq]
  split
  · rfl
  · next hup =>
    split
    · rfl
    · next hdown => exact absurd ⟨hnext.resolve_left hdown, .inr hdown⟩ hup

/-! ### The reach of a double -/

variable {m : ℕ} {q : ℚ}

/-- The lower end of what reads back as a double, in quarters of its last bit. -/
def lowQuarters (m : ℕ) (e : ℤ) : ℕ :=
  4 * m - if m = 2 ^ 52 ∧ e ≠ -1074 then 1 else 2

theorem fraction_fst (k : ℕ) (e : ℤ) : ((fraction k e).1 : ℚ) = k * 2 ^ e * (fraction 0 e).2 := by
  have htwo : (2 : ℚ) ^ e * 2 ^ (-e).toNat = 2 ^ e.toNat := by
    rw [← zpow_natCast, ← zpow_natCast, ← zpow_add₀ two_ne_zero]
    congr 1
    omega
  rw [fraction, fraction, Nat.pow_eq, Nat.pow_eq]
  push_cast
  rw [mul_assoc, htwo]

theorem denominator_of_pos (m : ℕ) (e : ℤ) : 0 < (Reach.of m e).denominator :=
  Nat.two_pow_pos _

theorem value_of (m : ℕ) (e : ℤ) : ((Reach.of m e).value : ℚ) / (Reach.of m e).denominator = m * 2 ^ e := by
  have hden : ((Reach.of m e).denominator : ℚ) ≠ 0 := by exact_mod_cast (denominator_of_pos m e).ne'
  have hvalue : ((Reach.of m e).value : ℚ) = (4 * m : ℕ) * 2 ^ (e - 2) * (Reach.of m e).denominator := fraction_fst _ _
  rw [hvalue, mul_div_assoc, div_self hden, mul_one, zpow_sub₀ two_ne_zero]
  push_cast
  ring

/-- The reach of a double in quarters of its last bit. -/
theorem has_of : (Reach.of m e).Has q ↔
    if m % 2 = 0 then (lowQuarters m e : ℚ) * 2 ^ (e - 2) ≤ q ∧ q ≤ (4 * m + 2 : ℕ) * 2 ^ (e - 2)
    else (lowQuarters m e : ℚ) * 2 ^ (e - 2) < q ∧ q < (4 * m + 2 : ℕ) * 2 ^ (e - 2) := by
  have hden : (0 : ℚ) < (Reach.of m e).denominator := by exact_mod_cast denominator_of_pos m e
  have hlow : ((Reach.of m e).low : ℚ) = lowQuarters m e * 2 ^ (e - 2) * (Reach.of m e).denominator := fraction_fst _ _
  have hhigh : ((Reach.of m e).high : ℚ) = (4 * m + 2 : ℕ) * 2 ^ (e - 2) * (Reach.of m e).denominator := fraction_fst _ _
  have hclosed : (Reach.of m e).closed = true ↔ m % 2 = 0 := beq_iff_eq
  rw [Has, hlow, hhigh, mul_le_mul_iff_left₀ hden, mul_le_mul_iff_left₀ hden, mul_lt_mul_iff_left₀ hden,
    mul_lt_mul_iff_left₀ hden]
  simp only [hclosed]

theorem sound_of (hm : 0 < m) (e : ℤ) : (Reach.of m e).Sound where
  denominator_pos := denominator_of_pos m e
  low_lt := Nat.mul_lt_mul_of_pos_right (by split <;> omega) (Nat.two_pow_pos _)
  lt_high := Nat.mul_lt_mul_of_pos_right (by omega) (Nat.two_pow_pos _)

end Reach

end TimedStreams.Decimal

namespace TimedStreams.Binary64

/-! ### Multiples that are near -/

variable {m n : ℕ} {e : ℤ} {q : ℚ}

/-- A multiple of a unit is at most half of it away from a number, and an even one if it is as far. -/
structure Near (x unit : ℚ) (n : ℕ) : Prop where
  low : (2 * n - 1) * unit ≤ 2 * x
  high : 2 * x ≤ (2 * n + 1) * unit
  odd : n % 2 = 1 → (2 * n - 1) * unit < 2 * x ∧ 2 * x < (2 * n + 1) * unit

theorem near_iff {num den : ℕ} {unit : ℚ} (hden : 0 < den) (hunit : 0 < unit) : Near (num / den * unit) unit n ↔
    2 * n * den ≤ 2 * num + den ∧ 2 * num ≤ (2 * n + 1) * den ∧
      (n % 2 = 1 → 2 * n * den < 2 * num + den ∧ 2 * num < (2 * n + 1) * den) := by
  have hcast : (0 : ℚ) < den := by exact_mod_cast hden
  have hscale : 2 * ((num : ℚ) / den * unit) * den = 2 * num * unit := by
    field_simp
  have hle : (2 * n - 1) * unit ≤ 2 * (num / den * unit) ↔ 2 * n * den ≤ 2 * num + den := by
    rw [← mul_le_mul_iff_left₀ hcast, hscale, mul_right_comm, mul_le_mul_iff_left₀ hunit, sub_mul, one_mul,
      sub_le_iff_le_add]
    norm_cast
  have hlt : (2 * n - 1) * unit < 2 * (num / den * unit) ↔ 2 * n * den < 2 * num + den := by
    rw [← mul_lt_mul_iff_left₀ hcast, hscale, mul_right_comm, mul_lt_mul_iff_left₀ hunit, sub_mul, one_mul,
      sub_lt_iff_lt_add]
    norm_cast
  have hge : 2 * (num / den * unit) ≤ (2 * n + 1) * unit ↔ 2 * num ≤ (2 * n + 1) * den := by
    rw [← mul_le_mul_iff_left₀ hcast, hscale, mul_right_comm _ unit, mul_le_mul_iff_left₀ hunit]
    norm_cast
  have hgt : 2 * (num / den * unit) < (2 * n + 1) * unit ↔ 2 * num < (2 * n + 1) * den := by
    rw [← mul_lt_mul_iff_left₀ hcast, hscale, mul_right_comm _ unit, mul_lt_mul_iff_left₀ hunit]
    norm_cast
  rw [← hle, ← hlt, ← hge, ← hgt]
  exact ⟨fun h => ⟨h.low, h.high, h.odd⟩, fun ⟨hlow, hhigh, hodd⟩ => ⟨hlow, hhigh, hodd⟩⟩

theorem near_iff_roundDivEven {num den : ℕ} {unit : ℚ} (hden : 0 < den) (hunit : 0 < unit) :
    Near (num / den * unit) unit n ↔ roundDivEven num den = n := by
  have hsplit := Nat.div_add_mod num den
  have hless := Nat.mod_lt num hden
  have hdouble : ∀ k, 2 * k * den = 2 * (den * k) := fun k => by ring
  have hdouble' : ∀ k, (2 * k + 1) * den = 2 * (den * k) + den := fun k => by ring
  rw [near_iff hden hunit, hdouble, hdouble', ← hsplit]
  simp only [roundDivEven, Nat.mul_add_mod, Nat.mod_mod, Nat.mul_add_div hden, Nat.div_eq_of_lt hless, Nat.add_zero,
    Bool.or_eq_true, decide_eq_true_eq, Bool.and_eq_true, beq_iff_eq]
  constructor
  · rintro ⟨hlow, hhigh, hodd⟩
    have hquotient : num / den = n ∨ num / den + 1 = n := by
      have hle : num / den < n + 1 := by
        rw [← Nat.mul_lt_mul_left hden, Nat.mul_add_one]
        omega
      have hge : n < num / den + 2 := by
        rw [← Nat.mul_lt_mul_left hden, Nat.mul_add]
        omega
      omega
    rcases hquotient with rfl | rfl
    · exact if_pos (by omega)
    · rw [Nat.mul_add_one] at hlow hhigh hodd
      exact if_neg (by omega)
  · rintro rfl
    split
    · omega
    · rw [Nat.mul_add_one]
      omega

theorem Rounds.near {x : ℚ} (hx : Rounds x n e) : Near x (2 ^ e) n := by
  obtain ⟨⟨num, den, hden, rfl, hn⟩, -⟩ := hx
  exact (near_iff_roundDivEven hden (by positivity)).2 hn.symm

/-- What a number is rounded to, if it is near. -/
theorem Near.rounds {x : ℚ} (hnear : Near x (2 ^ e) n) (hx : 0 ≤ x) (hsubnormal : -1074 ≤ e) (hlt : x < 2 ^ (e + 53))
    (hnormal : -1074 < e → 2 ^ (e + 52) ≤ x) : Rounds x n e := by
  have hpos : (0 : ℚ) < 2 ^ e := by positivity
  obtain ⟨num, den, hden, rfl⟩ : ∃ num den : ℕ, 0 < den ∧ x = num / den * 2 ^ e := by
    refine ⟨(x / 2 ^ e).num.toNat, (x / 2 ^ e).den, (x / 2 ^ e).den_pos, ?_⟩
    have hnum : ((x / 2 ^ e).num.toNat : ℚ) = (x / 2 ^ e).num := by
      exact_mod_cast Int.toNat_of_nonneg (Rat.num_nonneg.2 (by positivity))
    rw [hnum, Rat.num_div_den, div_mul_cancel₀ _ hpos.ne']
  exact ⟨⟨num, den, hden, rfl, ((near_iff_roundDivEven hden hpos).1 hnear).symm⟩, hsubnormal, hlt, hnormal⟩

end TimedStreams.Binary64

namespace TimedStreams.Decimal

open Binary64

/-! ### Rounding and reading back -/

variable {m : ℕ} {e : ℤ} {q : ℚ}

theorem Reach.Has.bounds (hq : (Reach.of m e).Has q) :
    (lowQuarters m e : ℚ) * 2 ^ (e - 2) ≤ q ∧ q ≤ (4 * m + 2 : ℕ) * 2 ^ (e - 2) := by
  rw [Reach.has_of] at hq
  split at hq
  · exact hq
  · exact ⟨hq.1.le, hq.2.le⟩

theorem Reach.le_lowQuarters (m : ℕ) (e : ℤ) : 4 * m - 2 ≤ lowQuarters m e := by
  rw [lowQuarters]
  split <;> omega

theorem two_zpow_sub_two (e : ℤ) : (2 : ℚ) ^ (e - 2) = 2 ^ e / 4 := by
  rw [zpow_sub₀ two_ne_zero]
  norm_num

theorem two_zpow_sub_one (e : ℤ) : (2 : ℚ) ^ (e - 1) = 2 ^ e / 2 := by
  rw [zpow_sub₀ two_ne_zero, zpow_one]

theorem two_zpow_add (e : ℤ) (k : ℕ) : (2 : ℚ) ^ (e + k) = 2 ^ k * 2 ^ e := by
  rw [zpow_add₀ two_ne_zero, zpow_natCast, mul_comm]

/-- What is near a double reads back as it, unless its last bit weighs less below it. -/
theorem Reach.has_iff_near (hm : 0 < m) (hpower : ¬ (m = 2 ^ 52 ∧ e ≠ -1074)) :
    (Reach.of m e).Has q ↔ Near q (2 ^ e) m := by
  have hlow : ((lowQuarters m e : ℕ) : ℚ) = 4 * m - 2 := by
    rw [lowQuarters, if_neg hpower, Nat.cast_sub (by omega)]
    push_cast
    rfl
  rw [Reach.has_of, hlow, two_zpow_sub_two]
  push_cast
  split
  · next heven =>
    exact ⟨fun ⟨h, h'⟩ => ⟨by linarith, by linarith, fun hodd => by omega⟩,
      fun h => ⟨by linarith [h.low], by linarith [h.high]⟩⟩
  · next hodd =>
    refine ⟨fun ⟨h, h'⟩ => ⟨by linarith, by linarith, fun _ => ⟨by linarith, by linarith⟩⟩, fun h => ?_⟩
    obtain ⟨hlow, hhigh⟩ := h.odd (by omega)
    exact ⟨by linarith, by linarith⟩

/-- Below a power of two the last bit of a double weighs half as much. -/
theorem Reach.has_iff_power (he : e ≠ -1074) : (Reach.of (2 ^ 52) e).Has q ↔
    (2 * 2 ^ 53 - 1) * 2 ^ (e - 1) ≤ 2 * q ∧ 2 * q ≤ (2 * 2 ^ 52 + 1) * 2 ^ e := by
  have hlow : ((lowQuarters (2 ^ 52) e : ℕ) : ℚ) = 2 * 2 ^ 53 - 1 := by
    rw [lowQuarters, if_pos ⟨rfl, he⟩]
    norm_num
  rw [Reach.has_of, hlow, if_pos (by decide), two_zpow_sub_two, two_zpow_sub_one]
  push_cast
  exact and_congr ⟨fun h => by linarith, fun h => by linarith⟩ ⟨fun h => by linarith, fun h => by linarith⟩

theorem Reach.Has.rounds_of_near (hm : 0 < m) (hcanonical : Canonical m e) (hpower : ¬ (m = 2 ^ 52 ∧ e ≠ -1074))
    (hq : (Reach.of m e).Has q) : Rounds q m e := by
  have hnear := (has_iff_near hm hpower).1 hq
  have hunit : (0 : ℚ) < 2 ^ e := by positivity
  have hone : (1 : ℚ) ≤ m := by exact_mod_cast hm
  have hmantissa : (m : ℚ) ≤ 2 ^ 53 - 1 := by
    have hrat : ((m + 1 : ℕ) : ℚ) ≤ (2 ^ 53 : ℕ) := Nat.cast_le.2 hcanonical.lt_two_pow
    push_cast at hrat
    linarith
  refine hnear.rounds ?_ hcanonical.subnormal ?_ fun hnormal => ?_
  · have hpositive : (0 : ℚ) ≤ (2 * m - 1) * 2 ^ e := mul_nonneg (by linarith) hunit.le
    linarith [hnear.low]
  · have hmul : (m : ℚ) * 2 ^ e ≤ (2 ^ 53 - 1) * 2 ^ e := by gcongr
    rw [show e + 53 = e + (53 : ℕ) from rfl, two_zpow_add]
    linarith [hnear.high]
  · have hmore : 2 ^ 52 + 1 ≤ m :=
      Nat.lt_of_le_of_ne (hcanonical.normal hnormal) fun heq => hpower ⟨heq.symm, hnormal.ne'⟩
    have hrat : ((2 ^ 52 + 1 : ℕ) : ℚ) ≤ m := Nat.cast_le.2 hmore
    have hmul : ((2 ^ 52 + 1 : ℕ) : ℚ) * 2 ^ e ≤ m * 2 ^ e := by gcongr
    push_cast at hmul
    rw [show e + 52 = e + (52 : ℕ) from rfl, two_zpow_add]
    linarith [hnear.low]

theorem Reach.Has.rounds_of_power (hnormal : -1074 < e) (hq : (Reach.of (2 ^ 52) e).Has q) :
    Rounds q (2 ^ 52) e ∨ Rounds q (2 ^ 53) (e - 1) := by
  obtain ⟨hlow, hhigh⟩ := (has_iff_power hnormal.ne').1 hq
  have hunit : (0 : ℚ) < 2 ^ e := by positivity
  have hhalf := two_zpow_sub_one e
  rw [hhalf] at hlow
  rcases le_or_gt ((2 : ℚ) ^ 52 * 2 ^ e) q with hle | hlt
  · refine .inl (Near.rounds ⟨?_, ?_, fun h => absurd h (by decide)⟩ (by linarith) hnormal.le ?_ fun _ => ?_)
    · push_cast
      linarith
    · push_cast
      linarith
    · rw [show e + 53 = e + (53 : ℕ) from rfl, two_zpow_add]
      linarith
    · rwa [show e + 52 = e + (52 : ℕ) from rfl, two_zpow_add]
  · refine .inr (Near.rounds ⟨?_, ?_, fun h => absurd h (by decide)⟩ (by linarith) (by omega) ?_ fun _ => ?_)
    · rw [hhalf]
      push_cast
      linarith
    · rw [hhalf]
      push_cast
      linarith
    · rwa [show e - 1 + 53 = e + (52 : ℕ) by omega, two_zpow_add]
    · rw [show e - 1 + 52 = e + (51 : ℕ) by omega, two_zpow_add]
      linarith

/-- What reads back as a double is rounded to it. -/
theorem Reach.exists_rounds (hm : 0 < m) (hcanonical : Canonical m e) (hq : (Reach.of m e).Has q) :
    ∃ n t, Rounds q n t ∧ (n : ℚ) * 2 ^ t = m * 2 ^ e := by
  by_cases hpower : m = 2 ^ 52 ∧ e ≠ -1074
  · obtain ⟨rfl, he⟩ := hpower
    rcases hq.rounds_of_power (lt_of_le_of_ne hcanonical.subnormal he.symm) with hrounds | hrounds
    · exact ⟨_, _, hrounds, rfl⟩
    · refine ⟨_, _, hrounds, ?_⟩
      rw [two_zpow_sub_one]
      push_cast
      ring
  · exact ⟨m, e, hq.rounds_of_near hm hcanonical hpower, rfl⟩

theorem Reach.has_of_rounds {n : ℕ} {t : ℤ} (hm : 0 < m) (hcanonical : Canonical m e) (hrounds : Rounds q n t)
    (hvalue : (n : ℚ) * 2 ^ t = m * 2 ^ e) : (Reach.of m e).Has q := by
  have hnear := hrounds.near
  rcases lt_or_eq_of_le hrounds.le_two_pow with hlt | hcarry
  · obtain ⟨rfl, rfl⟩ := Canonical.eq ⟨hlt, hrounds.subnormal, hrounds.two_pow_le_of_normal⟩ hcanonical hvalue
    by_cases hpower : n = 2 ^ 52 ∧ t ≠ -1074
    · obtain ⟨rfl, he⟩ := hpower
      have hlow := hrounds.two_pow_le (lt_of_le_of_ne hrounds.subnormal he.symm)
      have hhigh := hnear.high
      have hunit : (0 : ℚ) < 2 ^ t := by positivity
      rw [show t + 52 = t + (52 : ℕ) from rfl, two_zpow_add] at hlow
      push_cast at hhigh
      rw [has_iff_power he, two_zpow_sub_one]
      exact ⟨by linarith, hhigh⟩
    · exact (has_iff_near hm hpower).2 hnear
  · -- The next power of two has been reached.
    have hcarried : ((2 ^ 52 : ℕ) : ℚ) * 2 ^ (t + 1) = m * 2 ^ e := by
      rw [← hvalue, hcarry, zpow_add_one₀ two_ne_zero]
      push_cast
      ring
    have hsubnormal := hrounds.subnormal
    obtain ⟨rfl, rfl⟩ := Canonical.eq ⟨by decide, by omega, fun _ => le_rfl⟩ hcanonical hcarried
    have hlow := hnear.low
    have hhigh := hrounds.lt_two_pow
    have hunit : (0 : ℚ) < 2 ^ (t + 1) := by positivity
    rw [hcarry] at hlow
    push_cast at hlow
    rw [show t + 53 = t + 1 + (52 : ℕ) by omega, two_zpow_add] at hhigh
    rw [has_iff_power (by omega), add_sub_cancel_right]
    exact ⟨hlow, by linarith⟩

theorem Reach.has_convex {r : Reach} {x y : ℚ} (hx : r.Has x) (hy : r.Has y) (hxq : x ≤ q) (hqy : q ≤ y) : r.Has q := by
  have hden : (0 : ℚ) ≤ r.denominator := Nat.cast_nonneg _
  have hlow := mul_le_mul_of_nonneg_right hxq hden
  have hhigh := mul_le_mul_of_nonneg_right hqy hden
  rw [Has] at *
  split at hx
  · next hclosed =>
    rw [if_pos hclosed] at hy ⊢
    exact ⟨hx.1.trans hlow, hhigh.trans hy.2⟩
  · next hopen =>
    rw [if_neg hopen] at hy ⊢
    exact ⟨hx.1.trans_le hlow, hhigh.trans_lt hy.2⟩

theorem Reach.has_self (hm : 0 < m) (e : ℤ) : (Reach.of m e).Has (m * 2 ^ e) := by
  have hden : ((Reach.of m e).denominator : ℚ) ≠ 0 := by exact_mod_cast (Reach.denominator_of_pos m e).ne'
  have hsound := Reach.sound_of hm e
  have hlow : ((Reach.of m e).low : ℚ) < (Reach.of m e).value := by exact_mod_cast hsound.low_lt
  have hhigh : ((Reach.of m e).value : ℚ) < (Reach.of m e).high := by exact_mod_cast hsound.lt_high
  rw [Has, ← Reach.value_of, div_mul_cancel₀ _ hden]
  split
  · exact ⟨hlow.le, hhigh.le⟩
  · exact ⟨hlow, hhigh⟩

theorem Reach.Has.close {x y : ℚ} (hm : 2 ^ 52 ≤ m) (hx : (Reach.of m e).Has x) (hy : (Reach.of m e).Has y) :
    10 ^ 15 * y < (10 ^ 15 + 1) * x := by
  have hlow := hx.bounds.1
  have hhigh := hy.bounds.2
  have hpos : (0 : ℚ) < 2 ^ (e - 2) := by positivity
  have hlt : 10 ^ 15 * (4 * m + 2) < (10 ^ 15 + 1) * lowQuarters m e := by
    have := Reach.le_lowQuarters m e
    omega
  have hrat : (10 ^ 15 * (4 * m + 2 : ℕ) : ℚ) < (10 ^ 15 + 1) * lowQuarters m e := by exact_mod_cast hlt
  calc (10 : ℚ) ^ 15 * y ≤ 10 ^ 15 * ((4 * m + 2 : ℕ) * 2 ^ (e - 2)) := by gcongr
    _ = 10 ^ 15 * ((4 * m + 2 : ℕ) : ℚ) * 2 ^ (e - 2) := by ring
    _ < (10 ^ 15 + 1) * (lowQuarters m e : ℚ) * 2 ^ (e - 2) := by gcongr
    _ = (10 ^ 15 + 1) * (lowQuarters m e * 2 ^ (e - 2)) := by ring
    _ ≤ (10 ^ 15 + 1) * x := by gcongr

end TimedStreams.Decimal
