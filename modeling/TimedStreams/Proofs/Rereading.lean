import TimedStreams.Proofs.Numerals
import TimedStreams.Proofs.Scaling

/-!
# Doubles that are read back

A finite double is written as a decimal that is rounded to it, and the digits of the decimal are read as
one integer, which is scaled by a power of ten (`Json.toFloat?_magnitude`). This gives a number in any case,
as the decimal is not above the greatest double. It rounds up to three times in each step, so the double that
is read may be another one, but not one far away (`Json.exists_scale?_reading`). If integer and power of ten
are doubles themselves then only the last step rounds. This is so for decimals of at most fifteen digits with
at most twenty-two places behind the point, or as many zeros in front of it; they are read as they were
(`Json.IsDecimal.toFloat?_float`).
-/

namespace TimedStreams.Json

open Binary64 Decimal

variable {x y : Float} {negative : Bool} {m : ℕ} {e : ℤ}

/-! ### The numeral of a double -/

theorem isFinite_of_shape (hx : shape x = .finite negative m e) : x.isFinite = true := by
  have hfinite : x.isFinite = x.toModel.unpack.isFinite := rfl
  rcases unpack_of_finite hx with ⟨-, hunpack⟩ | ⟨_, -, hunpack⟩
  · rw [hfinite, hunpack]
    rfl
  · rw [hfinite, hunpack]
    rfl

theorem float_of_shape (hx : shape x = .finite negative m e) :
    float x = number (withSign negative (floatLayout.magnitude m e)) := by
  rw [float, if_pos (isFinite_of_shape hx), Layout.write, hx]

/-- The decimal that is laid out for a double that is not negative. -/
def decimal (m : ℕ) (e : ℤ) : Scientific :=
  if m = 0 then ⟨0, 0⟩ else shortest .even m e

def isPositional (s : Scientific) : Bool :=
  floatLayout.isPositional (s.exponent + (digits s.coefficient).length - 1)

theorem isPositional_iff (s : Scientific) : isPositional s = true ↔
    -5 ≤ s.exponent + (digits s.coefficient).length - 1 ∧ s.exponent + (digits s.coefficient).length - 1 ≤ 15 := by
  rw [isPositional, Layout.isPositional, Bool.and_eq_true]
  exact and_congr decide_eq_true_iff decide_eq_true_iff

theorem magnitude_eq (m : ℕ) (e : ℤ) : floatLayout.magnitude m e =
    if isPositional (decimal m e) then floatLayout.positional (decimal m e)
    else floatLayout.exponential (decimal m e) := by
  rw [Layout.magnitude, decimal]
  split
  · rfl
  · rfl

/-- The digits of a double as one integer, and the power of ten by which they stand apart from it. -/
def reading (s : Scientific) : ℕ × ℤ :=
  if isPositional s then positionalReading s else (s.coefficient, s.exponent)

section Numeral

variable (hcanonical : Canonical m e) (he : e ≤ 971)

theorem decimal_zero (e : ℤ) : decimal 0 e = ⟨0, 0⟩ := rfl

theorem decimal_of_pos (hm : 0 < m) (e : ℤ) : decimal m e = shortest .even m e :=
  if_neg hm.ne'

include hcanonical in
theorem decimal_spec (hm : 0 < m) : 0 < (decimal m e).coefficient ∧ (decimal m e).coefficient ≤ 10 ^ 17 ∧
    (Reach.of m e).Has (decimal m e).value := by
  rw [decimal_of_pos hm]
  exact shortest_spec hm hcanonical.lt_two_pow .even e

include hcanonical in
theorem coefficient_le : (decimal m e).coefficient ≤ 10 ^ 17 := by
  rcases Nat.eq_zero_or_pos m with rfl | hm
  · exact Nat.zero_le _
  · exact (decimal_spec hcanonical hm).2.1

include hcanonical in
theorem coefficient_ne_zero : (decimal m e).coefficient ≠ 0 ∨ (decimal m e).exponent = 0 := by
  rcases Nat.eq_zero_or_pos m with rfl | hm
  · exact .inr rfl
  · exact .inl (decimal_spec hcanonical hm).1.ne'

include hcanonical in
theorem value_decimal_le (he : e ≤ 971) : (decimal m e).value ≤ greatest := by
  rcases Nat.eq_zero_or_pos m with rfl | hm
  · rw [decimal_zero, Scientific.value, Nat.cast_zero, zero_mul]
    exact Nat.cast_nonneg _
  · rw [decimal_of_pos hm]
    exact value_shortest_le hm hcanonical.lt_two_pow he

theorem two_pow_le_ten_pow : 2 ^ 1075 ≤ 10 ^ 324 := by
  decide +kernel

include hcanonical in
theorem le_exponent_decimal : -341 ≤ (decimal m e).exponent := by
  rcases Nat.eq_zero_or_pos m with rfl | hm
  · exact (by decide : (-341 : ℤ) ≤ 0)
  · obtain ⟨-, hle, hhas⟩ := decimal_spec hcanonical hm
    have hlength : ((decimal m e).coefficient : ℚ) ≤ 10 ^ 17 := by exact_mod_cast hle
    have hquarters : 2 ≤ Reach.lowQuarters m e := by
      have hmantissa := Reach.le_lowQuarters m e
      omega
    have hlow : (2 : ℚ) * 2 ^ (e - 2) ≤ Reach.lowQuarters m e * 2 ^ (e - 2) := by
      gcongr
      exact_mod_cast hquarters
    -- The reach of a double begins at half of the least double or above.
    have hlowest : (10 : ℚ) ^ (-(324 : ℕ) : ℤ) ≤ 2 ^ (-(1075 : ℕ) : ℤ) := by
      rw [zpow_neg, zpow_neg, zpow_natCast, zpow_natCast]
      exact inv_anti₀ (by positivity) (by exact_mod_cast two_pow_le_ten_pow)
    have hpower : (10 : ℚ) ^ (-(324 : ℕ) : ℤ) ≤ 10 ^ (17 + (decimal m e).exponent) := by
      calc (10 : ℚ) ^ (-(324 : ℕ) : ℤ) ≤ 2 ^ (-(1075 : ℕ) : ℤ) := hlowest
        _ ≤ 2 ^ (1 + (e - 2)) := zpow_le_zpow_right₀ one_le_two (by have := hcanonical.subnormal; omega)
        _ = 2 * 2 ^ (e - 2) := by rw [zpow_add₀ two_ne_zero, zpow_one]
        _ ≤ (decimal m e).value := hlow.trans hhas.bounds.1
        _ ≤ 10 ^ (17 : ℕ) * 10 ^ (decimal m e).exponent := by
          rw [Scientific.value]
          gcongr
        _ = 10 ^ (17 + (decimal m e).exponent) := by rw [zpow_add₀ (by norm_num)]; rfl
    have hle := (zpow_le_zpow_iff_right₀ (by norm_num : (1 : ℚ) < 10)).1 hpower
    omega

include hcanonical he in
theorem exponent_decimal_le : (decimal m e).exponent ≤ 308 := by
  rcases Nat.eq_zero_or_pos m with rfl | hm
  · exact (by decide : (0 : ℤ) ≤ 308)
  · have hone : (1 : ℚ) ≤ (decimal m e).coefficient := by exact_mod_cast (decimal_spec hcanonical hm).1
    have hpower : (10 : ℚ) ^ (decimal m e).exponent < 10 ^ (309 : ℤ) := by
      calc (10 : ℚ) ^ (decimal m e).exponent ≤ (decimal m e).value := by
            rw [Scientific.value]
            exact le_mul_of_one_le_left (by positivity) hone
        _ ≤ greatest := value_decimal_le hcanonical he
        _ < (10 ^ 309 : ℕ) := Nat.cast_lt.2 greatest_lt
        _ = 10 ^ (309 : ℤ) := by rw [Nat.cast_pow]; rfl
    have hlt := (zpow_lt_zpow_iff_right₀ (by norm_num : (1 : ℚ) < 10)).1 hpower
    omega

include hcanonical in
theorem reading_le : (reading (decimal m e)).1 ≤ 10 ^ 17 := by
  have hle := coefficient_le hcanonical
  rw [reading]
  split
  · next hpositional =>
    rw [positionalReading]
    split
    · next hexponent =>
      have hfew := ((isPositional_iff _).1 hpositional).2
      calc (decimal m e).coefficient * 10 ^ ((decimal m e).exponent.toNat + 1)
          ≤ 10 ^ (digits (decimal m e).coefficient).length * 10 ^ ((decimal m e).exponent.toNat + 1) :=
            Nat.mul_le_mul_right _ (lt_ten_pow_length _).le
        _ = 10 ^ ((digits (decimal m e).coefficient).length + ((decimal m e).exponent.toNat + 1)) :=
          (Nat.pow_add _ _ _).symm
        _ ≤ 10 ^ 17 := Nat.pow_le_pow_right (by decide) (by omega)
    · exact hle
  · exact hle

include hcanonical he in
/-- A finite double is read as its digits, scaled by a power of ten. -/
theorem toFloat?_magnitude (negative : Bool) :
    (number (withSign negative (floatLayout.magnitude m e))).toFloat?
      = (scale? (Float.ofNat (reading (decimal m e)).1) (reading (decimal m e)).2).map fun y =>
        if negative then -y else y := by
  have hfits : (reading (decimal m e)).1 < 2 ^ 64 := (reading_le hcanonical).trans_lt (by decide)
  rw [magnitude_eq]
  split
  · next hpositional =>
    rw [reading, if_pos hpositional] at hfits ⊢
    exact toFloat?_positional negative (coefficient_ne_zero hcanonical) hfits
  · next hexponential =>
    have hlength : (digits (decimal m e).coefficient).length ≤ 18 :=
      (length_digits_le_iff (by decide)).2 ((coefficient_le hcanonical).trans_lt (by decide))
    have hlow := le_exponent_decimal hcanonical
    have hhigh := exponent_decimal_le hcanonical he
    have hmax : maxExponent = 2147483647 := rfl
    rw [reading, if_neg hexponential] at hfits ⊢
    exact toFloat?_exponential negative hfits (by omega)

include hcanonical in
theorem isNumber_magnitude (negative : Bool) : IsNumber (withSign negative (floatLayout.magnitude m e)) := by
  rw [magnitude_eq]
  split
  · have hproper := proper_positionalLiteral negative (coefficient_ne_zero hcanonical)
    exact spell_positionalLiteral negative _ ▸ Literal.isNumber_spell hproper
  · exact spell_exponentialLiteral negative _ ▸ Literal.isNumber_spell (proper_exponentialLiteral negative _)

end Numeral

/-! ### What is read -/

theorem reading_value (s : Scientific) : ((reading s).1 : ℚ) * 10 ^ (reading s).2 = s.value := by
  have hplaces : ∀ n : ℕ, (10 : ℚ) ^ (n + 1) * 10 ^ (-1 : ℤ) = 10 ^ (n : ℤ) := fun n => by
    rw [← zpow_natCast, ← zpow_add₀ (by norm_num)]
    congr 1
    omega
  rw [reading, Scientific.value]
  split
  · rw [positionalReading]
    split
    · next hnonneg =>
      rw [Nat.cast_mul, Nat.cast_pow, Nat.cast_ofNat, mul_assoc, hplaces, Int.toNat_of_nonneg hnonneg]
    · rfl
  · rfl

theorem le_shift_reading (hcanonical : Canonical m e) : -341 ≤ (reading (decimal m e)).2 := by
  have hle := le_exponent_decimal hcanonical
  rw [reading, positionalReading]
  split
  · split
    · exact (by decide : (-341 : ℤ) ≤ -1)
    · exact hle
  · exact hle

/-- What is read for a double is a number, six roundings away from it. -/
theorem exists_off_reading (hcanonical : Canonical m e) (he : e ≤ 971) (hm : 0 < m) :
    ∃ y r, scale? (Float.ofNat (reading (decimal m e)).1) (reading (decimal m e)).2 = some y ∧ Exactly y r ∧
      Off 6 3 r (m * 2 ^ e) := by
  have hvalue := reading_value (decimal m e)
  obtain ⟨hcoefficient, -, hhas⟩ := decimal_spec hcanonical hm
  have hpositive : 0 < (decimal m e).value := by
    rw [Scientific.value]
    positivity
  have hpos : 0 < (reading (decimal m e)).1 := by
    refine Nat.pos_of_ne_zero fun hzero => hpositive.ne ?_
    rw [← hvalue, hzero, Nat.cast_zero, zero_mul]
  have hshift : -616 ≤ (reading (decimal m e)).2 := le_trans (by decide) (le_shift_reading hcanonical)
  obtain ⟨y, r, hread, hr, hoff⟩ := exists_off_scale? hpos (reading_le hcanonical) hshift
    (hvalue.le.trans (value_decimal_le hcanonical he))
  rw [hvalue] at hoff
  -- The decimal is as far from the double as one more rounding.
  obtain ⟨n, t, hrounds, hsame⟩ := Reach.exists_rounds hm hcanonical hhas
  exact ⟨y, r, hread, hr, hoff.trans (hsame ▸ (hrounds.off hpositive.le).symm)⟩

theorem scale?_reading_zero (hshape : shape x = .finite false 0 e) :
    scale? (Float.ofNat (reading (decimal 0 e)).1) (reading (decimal 0 e)).2 = some x := by
  have hreading : reading (decimal 0 e) = (0, -1) := by
    rw [decimal_zero]
    rfl
  obtain ⟨y, hy, hnearest⟩ := nearest_scale? (exactly_ofNat (Nat.two_pow_pos 53)) one_pos (by decide)
  have hzero : Exactly y ((0 : ℕ) * 2 ^ e) := by
    refine Nearest.exactly ?_ (by decide) (toBits_of_shape hshape).1.subnormal (exponent_le_of_shape hshape)
    simpa using hnearest
  rw [hreading]
  exact hy.trans (congrArg some (hzero.eq ⟨0, e, hshape, rfl⟩))

/-- A double that is not negative is read as a number that is not far away. -/
theorem exists_scale?_reading (hshape : shape x = .finite false m e) :
    ∃ y r, scale? (Float.ofNat (reading (decimal m e)).1) (reading (decimal m e)).2 = some y ∧ Exactly y r ∧
      |r - m * 2 ^ e| ≤ m * 2 ^ e / 2 ^ 50 + 2 ^ (-1073 : ℤ) := by
  rcases Nat.eq_zero_or_pos m with rfl | hm
  · refine ⟨x, _, scale?_reading_zero hshape, ⟨0, e, hshape, rfl⟩, ?_⟩
    rw [sub_self, abs_zero]
    positivity
  · have hcanonical := (toBits_of_shape hshape).1
    obtain ⟨y, r, hread, hr, hoff⟩ := exists_off_reading hcanonical (exponent_le_of_shape hshape) hm
    exact ⟨y, r, hread, hr, hoff.abs_sub_le hr.nonneg (by positivity)⟩

/-- A finite double is read as a finite double, which differs in its last bits at most, or in the lowest that there
are. -/
theorem exists_toFloat?_float (hx : x.isFinite = true) : ∃ y, (float x).toFloat? = some y ∧ y.isFinite = true ∧
    |toRat y - toRat x| ≤ |toRat x| / 2 ^ 50 + 2 ^ (-1073 : ℤ) := by
  obtain ⟨negative, m, e, hshape⟩ : ∃ negative m e, shape x = .finite negative m e :=
    ⟨_, exists_shape_of_isFinite hx⟩
  have hcanonical := (toBits_of_shape hshape).1
  have he := exponent_le_of_shape hshape
  rw [float_of_shape hshape, toFloat?_magnitude hcanonical he, toRat_of_shape hshape]
  have hpositive : (0 : ℚ) ≤ m * 2 ^ e := by positivity
  cases negative with
  | false =>
    obtain ⟨y, _, hread, ⟨m', e', hy, rfl⟩, hclose⟩ := exists_scale?_reading hshape
    refine ⟨y, by rw [hread]; rfl, isFinite_of_shape hy, ?_⟩
    rw [toRat_of_shape hy, if_neg (by decide), if_neg (by decide), abs_of_nonneg hpositive]
    exact hclose
  | true =>
    obtain ⟨y, _, hread, ⟨m', e', hy, rfl⟩, hclose⟩ := exists_scale?_reading (shape_neg hshape)
    refine ⟨-y, by rw [hread]; rfl, isFinite_of_shape (shape_neg hy), ?_⟩
    rw [toRat_neg hy, if_pos rfl, abs_neg, abs_of_nonneg hpositive, ← neg_sub', abs_neg]
    exact hclose

/-! ### Decimals of few digits -/

/-- Numbers below `1e16` are written in place unless they are small. -/
theorem reading_eq {s : Scientific} (hpos : 0 < s.coefficient) (hvalue : s.value < 10 ^ 16) :
    reading s = positionalReading s := by
  rw [reading]
  split
  · rfl
  · next hexponential =>
    rw [positionalReading, if_neg]
    intro hnonneg
    have hlength := List.length_pos_iff.2 (digits_ne_nil s.coefficient)
    have hcoefficient : ((10 ^ ((digits s.coefficient).length - 1) : ℕ) : ℚ) ≤ s.coefficient :=
      Nat.cast_le.2 (ten_pow_length_le hpos.ne')
    have hpower : (10 : ℚ) ^ (((digits s.coefficient).length - 1 : ℕ) + s.exponent) < 10 ^ (16 : ℤ) := by
      calc (10 : ℚ) ^ (((digits s.coefficient).length - 1 : ℕ) + s.exponent)
          = (10 ^ ((digits s.coefficient).length - 1) : ℕ) * 10 ^ s.exponent := by
            rw [zpow_add₀ (by norm_num), zpow_natCast, Nat.cast_pow, Nat.cast_ofNat]
        _ ≤ s.value := by
          rw [Scientific.value]
          gcongr
        _ < 10 ^ (16 : ℤ) := hvalue
    have hlt := (zpow_lt_zpow_iff_right₀ (by norm_num : (1 : ℚ) < 10)).1 hpower
    exact hexponential ((isPositional_iff s).2 ⟨by omega, by omega⟩)

theorem reading_of_le {s : Scientific} (hvalue : 10 ^ 16 ≤ s.value) : reading s = (s.coefficient, s.exponent) := by
  rw [reading, if_neg]
  intro hpositional
  have hfew := ((isPositional_iff s).1 hpositional).2
  have hcoefficient : (s.coefficient : ℚ) < (10 ^ (digits s.coefficient).length : ℕ) :=
    Nat.cast_lt.2 (lt_ten_pow_length _)
  refine absurd hvalue (not_le.2 ?_)
  calc s.value < (10 ^ (digits s.coefficient).length : ℕ) * 10 ^ s.exponent := by
        rw [Scientific.value]
        gcongr
    _ = 10 ^ ((digits s.coefficient).length + s.exponent) := by
      rw [zpow_add₀ (by norm_num), zpow_natCast, Nat.cast_pow, Nat.cast_ofNat]
    _ ≤ 10 ^ (16 : ℤ) := zpow_le_zpow_right₀ (by norm_num) (by omega)

section Few

variable {c k : ℕ} {e₀ : ℤ} (hc : c ≤ 10 ^ 15) (hk : k ≤ 22)

theorem two_pow_le_of_rounds {n : ℕ} {t : ℤ} {q : ℚ} (hcanonical : Canonical m e) (hrounds : Rounds q n t)
    (hvalue : (n : ℚ) * 2 ^ t = m * 2 ^ e) (hq : (2 : ℚ) ^ (-1000 : ℤ) ≤ q) : 2 ^ 52 ≤ m := by
  refine hcanonical.normal (lt_of_le_of_ne hcanonical.subnormal fun he => ?_)
  have hlt := (zpow_lt_zpow_iff_right₀ (one_lt_two : (1 : ℚ) < 2)).1 (hq.trans_lt hrounds.lt_two_pow)
  have hless := mul_two_pow_lt (by omega : e < t) hcanonical.lt_two_pow (hrounds.two_pow_le_of_normal (by omega))
  exact hless.ne' hvalue

/-- The decimal is one of those that read back. -/
theorem has_of_nearest (hlow : (2 : ℚ) ^ (-1000 : ℤ) ≤ 10 ^ e₀) (hx : Nearest x (c * 10 ^ e₀))
    (hshape : shape x = .finite false m e) (hm : 0 < m) :
    0 < c ∧ 2 ^ 52 ≤ m ∧ (Reach.of m e).Has (c * 10 ^ e₀) := by
  have hcanonical := (toBits_of_shape hshape).1
  obtain ⟨n, t, hrounds, hvalue⟩ := hx.rounds ⟨m, e, hshape, rfl⟩
  have hpos : 0 < c := by
    by_contra hzero
    rw [Nat.eq_zero_of_not_pos hzero, Nat.cast_zero, zero_mul] at hrounds
    have hle := hrounds.mono rounds_zero le_rfl
    rw [← hvalue, Nat.cast_zero, zero_mul] at hle
    exact absurd hle (not_le.2 (by positivity))
  have hunit : (10 : ℚ) ^ e₀ ≤ c * 10 ^ e₀ := le_mul_of_one_le_left (by positivity) (by exact_mod_cast hpos)
  exact ⟨hpos, two_pow_le_of_rounds hcanonical hrounds hvalue.symm (hlow.trans hunit),
    Reach.has_of_rounds hm hcanonical hrounds hvalue.symm⟩

include hc in
/-- What is laid out is the decimal itself, on a grid that is as coarse as its own. -/
theorem decimal_of_few (hlow : (2 : ℚ) ^ (-1000 : ℤ) ≤ 10 ^ e₀) (hx : Nearest x (c * 10 ^ e₀))
    (hshape : shape x = .finite false m e) (hm : 0 < m) :
    0 < (decimal m e).coefficient ∧ e₀ ≤ (decimal m e).exponent ∧ (decimal m e).value = c * 10 ^ e₀ := by
  obtain ⟨hpos, hbits, hhas⟩ := has_of_nearest hlow hx hshape hm
  have hfound := foundAbove .even hbits hpos hhas hc
  rw [decimal_of_pos hm]
  exact ⟨hfound.coefficient_pos, hfound.le_exponent, hfound.value_eq hbits hhas hc⟩

/-! ### Digits behind the point -/

theorem two_zpow_le_ten_zpow (hk : k ≤ 22) : (2 : ℚ) ^ (-1000 : ℤ) ≤ 10 ^ (-k : ℤ) := by
  calc (2 : ℚ) ^ (-1000 : ℤ) ≤ 2 ^ (-(4 * k : ℕ) : ℤ) := zpow_le_zpow_right₀ one_le_two (by omega)
    _ = (16 ^ k)⁻¹ := by rw [zpow_neg, zpow_natCast, pow_mul]; norm_num
    _ ≤ (10 ^ k)⁻¹ := inv_anti₀ (by positivity) (pow_le_pow_left₀ (by norm_num) (by norm_num) k)
    _ = 10 ^ (-k : ℤ) := by rw [zpow_neg, zpow_natCast]

include hc in
theorem value_le (k : ℕ) : (c : ℚ) * 10 ^ (-k : ℤ) ≤ 10 ^ 15 := by
  have hfew : (c : ℚ) ≤ 10 ^ 15 := by exact_mod_cast hc
  have hone : (10 : ℚ) ^ (-k : ℤ) ≤ 1 := zpow_le_one_of_nonpos₀ (by norm_num) (by omega)
  calc (c : ℚ) * 10 ^ (-k : ℤ) ≤ 10 ^ 15 * 1 := by gcongr
    _ = 10 ^ 15 := mul_one _

include hc hk in
theorem exactly_positionalReading {s : Scientific} (hexponent : (-k : ℤ) ≤ s.exponent)
    (hvalue : s.value = c * 10 ^ (-k : ℤ)) :
    ∃ a j : ℕ, positionalReading s = (a, -(j : ℤ)) ∧ 0 < j ∧ j ≤ 22 ∧ Exactly (Float.ofNat a) a ∧
      (a : ℚ) / 10 ^ j = s.value := by
  have hle := hvalue.trans_le (value_le hc k)
  rw [positionalReading, Scientific.value] at *
  split
  · next hnonneg =>
    obtain ⟨i, hi⟩ : ∃ i : ℕ, s.exponent = i := ⟨_, (Int.toNat_of_nonneg hnonneg).symm⟩
    rw [hi, zpow_natCast] at hle
    have hbits : 5 * (s.coefficient * 10 ^ i) < 2 ^ 53 := by
      have hnat : s.coefficient * 10 ^ i ≤ 10 ^ 15 := by exact_mod_cast hle
      omega
    have hshift : s.coefficient * 10 ^ (s.exponent.toNat + 1) = s.coefficient * 10 ^ i * 10 := by
      rw [hi, Int.toNat_natCast, pow_succ, mul_assoc]
    refine ⟨_, 1, Prod.ext hshift rfl, one_pos, by decide, exactly_ofNat_mul_ten hbits, ?_⟩
    rw [hi, zpow_natCast]
    push_cast
    ring
  · next hneg =>
    obtain ⟨j, hj⟩ : ∃ j : ℕ, s.exponent = -(j : ℤ) := ⟨(-s.exponent).toNat, by omega⟩
    rw [hj] at hvalue
    have hbits : s.coefficient < 2 ^ 53 := by
      have hgrid : (10 : ℚ) ^ (-k : ℤ) ≤ 10 ^ (-j : ℤ) := zpow_le_zpow_right₀ (by norm_num) (by omega)
      have hscaled : (s.coefficient : ℚ) * 10 ^ (-j : ℤ) ≤ c * 10 ^ (-j : ℤ) := hvalue.trans_le (by gcongr)
      have hfew : s.coefficient ≤ c := by exact_mod_cast le_of_mul_le_mul_right hscaled (by positivity)
      omega
    refine ⟨_, j, Prod.ext rfl hj, by omega, by omega, exactly_ofNat hbits, ?_⟩
    rw [hj, zpow_neg, zpow_natCast, div_eq_mul_inv]

include hc hk in
theorem scale?_reading (hx : Nearest x (c * 10 ^ (-k : ℤ))) (hshape : shape x = .finite false m e) :
    scale? (Float.ofNat (reading (decimal m e)).1) (reading (decimal m e)).2 = some x := by
  rcases Nat.eq_zero_or_pos m with rfl | hm
  · exact scale?_reading_zero hshape
  · obtain ⟨hpos, hexponent, hvalue⟩ := decimal_of_few hc (two_zpow_le_ten_zpow hk) hx hshape hm
    have hsmall : (decimal m e).value < 10 ^ 16 :=
      (hvalue.trans_le (value_le hc k)).trans_lt (by norm_num)
    obtain ⟨a, j, hreading, hj, hj', ha, hscaled⟩ := exactly_positionalReading hc hk hexponent hvalue
    obtain ⟨y, hy, hnearest⟩ := nearest_scale? ha hj hj'
    rw [hscaled, hvalue] at hnearest
    rw [reading_eq hpos hsmall, hreading, hy, hnearest.eq hx ⟨m, e, hshape, rfl⟩]

/-! ### Zeros in front of the point -/

include hc hk in
theorem scale?_reading_multiple (hlast : ¬ 10 ∣ c) (hlarge : 10 ^ 16 ≤ c * 10 ^ k) (hx : Nearest x (c * 10 ^ (k : ℤ)))
    (hshape : shape x = .finite false m e) :
    scale? (Float.ofNat (reading (decimal m e)).1) (reading (decimal m e)).2 = some x := by
  have hexact : Exactly x (m * 2 ^ e) := ⟨m, e, hshape, rfl⟩
  have hmany : (10 : ℚ) ^ 16 ≤ c * 10 ^ (k : ℤ) := by
    rw [zpow_natCast]
    exact_mod_cast hlarge
  have hm : 0 < m := by
    refine Nat.pos_of_ne_zero fun hzero => ?_
    have hbelow := (hx.off_of_one_le hexact (le_trans (by norm_num) hmany)).below
    norm_num [hzero, relativeError] at hbelow hmany
    linarith
  have hlow : (2 : ℚ) ^ (-1000 : ℤ) ≤ 10 ^ (k : ℤ) :=
    (zpow_le_one_of_nonpos₀ one_le_two (by decide)).trans (one_le_zpow₀ (by norm_num) (Int.natCast_nonneg k))
  obtain ⟨-, hexponent, hvalue⟩ := decimal_of_few hc hlow hx hshape hm
  obtain ⟨i, hi⟩ : ∃ i : ℕ, (decimal m e).exponent = i + k := ⟨((decimal m e).exponent - k).toNat, by omega⟩
  have hshift : (decimal m e).coefficient * 10 ^ i = c := by
    rw [Scientific.value, hi, zpow_add₀ (by norm_num), ← mul_assoc, zpow_natCast] at hvalue
    exact_mod_cast mul_right_cancel₀ (by positivity) hvalue
  have hsame : i = 0 := by
    by_contra hne
    exact hlast (hshift ▸ (dvd_pow_self 10 hne).mul_left _)
  rw [hsame, pow_zero, mul_one] at hshift
  rw [hsame, Nat.cast_zero, zero_add] at hi
  have hproduct : Nearest (Float.ofNat c * powerOfTen k) (c * 10 ^ (k : ℤ)) := by
    rw [zpow_natCast]
    exact nearest_mul (exactly_ofNat (hc.trans_lt (by decide))) (exactly_powerOfTen hk)
  rw [reading_of_le (hmany.trans_eq hvalue.symm), hshift, hi, scale?, if_pos (by omega), if_pos (by omega),
    Int.natAbs_natCast, hproduct.eq hx hexact]
  simp [hexact.isInf_eq]

end Few

/-- At most fifteen digits, with at most twenty-two places behind the point, or with as many zeros in front of it if
there are enough to be written as an exponent. -/
inductive HasFewDigits : Float → Prop
  | fraction {c k : ℕ} (hc : c ≤ 10 ^ 15) (hk : k ≤ 22) : HasFewDigits (.ofScientific c true k)
  | multiple {c k : ℕ} (hc : c ≤ 10 ^ 15) (hlast : ¬ 10 ∣ c) (hk : k ≤ 22) (hlarge : 10 ^ 16 ≤ c * 10 ^ k) :
      HasFewDigits (.ofScientific c false k)

theorem HasFewDigits.exists_shape (hx : HasFewDigits x) : ∃ m e, shape x = .finite false m e ∧
    scale? (Float.ofNat (reading (decimal m e)).1) (reading (decimal m e)).2 = some x := by
  cases hx with
  | @fraction c k hc hk =>
    have hnearest : Nearest (Float.ofScientific c true k) (c * 10 ^ (-k : ℤ)) := by
      rw [zpow_neg, zpow_natCast, ← div_eq_mul_inv]
      exact nearest_ofScientific (hc.trans_lt (by decide)) (Nat.lt_succ_of_le hk)
    have hle : (c : ℚ) * 10 ^ (-k : ℤ) ≤ (10 ^ 15 : ℕ) := (value_le hc k).trans_eq (by norm_num)
    obtain ⟨-, -, m, e, hshape, -⟩ := hnearest.exists_exactly (nearest_ofNat (10 ^ 15)) hle (exactly_ofNat (by decide))
    exact ⟨m, e, hshape, scale?_reading hc hk hnearest hshape⟩
  | @multiple c k hc hlast hk hlarge =>
    have hnearest : Nearest (Float.ofScientific c false k) (c * 10 ^ (k : ℤ)) := by
      rw [zpow_natCast]
      exact nearest_ofScientific_whole (hk.trans (by decide))
    have hproduct := nearest_mul (exactly_ofNat (hc.trans_lt (by decide))) (exactly_powerOfTen hk)
    rw [← zpow_natCast] at hproduct
    have hrange : c * 10 ^ k ≤ greatest :=
      (Nat.mul_le_mul hc (Nat.pow_le_pow_right (by decide) hk)).trans (by decide +kernel)
    have hpos : 0 < c := Nat.pos_of_ne_zero fun hzero => hlast (hzero ▸ dvd_zero 10)
    obtain ⟨-, r, hr⟩ := exists_exactly_mul_powerOfTen (hc.trans (by decide)) hpos hrange
    obtain ⟨-, -, m, e, hshape, -⟩ := hnearest.exists_exactly hproduct le_rfl hr
    exact ⟨m, e, hshape, scale?_reading_multiple hc hk hlast hlarge hnearest hshape⟩

/-- A decimal of few digits, or the opposite of one. -/
def IsDecimal (x : Float) : Prop :=
  ∃ y, HasFewDigits y ∧ (x = y ∨ x = -y)

theorem IsDecimal.toFloat?_float (hx : IsDecimal x) : (float x).toFloat? = some x := by
  obtain ⟨y, hy, hcase⟩ := hx
  obtain ⟨m, e, hshape, hread⟩ := hy.exists_shape
  have hcanonical := (toBits_of_shape hshape).1
  have he := exponent_le_of_shape hshape
  rcases hcase with rfl | rfl
  · rw [float_of_shape hshape, toFloat?_magnitude hcanonical he, hread]
    rfl
  · rw [float_of_shape (shape_neg hshape), Bool.not_false, toFloat?_magnitude hcanonical he, hread]
    rfl

end TimedStreams.Json
