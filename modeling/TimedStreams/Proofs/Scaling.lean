import TimedStreams.Proofs.Shortest

/-!
# Scaling by powers of ten

An integer that is scaled by a power of ten is rounded several times: it becomes a double, so does the
power, and so does what comes of both. One rounding moves a number by no more than a half of its last
bit, which is a part of it (`Binary64.relativeError`) or, where doubles have fewer bits, a half of the
lowest bit that there is (`Binary64.underflowError`). `Binary64.Off` counts the roundings of either kind
between two numbers; the counts add up along a chain of operations, since no factor above one is applied
to what lies below the bits.

Neither the digits of a double nor its powers of ten take the integer out of the range of doubles
(`Json.exists_exactly_mul_powerOfTen`). So scaling gives a double, not far from the scaled integer
(`Json.exists_off_scale?`).
-/

namespace TimedStreams

namespace Binary64

/-- The part of a number by which rounding changes it at most. -/
def relativeError : ℚ :=
  1 / 2 ^ 53

/-- What rounding changes a number by at most if it is too small to have all bits of a double. -/
def underflowError : ℚ :=
  2 ^ (-1075 : ℤ)

/-- As far apart as two numbers can get by `k` roundings to the bits of a double and `c` to the lowest bit. -/
structure Off (k c : ℕ) (p q : ℚ) : Prop where
  below : (1 - relativeError) ^ k * q ≤ p + c * underflowError
  above : (1 - relativeError) ^ k * p ≤ q + c * underflowError

section Off

variable {p q r s t : ℚ} {k l c d : ℕ}

theorem underflowError_nonneg : 0 ≤ underflowError :=
  zpow_nonneg (by norm_num) _

theorem one_sub_relativeError_pow_nonneg (k : ℕ) : 0 ≤ (1 - relativeError) ^ k :=
  pow_nonneg (by norm_num [relativeError]) k

theorem one_sub_relativeError_pow_le (k : ℕ) : (1 - relativeError) ^ k ≤ 1 :=
  pow_le_one₀ (by norm_num [relativeError]) (by norm_num [relativeError])

theorem Off.symm (h : Off k c p q) : Off k c q p :=
  ⟨h.above, h.below⟩

theorem Off.mono (h : Off k c p q) (hp : 0 ≤ p) (hq : 0 ≤ q) (hk : k ≤ l) (hc : c ≤ d) : Off l d p q := by
  have hpower : (1 - relativeError) ^ l ≤ (1 - relativeError) ^ k :=
    pow_le_pow_of_le_one (by norm_num [relativeError]) (by norm_num [relativeError]) hk
  have herror : c * underflowError ≤ d * underflowError :=
    mul_le_mul_of_nonneg_right (Nat.cast_le.2 hc) underflowError_nonneg
  constructor
  · linarith [h.below, mul_le_mul_of_nonneg_right hpower hq]
  · linarith [h.above, mul_le_mul_of_nonneg_right hpower hp]

theorem Off.le_of_trans (h : Off k c p q) (h' : Off l d q r) :
    (1 - relativeError) ^ (k + l) * r ≤ p + (c + d : ℕ) * underflowError := by
  have hshrunk : (1 - relativeError) ^ k * (d * underflowError) ≤ d * underflowError :=
    mul_le_of_le_one_left (mul_nonneg (Nat.cast_nonneg d) underflowError_nonneg) (one_sub_relativeError_pow_le k)
  calc (1 - relativeError) ^ (k + l) * r = (1 - relativeError) ^ k * ((1 - relativeError) ^ l * r) := by
        rw [pow_add, mul_assoc]
    _ ≤ (1 - relativeError) ^ k * (q + d * underflowError) :=
      mul_le_mul_of_nonneg_left h'.below (one_sub_relativeError_pow_nonneg k)
    _ ≤ p + (c + d : ℕ) * underflowError := by
      push_cast
      linarith [h.below]

theorem Off.trans (h : Off k c p q) (h' : Off l d q r) : Off (k + l) (c + d) p r := by
  refine ⟨h.le_of_trans h', ?_⟩
  have hback := h'.symm.le_of_trans h.symm
  rwa [Nat.add_comm l k, Nat.add_comm d c] at hback

theorem Off.le_of_mul (h : Off k c p q) (h' : Off l 0 s t) (hp : 0 ≤ p) (ht : 0 ≤ t) (hsmall : c * s ≤ c) :
    (1 - relativeError) ^ (k + l) * (q * t) ≤ p * s + c * underflowError := by
  have hbelow := h'.below
  rw [Nat.cast_zero, zero_mul, add_zero] at hbelow
  have hpos : 0 ≤ p + c * underflowError := add_nonneg hp (mul_nonneg (Nat.cast_nonneg c) underflowError_nonneg)
  calc (1 - relativeError) ^ (k + l) * (q * t) = (1 - relativeError) ^ k * q * ((1 - relativeError) ^ l * t) := by ring
    _ ≤ (p + c * underflowError) * s :=
      mul_le_mul h.below hbelow (mul_nonneg (one_sub_relativeError_pow_nonneg l) ht) hpos
    _ = p * s + c * s * underflowError := by ring
    _ ≤ p * s + c * underflowError := by
      gcongr
      exact underflowError_nonneg

/-- Factors that have all their bits multiply the numbers, but not what lies below the bits. -/
theorem Off.mul (h : Off k c p q) (h' : Off l 0 s t) (hp : 0 ≤ p) (hq : 0 ≤ q) (hs : 0 ≤ s) (ht : 0 ≤ t)
    (hsmall : c * s ≤ c) (hsmall' : c * t ≤ c) : Off (k + l) c (p * s) (q * t) :=
  ⟨h.le_of_mul h' hp ht hsmall, h.symm.le_of_mul h'.symm hq hs hsmall'⟩

theorem Off.inv (h : Off l 0 s t) (hs : 0 < s) (ht : 0 < t) : Off l 0 s⁻¹ t⁻¹ := by
  have hbelow := h.below
  have habove := h.above
  rw [Nat.cast_zero, zero_mul, add_zero] at hbelow habove
  constructor
  · rw [Nat.cast_zero, zero_mul, add_zero, mul_inv_le_iff₀ ht, inv_mul_eq_div, le_div_iff₀ hs]
    exact habove
  · rw [Nat.cast_zero, zero_mul, add_zero, mul_inv_le_iff₀ hs, inv_mul_eq_div, le_div_iff₀ ht]
    exact hbelow

/-- Six roundings to the bits of a double and three to the lowest bit. -/
theorem Off.abs_sub_le (h : Off 6 3 p q) (hp : 0 ≤ p) (hq : 0 ≤ q) : |p - q| ≤ q / 2 ^ 50 + 2 ^ (-1073 : ℤ) := by
  have herror : (2 : ℚ) ^ (-1073 : ℤ) = 4 * underflowError := by
    rw [underflowError, show (-1073 : ℤ) = 2 + -1075 by decide, zpow_add₀ two_ne_zero]
    norm_num
  have hunit := underflowError_nonneg
  obtain ⟨hbelow, habove⟩ := h
  norm_num [relativeError] at hbelow habove
  rw [herror, abs_sub_le_iff]
  constructor <;> linarith

end Off

/-! ### Roundings -/

variable {x y : Float} {p q r : ℚ} {n : ℕ} {t : ℤ}

theorem Rounds.off_of_normal (hrounds : Rounds q n t) (hnormal : -1074 < t) : Off 1 0 (n * 2 ^ t) q := by
  obtain ⟨hlow, hhigh, -⟩ := hrounds.near
  have hbits := hrounds.two_pow_le hnormal
  rw [show t + 52 = t + (52 : ℕ) from rfl, Decimal.two_zpow_add] at hbits
  have hunit : (0 : ℚ) < 2 ^ t := by positivity
  constructor
  · norm_num [relativeError]
    linarith
  · norm_num [relativeError]
    linarith

theorem Rounds.off (hrounds : Rounds q n t) (hq : 0 ≤ q) : Off 1 1 (n * 2 ^ t) q := by
  rcases hrounds.subnormal.lt_or_eq with hnormal | rfl
  · exact (hrounds.off_of_normal hnormal).mono (by positivity) hq le_rfl zero_le_one
  · obtain ⟨hlow, hhigh, -⟩ := hrounds.near
    have hlowest : (2 : ℚ) ^ (-1074 : ℤ) = 2 * underflowError := by
      rw [underflowError, show (-1074 : ℤ) = 1 + -1075 by decide, zpow_add₀ two_ne_zero, zpow_one]
    rw [hlowest] at hlow hhigh ⊢
    have hpos : (0 : ℚ) ≤ n * (2 * underflowError) :=
      mul_nonneg (Nat.cast_nonneg n) (mul_nonneg zero_le_two underflowError_nonneg)
    constructor
    · norm_num [relativeError]
      linarith
    · norm_num [relativeError]
      linarith

theorem Nearest.off (hx : Nearest x q) (hr : Exactly x r) (hq : 0 ≤ q) : Off 1 1 r q := by
  obtain ⟨n, t, hrounds, rfl⟩ := hx.rounds hr
  exact hrounds.off hq

theorem Nearest.off_of_one_le (hx : Nearest x q) (hr : Exactly x r) (hq : 1 ≤ q) : Off 1 0 r q := by
  obtain ⟨n, t, hrounds, rfl⟩ := hx.rounds hr
  have hpower : (2 : ℚ) ^ (0 : ℤ) < 2 ^ (t + 53) := by
    rw [zpow_zero]
    exact hq.trans_lt hrounds.lt_two_pow
  have hexponent := (zpow_lt_zpow_iff_right₀ (one_lt_two : (1 : ℚ) < 2)).1 hpower
  exact hrounds.off_of_normal (by omega)

theorem Exactly.nearest (hx : Exactly x q) : Nearest x q := by
  obtain ⟨m, e, hshape, rfl⟩ := hx
  have hcanonical := (toBits_of_shape hshape).1
  obtain ⟨n, t, hrounds, hvalue⟩ := exists_rounds hcanonical.lt_two_pow hcanonical.subnormal
  exact ⟨n, t, hrounds, .inr ⟨m, e, hshape, hvalue.symm⟩⟩

theorem Nearest.exists_exactly_of_isFinite (hx : Nearest x q) (hfinite : x.isFinite = true) : ∃ r, Exactly x r := by
  obtain ⟨n, t, -, ⟨hinfinite, -⟩ | ⟨m, e, hshape, -⟩⟩ := hx
  · obtain ⟨m, e, hshape⟩ := exists_shape_of_isFinite hfinite
    cases hinfinite.symm.trans hshape
  · exact ⟨_, m, e, hshape, rfl⟩

theorem Exactly.beq_zero (hx : Exactly x q) (hq : q ≠ 0) : (x == 0.0) = false := by
  obtain ⟨m, e, hshape, rfl⟩ := hx
  have hzero : shape 0.0 = .finite false 0 (-1074) := by decide +kernel
  have hbeq : (x == 0.0) = x.toModel.unpack.beq (0.0 : Float).toModel.unpack := rfl
  rcases unpack_of_finite hshape with ⟨rfl, -⟩ | ⟨hm, -, hunpack⟩
  · exact absurd (by simp) hq
  · rcases unpack_of_finite hzero with ⟨-, hunpack'⟩ | ⟨hpos, -⟩
    · rw [hbeq, hunpack, hunpack']
      rfl
    · exact absurd hpos (lt_irrefl 0)

end Binary64

namespace Json

open Binary64 Decimal

/-! ### The range of doubles -/

theorem nearest_powerOfTen {n : ℕ} (hn : n ≤ 308) : Nearest (powerOfTen n) (10 ^ n) := by
  have hnearest := @nearest_ofScientific_whole 1 n (hn.trans (by decide))
  rwa [Nat.cast_one, one_mul] at hnearest

/-- The largest integers that are scaled, with the powers of ten by which they are. -/
theorem isFinite_products : ∀ j < 18,
    let c := min (10 ^ 17) (greatest / 10 ^ (291 + j))
    (Float.ofNat c).isFinite = true ∧ (powerOfTen (291 + j)).isFinite = true ∧
      (Float.ofNat c * powerOfTen (291 + j)).isFinite = true := by
  decide +kernel

theorem le_greatest_div : 10 ^ 17 ≤ greatest / 10 ^ 291 := by
  decide +kernel

theorem greatest_lt : greatest < 10 ^ 309 := by
  decide +kernel

theorem lt_of_ten_pow_le {n : ℕ} (k : ℕ) {bound : ℕ} (hn : 10 ^ n ≤ bound) (hbound : bound < 10 ^ k) : n < k :=
  (Nat.pow_lt_pow_iff_right (by decide)).1 (hn.trans_lt hbound)

/-- Scaling up does not fail below the greatest double. -/
theorem exists_exactly_mul_powerOfTen {c n : ℕ} (hc : c ≤ 10 ^ 17) (hpos : 0 < c) (hle : c * 10 ^ n ≤ greatest) :
    n ≤ 308 ∧ ∃ r, Exactly (Float.ofNat c * powerOfTen n) r := by
  have hn : n ≤ 308 :=
    Nat.le_of_lt_succ (lt_of_ten_pow_le 309 ((Nat.le_mul_of_pos_left _ hpos).trans hle) greatest_lt)
  obtain ⟨j, hj⟩ : ∃ j, 291 + j = max n 291 := ⟨max n 291 - 291, by omega⟩
  obtain ⟨C, hC⟩ : ∃ C, C = min (10 ^ 17) (greatest / 10 ^ (291 + j)) := ⟨_, rfl⟩
  have hcC : c ≤ C := by
    rw [hC, le_min_iff]
    refine ⟨hc, ?_⟩
    rw [hj]
    rcases le_total n 291 with hsmall | hlarge
    · rw [max_eq_right hsmall]
      exact hc.trans le_greatest_div
    · rw [max_eq_left hlarge, Nat.le_div_iff_mul_le (by positivity)]
      exact hle
  obtain ⟨hfinite, hfinite', hfinite''⟩ := isFinite_products j (by omega)
  rw [← hC] at hfinite hfinite''
  obtain ⟨a, ha⟩ := (nearest_ofNat C).exists_exactly_of_isFinite hfinite
  obtain ⟨b, hb⟩ := (nearest_powerOfTen (by omega)).exists_exactly_of_isFinite hfinite'
  obtain ⟨r, hr⟩ := (nearest_mul ha hb).exists_exactly_of_isFinite hfinite''
  -- Both factors are at most as large as these, and so is their product.
  obtain ⟨a', ha', hexact⟩ := (nearest_ofNat c).exists_exactly (nearest_ofNat C) (by exact_mod_cast hcC) ha
  obtain ⟨b', hb', hexact'⟩ := (nearest_powerOfTen hn).exists_exactly (nearest_powerOfTen (by omega))
    (pow_le_pow_right₀ (by norm_num) (by omega)) hb
  have hproduct : a' * b' ≤ a * b := mul_le_mul ha' hb' hexact'.nonneg ha.nonneg
  obtain ⟨s, -, hs⟩ := (nearest_mul hexact hexact').exists_exactly (nearest_mul ha hb) hproduct hr
  exact ⟨hn, s, hs⟩

/-! ### Integers and powers of ten -/

theorem exactly_ofNat {n : ℕ} (hn : n < 2 ^ 53) : Exactly (Float.ofNat n) n := by
  have hnearest : Nearest (Float.ofNat n) (n * 2 ^ (0 : ℤ)) := by simpa using nearest_ofNat n
  simpa using hnearest.exactly hn (by decide) (by decide)

theorem exactly_ofNat_mul_ten {n : ℕ} (hn : 5 * n < 2 ^ 53) : Exactly (Float.ofNat (n * 10)) (n * 10 : ℕ) := by
  have htwice : ((n * 10 : ℕ) : ℚ) = (5 * n : ℕ) * 2 ^ (1 : ℤ) := by
    rw [zpow_one]
    push_cast
    ring
  have hnearest := nearest_ofNat (n * 10)
  rw [htwice] at hnearest ⊢
  exact hnearest.exactly hn (by decide) (by decide)

theorem exactly_powerOfTen {j : ℕ} (hj : j ≤ 22) : Exactly (powerOfTen j) (10 ^ j) := by
  have hten : ((5 ^ j : ℕ) : ℚ) * 2 ^ (j : ℤ) = 10 ^ j := by
    rw [Nat.cast_pow, Nat.cast_ofNat, zpow_natCast, ← mul_pow]
    norm_num
  have hbits : 5 ^ j < 2 ^ 53 := (Nat.pow_le_pow_right (by decide) hj).trans_lt (by decide)
  have hnearest := nearest_powerOfTen (hj.trans (by decide))
  rw [← hten] at hnearest ⊢
  exact hnearest.exactly hbits (by omega) (by omega)

theorem exists_off_ofNat {a : ℕ} (hpos : 0 < a) (ha : a ≤ 10 ^ 17) : ∃ p, Exactly (Float.ofNat a) p ∧ Off 1 0 p a := by
  have hfinite : (Float.ofNat (10 ^ 17)).isFinite = true := by decide +kernel
  obtain ⟨r, hr⟩ := (nearest_ofNat (10 ^ 17)).exists_exactly_of_isFinite hfinite
  obtain ⟨p, -, hp⟩ := (nearest_ofNat a).exists_exactly (nearest_ofNat (10 ^ 17)) (by exact_mod_cast ha) hr
  exact ⟨p, hp, (nearest_ofNat a).off_of_one_le hp (by exact_mod_cast hpos)⟩

theorem exists_off_powerOfTen {n : ℕ} (hn : n ≤ 308) :
    ∃ t, Exactly (powerOfTen n) t ∧ 1 ≤ t ∧ Off 1 0 t (10 ^ n) := by
  have hfinite : (powerOfTen 308).isFinite = true := by decide +kernel
  have hone : (1 : ℚ) ≤ 10 ^ n := one_le_pow₀ (by norm_num)
  obtain ⟨r, hr⟩ := (nearest_powerOfTen le_rfl).exists_exactly_of_isFinite hfinite
  obtain ⟨t, -, ht⟩ := (nearest_powerOfTen hn).exists_exactly (nearest_powerOfTen le_rfl)
    (pow_le_pow_right₀ (by norm_num) hn) hr
  have hunit : Nearest (Float.ofNat 1) 1 := by simpa using nearest_ofNat 1
  obtain ⟨s, hs, hs'⟩ := hunit.exists_exactly (nearest_powerOfTen hn) hone ht
  obtain rfl : s = 1 := by simpa using hs'.unique (exactly_ofNat (by decide))
  exact ⟨t, ht, hs, (nearest_powerOfTen hn).off_of_one_le ht hone⟩

/-! ### What comes of scaling -/

variable {x : Float} {p q : ℚ} {k c n : ℕ}

/-- One step down rounds twice more, the last time perhaps to the lowest bit. -/
theorem exists_off_div_powerOfTen (hx : Exactly x p) (hoff : Off k c p q) (hq : 0 ≤ q) (hn : n ≤ 308) :
    ∃ r, Exactly (x / powerOfTen n) r ∧ Off (k + 2) (c + 1) r (q / 10 ^ n) := by
  obtain ⟨t, ht, hone, hofft⟩ := exists_off_powerOfTen hn
  have hpos : 0 < t := zero_lt_one.trans_le hone
  have hten : (1 : ℚ) ≤ 10 ^ n := one_le_pow₀ (by norm_num)
  have hnearest := hx.nearest_div ht hpos.ne'
  obtain ⟨r, -, hr⟩ := hnearest.exists_exactly hx.nearest (div_le_self hx.nonneg hone) hx
  have hquotient : Off (k + 1) c (p / t) (q / 10 ^ n) := by
    rw [div_eq_mul_inv, div_eq_mul_inv]
    refine hoff.mul (hofft.inv hpos (by positivity)) hx.nonneg hq (by positivity) (by positivity) ?_ ?_
    · exact mul_le_of_le_one_right (Nat.cast_nonneg c) (inv_le_one_of_one_le₀ hone)
    · exact mul_le_of_le_one_right (Nat.cast_nonneg c) (inv_le_one_of_one_le₀ hten)
  have hall := (hnearest.off hr (div_nonneg hx.nonneg hpos.le)).trans hquotient
  rw [Nat.add_comm 1 (k + 1), Nat.add_comm 1 c] at hall
  exact ⟨r, hr, hall⟩

theorem off_mul_powerOfTen {r : ℚ} (hx : Exactly x p) (hoff : Off k 0 p q) (hq : 0 ≤ q) (hn : n ≤ 308)
    (hr : Exactly (x * powerOfTen n) r) : Off (k + 2) 1 r (q * 10 ^ n) := by
  obtain ⟨t, ht, hone, hofft⟩ := exists_off_powerOfTen hn
  have hpos : 0 < t := zero_lt_one.trans_le hone
  have hproduct : Off (k + 1) 0 (p * t) (q * 10 ^ n) :=
    hoff.mul hofft hx.nonneg hq hpos.le (by positivity) (by simp) (by simp)
  have hall := ((nearest_mul hx ht).off hr (mul_nonneg hx.nonneg hpos.le)).trans hproduct
  rwa [Nat.add_comm 1 (k + 1)] at hall

/-- Digits that fit a double are divided by a power of ten that does too. -/
theorem nearest_scale? {a j : ℕ} (ha : Exactly (Float.ofNat a) a) (hpos : 0 < j) (hj : j ≤ 22) :
    ∃ y, scale? (Float.ofNat a) (-j : ℤ) = some y ∧ Nearest y (a / 10 ^ j) := by
  refine ⟨Float.ofNat a / powerOfTen j, ?_, ha.nearest_div (exactly_powerOfTen hj) (by positivity)⟩
  rw [scale?, if_pos (by omega), if_neg (by omega), Int.natAbs_neg, Int.natAbs_natCast]

/-- The digits of a double are scaled to a double, in one step, or in two where the power of ten is very small. -/
theorem exists_off_scale? {a : ℕ} {shift : ℤ} (hpos : 0 < a) (ha : a ≤ 10 ^ 17) (hshift : -616 ≤ shift)
    (hle : (a : ℚ) * 10 ^ shift ≤ greatest) :
    ∃ y r, scale? (Float.ofNat a) shift = some y ∧ Exactly y r ∧ Off 5 2 r (a * 10 ^ shift) := by
  obtain ⟨p, hp, hoff⟩ := exists_off_ofNat hpos ha
  have hcast : (0 : ℚ) ≤ a := Nat.cast_nonneg a
  rcases le_or_gt 0 shift with hup | hdown
  · obtain ⟨n, rfl⟩ := Int.eq_ofNat_of_zero_le hup
    rw [zpow_natCast] at hle ⊢
    obtain ⟨hn, r, hr⟩ := exists_exactly_mul_powerOfTen ha hpos (by exact_mod_cast hle)
    refine ⟨_, r, ?_, hr, ?_⟩
    · rw [scale?, if_pos (by omega), if_pos hup, Int.natAbs_natCast]
      simp [hr.isInf_eq]
    · exact (off_mul_powerOfTen hp hoff hcast hn hr).mono hr.nonneg (by positivity) (by decide) (by decide)
  obtain ⟨n, rfl⟩ : ∃ n : ℕ, shift = -n := ⟨shift.natAbs, by omega⟩
  rw [zpow_neg, zpow_natCast, ← div_eq_mul_inv]
  rcases le_or_gt n 308 with hfew | hmany
  · obtain ⟨r, hr, hoff'⟩ := exists_off_div_powerOfTen hp hoff hcast hfew
    refine ⟨_, r, ?_, hr, hoff'.mono hr.nonneg (by positivity) (by decide) (by decide)⟩
    rw [scale?, if_pos (by omega), if_neg (by omega), Int.natAbs_neg, Int.natAbs_natCast]
  · -- The integer is not zero, so a second step follows the one by the greatest power.
    obtain ⟨i, rfl⟩ : ∃ i, n = 308 + i := ⟨n - 308, by omega⟩
    have hne : p ≠ 0 := by
      rintro rfl
      have hbelow := hoff.below
      have hone : (1 : ℚ) ≤ a := by exact_mod_cast hpos
      norm_num [relativeError] at hbelow
      linarith
    obtain ⟨r, hr, hoff'⟩ := exists_off_div_powerOfTen hp hoff hcast (le_refl 308)
    obtain ⟨s, hs, hoff''⟩ := exists_off_div_powerOfTen (n := i) hr hoff' (by positivity) (by omega)
    have hrest : (-((308 + i : ℕ) : ℤ) + 308).natAbs = i := by omega
    rw [pow_add, ← div_div]
    refine ⟨_, s, ?_, hs, hoff''⟩
    rw [scale?, if_neg (by omega), if_neg (by simp [hp.beq_zero hne]), if_neg (by omega), scale?, hrest,
      if_pos (by omega), if_neg (by omega)]

end Json

end TimedStreams
