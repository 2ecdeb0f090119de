import TimedStreams.Proofs.Replayable

/-!
# The quotient of two doubles

The time at which an event is due is a quotient of doubles, its recorded time divided by the speed.
Here the quotient is taken apart down to bits: it is the double nearest to the exact quotient of the
two numbers (`Binary64.nearest_div`), and rounding to the nearest double keeps the order
(`Binary64.Rounds.mono`), so a larger time divided by the same speed is not smaller.

The mantissa of a quotient is first computed as a whole number with two more bits, which say how the
rest compares to one half. `Binary64.Holds` is what these bits mean, and shifting them out keeps it.
-/

namespace TimedStreams

open Float.Model UnpackedFloat

namespace Binary64

/-! ### Rounding to the nearest number -/

theorem le_roundDivEven {num den bound : Nat} (hden : 0 < den) (hle : bound * den ≤ num) :
    bound ≤ roundDivEven num den := by
  have hquotient : bound ≤ num / den := (Nat.le_div_iff_mul_le hden).2 hle
  simp only [roundDivEven]
  split
  · exact hquotient
  · exact Nat.le_succ_of_le hquotient

theorem roundDivEven_mono {num den num' den' : Nat} (hden : 0 < den) (hden' : 0 < den')
    (hle : num * den' ≤ num' * den) : roundDivEven num den ≤ roundDivEven num' den' := by
  have hsplit := Nat.div_add_mod num den
  have hsplit' := Nat.div_add_mod num' den'
  have hquotient : num / den ≤ num' / den' := by
    rw [Nat.le_div_iff_mul_le hden', ← Nat.mul_le_mul_right_iff hden]
    calc num / den * den' * den = num / den * den * den' := Nat.mul_right_comm _ _ _
      _ ≤ num * den' := Nat.mul_le_mul_right _ (Nat.div_mul_le_self num den)
      _ ≤ num' * den := hle
  rcases Nat.lt_or_eq_of_le hquotient with hlt | heq
  · calc roundDivEven num den ≤ num / den + 1 := by
          simp only [roundDivEven]
          split <;> omega
      _ ≤ num' / den' := hlt
      _ ≤ roundDivEven num' den' := by
          simp only [roundDivEven]
          split <;> omega
  · -- The same whole number: what remains decides.
    have hremainder : num % den * den' ≤ num' % den' * den := by
      rw [← hsplit, ← hsplit', heq] at hle
      nlinarith
    have hhalf : den ≤ 2 * (num % den) → den' ≤ 2 * (num' % den') := by
      intro h
      nlinarith
    have htie : 2 * (num' % den') = den' → 2 * (num % den) ≤ den := by
      intro h
      nlinarith
    simp only [roundDivEven, heq, Bool.or_eq_true, decide_eq_true_eq, Bool.and_eq_true, beq_iff_eq]
    split <;> split <;> omega

/-- An extended mantissa is the whole number in a quotient, with what has to be known about the rest of it. -/
structure Holds (em : ExtendedMantissa) (num den : Nat) : Prop where
  mantissa_eq : em.mantissa = num / den
  roundBit_iff : em.roundBit = true ↔ den ≤ 2 * (num % den)
  stickyBit_iff : em.stickyBit = true ↔ 2 * (num % den) ≠ 0 ∧ 2 * (num % den) ≠ den

theorem holds_ofMantissaAndAccuracy {num den : Nat} (hden : 0 < den) :
    Holds (.ofMantissaAndAccuracy (num / den) (accuracyOfFraction (num % den) den)) num den := by
  rw [accuracyOfFraction]
  split
  · next hnone =>
    refine ⟨rfl, ?_, ?_⟩ <;> simp [ExtendedMantissa.ofMantissaAndAccuracy, hnone]
    omega
  · next hsome =>
    rcases Nat.lt_trichotomy (2 * (num % den)) den with hlt | heq | hgt
    · rw [Nat.compare_eq_lt.2 hlt]
      refine ⟨rfl, ?_, ?_⟩ <;> simp [ExtendedMantissa.ofMantissaAndAccuracy] <;> omega
    · rw [Nat.compare_eq_eq.2 heq]
      refine ⟨rfl, ?_, ?_⟩ <;> simp [ExtendedMantissa.ofMantissaAndAccuracy] <;> omega
    · rw [Nat.compare_eq_gt.2 hgt]
      refine ⟨rfl, ?_, ?_⟩ <;> simp [ExtendedMantissa.ofMantissaAndAccuracy] <;> omega

theorem Holds.shiftRightOne {em : ExtendedMantissa} {num den : Nat} (hem : Holds em num den) (hden : 0 < den) :
    Holds em.shiftRightOne num (den * 2) := by
  have hmod : num % (den * 2) = num % den + den * (num / den % 2) := Nat.mod_mul
  have hless := Nat.mod_lt num hden
  obtain ⟨hmantissa, hround, hsticky⟩ := hem
  rcases Nat.mod_two_eq_zero_or_one (num / den) with hbit | hbit
  · rw [hbit, Nat.mul_zero, Nat.add_zero] at hmod
    refine ⟨?_, ?_, ?_⟩
    · rw [ExtendedMantissa.shiftRightOne, hmantissa, Nat.div_div_eq_div_mul]
    · simp only [ExtendedMantissa.shiftRightOne, hmantissa, hbit, hmod]
      simp
      omega
    · simp only [ExtendedMantissa.shiftRightOne, Bool.or_eq_true, hround, hsticky, hmod]
      omega
  · rw [hbit, Nat.mul_one] at hmod
    refine ⟨?_, ?_, ?_⟩
    · rw [ExtendedMantissa.shiftRightOne, hmantissa, Nat.div_div_eq_div_mul]
    · simp only [ExtendedMantissa.shiftRightOne, hmantissa, hbit, hmod]
      simp
      omega
    · simp only [ExtendedMantissa.shiftRightOne, Bool.or_eq_true, hround, hsticky, hmod]
      omega

theorem Holds.shiftRight {em : ExtendedMantissa} {num den : Nat} (hem : Holds em num den) (hden : 0 < den)
    (count : Nat) : Holds (em >>> count) num (den * 2 ^ count) := by
  induction count with
  | zero => simpa [HShiftRight.hShiftRight, Nat.repeat] using hem
  | succ count ih =>
    have hnext := ih.shiftRightOne (Nat.mul_pos hden (Nat.two_pow_pos count))
    rw [Nat.mul_assoc, ← Nat.pow_succ] at hnext
    exact hnext

theorem Holds.roundedMantissa {em : ExtendedMantissa} {num den : Nat} (hem : Holds em num den) (hden : 0 < den) :
    em.roundedMantissa = roundDivEven num den := by
  have hless := Nat.mod_lt num hden
  obtain ⟨mantissa, roundBit, stickyBit⟩ := em
  obtain ⟨hmantissa, hround, hsticky⟩ := hem
  simp only at hmantissa hround hsticky
  simp only [roundDivEven, Bool.or_eq_true, decide_eq_true_eq, Bool.and_eq_true, beq_iff_eq, ← hmantissa]
  cases roundBit <;> cases stickyBit <;> simp at hround hsticky
  · rw [if_pos (by omega)]
    rfl
  · rw [if_pos (by omega)]
    rfl
  · -- Halfway between two numbers.
    change mantissa + mantissa % 2 = _
    split <;> omega
  · rw [if_neg (by omega)]
    rfl

/-! ### Rounding to a double -/

/-- The number `n * 2 ^ exponent` is what a positive number is rounded to: the nearest one with as many bits as a double
has. -/
structure Rounds (x : ℚ) (n : ℕ) (exponent : ℤ) : Prop where
  rounded : ∃ num den : ℕ, 0 < den ∧ x = num / den * 2 ^ exponent ∧ n = roundDivEven num den
  subnormal : -1074 ≤ exponent
  lt_two_pow : x < 2 ^ (exponent + 53)
  two_pow_le : -1074 < exponent → 2 ^ (exponent + 52) ≤ x

theorem Rounds.le_two_pow {x : ℚ} {n : ℕ} {exponent : ℤ} (hx : Rounds x n exponent) : n ≤ 2 ^ 53 := by
  obtain ⟨⟨num, den, hden, rfl, rfl⟩, -, hlt, -⟩ := hx
  refine roundDivEven_le hden ?_
  rw [add_comm, zpow_add₀ two_ne_zero, mul_lt_mul_iff_left₀ (by positivity),
    div_lt_iff₀ (by exact_mod_cast hden)] at hlt
  exact_mod_cast hlt.le

theorem Rounds.two_pow_le_of_normal {x : ℚ} {n : ℕ} {exponent : ℤ} (hx : Rounds x n exponent)
    (hnormal : -1074 < exponent) : 2 ^ 52 ≤ n := by
  obtain ⟨⟨num, den, hden, rfl, rfl⟩, -, -, hle⟩ := hx
  refine le_roundDivEven hden ?_
  have hle := hle hnormal
  rw [add_comm, zpow_add₀ two_ne_zero, mul_le_mul_iff_left₀ (by positivity),
    le_div_iff₀ (by exact_mod_cast hden)] at hle
  exact_mod_cast hle

theorem mul_two_pow_le {n k : ℕ} {e f : ℤ} (hlt : e < f) (hn : n ≤ 2 ^ 53) (hk : 2 ^ 52 ≤ k) :
    (n : ℚ) * 2 ^ e ≤ k * 2 ^ f := by
  have hn' : (n : ℚ) ≤ 2 ^ (53 : ℤ) := by exact_mod_cast hn
  have hk' : (2 : ℚ) ^ (52 : ℤ) ≤ k := by exact_mod_cast hk
  calc (n : ℚ) * 2 ^ e ≤ 2 ^ (53 : ℤ) * 2 ^ e := by gcongr
    _ = 2 ^ (53 + e) := (zpow_add₀ two_ne_zero _ _).symm
    _ ≤ 2 ^ (52 + f) := zpow_le_zpow_right₀ one_le_two (by omega)
    _ = 2 ^ (52 : ℤ) * 2 ^ f := zpow_add₀ two_ne_zero _ _
    _ ≤ k * 2 ^ f := by gcongr

/-- Rounding keeps the order. -/
theorem Rounds.mono {x y : ℚ} {n k : ℕ} {e f : ℤ} (hx : Rounds x n e) (hy : Rounds y k f) (hle : x ≤ y) :
    (n : ℚ) * 2 ^ e ≤ k * 2 ^ f := by
  rcases lt_trichotomy e f with hlt | rfl | hgt
  · exact mul_two_pow_le hlt hx.le_two_pow (hy.two_pow_le_of_normal (hx.subnormal.trans_lt hlt))
  · obtain ⟨⟨num, den, hden, rfl, rfl⟩, -⟩ := hx
    obtain ⟨⟨num', den', hden', rfl, rfl⟩, -⟩ := hy
    have hcast : (0 : ℚ) < den := by exact_mod_cast hden
    have hcast' : (0 : ℚ) < den' := by exact_mod_cast hden'
    rw [mul_le_mul_iff_left₀ (by positivity), div_le_div_iff₀ hcast hcast'] at hle
    have hmono := roundDivEven_mono hden hden' (by exact_mod_cast hle)
    gcongr
  · have hbetween : (2 : ℚ) ^ (f + 53) ≤ 2 ^ (e + 52) := zpow_le_zpow_right₀ one_le_two (by omega)
    have habove := hx.two_pow_le (by have := hy.subnormal; omega)
    exact absurd (hle.trans_lt (hy.lt_two_pow.trans_le hbetween)) (not_lt.2 habove)

/-! ### Dividing -/

theorem targetExponent_eq (total : ℤ) : Format.binary64.targetExponent total = max (total - 53) (-1074) := rfl

theorem div_lt_two_pow {n m : ℕ} (hm : 0 < m) : (n : ℚ) / m < 2 ^ ((n / m).log2 + 1) := by
  have hcast : (0 : ℚ) < m := by exact_mod_cast hm
  rw [div_lt_iff₀ hcast]
  have hnat : n < 2 ^ ((n / m).log2 + 1) * m := (Nat.div_lt_iff_lt_mul hm).1 Nat.lt_log2_self
  exact_mod_cast hnat

theorem two_pow_le_div {n m : ℕ} (hm : 0 < m) (hquotient : n / m ≠ 0) : (2 : ℚ) ^ (n / m).log2 ≤ n / m := by
  have hcast : (0 : ℚ) < m := by exact_mod_cast hm
  rw [le_div_iff₀ hcast]
  have hnat : 2 ^ (n / m).log2 * m ≤ n := (Nat.le_div_iff_mul_le hm).1 (Nat.log2_self_le hquotient)
  exact_mod_cast hnat

/-- A dividend with 53 bits more than the divisor gives a quotient with at least as many bits as a double. -/
theorem two_pow_le_shifted_div {m₁ m₂ shift : ℕ} (hm₁ : 0 < m₁) (hm₂ : 0 < m₂)
    (hwide : m₂.log2 + 53 ≤ m₁.log2 + shift) : 2 ^ 52 ≤ m₁ * 2 ^ shift / m₂ := by
  rw [Nat.le_div_iff_mul_le hm₂]
  calc 2 ^ 52 * m₂ ≤ 2 ^ 52 * 2 ^ (m₂.log2 + 1) := Nat.mul_le_mul_left _ Nat.lt_log2_self.le
    _ = 2 ^ (m₂.log2 + 53) := by rw [← Nat.pow_add, Nat.add_comm 52, Nat.add_assoc]
    _ ≤ 2 ^ (m₁.log2 + shift) := Nat.pow_le_pow_right two_pos hwide
    _ = 2 ^ m₁.log2 * 2 ^ shift := Nat.pow_add _ _ _
    _ ≤ m₁ * 2 ^ shift := Nat.mul_le_mul_right _ (Nat.log2_self_le hm₁.ne')

/-- A whole number, with what has to be known about the rest, is shifted until it has as many bits as a double. That
rounds, unless it had fewer bits before. -/
theorem rounds_shiftToTargetExponent {num den : ℕ} {t₀ : ℤ} (hden : 0 < den)
    (hbits : -1074 < t₀ → 2 ^ 52 ≤ num / den) :
    let shifted := shiftToTargetExponent .binary64 (num / den) t₀ (accuracyOfFraction (num % den) den)
    Rounds (num / den * 2 ^ t₀) shifted.1.roundedMantissa shifted.2 := by
  intro shifted
  obtain ⟨k, hk⟩ : ∃ k, k = (Format.binary64.targetExponent (totalExponent (num / den) t₀) - t₀).toNat := ⟨_, rfl⟩
  have hshifted : shifted = (ExtendedMantissa.ofMantissaAndAccuracy (num / den) (accuracyOfFraction (num % den) den) >>> k,
      t₀ + k) := by
    simp only [shifted, shiftToTargetExponent, shiftToExponent, ← hk]
  have hrounded : shifted.1.roundedMantissa = roundDivEven num (den * 2 ^ k) := by
    rw [hshifted]
    exact ((holds_ofMantissaAndAccuracy hden).shiftRight hden k).roundedMantissa (by positivity)
  have hlog : -1074 < t₀ → 52 ≤ (num / den).log2 := fun hnormal =>
    (Nat.le_log2 ((Nat.two_pow_pos 52).trans_le (hbits hnormal)).ne').2 (hbits hnormal)
  rw [targetExponent_eq, totalExponent] at hk
  have hexponent : t₀ + k = max ((num / den).log2 + 1 + t₀ - 53) (-1074) := by omega
  rw [hrounded, hshifted]
  refine ⟨⟨num, den * 2 ^ k, by positivity, ?_, rfl⟩, by simp only; omega, ?_, ?_⟩
  · rw [zpow_add₀ two_ne_zero, zpow_natCast]
    push_cast
    field_simp
  · calc (num : ℚ) / den * 2 ^ t₀ < 2 ^ ((num / den).log2 + 1) * 2 ^ t₀ := by
          gcongr
          exact div_lt_two_pow hden
      _ = 2 ^ (((num / den).log2 + 1 : ℕ) + t₀ : ℤ) := by rw [zpow_add₀ two_ne_zero, zpow_natCast]
      _ ≤ 2 ^ (t₀ + k + 53) := zpow_le_zpow_right₀ one_le_two (by push_cast; omega)
  · intro hnormal
    have hquotient : num / den ≠ 0 := by
      intro hzero
      rw [hzero] at hlog hexponent
      have := hlog (by simp at hexponent hnormal; omega)
      simp at this
    calc (2 : ℚ) ^ (t₀ + k + 52) ≤ 2 ^ (((num / den).log2 : ℕ) + t₀ : ℤ) := zpow_le_zpow_right₀ one_le_two (by
          simp only at hnormal
          omega)
      _ = 2 ^ (num / den).log2 * 2 ^ t₀ := by rw [zpow_add₀ two_ne_zero, zpow_natCast]
      _ ≤ num / den * 2 ^ t₀ := by
        gcongr
        exact two_pow_le_div hden hquotient

/-- The quotient of two mantissas, with enough bits for a double, rounds to the quotient of the numbers. -/
theorem rounds_divCore {m₁ m₂ : ℕ} (hm₁ : 0 < m₁) (hm₂ : 0 < m₂) (e₁ e₂ : ℤ) :
    let core := divCore .binary64 m₁ e₁ m₂ e₂
    let shifted := shiftToTargetExponent .binary64 core.1 core.2.1 core.2.2
    Rounds ((m₁ * 2 ^ e₁) / (m₂ * 2 ^ e₂)) shifted.1.roundedMantissa shifted.2 := by
  intro core shifted
  obtain ⟨t₀, ht₀⟩ : ∃ t₀, t₀ = min (e₁ - e₂) (Format.binary64.targetExponent
    (totalExponent m₁ e₁ - totalExponent m₂ e₂)) := ⟨_, rfl⟩
  obtain ⟨sh, hsh⟩ : ∃ sh, sh = (e₁ - e₂ - t₀).toNat := ⟨_, rfl⟩
  obtain ⟨num, hnum⟩ : ∃ num, num = m₁ * 2 ^ sh := ⟨_, rfl⟩
  have hcore : core = (num / m₂, t₀, accuracyOfFraction (num % m₂) m₂) := by
    simp only [core, divCore, ← ht₀, ← hsh, Nat.shiftLeft_eq, ← hnum]
  have hx : ((m₁ : ℚ) * 2 ^ e₁) / (m₂ * 2 ^ e₂) = num / m₂ * 2 ^ t₀ := by
    have hle : (sh : ℤ) = e₁ - e₂ - t₀ := by omega
    have hsplit : e₁ = sh + t₀ + e₂ := by omega
    rw [hnum, hsplit, zpow_add₀ two_ne_zero, zpow_add₀ two_ne_zero, zpow_natCast]
    have hcast : (m₂ : ℚ) ≠ 0 := by exact_mod_cast hm₂.ne'
    push_cast
    field_simp
  -- The quotient has at least as many bits as a double, unless it is below all of them.
  have hbits : -1074 < t₀ → 2 ^ 52 ≤ num / m₂ := by
    intro hnormal
    rw [targetExponent_eq, totalExponent, totalExponent] at ht₀
    rw [hnum]
    exact two_pow_le_shifted_div hm₁ hm₂ (by omega)
  rw [hx]
  simp only [shifted, hcore]
  exact rounds_shiftToTargetExponent hm₂ hbits

/-! ### The fields of a quotient -/

theorem shiftToTargetExponent_of_lt {n : ℕ} {e : ℤ} (hn : n < 2 ^ 53) (he : -1074 ≤ e) :
    shiftToTargetExponent .binary64 n e .exact = (⟨n, false, false⟩, e) := by
  have hlog : n.log2 ≤ 52 := by
    by_cases hzero : n = 0
    · simp [hzero]
    · exact Nat.le_of_lt_succ ((Nat.log2_lt hzero).2 hn)
  have hshift : (Format.binary64.targetExponent (totalExponent n e) - e).toNat = 0 := by
    rw [targetExponent_eq, totalExponent]
    omega
  rw [shiftToTargetExponent, shiftToExponent]
  simp only [hshift]
  exact Prod.ext rfl (Int.add_zero e)

/-- A carry moves the point. -/
theorem shiftToTargetExponent_carry {e : ℤ} (he : -1074 ≤ e) :
    shiftToTargetExponent .binary64 (2 ^ 53) e .exact = (⟨2 ^ 52, false, false⟩, e + 1) := by
  have hshift : (Format.binary64.targetExponent (totalExponent (2 ^ 53) e) - e).toNat = 1 := by
    rw [targetExponent_eq, totalExponent, Nat.log2_two_pow]
    omega
  rw [shiftToTargetExponent, shiftToExponent]
  simp only [hshift]
  rfl

/-- Mantissa and exponent are as they are in a double. -/
structure Canonical (mantissa : ℕ) (exponent : ℤ) : Prop where
  lt_two_pow : mantissa < 2 ^ 53
  subnormal : -1074 ≤ exponent
  normal : -1074 < exponent → 2 ^ 52 ≤ mantissa

theorem roundWithAccuracy_cases {x : ℚ} {mantissa : ℕ} {exponent : ℤ} {accuracy : Accuracy}
    (hx : Rounds x (shiftToTargetExponent .binary64 mantissa exponent accuracy).1.roundedMantissa
      (shiftToTargetExponent .binary64 mantissa exponent accuracy).2) (sign : Sign) :
    let n := (shiftToTargetExponent .binary64 mantissa exponent accuracy).1.roundedMantissa
    let e := (shiftToTargetExponent .binary64 mantissa exponent accuracy).2
    (n = 0 ∧ roundWithAccuracy .binary64 sign mantissa exponent accuracy = .zero sign) ∨
      ∃ m f hm, Canonical m f ∧ (m : ℚ) * 2 ^ f = n * 2 ^ e ∧
        roundWithAccuracy .binary64 sign mantissa exponent accuracy = .finite sign m f hm := by
  intro n e
  have hround : roundWithAccuracy .binary64 sign mantissa exponent accuracy
      = if h : (shiftToTargetExponent .binary64 n e .exact).1.mantissa = 0 then .zero sign
        else .finite sign (shiftToTargetExponent .binary64 n e .exact).1.mantissa
          (shiftToTargetExponent .binary64 n e .exact).2 (Nat.pos_of_ne_zero h) := rfl
  rcases Nat.lt_or_eq_of_le hx.le_two_pow with hlt | hcarry
  · rw [shiftToTargetExponent_of_lt hlt hx.subnormal] at hround
    by_cases hzero : n = 0
    · exact .inl ⟨hzero, hround.trans (dif_pos hzero)⟩
    · exact .inr ⟨n, e, Nat.pos_of_ne_zero hzero, ⟨hlt, hx.subnormal, hx.two_pow_le_of_normal⟩, rfl,
        hround.trans (dif_neg hzero)⟩
  · have hn : n = 2 ^ 53 := hcarry
    rw [hn, shiftToTargetExponent_carry hx.subnormal] at hround
    refine .inr ⟨2 ^ 52, e + 1, by decide, ⟨by decide, ?_, fun _ => le_rfl⟩, ?_, hround⟩
    · exact hx.subnormal.trans (by omega)
    · rw [hn, zpow_add_one₀ two_ne_zero]
      push_cast
      ring

theorem toNat_packComponents (sign : Sign) (exponent : BitVec 11) (fraction : BitVec 52) :
    (packComponents .binary64 sign exponent fraction).toNat
      = sign.toBitVec.toNat * 2 ^ 63 + exponent.toNat * 2 ^ 52 + fraction.toNat := by
  have hexponent := exponent.isLt
  have hfraction := fraction.isLt
  rw [packComponents, BitVec.toNat_append, BitVec.toNat_append, ← Nat.shiftLeft_add_eq_or_of_lt hfraction,
    ← Nat.shiftLeft_add_eq_or_of_lt hexponent, Nat.shiftLeft_eq, Nat.shiftLeft_eq]
  ring

section Fields

variable {x : Float} {negative : Bool} {exponent : BitVec 11} {fraction : BitVec 52}

theorem fields_of_pack
    (hx : x.toModel.toBits.toBitVec = packComponents .binary64 (signOf negative) exponent fraction) :
    isNegative x = negative ∧ exponentField x = exponent.toNat ∧ fractionField x = fraction.toNat := by
  have hbits : x.toBits.toNat = _ := (congrArg BitVec.toNat hx).trans (toNat_packComponents _ _ _)
  have hsign : (signOf negative).toBitVec.toNat = negative.toNat := by cases negative <;> rfl
  have hexponent := exponent.isLt
  have hfraction := fraction.isLt
  rw [isNegative, exponentField, fractionField, hbits, hsign, Nat.pow_eq, Nat.pow_eq, Nat.pow_eq]
  refine ⟨?_, by omega, by omega⟩
  cases negative with
  | true => exact decide_eq_true (by rw [Bool.toNat_true]; omega)
  | false => exact decide_eq_false (by rw [Bool.toNat_false]; omega)

/-- What is rounded to a double is that double, or beyond all doubles. -/
theorem shape_pack {m : ℕ} {f : ℤ} {hm : 0 < m} (hcanonical : Canonical m f)
    (hx : x.toModel = Float.Model.pack (.finite (signOf negative) m f hm)) :
    shape x = .infinite negative ∧ 972 ≤ f ∨ shape x = .finite negative m f := by
  obtain ⟨hlt, hsubnormal, hnormal⟩ := hcanonical
  obtain ⟨biased, hbiased⟩ : ∃ biased : ℕ, (biased : ℤ) = f + 1075 := ⟨(f + 1075).toNat, by omega⟩
  have hbits : x.toModel.toBits.toBitVec = UnpackedFloat.pack .binary64 (.finite (signOf negative) m f hm) := by
    rw [hx]
    rfl
  have hfield : (f + (Format.binary64.exponentBias : ℤ) + (Format.binary64.mantissaBitsWithoutImplicit : ℤ)).toNat
      = biased := by
    have hbias : Format.binary64.exponentBias = 1023 := rfl
    have hwidth : Format.binary64.mantissaBitsWithoutImplicit = 52 := rfl
    rw [hbias, hwidth]
    omega
  rw [UnpackedFloat.pack, hfield] at hbits
  simp only at hbits
  have hwidth : Format.binary64.mantissaBits = 53 := rfl
  simp only [hwidth] at hbits
  split at hbits
  · next hrange =>
    obtain ⟨hsign, hexponent, hfraction⟩ := fields_of_pack hbits
    exact .inl ⟨by rw [shape, hexponent, hfraction, hsign]; rfl, by omega⟩
  · next hrange =>
    split at hbits
    · next hlog =>
      obtain ⟨hsign, hexponent, hfraction⟩ := fields_of_pack hbits
      have hge : 2 ^ 52 ≤ m := (Nat.le_log2 hm.ne').1 (by omega)
      rw [BitVec.toNat_ofNat, Nat.mod_eq_of_lt (by omega)] at hexponent
      rw [BitVec.toNat_ofNat] at hfraction
      refine .inr ?_
      rw [shape, hexponent, hfraction, hsign, Nat.pow_eq, Nat.pow_eq, if_neg (by omega), if_neg (by omega)]
      congr 1 <;> omega
    · next hlog =>
      obtain ⟨hsign, hexponent, hfraction⟩ := fields_of_pack hbits
      have hsmall : m < 2 ^ 52 := by
        have hlog2 : m.log2 < 53 := (Nat.log2_lt hm.ne').2 hlt
        exact (Nat.log2_lt hm.ne').1 (by omega)
      have hlowest : f = -1074 := by
        by_contra hne
        exact absurd (hnormal (by omega)) (by omega)
      rw [BitVec.toNat_ofNat, Nat.mod_eq_of_lt (by exact hsmall)] at hfraction
      refine .inr ?_
      rw [shape, hexponent, hfraction, hsign, hlowest]
      rfl

theorem shape_pack_zero (hx : x.toModel = Float.Model.pack (.zero (signOf negative))) :
    shape x = .finite negative 0 (-1074) := by
  have hbits : x.toModel.toBits.toBitVec = packComponents .binary64 (signOf negative) 0 0 := by
    rw [hx]
    rfl
  obtain ⟨hsign, hexponent, hfraction⟩ := fields_of_pack hbits
  rw [shape, hexponent, hfraction, hsign]
  rfl

end Fields

theorem isNegative_of_shape {x : Float} {negative : Bool}
    (hx : shape x = .infinite negative ∨ ∃ m e, shape x = .finite negative m e) : isNegative x = negative := by
  rw [shape] at hx
  split at hx
  · split at hx
    · simpa using hx
    · simp at hx
  · split at hx <;> simpa using hx

theorem exponentField_of_isFinite {x : Float} (hx : x.isFinite = true) : exponentField x ≠ 2 ^ 11 - 1 := by
  intro hexponent
  have hfinite : x.toModel.unpack.isFinite = true := hx
  have hones := (field_eq_iff (-1#_) (toNat_unpackExponent x)).2 hexponent
  rw [Float.Model.unpack, UnpackedFloat.unpack] at hfinite
  simp only [hones, if_true] at hfinite
  split at hfinite <;> cases hfinite

theorem exists_shape_of_isFinite {x : Float} (hx : x.isFinite = true) :
    ∃ m e, shape x = .finite (isNegative x) m e := by
  rw [shape, Nat.pow_eq, if_neg (exponentField_of_isFinite hx)]
  split
  · exact ⟨_, _, rfl⟩
  · exact ⟨_, _, rfl⟩

theorem unpack_of_isFinite {x : Float} (hx : x.isFinite = true) :
    x.toModel.unpack = .zero (signOf (isNegative x)) ∨
      ∃ m e hm, x.toModel.unpack = .finite (signOf (isNegative x)) m e hm := by
  obtain ⟨m, e, hshape⟩ := exists_shape_of_isFinite hx
  rcases unpack_of_finite hshape with ⟨-, hunpack⟩ | ⟨hm, -, hunpack⟩
  · exact .inl hunpack
  · exact .inr ⟨m, e, hm, hunpack⟩

theorem unpack_of_factor {factor : Factor} {speed : Float} (hspeed : factor.check speed = .ok ()) :
    ∃ m e hm, speed.toModel.unpack = .finite .positive m e hm := by
  have hboth : speed.isFinite = true ∧ (0.0 : Float) < speed := by
    rw [Factor.check] at hspeed
    split at hspeed
    · next h => simpa using h
    · cases hspeed
  obtain ⟨hfinite, hpositive⟩ := hboth
  have hzero : (0.0 : Float).toModel.unpack = .zero .positive := rfl
  have hlt : ((0.0 : Float).toModel.unpack).lt speed.toModel.unpack = true := of_decide_eq_true hpositive
  rw [hzero] at hlt
  rcases unpack_of_isFinite hfinite with hspeed | ⟨m, e, hm, hspeed⟩
  · rw [hspeed] at hlt
    cases hlt
  · rw [hspeed] at hlt
    cases hsign : isNegative speed with
    | true =>
      rw [hsign, signOf_true] at hlt
      cases hlt
    | false =>
      rw [hsign, signOf_false] at hspeed
      exact ⟨m, e, hm, hspeed⟩

/-! ### Quotients of doubles -/

section Quotient

variable {x speed : Float} {m₂ : ℕ} {e₂ : ℤ} {hm₂ : 0 < m₂}

theorem toModel_div (x speed : Float) :
    (x / speed).toModel
      = Float.Model.pack (UnpackedFloat.div .binary64 x.toModel.unpack speed.toModel.unpack) := rfl

theorem rounds_zero : Rounds 0 0 (-1074) where
  rounded := ⟨0, 1, one_pos, by simp, rfl⟩
  subnormal := le_rfl
  lt_two_pow := by positivity
  two_pow_le := fun hlt => absurd hlt (lt_irrefl _)

/-- A double is the nearest to a number, or infinite as all doubles are too small. -/
def Nearest (x : Float) (q : ℚ) : Prop :=
  ∃ n t, Rounds q n t ∧ (shape x = .infinite false ∧ 2 ^ (1024 : ℤ) ≤ (n : ℚ) * 2 ^ t ∨
    ∃ m e, shape x = .finite false m e ∧ (m : ℚ) * 2 ^ e = n * 2 ^ t)

theorem nearest_of_round {q : ℚ} {mantissa : ℕ} {exponent : ℤ} {accuracy : Accuracy}
    (hq : Rounds q (shiftToTargetExponent .binary64 mantissa exponent accuracy).1.roundedMantissa
      (shiftToTargetExponent .binary64 mantissa exponent accuracy).2)
    (hx : x.toModel = Float.Model.pack (roundWithAccuracy .binary64 .positive mantissa exponent accuracy)) :
    Nearest x q := by
  refine ⟨_, _, hq, ?_⟩
  rcases roundWithAccuracy_cases hq .positive with ⟨hn, hround⟩ | ⟨m, f, hm, hcanonical, hvalue, hround⟩
  · have hzero : x.toModel = Float.Model.pack (.zero (signOf false)) := hx.trans (congrArg Float.Model.pack hround)
    refine .inr ⟨0, -1074, shape_pack_zero hzero, ?_⟩
    rw [hn]
    simp
  · have hfinite : x.toModel = Float.Model.pack (.finite (signOf false) m f hm) :=
      hx.trans (congrArg Float.Model.pack hround)
    rcases shape_pack hcanonical hfinite with ⟨hinfinite, hlarge⟩ | hfinite
    · refine .inl ⟨hinfinite, ?_⟩
      rw [← hvalue]
      have hmantissa : (2 : ℚ) ^ (52 : ℤ) ≤ m := by exact_mod_cast hcanonical.normal (by omega)
      calc (2 : ℚ) ^ (1024 : ℤ) ≤ 2 ^ (52 + f) := zpow_le_zpow_right₀ one_le_two (by omega)
        _ = 2 ^ (52 : ℤ) * 2 ^ f := zpow_add₀ two_ne_zero _ _
        _ ≤ m * 2 ^ f := by gcongr
    · exact .inr ⟨m, f, hfinite, hvalue⟩

theorem nearest_zero (hx : shape x = .finite false 0 (-1074)) : Nearest x 0 :=
  ⟨0, -1074, rounds_zero, .inr ⟨0, -1074, hx, by simp⟩⟩

/-- The quotient of two doubles is the double nearest to the quotient of the numbers. -/
theorem nearest_div {m : ℕ} {e : ℤ} (hx : shape x = .finite false m e)
    (hspeed : speed.toModel.unpack = .finite .positive m₂ e₂ hm₂) :
    Nearest (x / speed) ((m * 2 ^ e) / (m₂ * 2 ^ e₂)) := by
  rcases unpack_of_finite hx with ⟨rfl, hunpack⟩ | ⟨hm, -, hunpack⟩
  · have hdiv : (x / speed).toModel = Float.Model.pack (.zero (signOf false)) := by
      rw [toModel_div, hunpack, hspeed]
      rfl
    simpa using nearest_zero (shape_pack_zero hdiv)
  · refine nearest_of_round (rounds_divCore hm hm₂ e e₂) ?_
    rw [toModel_div, hunpack, hspeed]
    rfl

theorem isNegative_div (hfinite : x.isFinite = true) (hnegative : isNegative x = true)
    (hspeed : speed.toModel.unpack = .finite .positive m₂ e₂ hm₂) : isNegative (x / speed) = true := by
  have hdiv := toModel_div x speed
  have hzero : (x / speed).toModel = Float.Model.pack (.zero (signOf true)) → isNegative (x / speed) = true := fun hdiv =>
    isNegative_of_shape (.inr ⟨_, _, shape_pack_zero hdiv⟩)
  rw [hspeed] at hdiv
  rcases unpack_of_isFinite hfinite with hunpack | ⟨m, e, hm, hunpack⟩
  · rw [hunpack, hnegative] at hdiv
    exact hzero hdiv
  · rw [hunpack, hnegative] at hdiv
    have hdiv' : (x / speed).toModel = Float.Model.pack (roundWithAccuracy .binary64 .negative
        (divCore .binary64 m e m₂ e₂).1 (divCore .binary64 m e m₂ e₂).2.1 (divCore .binary64 m e m₂ e₂).2.2) := hdiv
    rcases roundWithAccuracy_cases (rounds_divCore hm hm₂ e e₂) .negative with
      ⟨-, hround⟩ | ⟨k, f, hk, hcanonical, -, hround⟩
    · exact hzero (hdiv'.trans (congrArg Float.Model.pack hround))
    · have hpack : (x / speed).toModel = Float.Model.pack (.finite (signOf true) k f hk) :=
        hdiv'.trans (congrArg Float.Model.pack hround)
      rcases shape_pack hcanonical hpack with ⟨hinfinite, -⟩ | hshape
      · exact isNegative_of_shape (.inl hinfinite)
      · exact isNegative_of_shape (.inr ⟨_, _, hshape⟩)

/-- The bits of a double count the doubles below it, or above it if it is negative. -/
theorem toBits_of_shape {negative : Bool} {m : ℕ} {e : ℤ} (hx : shape x = .finite negative m e) :
    Canonical m e ∧ (x.toBits.toNat : ℤ) = negative.toNat * 2 ^ 63 + m + (e + 1074) * 2 ^ 52 := by
  have hsign := isNegative_of_shape (.inr ⟨m, e, hx⟩)
  have hfraction := fractionField_lt x
  have hlt : x.toBits.toNat < 2 ^ 64 := x.toBits.toBitVec.isLt
  have hfields : x.toBits.toNat = negative.toNat * 2 ^ 63 + exponentField x * 2 ^ 52 + fractionField x := by
    rw [exponentField, fractionField, Nat.pow_eq, Nat.pow_eq]
    cases negative with
    | true =>
      have hle : 2 ^ 63 ≤ x.toBits.toNat := of_decide_eq_true hsign
      rw [Bool.toNat_true]
      omega
    | false =>
      have hless : x.toBits.toNat < 2 ^ 63 := Nat.lt_of_not_le (of_decide_eq_false hsign)
      rw [Bool.toNat_false]
      omega
  rw [shape, Nat.pow_eq, Nat.pow_eq] at hx
  split at hx
  · split at hx <;> cases hx
  · next hexponent =>
    split at hx
    · next hsubnormal =>
      obtain ⟨-, rfl, rfl⟩ := Shape.finite.inj hx
      refine ⟨⟨by omega, le_rfl, fun hlt => absurd hlt (lt_irrefl _)⟩, ?_⟩
      rw [hfields, hsubnormal]
      push_cast
      ring
    · next hnormal =>
      obtain ⟨-, rfl, rfl⟩ := Shape.finite.inj hx
      refine ⟨⟨by omega, by omega, fun _ => by omega⟩, ?_⟩
      rw [hfields]
      push_cast
      ring

theorem rank_of_shape {m : ℕ} {e : ℤ} (hx : shape x = .finite false m e) : rank x = m + (e + 1074) * 2 ^ 52 := by
  obtain ⟨-, hbits⟩ := toBits_of_shape hx
  rw [rank, isNegative_of_shape (.inr ⟨m, e, hx⟩), if_neg (by decide), hbits, Bool.toNat_false]
  ring

/-- The order of times is the order of the numbers that they stand for. -/
theorem value_le_of_rank_le {y : Float} {m k : ℕ} {e f : ℤ} (hx : shape x = .finite false m e)
    (hy : shape y = .finite false k f) (hrank : rank x ≤ rank y) : (m : ℚ) * 2 ^ e ≤ k * 2 ^ f := by
  have hm := (toBits_of_shape hx).1
  have hk := (toBits_of_shape hy).1
  rw [rank_of_shape hx, rank_of_shape hy] at hrank
  have hmlt := hm.lt_two_pow
  have hklt := hk.lt_two_pow
  rcases lt_trichotomy e f with hlt | rfl | hgt
  · exact mul_two_pow_le hlt hmlt.le (hk.normal (hm.subnormal.trans_lt hlt))
  · have hle : (m : ℚ) ≤ k := by
      have hnat : m ≤ k := by omega
      exact_mod_cast hnat
    gcongr
  · have hmge := hm.normal (hk.subnormal.trans_lt hgt)
    omega

end Quotient

end Binary64

end TimedStreams
