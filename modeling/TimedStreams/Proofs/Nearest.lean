import TimedStreams.Json.Number
import TimedStreams.Proofs.Quotients

/-!
# Doubles nearest to numbers

Arithmetic on doubles gives the double nearest to the exact result (`Binary64.nearest_mul`,
`Binary64.Exactly.nearest_div`). A number with no more bits than a double has is its own nearest double
(`Binary64.Nearest.exactly`), so it is known which number such a result is. A number has only one nearest
double, which is why two ways to compute it agree (`Binary64.Nearest.eq`).
-/

namespace TimedStreams

open Float.Model UnpackedFloat

namespace Binary64

variable {x y : Float} {p q : ℚ} {m k n : ℕ} {e f t : ℤ}

/-! ### The number that a double stands for -/

/-- A double stands for exactly this number, which is not negative. -/
def Exactly (x : Float) (q : ℚ) : Prop :=
  ∃ m e, shape x = .finite false m e ∧ (m : ℚ) * 2 ^ e = q

/-- The number that a double stands for; zero for one that stands for none. -/
def toRat (x : Float) : ℚ :=
  match shape x with
  | .finite negative m e => if negative then -(m * 2 ^ e) else m * 2 ^ e
  | .nan | .infinite _ => 0

theorem toRat_of_shape {negative : Bool} (hx : shape x = .finite negative m e) :
    toRat x = if negative then -(m * 2 ^ e : ℚ) else m * 2 ^ e := by
  rw [toRat, hx]

theorem toFloat_inj (hbits : x.toBits.toNat = y.toBits.toNat) : x = y := by
  obtain ⟨⟨bits, hvalid⟩⟩ := x
  obtain ⟨⟨bits', hvalid'⟩⟩ := y
  obtain rfl : bits = bits' := UInt64.toNat_inj.1 hbits
  rfl

theorem eq_of_shape {negative : Bool} (hx : shape x = .finite negative m e) (hy : shape y = .finite negative m e) :
    x = y := by
  refine toFloat_inj ?_
  have hbits := (toBits_of_shape hx).2.trans (toBits_of_shape hy).2.symm
  exact_mod_cast hbits

theorem mul_two_pow_lt (hlt : e < f) (hm : m < 2 ^ 53) (hk : 2 ^ 52 ≤ k) : (m : ℚ) * 2 ^ e < k * 2 ^ f := by
  have hm' : (m : ℚ) < 2 ^ (53 : ℤ) := by exact_mod_cast hm
  calc (m : ℚ) * 2 ^ e < 2 ^ (53 : ℤ) * 2 ^ e := by gcongr
    _ = ((2 ^ 53 : ℕ) : ℚ) * 2 ^ e := by norm_num
    _ ≤ k * 2 ^ f := mul_two_pow_le hlt le_rfl hk

theorem Canonical.eq (hm : Canonical m e) (hk : Canonical k f) (hvalue : (m : ℚ) * 2 ^ e = k * 2 ^ f) :
    m = k ∧ e = f := by
  rcases lt_trichotomy e f with hlt | rfl | hgt
  · have hless := mul_two_pow_lt hlt hm.lt_two_pow (hk.normal (hm.subnormal.trans_lt hlt))
    exact absurd hvalue hless.ne
  · have hpos : (2 : ℚ) ^ e ≠ 0 := by positivity
    exact ⟨by exact_mod_cast mul_right_cancel₀ hpos hvalue, rfl⟩
  · have hless := mul_two_pow_lt hgt hk.lt_two_pow (hm.normal (hk.subnormal.trans_lt hgt))
    exact absurd hvalue hless.ne'

theorem Exactly.eq (hx : Exactly x q) (hy : Exactly y q) : x = y := by
  obtain ⟨m, e, hshape, hvalue⟩ := hx
  obtain ⟨k, f, hshape', hvalue'⟩ := hy
  obtain ⟨rfl, rfl⟩ := (toBits_of_shape hshape).1.eq (toBits_of_shape hshape').1 (hvalue.trans hvalue'.symm)
  exact eq_of_shape hshape hshape'

theorem Exactly.unique (hp : Exactly x p) (hq : Exactly x q) : p = q := by
  obtain ⟨m, e, hshape, rfl⟩ := hp
  obtain ⟨k, f, hshape', rfl⟩ := hq
  obtain ⟨-, rfl, rfl⟩ := Shape.finite.inj (hshape.symm.trans hshape')
  rfl

theorem exponent_le_of_shape {negative : Bool} (hx : shape x = .finite negative m e) : e ≤ 971 := by
  have hlt : exponentField x < 2 ^ 11 := Nat.mod_lt _ (by decide)
  rw [shape, Nat.pow_eq, Nat.pow_eq] at hx
  split at hx
  · split at hx <;> cases hx
  · split at hx
    · obtain ⟨-, -, rfl⟩ := Shape.finite.inj hx
      decide
    · obtain ⟨-, -, rfl⟩ := Shape.finite.inj hx
      omega

theorem mul_two_pow_lt_of_le (hm : m < 2 ^ 53) (he : e ≤ 971) : (m : ℚ) * 2 ^ e < 2 ^ (1024 : ℤ) := by
  have hless : (m : ℚ) < 2 ^ (53 : ℤ) := by exact_mod_cast hm
  calc (m : ℚ) * 2 ^ e < 2 ^ (53 : ℤ) * 2 ^ e := by gcongr
    _ = 2 ^ (53 + e) := (zpow_add₀ two_ne_zero _ _).symm
    _ ≤ 2 ^ (1024 : ℤ) := zpow_le_zpow_right₀ one_le_two (by omega)

theorem Exactly.lt_two_pow (hx : Exactly x q) : q < 2 ^ (1024 : ℤ) := by
  obtain ⟨m, e, hshape, rfl⟩ := hx
  exact mul_two_pow_lt_of_le (toBits_of_shape hshape).1.lt_two_pow (exponent_le_of_shape hshape)

theorem Exactly.nonneg (hx : Exactly x q) : 0 ≤ q := by
  obtain ⟨m, e, -, rfl⟩ := hx
  positivity

theorem Exactly.isInf_eq (hx : Exactly x q) : x.isInf = false := by
  obtain ⟨m, e, hshape, -⟩ := hx
  have hinf : x.isInf = x.toModel.unpack.isInf := rfl
  rcases unpack_of_finite hshape with ⟨-, hunpack⟩ | ⟨hm, -, hunpack⟩
  · rw [hinf, hunpack]
    rfl
  · rw [hinf, hunpack]
    rfl

/-! ### Rounding -/

theorem Rounds.eq (hn : Rounds q n e) (hk : Rounds q k f) : (n : ℚ) * 2 ^ e = k * 2 ^ f :=
  le_antisymm (hn.mono hk le_rfl) (hk.mono hn le_rfl)

theorem roundDivEven_one (n : ℕ) : roundDivEven n 1 = n := by
  simp [roundDivEven, Nat.mod_one]

/-- A number of as many bits as a double has is not rounded. -/
theorem exists_rounds (hm : m < 2 ^ 53) (he : -1074 ≤ e) :
    ∃ n t, Rounds (m * 2 ^ e) n t ∧ (n : ℚ) * 2 ^ t = m * 2 ^ e := by
  by_cases hzero : m = 0
  · refine ⟨0, -1074, ?_, by simp [hzero]⟩
    simpa [hzero] using rounds_zero
  · -- As many bits are appended as fit.
    obtain ⟨s, hs⟩ : ∃ s, s = min (52 - m.log2) (e + 1074).toNat := ⟨_, rfl⟩
    have hlog : m.log2 < 53 := (Nat.log2_lt hzero).2 hm
    have hvalue : ((m * 2 ^ s : ℕ) : ℚ) * 2 ^ (e - s) = m * 2 ^ e := by
      rw [Nat.cast_mul, Nat.cast_pow, Nat.cast_ofNat, mul_assoc, ← zpow_natCast, ← zpow_add₀ two_ne_zero,
        add_sub_cancel]
    refine ⟨m * 2 ^ s, e - s, ⟨⟨m * 2 ^ s, 1, one_pos, ?_, (roundDivEven_one _).symm⟩, by omega, ?_, fun hnormal => ?_⟩,
      hvalue⟩
    · rw [← hvalue, Nat.cast_one, div_one]
    · have hless : m * 2 ^ s < 2 ^ 53 := by
        calc m * 2 ^ s < 2 ^ (m.log2 + 1) * 2 ^ s := by
              gcongr
              exact Nat.lt_log2_self
          _ = 2 ^ (m.log2 + 1 + s) := (Nat.pow_add _ _ _).symm
          _ ≤ 2 ^ 53 := Nat.pow_le_pow_right two_pos (by omega)
      rw [← hvalue, add_comm, zpow_add₀ two_ne_zero]
      gcongr
      exact_mod_cast hless
    · have hmore : 2 ^ 52 ≤ m * 2 ^ s := by
        calc 2 ^ 52 = 2 ^ (m.log2 + s) := by congr 1; omega
          _ = 2 ^ m.log2 * 2 ^ s := Nat.pow_add _ _ _
          _ ≤ m * 2 ^ s := Nat.mul_le_mul_right _ (Nat.log2_self_le hzero)
      rw [← hvalue, add_comm, zpow_add₀ two_ne_zero]
      gcongr
      exact_mod_cast hmore

/-! ### Nearest doubles -/

theorem Nearest.exactly_of_rounds (hx : Nearest x q) (hq : Rounds q n t) (hsmall : (n : ℚ) * 2 ^ t < 2 ^ (1024 : ℤ)) :
    Exactly x (n * 2 ^ t) := by
  obtain ⟨k, f, hk, ⟨-, hlarge⟩ | ⟨m, e, hshape, hvalue⟩⟩ := hx
  · rw [hk.eq hq] at hlarge
    exact absurd hsmall (not_lt.2 hlarge)
  · exact ⟨m, e, hshape, hvalue.trans (hk.eq hq)⟩

/-- A number of as many bits as a double has, below all infinity, is its own nearest double. -/
theorem Nearest.exactly (hx : Nearest x (m * 2 ^ e)) (hm : m < 2 ^ 53) (he : -1074 ≤ e) (hlarge : e ≤ 971) :
    Exactly x (m * 2 ^ e) := by
  obtain ⟨n, t, hrounds, hvalue⟩ := exists_rounds hm he
  have hexact := hx.exactly_of_rounds hrounds (hvalue.trans_lt (mul_two_pow_lt_of_le hm hlarge))
  rwa [hvalue] at hexact

/-- A double that is finite stands for what the number is rounded to. -/
theorem Nearest.rounds (hx : Nearest x q) {r : ℚ} (hr : Exactly x r) : ∃ n t, Rounds q n t ∧ r = n * 2 ^ t := by
  obtain ⟨n, t, hrounds, ⟨hinfinite, -⟩ | ⟨m, e, hshape, hvalue⟩⟩ := hx
  · obtain ⟨_, _, hfinite, -⟩ := hr
    cases hinfinite.symm.trans hfinite
  · exact ⟨n, t, hrounds, hr.unique ⟨m, e, hshape, hvalue⟩⟩

/-- What is nearest to a smaller number is no larger double. -/
theorem Nearest.exists_exactly (hx : Nearest x p) (hy : Nearest y q) (hle : p ≤ q) {r : ℚ} (hr : Exactly y r) :
    ∃ s ≤ r, Exactly x s := by
  obtain ⟨k, f, hk, rfl⟩ := hy.rounds hr
  obtain ⟨n, t, hn, ⟨-, hlarge⟩ | ⟨m, e, hshape, hvalue⟩⟩ := hx
  · have hsmall := (hn.mono hk hle).trans_lt hr.lt_two_pow
    exact absurd hsmall (not_lt.2 hlarge)
  · exact ⟨_, hn.mono hk hle, m, e, hshape, hvalue⟩

/-- No two doubles are nearest to a number, unless they are both infinite. -/
theorem Nearest.eq (hx : Nearest x q) (hy : Nearest y q) {r : ℚ} (hr : Exactly y r) : x = y := by
  obtain ⟨s, hs, hexact⟩ := hx.exists_exactly hy le_rfl hr
  obtain ⟨s', hs', hexact'⟩ := hy.exists_exactly hx le_rfl hexact
  obtain rfl := hr.unique hexact'
  obtain rfl := le_antisymm hs hs'
  exact hexact.eq hr

/-! ### Arithmetic -/

theorem rounds_whole (hbits : -1074 < e → 2 ^ 52 ≤ m) :
    Rounds (m * 2 ^ e) (shiftToTargetExponent .binary64 m e .exact).1.roundedMantissa
      (shiftToTargetExponent .binary64 m e .exact).2 := by
  have hrounds := @rounds_shiftToTargetExponent m 1 e one_pos (by rwa [Nat.div_one])
  simpa [Nat.mod_one, accuracyOfFraction] using hrounds

theorem toModel_mul (x y : Float) :
    (x * y).toModel = Float.Model.pack (UnpackedFloat.mul .binary64 x.toModel.unpack y.toModel.unpack) := rfl

theorem nearest_mul_zero (hx : (x * y).toModel = Float.Model.pack (.zero (signOf false))) (hpq : p * q = 0) :
    Nearest (x * y) (p * q) :=
  hpq ▸ nearest_zero (shape_pack_zero hx)

theorem nearest_mul (hx : Exactly x p) (hy : Exactly y q) : Nearest (x * y) (p * q) := by
  obtain ⟨m, e, hshape, rfl⟩ := hx
  obtain ⟨k, f, hshape', rfl⟩ := hy
  have hmul := toModel_mul x y
  have hcanonical := (toBits_of_shape hshape).1
  have hcanonical' := (toBits_of_shape hshape').1
  rcases unpack_of_finite hshape with ⟨rfl, hunpack⟩ | ⟨hm, -, hunpack⟩
  · refine nearest_mul_zero ?_ (by simp)
    rw [hmul, hunpack]
    rcases unpack_of_finite hshape' with ⟨-, hunpack'⟩ | ⟨_, -, hunpack'⟩
    · rw [hunpack']
      rfl
    · rw [hunpack']
      rfl
  · rcases unpack_of_finite hshape' with ⟨rfl, hunpack'⟩ | ⟨hk, -, hunpack'⟩
    · refine nearest_mul_zero ?_ (by simp)
      rw [hmul, hunpack, hunpack']
      rfl
    · -- One of the two mantissas has all its bits unless the product is below all doubles.
      have hbits : -1074 < e + f → 2 ^ 52 ≤ m * k := by
        intro hnormal
        have hnormal' : -1074 < e ∨ -1074 < f := by
          have hlow := hcanonical.subnormal
          have hlow' := hcanonical'.subnormal
          omega
        rcases hnormal' with hnormal | hnormal
        · exact (hcanonical.normal hnormal).trans (Nat.le_mul_of_pos_right m hk)
        · exact (hcanonical'.normal hnormal).trans (Nat.le_mul_of_pos_left k hm)
      have hvalue : ((m * k : ℕ) : ℚ) * 2 ^ (e + f) = m * 2 ^ e * (k * 2 ^ f) := by
        rw [zpow_add₀ two_ne_zero]
        push_cast
        ring
      rw [← hvalue]
      refine nearest_of_round (rounds_whole hbits) ?_
      rw [hmul, hunpack, hunpack']
      rfl

theorem Exactly.nearest_div (hx : Exactly x p) (hy : Exactly y q) (hq : q ≠ 0) : Nearest (x / y) (p / q) := by
  obtain ⟨m, e, hshape, rfl⟩ := hx
  obtain ⟨k, f, hshape', rfl⟩ := hy
  rcases unpack_of_finite hshape' with ⟨rfl, -⟩ | ⟨hk, -, hunpack'⟩
  · exact absurd (by simp) hq
  · exact Binary64.nearest_div hshape hunpack'

/-! ### Integers and decimals -/

theorem nearest_toFloat (hn : n < 2 ^ 64) : Nearest n.toUInt64.toFloat n := by
  have hfloat : n.toUInt64.toFloat.toModel
      = Float.Model.pack (UnpackedFloat.normalize .binary64 (n.toUInt64.toNat : ℤ) 0 .positive) := rfl
  have htoNat : n.toUInt64.toNat = n := Nat.mod_eq_of_lt hn
  rw [htoNat, UnpackedFloat.normalize] at hfloat
  rcases Nat.eq_zero_or_pos n with rfl | hpos
  · have hzero : (0 : ℕ).toUInt64.toFloat.toModel = Float.Model.pack (.zero (signOf false)) := hfloat
    simpa using nearest_zero (shape_pack_zero hzero)
  · have hcompare : compare (n : ℤ) 0 = .gt := Int.compare_eq_gt.2 (by omega)
    rw [hcompare] at hfloat
    obtain ⟨s, hs⟩ : ∃ s, s = (0 - Format.binary64.targetExponent (totalExponent n 0)).toNat := ⟨_, rfl⟩
    have hround : n.toUInt64.toFloat.toModel
        = Float.Model.pack (roundWithAccuracy .binary64 .positive (n <<< s) (0 - s) .exact) := by
      rw [hfloat, hs]
      rfl
    rw [targetExponent_eq, totalExponent] at hs
    have hbits : -1074 < (0 - s : ℤ) → 2 ^ 52 ≤ n <<< s := by
      intro _
      rw [Nat.shiftLeft_eq]
      calc 2 ^ 52 ≤ 2 ^ (n.log2 + s) := Nat.pow_le_pow_right two_pos (by omega)
        _ = 2 ^ n.log2 * 2 ^ s := Nat.pow_add _ _ _
        _ ≤ n * 2 ^ s := Nat.mul_le_mul_right _ (Nat.log2_self_le hpos.ne')
    have hvalue : ((n <<< s : ℕ) : ℚ) * 2 ^ (0 - s : ℤ) = n := by
      rw [Nat.shiftLeft_eq, Nat.cast_mul, Nat.cast_pow, Nat.cast_ofNat, mul_assoc, ← zpow_natCast,
        ← zpow_add₀ two_ne_zero, add_sub_cancel, zpow_zero, mul_one]
    rw [← hvalue]
    exact nearest_of_round (rounds_whole hbits) hround

theorem exactly_toFloat (hn : n < 2 ^ 53) : Exactly n.toUInt64.toFloat n := by
  have hnearest : Nearest n.toUInt64.toFloat (n * 2 ^ (0 : ℤ)) := by simpa using nearest_toFloat (hn.trans (by decide))
  simpa using hnearest.exactly hn (by decide) (by decide)

theorem shape_powers : ∀ k : Fin 23, shape Float.exactlyRepresentablePowersOfTen[k]
    = .finite false (5 ^ k.1 * 2 ^ (52 - (5 ^ k.1).log2)) (k.1 - (52 - (5 ^ k.1).log2 : ℕ)) := by
  decide +kernel

theorem exactly_powers (k : Fin 23) : Exactly Float.exactlyRepresentablePowersOfTen[k] (10 ^ k.1) := by
  refine ⟨_, _, shape_powers k, ?_⟩
  have hten : (10 : ℚ) ^ k.1 = 5 ^ k.1 * 2 ^ k.1 := by rw [← mul_pow]; norm_num
  rw [Nat.cast_mul, Nat.cast_pow, Nat.cast_pow, Nat.cast_ofNat, Nat.cast_ofNat, mul_assoc, ← zpow_natCast 2 (52 - _),
    ← zpow_add₀ two_ne_zero, add_sub_cancel, zpow_natCast, hten]

theorem ofScientific_eq {c j : ℕ} (hc : c < 2 ^ 53) (hj : j < 23) (negative : Bool) :
    Float.ofScientific c negative j = if negative then c.toUInt64.toFloat / Float.exactlyRepresentablePowersOfTen[j]
      else c.toUInt64.toFloat * Float.exactlyRepresentablePowersOfTen[j] :=
  dif_pos ⟨hc, Nat.le_of_lt_succ hj⟩

/-- A decimal of at most fifty-three bits, with at most twenty-two places, is written as the nearest double. -/
theorem nearest_ofScientific {c j : ℕ} (hc : c < 2 ^ 53) (hj : j < 23) :
    Nearest (Float.ofScientific c true j) (c / 10 ^ j) := by
  rw [ofScientific_eq hc hj, if_pos rfl]
  exact (exactly_toFloat hc).nearest_div (exactly_powers ⟨j, hj⟩) (by positivity)

theorem ofScientific_whole {c j : ℕ} (hc : c ≠ 0) (hj : j ≤ 2 ^ 11) :
    UnpackedFloat.ofScientific .binary64 c (j : ℤ)
      = roundWithAccuracy .binary64 .positive (c <<< 53 * 10 ^ j) (-53 + 0) .exact := by
  have hexponents : Format.binary64.exponentBits = 11 := rfl
  rw [UnpackedFloat.ofScientific, dif_neg hc, if_neg, if_neg, if_pos (Int.natCast_nonneg j)]
  · rfl
  · rw [hexponents]
    omega
  · rw [hexponents]
    omega

theorem nearest_ofScientific_whole {c j : ℕ} (hj : j ≤ 2 ^ 11) :
    Nearest (Float.ofScientific c false j) (c * 10 ^ j) := by
  by_cases hsmall : c < 2 ^ 53 ∧ j < 23
  · rw [ofScientific_eq hsmall.1 hsmall.2, if_neg (by decide)]
    exact nearest_mul (exactly_toFloat hsmall.1) (exactly_powers ⟨j, hsmall.2⟩)
  · have hmodel : (Float.ofScientific c false j).toModel
        = Float.Model.pack (UnpackedFloat.ofScientific .binary64 c (j : ℤ)) :=
      congrArg Float.toModel (dif_neg fun h => hsmall ⟨h.1, Nat.lt_succ_of_le h.2⟩)
    by_cases hzero : c = 0
    · rw [UnpackedFloat.ofScientific, dif_pos hzero, ← signOf_false] at hmodel
      have hproduct : (c : ℚ) * 10 ^ j = 0 := by rw [hzero, Nat.cast_zero, zero_mul]
      rw [hproduct]
      exact nearest_zero (shape_pack_zero hmodel)
    · rw [ofScientific_whole hzero hj] at hmodel
      have hbits : -1074 < (-53 + 0 : ℤ) → 2 ^ 52 ≤ c <<< 53 * 10 ^ j := by
        intro _
        rw [Nat.shiftLeft_eq]
        calc 2 ^ 52 ≤ 1 * 2 ^ 53 := by decide
          _ ≤ c * 2 ^ 53 := Nat.mul_le_mul_right _ (Nat.pos_of_ne_zero hzero)
          _ ≤ c * 2 ^ 53 * 10 ^ j := Nat.le_mul_of_pos_right _ (by positivity)
      have hvalue : ((c <<< 53 * 10 ^ j : ℕ) : ℚ) * 2 ^ (-53 + 0 : ℤ) = c * 10 ^ j := by
        rw [Nat.shiftLeft_eq]
        push_cast
        have hcancel : (9007199254740992 : ℚ) * 2 ^ (-53 : ℤ) = 1 := by norm_num
        linear_combination (c : ℚ) * 10 ^ j * hcancel
      rw [← hvalue]
      exact nearest_of_round (rounds_whole hbits) hmodel

theorem nearest_ofNat (n : ℕ) : Nearest (Float.ofNat n) n := by
  have hnearest := @nearest_ofScientific_whole n 0 (Nat.zero_le _)
  rwa [pow_zero, mul_one] at hnearest

/-! ### Signs -/

theorem shape_neg {negative : Bool} (hx : shape x = .finite negative m e) : shape (-x) = .finite (!negative) m e := by
  have hneg : (-x).toModel = Float.Model.pack x.toModel.unpack.neg := rfl
  have hsign : -signOf negative = signOf (!negative) := by cases negative <;> rfl
  have hcanonical := (toBits_of_shape hx).1
  rcases unpack_of_finite hx with ⟨rfl, hunpack⟩ | ⟨hm, -, hunpack⟩
  · rw [hunpack, UnpackedFloat.neg, hsign] at hneg
    have hlowest : e = -1074 := by
      by_contra hne
      exact absurd (hcanonical.normal (lt_of_le_of_ne hcanonical.subnormal (Ne.symm hne))) (by decide)
    rw [hlowest]
    exact shape_pack_zero hneg
  · rw [hunpack, UnpackedFloat.neg, hsign] at hneg
    rcases shape_pack hcanonical hneg with ⟨-, hlarge⟩ | hfinite
    · exact absurd (exponent_le_of_shape hx) (by omega)
    · exact hfinite

theorem toRat_neg (hx : shape x = .finite false m e) : toRat (-x) = -(m * 2 ^ e) := by
  rw [toRat_of_shape (shape_neg hx), Bool.not_false, if_pos rfl]

end Binary64

end TimedStreams
