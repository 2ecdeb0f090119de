import TimedStreams.Proofs.Literals
import TimedStreams.Proofs.Reach

/-!
# Shortest decimals read back

The decimal that stands for a double reads back as it (`Decimal.shortest_spec`): seventeen digits are
enough, since the reach of a double is wider than their grid. If another decimal, of at most fifteen
digits, reads back as well then no finer grid of powers of ten is tried than it is on
(`Decimal.foundAbove`), and it is the one that is found (`Decimal.FoundAbove.value_eq`).
-/

namespace TimedStreams.Decimal

open Binary64

/-! ### The power of ten of a number -/

theorem length_digits_le_iff {n k : ℕ} (hk : 0 < k) : (digits n).length ≤ k ↔ n < 10 ^ k :=
  Nat.length_toDigits_le_iff (by decide) hk

theorem lt_ten_pow_length (n : ℕ) : n < 10 ^ (digits n).length :=
  (length_digits_le_iff (List.length_pos_iff.2 (digits_ne_nil n))).1 le_rfl

theorem ten_pow_length_le {n : ℕ} (hn : n ≠ 0) : 10 ^ ((digits n).length - 1) ≤ n := by
  by_contra hlt
  rcases Nat.eq_zero_or_pos ((digits n).length - 1) with hzero | hpos
  · rw [hzero, pow_zero] at hlt
    omega
  · have hle := (length_digits_le_iff hpos).2 (not_le.1 hlt)
    omega

theorem leadingExponent_spec {num den : ℕ} (hnum : 0 < num) (hden : 0 < den) :
    (10 : ℚ) ^ leadingExponent num den ≤ num / den ∧ (num : ℚ) / den < 10 ^ (leadingExponent num den + 1) := by
  have hcast : (0 : ℚ) < den := by exact_mod_cast hden
  rw [leadingExponent, le_div_iff₀ hcast, div_lt_iff₀ hcast]
  split
  · next hle =>
    obtain ⟨k, hk⟩ : ∃ k, (digits (num / den)).length = k + 1 :=
      ⟨_, (Nat.succ_pred_eq_of_pos (List.length_pos_iff.2 (digits_ne_nil _))).symm⟩
    have hlow := ten_pow_length_le (Nat.div_pos hle hden).ne'
    have hhigh := lt_ten_pow_length (num / den)
    rw [hk, Nat.add_sub_cancel] at hlow
    rw [hk] at hhigh
    rw [hk, Nat.cast_add_one, add_sub_cancel_right, zpow_natCast, ← Nat.cast_add_one, zpow_natCast]
    constructor
    · exact_mod_cast (Nat.mul_le_mul_right den hlow).trans (Nat.div_mul_le_self num den)
    · exact_mod_cast (Nat.div_lt_iff_lt_mul hden).1 hhigh
  · next hgt =>
    obtain ⟨k, hk⟩ : ∃ k, (digits ((den - 1) / num)).length = k + 1 :=
      ⟨_, (Nat.succ_pred_eq_of_pos (List.length_pos_iff.2 (digits_ne_nil _))).symm⟩
    have hlow := ten_pow_length_le (Nat.div_pos (by omega : num ≤ den - 1) hnum).ne'
    have hhigh := lt_ten_pow_length ((den - 1) / num)
    rw [hk, Nat.add_sub_cancel] at hlow
    rw [hk, Nat.div_lt_iff_lt_mul hnum] at hhigh
    have hbelow : 10 ^ k * num < den := by
      have hle := (Nat.mul_le_mul_right num hlow).trans (Nat.div_mul_le_self (den - 1) num)
      omega
    have hnext : -((k + 1 : ℕ) : ℤ) + 1 = -(k : ℤ) := by omega
    rw [hk, hnext, zpow_neg, zpow_neg, zpow_natCast, zpow_natCast, inv_mul_le_iff₀ (by positivity),
      lt_inv_mul_iff₀ (by positivity)]
    constructor
    · have hnat : den ≤ 10 ^ (k + 1) * num := by omega
      exact_mod_cast hnat
    · exact_mod_cast hbelow

/-! ### The decimal that is found -/

variable {m : ℕ} {e : ℤ} {q : ℚ}

/-- The number `coefficient * 10 ^ exponent` itself. -/
def Scientific.value (s : Scientific) : ℚ :=
  s.coefficient * 10 ^ s.exponent

def leading (m : ℕ) (e : ℤ) : ℤ :=
  leadingExponent (Reach.of m e).value (Reach.of m e).denominator

theorem leading_spec (hm : 0 < m) (e : ℤ) :
    (10 : ℚ) ^ leading m e ≤ m * 2 ^ e ∧ (m : ℚ) * 2 ^ e < 10 ^ (leading m e + 1) := by
  have hpos := (Nat.zero_le _).trans_lt (Reach.sound_of hm e).low_lt
  have hspec := leadingExponent_spec hpos (Reach.denominator_of_pos m e)
  rwa [Reach.value_of] at hspec

/-- Ten on a grid is one on the next. -/
def Scientific.trimmed (s : Scientific) : Scientific :=
  if s.coefficient = 10 then ⟨1, s.exponent + 1⟩ else s

theorem Scientific.value_trimmed (s : Scientific) : s.trimmed.value = s.value := by
  rw [trimmed]
  split
  · next hten =>
    rw [value, value, hten, zpow_add₀ (by norm_num)]
    push_cast
    ring
  · rfl

section Found

variable {tie : Tie}

/-- What is taken on the grid of the digits up to a place behind the first. -/
def decimalAt? (tie : Tie) (m : ℕ) (e : ℤ) (n : ℕ) : Option Scientific :=
  ((Reach.of m e).nearest? tie (leading m e - n)).map fun c => ⟨c, leading m e - n⟩

theorem shortest_eq (tie : Tie) (m : ℕ) (e : ℤ) :
    shortest tie m e = (((List.range 17).findSome? (decimalAt? tie m e)).map Scientific.trimmed).getD ⟨0, 0⟩ := by
  have htried : decimalAt? tie m e = fun (n : ℕ) =>
      ((Reach.of m e).nearest? tie (leading m e - n)).map fun c => ⟨c, leading m e - n⟩ := rfl
  simp only [shortest, htried, leading]
  generalize (List.range 17).findSome? _ = found
  cases found with
  | none => rfl
  | some s =>
    obtain ⟨c, f⟩ := s
    rw [Option.map_some, Option.getD_some, Scientific.trimmed]
    split
    · next hten =>
      obtain ⟨rfl, rfl⟩ := Scientific.mk.inj (Option.some.inj hten)
      rfl
    · next hne hsome =>
      obtain rfl := Option.some.inj hsome
      exact (if_neg fun hten => hne f (congrArg (Scientific.mk · f) hten)).symm
    · next hnone => cases hnone

/-- No more digits are tried than are needed. -/
theorem shortest_of_isSome {n₀ : ℕ} (hn₀ : n₀ < 17) (hsome : (decimalAt? tie m e n₀).isSome) :
    ∃ n ≤ n₀, ∃ s, decimalAt? tie m e n = some s ∧ shortest tie m e = s.trimmed := by
  obtain ⟨k, hk⟩ : ∃ k, 17 = n₀ + 1 + k := ⟨17 - (n₀ + 1), by omega⟩
  have hfront : ((List.range (n₀ + 1)).findSome? (decimalAt? tie m e)).isSome :=
    List.findSome?_isSome_iff.2 ⟨n₀, List.mem_range.2 (Nat.lt_succ_self _), hsome⟩
  obtain ⟨s, hs⟩ := Option.isSome_iff_exists.1 hfront
  obtain ⟨n, hn, hfound⟩ := List.exists_of_findSome?_eq_some hs
  refine ⟨n, Nat.le_of_lt_succ (List.mem_range.1 hn), s, hfound, ?_⟩
  rw [shortest_eq, hk, List.range_add, List.findSome?_append, hs]
  rfl

theorem leading_spec' (hm : 0 < m) (e : ℤ) :
    (10 : ℚ) ^ leading m e * (Reach.of m e).denominator ≤ (Reach.of m e).value ∧
      ((Reach.of m e).value : ℚ) < 10 ^ (leading m e + 1) * (Reach.of m e).denominator := by
  have hden : (0 : ℚ) < (Reach.of m e).denominator := by exact_mod_cast Reach.denominator_of_pos m e
  have hspec := leading_spec hm e
  rwa [← Reach.value_of, le_div_iff₀ hden, div_lt_iff₀ hden] at hspec

theorem down_bounds (hm : 0 < m) (e : ℤ) (n : ℕ) :
    10 ^ n ≤ (Reach.of m e).down (leading m e - n) ∧ (Reach.of m e).down (leading m e - n) < 10 ^ (n + 1) := by
  obtain ⟨hlow, hhigh⟩ := leading_spec' hm e
  obtain ⟨f, hf⟩ : ∃ f, f = leading m e - n := ⟨_, rfl⟩
  have hunit : 0 < (Reach.of m e).denominator * 10 ^ f.toNat :=
    Nat.mul_pos (Reach.denominator_of_pos m e) (by positivity)
  have hpos : (0 : ℚ) < 10 ^ (-f).toNat := by positivity
  have hscaled : ∀ k : ℕ, ((10 ^ k * ((Reach.of m e).denominator * 10 ^ f.toNat) : ℕ) : ℚ)
      = 10 ^ (k + f) * (Reach.of m e).denominator * 10 ^ (-f).toNat := fun k => by
    rw [Nat.cast_mul, Reach.cast_unit, zpow_add₀ (by norm_num), zpow_natCast]
    push_cast
    ring
  rw [← hf, Reach.down, Nat.le_div_iff_mul_le hunit, Nat.div_lt_iff_lt_mul hunit]
  constructor
  · have hrat : ((10 ^ n * ((Reach.of m e).denominator * 10 ^ f.toNat) : ℕ) : ℚ)
        ≤ ((Reach.of m e).value * 10 ^ (-f).toNat : ℕ) := by
      rw [hscaled, show (n : ℤ) + f = leading m e by omega]
      push_cast
      gcongr
    exact_mod_cast hrat
  · have hrat : (((Reach.of m e).value * 10 ^ (-f).toNat : ℕ) : ℚ)
        < (10 ^ (n + 1) * ((Reach.of m e).denominator * 10 ^ f.toNat) : ℕ) := by
      rw [hscaled, show ((n + 1 : ℕ) : ℤ) + f = leading m e + 1 by omega]
      push_cast
      gcongr
    exact_mod_cast hrat

theorem of_decimalAt? {n : ℕ} {s : Scientific} (hm : 0 < m) (hs : decimalAt? tie m e n = some s) :
    (Reach.of m e).Has s.value ∧ s.exponent = leading m e - n ∧
      10 ^ n ≤ s.coefficient ∧ s.coefficient ≤ 10 ^ (n + 1) := by
  obtain ⟨c, hc, rfl⟩ := Option.map_eq_some_iff.1 hs
  obtain ⟨hhas, hnext⟩ := Reach.of_nearest? (Reach.sound_of hm e) hc
  obtain ⟨hlow, hhigh⟩ := down_bounds hm e n
  refine ⟨hhas, rfl, ?_⟩
  rcases hnext with rfl | rfl
  · exact ⟨hlow, hhigh.le⟩
  · exact ⟨hlow.trans (Nat.le_succ _), hhigh⟩

/-- The grid of seventeen digits is narrower than the reach of a double, so that the last of its numbers below
the upper end of the reach lies in it. -/
theorem Reach.exists_has (hm : 0 < m) (hlt : m < 2 ^ 53) (e : ℤ) :
    ∃ c : ℕ, (Reach.of m e).Has (c * 10 ^ (leading m e - (16 : ℕ))) := by
  obtain ⟨unit, hunit⟩ : ∃ unit : ℚ, unit = 10 ^ (leading m e - (16 : ℕ)) := ⟨_, rfl⟩
  obtain ⟨quarter, hquarter⟩ : ∃ quarter : ℚ, quarter = 2 ^ (e - 2) := ⟨_, rfl⟩
  have hpos : 0 < unit := hunit ▸ by positivity
  have hpos' : 0 < quarter := hquarter ▸ by positivity
  have hfine : unit * 10 ^ 16 ≤ 4 * m * quarter := by
    calc unit * 10 ^ 16 = 10 ^ leading m e := by
          rw [hunit, ← zpow_natCast, ← zpow_add₀ (by norm_num), sub_add_cancel]
      _ ≤ m * 2 ^ e := (leading_spec hm e).1
      _ = 4 * m * quarter := by
        rw [hquarter, two_zpow_sub_two]
        ring
  have hwide : (4 * m + 10 ^ 16 * lowQuarters m e : ℚ) < 10 ^ 16 * (4 * m + 2 : ℕ) := by
    have hnat : 4 * m + 10 ^ 16 * lowQuarters m e < 10 ^ 16 * (4 * m + 2) := by
      rw [lowQuarters]
      split <;> omega
    exact_mod_cast hnat
  have hroom : unit + lowQuarters m e * quarter < (4 * m + 2 : ℕ) * quarter := by
    have hmul := mul_lt_mul_of_pos_right hwide hpos'
    linarith
  -- The last multiple of the unit that is below the upper end is above the lower end.
  have hhigh : 0 < (4 * m + 2 : ℕ) * quarter / unit := by positivity
  obtain ⟨c, hc⟩ : ∃ c, ⌈(4 * m + 2 : ℕ) * quarter / unit⌉₊ = c + 1 :=
    ⟨_, (Nat.succ_pred_eq_of_pos (Nat.ceil_pos.2 hhigh)).symm⟩
  have hbelow : (c : ℚ) * unit < (4 * m + 2 : ℕ) * quarter :=
    (lt_div_iff₀ hpos).1 (Nat.lt_ceil.1 (hc ▸ Nat.lt_succ_self c))
  have habove : (4 * m + 2 : ℕ) * quarter ≤ (c + 1) * unit := by
    have hceil := Nat.le_ceil ((4 * m + 2 : ℕ) * quarter / unit)
    rw [hc, div_le_iff₀ hpos] at hceil
    exact_mod_cast hceil
  refine ⟨c, Reach.has_of.2 ?_⟩
  rw [← hunit, ← hquarter]
  have hlow : lowQuarters m e * quarter < c * unit := by linarith
  split
  · exact ⟨hlow.le, hbelow.le⟩
  · exact ⟨hlow, hbelow⟩

/-- The decimal of a double reads back. -/
theorem shortest_spec (hm : 0 < m) (hlt : m < 2 ^ 53) (tie : Tie) (e : ℤ) :
    0 < (shortest tie m e).coefficient ∧ (shortest tie m e).coefficient ≤ 10 ^ 17 ∧
      (Reach.of m e).Has (shortest tie m e).value := by
  have hsome : (decimalAt? tie m e 16).isSome := by
    obtain ⟨c, hc⟩ := Reach.exists_has hm hlt e
    rw [decimalAt?, Option.isSome_map]
    exact Reach.isSome_nearest? hc tie
  obtain ⟨n, hn, s, hs, heq⟩ := shortest_of_isSome (by decide) hsome
  obtain ⟨hhas, -, hlow, hhigh⟩ := of_decimalAt? hm hs
  rw [heq, Scientific.value_trimmed, Scientific.trimmed]
  split
  · exact ⟨one_pos, Nat.one_le_pow _ _ (by decide), hhas⟩
  · exact ⟨(Nat.pow_pos (by decide)).trans_le hlow, hhigh.trans (Nat.pow_le_pow_right (by decide) (Nat.succ_le_succ hn)),
      hhas⟩

end Found

/-! ### Decimals of few digits -/

theorem Scientific.trimmed_spec {s : Scientific} (hs : 0 < s.coefficient) :
    0 < s.trimmed.coefficient ∧ s.exponent ≤ s.trimmed.exponent := by
  rw [trimmed]
  split
  · exact ⟨one_pos, (Int.lt_succ s.exponent).le⟩
  · exact ⟨hs, le_rfl⟩

section Few

variable {c₀ : ℕ} {e₀ : ℤ} (tie : Tie) (hm : 2 ^ 52 ≤ m) (hc₀ : 0 < c₀) (hhas : (Reach.of m e).Has (c₀ * 10 ^ e₀))

/-- What is found for a double is a decimal on a grid that is as coarse as this one, and reads back. -/
structure FoundAbove (tie : Tie) (m : ℕ) (e e₀ : ℤ) : Prop where
  coefficient_pos : 0 < (shortest tie m e).coefficient
  le_exponent : e₀ ≤ (shortest tie m e).exponent
  has_value : (Reach.of m e).Has (shortest tie m e).value

include hm hhas in
/-- The grid is one of those that are tried. -/
theorem foundAbove_of_le (hdigits : c₀ ≤ 10 ^ 15) (hle : e₀ ≤ leading m e) : FoundAbove tie m e e₀ := by
  have hpos : 0 < m := (Nat.two_pow_pos 52).trans_le hm
  obtain ⟨n₀, hn₀⟩ : ∃ n₀ : ℕ, leading m e = e₀ + n₀ := ⟨(leading m e - e₀).toNat, by omega⟩
  -- Seventeen places further down, fifteen digits do not come near the double.
  have hless : n₀ < 17 := by
    have hclose := hhas.close hm (Reach.has_self hpos e)
    have hlow := (leading_spec hpos e).1
    have hfew : (c₀ : ℚ) ≤ 10 ^ 15 := by exact_mod_cast hdigits
    by_contra hge
    have hpower : (10 : ℚ) ^ 17 * 10 ^ e₀ ≤ 10 ^ leading m e := by
      rw [hn₀, zpow_add₀ (by norm_num), mul_comm, zpow_natCast]
      gcongr
      · norm_num
      · omega
    have hbound : (c₀ : ℚ) * 10 ^ e₀ ≤ 10 ^ 15 * 10 ^ e₀ := by gcongr
    have htenth : (0 : ℚ) < 10 ^ e₀ := by positivity
    linarith
  have hsome : (decimalAt? tie m e n₀).isSome := by
    rw [decimalAt?, Option.isSome_map, hn₀, add_sub_cancel_right]
    exact Reach.isSome_nearest? hhas tie
  obtain ⟨n, hn, s, hs, heq⟩ := shortest_of_isSome hless hsome
  obtain ⟨hhas', hexponent, hcoefficient, -⟩ := of_decimalAt? hpos hs
  obtain ⟨hcoefficient', hexponent'⟩ := Scientific.trimmed_spec ((Nat.pow_pos (by decide)).trans_le hcoefficient)
  exact ⟨heq ▸ hcoefficient', heq ▸ (by omega : e₀ ≤ s.exponent).trans hexponent',
    heq ▸ s.value_trimmed.symm ▸ hhas'⟩

include hm in
theorem shortest_of_has (hten : (Reach.of m e).Has (10 ^ (leading m e + 1))) :
    shortest tie m e = ⟨1, leading m e + 1⟩ ∧ (Reach.of m e).Has (shortest tie m e).value := by
  have hpos : 0 < m := (Nat.two_pow_pos 52).trans_le hm
  have hpower : ((10 : ℕ) : ℚ) * 10 ^ leading m e = 10 ^ (leading m e + 1) := by
    rw [zpow_add₀ (by norm_num), mul_comm]
    norm_num
  rw [← hpower] at hten
  have hsome : (decimalAt? tie m e 0).isSome := by
    rw [decimalAt?, Option.isSome_map, Nat.cast_zero, sub_zero]
    exact Reach.isSome_nearest? hten tie
  obtain ⟨n, hn, s, hs, heq⟩ := shortest_of_isSome (by decide) hsome
  obtain rfl : n = 0 := Nat.le_zero.1 hn
  obtain ⟨hhas, hexponent, -, hcoefficient⟩ := of_decimalAt? hpos hs
  rw [Nat.cast_zero, sub_zero] at hexponent
  -- Nine units are too far below ten to read back as the same double.
  have hcoefficient' : s.coefficient = 10 := by
    by_contra hne
    have hnine : s.coefficient ≤ 9 := by omega
    have hclose := hhas.close hm hten
    have hvalue : s.value ≤ 9 * 10 ^ leading m e := by
      rw [Scientific.value, hexponent]
      gcongr
      exact_mod_cast hnine
    have htenth : (0 : ℚ) < 10 ^ leading m e := by positivity
    push_cast at hclose
    linarith
  constructor
  · rw [heq, Scientific.trimmed, if_pos hcoefficient', hexponent]
  · rwa [heq, Scientific.value_trimmed]

include hm hc₀ hhas in
/-- The double is just below a power of ten that reads back. -/
theorem foundAbove_of_gt (hgt : leading m e < e₀) : FoundAbove tie m e e₀ := by
  have hpos : 0 < m := (Nat.two_pow_pos 52).trans_le hm
  have hself := Reach.has_self hpos e
  have hhigh := (leading_spec hpos e).2
  have hgrid : (10 : ℚ) ^ e₀ ≤ c₀ * 10 ^ e₀ := le_mul_of_one_le_left (by positivity) (by exact_mod_cast hc₀)
  have hten : (Reach.of m e).Has (10 ^ (leading m e + 1)) := by
    refine Reach.has_convex hself hhas hhigh.le (le_trans ?_ hgrid)
    exact zpow_le_zpow_right₀ (by norm_num) (by omega)
  obtain ⟨hfound, hhas'⟩ := shortest_of_has tie hm hten
  have hnear : e₀ ≤ leading m e + 1 := by
    have hclose := hself.close hm hhas
    by_contra hlt
    have hfar : (10 : ℚ) * 10 ^ (leading m e + 1) ≤ 10 ^ e₀ := by
      rw [mul_comm, ← zpow_add_one₀ (by norm_num)]
      exact zpow_le_zpow_right₀ (by norm_num) (by omega)
    have htenth : (0 : ℚ) < 10 ^ (leading m e + 1) := by positivity
    linarith
  exact ⟨hfound ▸ one_pos, hfound ▸ hnear, hhas'⟩

include hm hc₀ hhas in
theorem foundAbove (hdigits : c₀ ≤ 10 ^ 15) : FoundAbove tie m e e₀ := by
  rcases le_or_gt e₀ (leading m e) with hle | hgt
  · exact foundAbove_of_le tie hm hhas hdigits hle
  · exact foundAbove_of_gt tie hm hc₀ hhas hgt

include hm hhas in
/-- Nothing else on the grid of a decimal of at most fifteen digits reads back, so that decimal is found. -/
theorem FoundAbove.value_eq {tie : Tie} (hfound : FoundAbove tie m e e₀) (hdigits : c₀ ≤ 10 ^ 15) :
    (shortest tie m e).value = c₀ * 10 ^ e₀ := by
  obtain ⟨i, hi⟩ : ∃ i : ℕ, (shortest tie m e).exponent = i + e₀ :=
    ⟨((shortest tie m e).exponent - e₀).toNat, by have := hfound.le_exponent; omega⟩
  obtain ⟨c, hc⟩ : ∃ c, c = (shortest tie m e).coefficient * 10 ^ i := ⟨_, rfl⟩
  have hvalue : (shortest tie m e).value = c * 10 ^ e₀ := by
    rw [Scientific.value, hi, zpow_add₀ (by norm_num), zpow_natCast, hc]
    push_cast
    ring
  have hunit : (0 : ℚ) < 10 ^ e₀ := by positivity
  have hfew : (c₀ : ℚ) * 10 ^ e₀ ≤ 10 ^ 15 * 10 ^ e₀ := by
    gcongr
    exact_mod_cast hdigits
  have hthere := hvalue ▸ hfound.has_value
  rw [hvalue]
  rcases lt_trichotomy c c₀ with hlt | rfl | hgt
  · have hstep : ((c + 1 : ℕ) : ℚ) * 10 ^ e₀ ≤ c₀ * 10 ^ e₀ := by
      gcongr
      exact hlt
    push_cast at hstep
    linarith [hthere.close hm hhas]
  · rfl
  · have hstep : ((c₀ + 1 : ℕ) : ℚ) * 10 ^ e₀ ≤ c * 10 ^ e₀ := by
      gcongr
      exact hgt
    push_cast at hstep
    linarith [hhas.close hm hthere]

end Few

/-! ### The greatest double -/

def greatest : ℕ :=
  (2 ^ 53 - 1) * 2 ^ 971

theorem shortest_greatest : shortest .even (2 ^ 53 - 1) 971 = ⟨17976931348623157, 292⟩ := by
  decide +kernel

theorem le_greatest : 17976931348623157 * 10 ^ 292 ≤ greatest := by
  decide +kernel

theorem greatest_eq : greatest = 4 * (2 ^ 53 - 1) * 2 ^ 969 ∧ greatest = 8 * (2 ^ 53 - 1) * 2 ^ 968 := by
  decide +kernel

/-- All doubles but the greatest are below it by one of its last bits, and the reach of a double is half of one. -/
theorem reach_le_greatest (hm : m < 2 ^ 53) (he : e ≤ 971) (hless : ¬ (m = 2 ^ 53 - 1 ∧ e = 971)) :
    ((4 * m + 2 : ℕ) : ℚ) * 2 ^ (e - 2) ≤ greatest := by
  rcases eq_or_lt_of_le he with rfl | hlt
  · have hle : 4 * m + 2 ≤ 4 * (2 ^ 53 - 1) := by omega
    rw [greatest_eq.1, Nat.cast_mul, Nat.cast_pow, Nat.cast_ofNat, ← zpow_natCast]
    gcongr
    · exact one_le_two
    · decide
  · have hle : 4 * m + 2 ≤ 8 * (2 ^ 53 - 1) := by omega
    rw [greatest_eq.2, Nat.cast_mul, Nat.cast_pow, Nat.cast_ofNat, ← zpow_natCast]
    gcongr
    · exact one_le_two
    · push_cast
      omega

theorem value_shortest_le (hm : 0 < m) (hlt : m < 2 ^ 53) (he : e ≤ 971) : (shortest .even m e).value ≤ greatest := by
  obtain ⟨-, -, hhas⟩ := shortest_spec hm hlt .even e
  by_cases hgreatest : m = 2 ^ 53 - 1 ∧ e = 971
  · obtain ⟨rfl, rfl⟩ := hgreatest
    have hrat : ((17976931348623157 * 10 ^ 292 : ℕ) : ℚ) ≤ greatest := Nat.cast_le.2 le_greatest
    rw [Nat.cast_mul, Nat.cast_pow, ← zpow_natCast] at hrat
    rw [shortest_greatest]
    exact hrat
  · exact hhas.bounds.2.trans (reach_le_greatest hlt he hgreatest)

end TimedStreams.Decimal
