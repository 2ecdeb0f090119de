import Mathlib
import TimedStreams.Proofs.Literals

/-!
# Doubles as numerals

A finite double is spelled in one of four ways: with zeros up to the point, with the point among its digits,
with zeros behind the point (`Json.positionalLiteral`), or with an exponent (`Json.exponentialLiteral`).
Each is a number that is taken apart again, and its digits come to one integer, which stands apart from
the double by a power of ten (`Json.toFloat?_positional`, `Json.toFloat?_exponential`).
-/

namespace TimedStreams

namespace Decimal

theorem ofDigits_zeros_mul (n k : Nat) : ofDigits n (zeros k) = 10 ^ k * n :=
  Nat.ofDigitChars_replicate_zero

theorem le_ofDigits (n : Nat) (ds : List Char) : n ≤ ofDigits n ds := by
  induction ds generalizing n with
  | nil => exact Nat.le_refl n
  | cons d ds ih => exact Nat.le_trans (by omega) (ih (10 * n + digitValue d))

theorem isWhole_take {n k : Nat} (hk : 0 < k) : IsWhole ((digits n).take k) where
  digits := fun _ hc => isDigit_of_mem_digits (List.mem_of_mem_take hc)
  leading := by
    obtain ⟨k, rfl⟩ : ∃ j, k = j + 1 := ⟨k - 1, by omega⟩
    rcases (isWhole_digits n).leading with hzero | ⟨c, rest, hcons, hc⟩
    · rw [hzero, List.take_succ_cons, List.take_nil]
      exact .inl rfl
    · rw [hcons]
      exact .inr ⟨c, rest.take k, rfl, hc⟩

end Decimal

namespace Json

open Decimal

/-! ### The digits of a number -/

namespace Literal

variable {l : Literal}

theorem appendDigits_eq {n : Nat} {ds : List Char} (hfits : ofDigits n ds < 2 ^ 64) :
    appendDigits n ds = (ofDigits n ds, []) := by
  induction ds generalizing n with
  | nil => rfl
  | cons d ds ih =>
    have hnext : 10 * n + digitValue d < Nat.pow 2 64 := Nat.lt_of_le_of_lt (le_ofDigits _ ds) hfits
    rw [appendDigits]
    exact (if_pos hnext).trans (ih hfits)

theorem significand_eq (hfits : ofDigits 0 (l.whole ++ l.part) < 2 ^ 64) :
    l.significand = (ofDigits 0 (l.whole ++ l.part), -(l.part.length : Int)) := by
  rw [ofDigits_append] at hfits ⊢
  have hwhole := appendDigits_eq (Nat.lt_of_le_of_lt (le_ofDigits _ l.part) hfits)
  rw [significand, hwhole]
  simp only [appendDigits_eq hfits]
  exact Prod.ext rfl (by simp)

theorem toFloat?_of_none (hexponent : l.exponent = none) (hfits : ofDigits 0 (l.whole ++ l.part) < 2 ^ 64) :
    l.toFloat? = (scale? (Float.ofNat (ofDigits 0 (l.whole ++ l.part))) (-(l.part.length : Int))).map fun x =>
      if l.negative then -x else x := by
  simp only [toFloat?, significand_eq hfits, hexponent]

theorem toFloat?_of_some {negative : Bool} {n : Nat} (hexponent : l.exponent = some (negative, digits n))
    (hfits : ofDigits 0 (l.whole ++ l.part) < 2 ^ 64) (hn : n ≤ maxExponent) {shift : Int}
    (hshift : -(l.part.length : Int) + (if negative then -(n : Int) else n) = shift) :
    l.toFloat? = (scale? (Float.ofNat (ofDigits 0 (l.whole ++ l.part))) shift).map fun x =>
      if l.negative then -x else x := by
  have hsum : (if negative then -(l.part.length : Int) - n else -(l.part.length : Int) + n) = shift := by
    rw [← hshift]
    cases negative <;> rfl
  simp only [toFloat?, significand_eq hfits, hexponent, ofDigits_digits, hsum]
  rw [if_neg (Nat.not_lt.2 hn)]

end Literal

/-! ### The four ways to spell a double -/

/-- All digits in place. -/
def positionalLiteral (negative : Bool) (s : Scientific) : Literal :=
  let ds := digits s.coefficient
  let leading := s.exponent + ds.length - 1
  if 0 ≤ s.exponent then ⟨negative, ds ++ zeros s.exponent.toNat, ['0'], none⟩
  else if 0 ≤ leading then ⟨negative, ds.take (leading.toNat + 1), ds.drop (leading.toNat + 1), none⟩
  else ⟨negative, ['0'], zeros (-leading - 1).toNat ++ ds, none⟩

/-- The first digit before the point, and an exponent. -/
def exponentialLiteral (negative : Bool) (s : Scientific) : Literal :=
  let ds := digits s.coefficient
  let leading := s.exponent + ds.length - 1
  ⟨negative, ds.take 1, ds.drop 1, some (leading < 0, digits leading.natAbs)⟩

theorem spell_positionalLiteral (negative : Bool) (s : Scientific) :
    (positionalLiteral negative s).spell = withSign negative (floatLayout.positional s) := by
  have hpointed : floatLayout.pointed = true := rfl
  simp only [positionalLiteral, Layout.positional, hpointed, if_true]
  split
  · exact congrArg (withSign negative) (congrArg (_ ++ ·) (List.append_nil _))
  · split
    · have hmore : (digits s.coefficient).drop ((s.exponent + (digits s.coefficient).length - 1).toNat + 1) ≠ [] := by
        rw [Ne, List.drop_eq_nil_iff]
        omega
      simp only [Literal.spell, Literal.partText, Literal.exponentText, hmore, if_false, Option.elim_none,
        List.append_nil]
    · have hmore : zeros (-(s.exponent + (digits s.coefficient).length - 1) - 1).toNat ++ digits s.coefficient ≠ [] :=
        List.append_ne_nil_of_right_ne_nil _ (digits_ne_nil _)
      simp only [Literal.spell, Literal.partText, Literal.exponentText, hmore, if_false, Option.elim_none,
        List.append_nil, List.cons_append, List.nil_append]

theorem spell_exponentialLiteral (negative : Bool) (s : Scientific) :
    (exponentialLiteral negative s).spell = withSign negative (floatLayout.exponential s) := by
  have hsigned : floatLayout.signedExponent = true := rfl
  have hone : (digits s.coefficient).length = 1 ↔ (digits s.coefficient).drop 1 = [] := by
    have hpos := List.length_pos_iff.2 (digits_ne_nil s.coefficient)
    rw [List.drop_eq_nil_iff]
    omega
  simp only [exponentialLiteral, Layout.exponential, hsigned, if_true, hone, Literal.spell, Literal.partText,
    Literal.exponentText, Option.elim_some, List.append_assoc, decide_eq_true_eq]
  by_cases hleading : s.exponent + ((digits s.coefficient).length : Int) - 1 < 0
  · by_cases hmore : (digits s.coefficient).drop 1 = []
    · simp only [hleading, hmore, if_true, List.singleton_append]
    · simp only [hleading, hmore, if_true, if_false, List.singleton_append]
  · by_cases hmore : (digits s.coefficient).drop 1 = []
    · simp only [hleading, hmore, if_true, if_false, List.singleton_append]
    · simp only [hleading, hmore, if_false, List.singleton_append]

theorem proper_positionalLiteral (negative : Bool) {s : Scientific} (hs : s.coefficient ≠ 0 ∨ s.exponent = 0) :
    (positionalLiteral negative s).Proper := by
  have hdigits : ∀ c ∈ digits s.coefficient, isDigit c = true := fun _ => isDigit_of_mem_digits
  have hzero : ∀ c ∈ ['0'], isDigit c = true := fun c hc => List.mem_singleton.1 hc ▸ rfl
  simp only [positionalLiteral]
  split
  · refine ⟨⟨fun c hc => (List.mem_append.1 hc).elim (hdigits c) isDigit_of_mem_zeros, ?_⟩, hzero, nofun⟩
    rcases hs with hne | hzero
    · obtain ⟨c, ds, hcons, hc⟩ := exists_digits hne
      rw [hcons]
      exact .inr ⟨c, _, rfl, hc⟩
    · rw [hzero]
      exact (List.append_nil (digits s.coefficient)).symm ▸ (isWhole_digits s.coefficient).leading
  · split
    · exact ⟨isWhole_take (Nat.succ_pos _), fun c hc => hdigits c (List.mem_of_mem_drop hc), nofun⟩
    · exact ⟨⟨hzero, .inl rfl⟩, fun c hc => (List.mem_append.1 hc).elim isDigit_of_mem_zeros (hdigits c), nofun⟩

theorem proper_exponentialLiteral (negative : Bool) (s : Scientific) : (exponentialLiteral negative s).Proper where
  whole := isWhole_take one_pos
  part := fun _ hc => isDigit_of_mem_digits (List.mem_of_mem_drop hc)
  exponent := by
    intro negative' ds hexponent
    obtain ⟨-, rfl⟩ := Prod.mk.inj (Option.some.inj hexponent)
    exact ⟨digits_ne_nil _, fun _ => isDigit_of_mem_digits⟩

/-- The digits of a double in place, and the power of ten by which they stand apart from it. -/
def positionalReading (s : Scientific) : Nat × Int :=
  if 0 ≤ s.exponent then (s.coefficient * 10 ^ (s.exponent.toNat + 1), -1) else (s.coefficient, s.exponent)

theorem reading_positionalLiteral (negative : Bool) (s : Scientific) :
    (ofDigits 0 ((positionalLiteral negative s).whole ++ (positionalLiteral negative s).part),
      -((positionalLiteral negative s).part.length : Int)) = positionalReading s := by
  have hdigits := ofDigits_digits s.coefficient
  have hpos := List.length_pos_iff.2 (digits_ne_nil s.coefficient)
  simp only [positionalLiteral, positionalReading]
  split
  · refine Prod.ext ?_ rfl
    show ofDigits 0 (digits s.coefficient ++ zeros s.exponent.toNat ++ zeros 1) = _
    rw [ofDigits_append, ofDigits_append, hdigits, ofDigits_zeros_mul, ofDigits_zeros_mul, Nat.pow_succ]
    ring
  · split
    · refine Prod.ext ?_ ?_
      · rw [List.take_append_drop]
        exact hdigits
      · simp only [List.length_drop]
        omega
    · refine Prod.ext ?_ ?_
      · show ofDigits 0 (zeros 1 ++ (zeros _ ++ digits s.coefficient)) = _
        rw [ofDigits_append, ofDigits_append, ofDigits_zeros, ofDigits_zeros, hdigits]
      · simp only [List.length_append, zeros, List.length_replicate]
        omega

theorem toFloat?_positional (negative : Bool) {s : Scientific} (hs : s.coefficient ≠ 0 ∨ s.exponent = 0)
    (hfits : (positionalReading s).1 < 2 ^ 64) :
    (number (withSign negative (floatLayout.positional s))).toFloat?
      = (scale? (Float.ofNat (positionalReading s).1) (positionalReading s).2).map fun x =>
        if negative then -x else x := by
  have hreading := reading_positionalLiteral negative s
  have hnone : (positionalLiteral negative s).exponent = none := by
    simp only [positionalLiteral]
    split
    · rfl
    · split <;> rfl
  have hsign : (positionalLiteral negative s).negative = negative := by
    simp only [positionalLiteral]
    split
    · rfl
    · split <;> rfl
  rw [← hreading] at hfits ⊢
  rw [toFloat?, ← spell_positionalLiteral, Literal.of_spell (proper_positionalLiteral negative hs),
    Literal.toFloat?_of_none hnone hfits, hsign]

theorem toFloat?_exponential (negative : Bool) {s : Scientific} (hfits : s.coefficient < 2 ^ 64)
    (hexponent : (s.exponent + (digits s.coefficient).length - 1).natAbs ≤ maxExponent) :
    (number (withSign negative (floatLayout.exponential s))).toFloat?
      = (scale? (Float.ofNat s.coefficient) s.exponent).map fun x => if negative then -x else x := by
  have hdigits : ofDigits 0 ((exponentialLiteral negative s).whole ++ (exponentialLiteral negative s).part)
      = s.coefficient := by
    rw [exponentialLiteral, List.take_append_drop]
    exact ofDigits_digits _
  have hpos := List.length_pos_iff.2 (digits_ne_nil s.coefficient)
  have hlength : (exponentialLiteral negative s).part.length = (digits s.coefficient).length - 1 := List.length_drop
  have hshift : -((exponentialLiteral negative s).part.length : Int)
      + (if decide (s.exponent + ((digits s.coefficient).length : Int) - 1 < 0) = true
        then -((s.exponent + ((digits s.coefficient).length : Int) - 1).natAbs : Int)
        else (s.exponent + ((digits s.coefficient).length : Int) - 1).natAbs) = s.exponent := by
    rw [hlength]
    simp only [decide_eq_true_eq]
    split <;> omega
  rw [toFloat?, ← spell_exponentialLiteral, Literal.of_spell (proper_exponentialLiteral negative s),
    Literal.toFloat?_of_some rfl (by rwa [hdigits]) hexponent hshift, hdigits]
  rfl

end Json

end TimedStreams
