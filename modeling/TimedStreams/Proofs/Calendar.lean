import Mathlib
import TimedStreams.Proofs.Literals
import TimedStreams.Timestamp

/-!
# Points in calendar time are read back

The date of a day is found by arithmetic on the days of a period of four hundred years, which is counted
from a first of March so that the leap day comes last of its year. The year within the period is a
quotient of what is left of the days when every leap day so far is taken out (`leapless`), and as that
never decreases it is enough to look at the first and the last day of every year
(`firstDay_le_of_div`). Month and day then follow from the day of the year alone.

So a date stands for the day that it was made from (`Timestamp.daysOfDate_dateOfDays`), and a point in time
is written as a text that is read back (`Timestamp.read?_render`).
-/

namespace TimedStreams.Timestamp

/-! ### The year within four hundred years -/

/-- The days up to a day without the leap days among them. -/
def leapless (day : Nat) : Nat :=
  day - day / 1460 + day / 36524 - day / 146096

def firstDay (year : Nat) : Nat :=
  365 * year + year / 4 - year / 100 + year / 400

theorem leapless_mono : Monotone leapless := by
  refine monotone_nat_of_le_succ fun day => ?_
  unfold leapless
  omega

theorem leapless_year : ∀ year < 400, 365 * year ≤ leapless (firstDay year) ∧
    leapless (firstDay (year + 1) - 1) < 365 * (year + 1) := by
  decide +kernel

theorem firstDay_le_of_div {day : Nat} (hday : day < 146097) :
    firstDay (leapless day / 365) ≤ day ∧ day < firstDay (leapless day / 365 + 1) ∧ leapless day / 365 < 400 := by
  have hless : leapless day < 365 * 400 := by
    have hmono := leapless_mono (Nat.le_of_lt_succ hday : day ≤ 146096)
    have hlast : leapless 146096 < 365 * 400 := by decide +kernel
    omega
  obtain ⟨year, hyear⟩ : ∃ year, year = leapless day / 365 := ⟨_, rfl⟩
  have hlow : 365 * year ≤ leapless day := by omega
  have hhigh : leapless day < 365 * (year + 1) := by omega
  have hyear400 : year < 400 := by omega
  rw [← hyear]
  refine ⟨?_, ?_, hyear400⟩
  · by_contra hlt
    obtain ⟨before, rfl⟩ : ∃ before, year = before + 1 := ⟨year - 1, by
      rcases Nat.eq_zero_or_pos year with rfl | hpos
      · exact absurd (Nat.zero_le _) hlt
      · omega⟩
    have hmono := leapless_mono (by omega : day ≤ firstDay (before + 1) - 1)
    have hbound := (leapless_year before (by omega)).2
    omega
  · by_contra hge
    rcases Nat.lt_or_ge (year + 1) 400 with hlt | hge400
    · have hmono := leapless_mono (by omega : firstDay (year + 1) ≤ day)
      have hbound := (leapless_year (year + 1) hlt).1
      omega
    · obtain rfl : year = 399 := by omega
      exact hge (hday.trans_eq (by decide))

/-- A year has at most three hundred and sixty-six days, and ends in a leap day if it has as many. -/
theorem firstDay_succ : ∀ year < 400, firstDay (year + 1) ≤ firstDay year + 366 ∧
    (firstDay year + 365 < firstDay (year + 1) →
      (year + 1) % 4 = 0 ∧ ((year + 1) % 100 ≠ 0 ∨ (year + 1) % 400 = 0)) := by
  decide +kernel

/-! ### Month and day -/

def monthOf (dayOfYear : Nat) : Nat :=
  ((5 * dayOfYear + 2) / 153 + 2) % 12 + 1

def dayOf (dayOfYear : Nat) : Nat :=
  dayOfYear - (153 * ((5 * dayOfYear + 2) / 153) + 2) / 5 + 1

/-- Month and day say which day of the year it is, and February is the only month whose length depends on the year. -/
theorem ofDayOfYear : ∀ dayOfYear < 366, (1 ≤ monthOf dayOfYear ∧ monthOf dayOfYear ≤ 12 ∧ 1 ≤ dayOf dayOfYear) ∧
    (153 * ((monthOf dayOfYear + 9) % 12) + 2) / 5 + dayOf dayOfYear - 1 = dayOfYear ∧
    (monthOf dayOfYear ≠ 2 → dayOf dayOfYear ≤ daysInMonth 0 (monthOf dayOfYear)) ∧
    (monthOf dayOfYear = 2 → dayOf dayOfYear ≤ 28 ∨ dayOf dayOfYear = 29 ∧ dayOfYear = 365) := by
  decide +kernel

/-- A day in its period of four hundred years, its year and its place there. -/
theorem exists_dateOfDays (days : Int) : ∃ (era : Int) (year dayOfYear : Nat),
    days + 719468 = era * 146097 + (firstDay year + dayOfYear : Nat) ∧ year < 400 ∧ dayOfYear < 366 ∧
      firstDay year + dayOfYear < firstDay (year + 1) ∧
      dateOfDays days
        = (era * 400 + year + (if monthOf dayOfYear ≤ 2 then 1 else 0), monthOf dayOfYear, dayOf dayOfYear) := by
  obtain ⟨era, day, hday, hdays⟩ : ∃ (era : Int) (day : Nat), day < 146097 ∧ days + 719468 = era * 146097 + day :=
    ⟨(days + 719468) / 146097, ((days + 719468) % 146097).toNat, by omega, by omega⟩
  have hera : (days + 719468) / 146097 = era := by omega
  have hdayOfEra : ((days + 719468) % 146097).toNat = day := by omega
  obtain ⟨hfirst, hlast, hyear⟩ := firstDay_le_of_div hday
  have hlength := (firstDay_succ _ hyear).1
  refine ⟨era, leapless day / 365, day - firstDay (leapless day / 365), ?_, hyear, by omega, by omega, ?_⟩
  · rw [Nat.add_sub_cancel' hfirst]
    exact hdays
  · have hstart : 365 * (leapless day / 365) + leapless day / 365 / 4 - leapless day / 365 / 100
        = firstDay (leapless day / 365) := by
      rw [firstDay, Nat.div_eq_of_lt hyear, Nat.add_zero]
    simp only [dateOfDays, hera, hdayOfEra]
    rw [show (day - day / 1460 + day / 36524 - day / 146096) / 365 = leapless day / 365 from rfl, hstart]
    rfl

theorem le_daysInMonth_two (year : Int) : 28 ≤ daysInMonth year 2 := by
  rw [daysInMonth, if_pos rfl]
  split <;> decide

theorem daysInMonth_le (year : Int) (month : Nat) : daysInMonth year month ≤ 31 := by
  rw [daysInMonth]
  split
  · split <;> decide
  · split <;> decide

/-- The date of a day exists, and stands for that day. -/
theorem daysOfDate_dateOfDays (days : Int) {year : Int} {month day : Nat}
    (hdate : dateOfDays days = (year, month, day)) : (1 ≤ month ∧ month ≤ 12 ∧ 1 ≤ day ∧ day ≤ daysInMonth year month) ∧ daysOfDate year month day = days := by
  obtain ⟨era, yearOfEra, dayOfYear, hdays, hyear, hless, hlast, hdate'⟩ := exists_dateOfDays days
  obtain ⟨⟨hmonth, hmonth', hday⟩, hback, hlong, hshort⟩ := ofDayOfYear dayOfYear hless
  rw [hdate', Prod.mk.injEq, Prod.mk.injEq] at hdate
  obtain ⟨rfl, rfl, rfl⟩ := hdate
  refine ⟨⟨hmonth, hmonth', hday, ?_⟩, ?_⟩
  · by_cases hfebruary : monthOf dayOfYear = 2
    · rw [hfebruary, if_pos le_rfl]
      rcases hshort hfebruary with hle | ⟨hleap, hend⟩
      · exact hle.trans (le_daysInMonth_two _)
      · have hrule := (firstDay_succ yearOfEra hyear).2 (by omega)
        have hleapYear : isLeapYear (era * 400 + yearOfEra + 1) = true := by
          simp only [isLeapYear, Bool.and_eq_true, Bool.or_eq_true, beq_iff_eq, bne_iff_ne]
          omega
        rw [daysInMonth, if_pos rfl, if_pos hleapYear, hleap]
    · have hsame : ∀ year : Int, daysInMonth year (monthOf dayOfYear) = daysInMonth 0 (monthOf dayOfYear) := by
        intro year
        rw [daysInMonth, daysInMonth, if_neg hfebruary, if_neg hfebruary]
      rw [hsame]
      exact hlong hfebruary
  · have hyearOfEra :
        (if monthOf dayOfYear ≤ 2 then era * 400 + (yearOfEra : Int) + (if monthOf dayOfYear ≤ 2 then 1 else 0) - 1
        else era * 400 + yearOfEra + (if monthOf dayOfYear ≤ 2 then 1 else 0)) = era * 400 + yearOfEra := by
      split <;> omega
    have hera : (era * 400 + (yearOfEra : Int)) / 400 = era := by omega
    have hrest : (era * 400 + (yearOfEra : Int)) % 400 = yearOfEra := by omega
    simp only [daysOfDate, hyearOfEra, hera, hrest, hback]
    have hstart : (firstDay yearOfEra : Int) = 365 * yearOfEra + yearOfEra / 4 - yearOfEra / 100 := by
      unfold firstDay
      omega
    push_cast at hdays
    omega

/-! ### Digits -/

theorem ofDigits_padded (width n : Nat) : Decimal.ofDigits 0 (padded width n) = n := by
  rw [padded, Decimal.ofDigits_append, Decimal.ofDigits_zeros, Decimal.ofDigits_digits]

theorem isDigit_of_mem_padded {width n : Nat} {c : Char} (hc : c ∈ padded width n) : Decimal.isDigit c = true :=
  (List.mem_append.1 hc).elim Decimal.isDigit_of_mem_zeros Decimal.isDigit_of_mem_digits

theorem padded_ne_nil (width n : Nat) : padded width n ≠ [] :=
  List.append_ne_nil_of_right_ne_nil _ (Decimal.digits_ne_nil n)

theorem length_padded {width n : Nat} (hwidth : 0 < width) (hn : n < 10 ^ width) : (padded width n).length = width := by
  have hle : (Decimal.digits n).length ≤ width := (Nat.length_toDigits_le_iff (by decide) hwidth).2 hn
  rw [padded, List.length_append, Decimal.zeros, List.length_replicate]
  omega

theorem isBlank_of_isDigit {c : Char} (hc : Decimal.isDigit c = true) : Text.isBlank c = false := by
  refine Bool.eq_false_iff.2 fun hblank => ?_
  rw [Decimal.isDigit, Bool.and_eq_true, decide_eq_true_eq, decide_eq_true_eq] at hc
  have hlow : 48 ≤ c.toNat := hc.1
  have hhigh : c.toNat ≤ 57 := hc.2
  simp only [Text.isBlank, Text.blankRanges, List.any_cons, List.any_nil, Bool.or_false, Bool.or_eq_true,
    Bool.and_eq_true, decide_eq_true_eq] at hblank
  omega

theorem readNumber?_append {width : Nat} {ds rest : List Char} (hne : ds ≠ []) (hds : ∀ c ∈ ds, Decimal.isDigit c = true)
    (hle : ds.length ≤ width) (hends : ds.length = width ∨ ∀ c ∈ rest.head?, Decimal.isDigit c = false) :
    readNumber? width (ds ++ rest) = some (Decimal.ofDigits 0 ds, rest) := by
  have hskip : Text.skipBlanks (ds ++ rest) = ds ++ rest := by
    obtain ⟨c, ds', rfl⟩ := List.exists_cons_of_ne_nil hne
    exact Text.skipBlanks_cons (isBlank_of_isDigit (hds c List.mem_cons_self)) _
  have hstop : (rest.take (width - ds.length)).takeWhile Decimal.isDigit = [] := by
    rcases hends with heq | hhead
    · rw [heq, Nat.sub_self]
      rfl
    · cases rest with
      | nil => rw [List.take_nil, List.takeWhile_nil]
      | cons c rest =>
        cases width - ds.length with
        | zero => rfl
        | succ k => exact List.takeWhile_cons_of_neg (by simp [hhead c rfl])
  have htake : ((ds ++ rest).take width).takeWhile Decimal.isDigit = ds := by
    rw [List.take_append, List.take_of_length_le hle, List.takeWhile_append_of_pos hds, hstop, List.append_nil]
  simp only [readNumber?, hskip, htake, hne, if_false, List.drop_left]

theorem readNumber?_padded {width n : Nat} (hwidth : 0 < width) (hn : n < 10 ^ width) (rest : List Char) :
    readNumber? width (padded width n ++ rest) = some (n, rest) := by
  have hlength := length_padded hwidth hn
  rw [readNumber?_append (padded_ne_nil _ _) (fun _ => isDigit_of_mem_padded) hlength.le (.inl hlength), ofDigits_padded]

theorem readYear?_spellYear (year : Int) (rest : List Char) :
    readYear? (spellYear year ++ '-' :: rest) = some (year, '-' :: rest) := by
  have hsigned : ∀ n, readNumber? (padded 4 n ++ '-' :: rest).length (padded 4 n ++ '-' :: rest)
      = some (n, '-' :: rest) := by
    intro n
    rw [readNumber?_append (padded_ne_nil _ _) (fun _ => isDigit_of_mem_padded) (by simp) (.inr (by simp; decide)),
      ofDigits_padded]
  have hhead : ∀ n, (padded 4 n ++ '-' :: rest).head?.any Decimal.isDigit = true := by
    intro n
    obtain ⟨c, ds, hcons⟩ := List.exists_cons_of_ne_nil (padded_ne_nil 4 n)
    have hc : c ∈ padded 4 n := hcons ▸ List.mem_cons_self
    rw [hcons]
    exact isDigit_of_mem_padded hc
  rw [spellYear]
  split
  · next hrange =>
    obtain ⟨c, ds, hcons⟩ := List.exists_cons_of_ne_nil (padded_ne_nil 4 year.toNat)
    have hdigit : Decimal.isDigit c = true := isDigit_of_mem_padded (hcons ▸ List.mem_cons_self)
    have hread := readNumber?_padded (by decide) (by omega : year.toNat < 10 ^ 4) ('-' :: rest)
    have hyear : ((year.toNat : Nat) : Int) = year := by omega
    rw [hcons, List.cons_append] at hread ⊢
    rw [readYear?, Text.skipBlanks_cons (isBlank_of_isDigit hdigit)]
    split
    · next hcons => cases (List.cons.inj hcons).1; cases hdigit
    · next hcons => cases (List.cons.inj hcons).1; cases hdigit
    · rw [hread, Option.map_some]
      exact congrArg (fun n => some (n, _)) hyear
  · split
    · have hyear : -((year.natAbs : Nat) : Int) = year := by omega
      rw [List.cons_append, readYear?, Text.skipBlanks_cons rfl]
      simp only [hhead, if_true, hsigned, Option.map_some, hyear]
    · have hyear : ((year.natAbs : Nat) : Int) = year := by omega
      rw [List.cons_append, readYear?, Text.skipBlanks_cons rfl]
      simp only [hhead, if_true, hsigned, Option.map_some, hyear]

theorem readMark?_cons {mark : Char} (hmark : Text.isBlank mark = false) (rest : List Char) :
    readMark? mark (mark :: rest) = some rest := by
  rw [readMark?, Text.skipBlanks_cons hmark]
  exact if_pos rfl

theorem readFraction?_padded {width n : Nat} (hwidth : 0 < width) (hle : width ≤ 9) (hn : n < 10 ^ width) :
    readFraction? ('.' :: (padded width n ++ ['Z'])) = some (n * 10 ^ (9 - width), ['Z']) := by
  have hdigits : ∀ c ∈ padded width n, Decimal.isDigit c = true := fun _ => isDigit_of_mem_padded
  have hspan : Decimal.spanDigits (padded width n ++ ['Z']) = (padded width n, ['Z']) :=
    Decimal.spanDigits_append hdigits fun _ hc => Option.some.inj hc ▸ rfl
  have htake : (padded width n).take 9 = padded width n :=
    List.take_of_length_le ((length_padded hwidth hn).trans_le hle)
  simp only [readFraction?, hspan, htake, padded_ne_nil, if_false, ofDigits_padded, length_padded hwidth hn, Nat.pow_eq]

theorem readFraction?_spellFraction {nanos : Nat} (hnanos : nanos < 10 ^ 9) :
    readFraction? (spellFraction nanos ++ ['Z']) = some (nanos, ['Z']) := by
  rw [spellFraction]
  split
  · next hzero =>
    rw [hzero]
    rfl
  · split
    · next hmillis =>
      rw [List.cons_append, readFraction?_padded (by decide) (by decide) (by omega)]
      exact congrArg (fun n => some (n, _)) (by omega)
    · split
      · next hmicros =>
        rw [List.cons_append, readFraction?_padded (by decide) (by decide) (by omega)]
        exact congrArg (fun n => some (n, _)) (by omega)
      · rw [List.cons_append, readFraction?_padded (by decide) (by decide) hnanos]
        exact congrArg (fun n => some (n, _)) (by omega)

/-! ### Points in time -/

/-- A point in time whose year can be read, with the nanoseconds of at most two seconds. -/
structure Readable (t : Timestamp) : Prop where
  year : -262143 ≤ (dateOfDays (t.seconds / secondsPerDay)).1 ∧ (dateOfDays (t.seconds / secondsPerDay)).1 ≤ 262142
  nanos : t.nanos < 2 * 10 ^ 9

/-- The same point in time, with more than a second's worth of nanoseconds only in the last second of a minute. -/
def folded (t : Timestamp) : Timestamp :=
  if t.seconds % 60 = 59 then t else ⟨t.seconds + t.nanos / 10 ^ 9, t.nanos % 10 ^ 9⟩

/-- Outside of leap seconds nothing is carried over. -/
theorem folded_of_lt {t : Timestamp} (ht : t.nanos < 10 ^ 9) : t.folded = t := by
  rw [folded]
  split
  · rfl
  · rw [Nat.mod_eq_of_lt ht]
    exact congrArg (Timestamp.mk · _) (by omega)

/-- Date and time are read back, a sixtieth second as a second's worth of nanoseconds after the one before. -/
theorem read?_spelled {year : Int} {month day hour minute second nanos : Nat} (hyear : -262143 ≤ year ∧ year ≤ 262142)
    (hmonth : 1 ≤ month ∧ month ≤ 12) (hday : 1 ≤ day ∧ day ≤ daysInMonth year month) (hhour : hour < 24)
    (hminute : minute < 60) (hsecond : second ≤ 60) (hnanos : nanos < 10 ^ 9) :
    read? (spellYear year ++ '-' :: (padded 2 month ++ '-' :: (padded 2 day ++ 'T' ::
      (padded 2 hour ++ ':' :: (padded 2 minute ++ ':' :: (padded 2 second ++ (spellFraction nanos ++ ['Z'])))))))
      = some ⟨daysOfDate year month day * secondsPerDay + (hour * 3600 + minute * 60 + min second 59 : Nat),
        if second = 60 then nanos + 10 ^ 9 else nanos⟩ := by
  have hread : ∀ {n : Nat}, n < 100 → ∀ rest, readNumber? 2 (padded 2 n ++ rest) = some (n, rest) := fun hn =>
    readNumber?_padded (by decide) hn
  have hlong := daysInMonth_le year month
  have hmonthRead := @hread month (by omega)
  have hdayRead := @hread day (by omega)
  have hhourRead := @hread hour (by omega)
  have hminuteRead := @hread minute (by omega)
  have hsecondRead := @hread second (by omega)
  have hhyphen : ∀ rest, readMark? '-' ('-' :: rest) = some rest := readMark?_cons rfl
  have hcolon : ∀ rest, readMark? ':' (':' :: rest) = some rest := readMark?_cons rfl
  have hoffset : readOffset? ['Z'] = some (0, []) := rfl
  have hvalid : -262143 ≤ year ∧ year ≤ 262142 ∧ 1 ≤ month ∧ month ≤ 12 ∧ 1 ≤ day ∧ day ≤ daysInMonth year month ∧
      hour < 24 ∧ minute < 60 ∧ second ≤ 60 ∧ (0 : Int).natAbs < 86400 ∧ Text.skipBlanks [] = [] :=
    ⟨hyear.1, hyear.2, hmonth.1, hmonth.2, hday.1, hday.2, hhour, hminute, hsecond, by decide, rfl⟩
  refine Option.bind_eq_some_iff.2 ⟨_, readYear?_spellYear year _, ?_⟩
  refine Option.bind_eq_some_iff.2 ⟨_, hhyphen _, Option.bind_eq_some_iff.2 ⟨_, hmonthRead _, ?_⟩⟩
  refine Option.bind_eq_some_iff.2 ⟨_, hhyphen _, Option.bind_eq_some_iff.2 ⟨_, hdayRead _, ?_⟩⟩
  refine Option.bind_eq_some_iff.2 ⟨_, hhourRead _, ?_⟩
  refine Option.bind_eq_some_iff.2 ⟨_, hcolon _, Option.bind_eq_some_iff.2 ⟨_, hminuteRead _, ?_⟩⟩
  refine Option.bind_eq_some_iff.2 ⟨_, hcolon _, Option.bind_eq_some_iff.2 ⟨_, hsecondRead _, ?_⟩⟩
  refine Option.bind_eq_some_iff.2 ⟨_, readFraction?_spellFraction hnanos, Option.bind_eq_some_iff.2 ⟨_, hoffset, ?_⟩⟩
  refine (if_pos hvalid).trans ?_
  rw [Int.sub_zero]
  rfl

/-- A point in time is read back. -/
theorem read?_render {t : Timestamp} (ht : t.Readable) : read? t.render.toList = some t.folded := by
  obtain ⟨hyear, hnanos⟩ := ht
  obtain ⟨year, month, day, hdate⟩ : ∃ year month day, dateOfDays (t.seconds / secondsPerDay) = (year, month, day) :=
    ⟨_, _, _, rfl⟩
  obtain ⟨⟨hmonth, hmonth', hday, hday'⟩, hdays⟩ := daysOfDate_dateOfDays _ hdate
  rw [hdate] at hyear
  obtain ⟨second, hsecond⟩ : ∃ second, second = (t.seconds % secondsPerDay).toNat := ⟨_, rfl⟩
  have hspelled : t.render.toList = spellYear year ++ '-' :: (padded 2 month ++ '-' :: (padded 2 day ++ 'T' ::
      (padded 2 (second / 3600) ++ ':' :: (padded 2 (second / 60 % 60) ++ ':' ::
        (padded 2 (second % 60 + t.nanos / 10 ^ 9) ++ (spellFraction (t.nanos % 10 ^ 9) ++ ['Z'])))))) := by
    simp only [render, hdate, hsecond, String.toList_ofList, Nat.pow_eq, List.append_assoc]
  have hless : second < 86400 := by
    rw [secondsPerDay] at hsecond
    omega
  rw [hspelled, read?_spelled hyear ⟨hmonth, hmonth'⟩ ⟨hday, hday'⟩ (by omega) (by omega) (by omega)
    (Nat.mod_lt _ (by decide)), hdays, folded]
  rw [secondsPerDay] at hsecond ⊢
  -- The last second of a minute is the only one that a leap second is written for.
  have hminute : second % 60 = 59 ↔ t.seconds % 60 = 59 := by omega
  split
  · next hleap =>
    rw [if_pos (hminute.1 (by omega))]
    exact congrArg some (congrArg₂ mk (by omega) (by omega))
  · next hleap =>
    split
    · exact congrArg some (congrArg₂ mk (by omega) (by omega))
    · exact congrArg some (congrArg₂ mk (by omega) (by omega))

end TimedStreams.Timestamp
