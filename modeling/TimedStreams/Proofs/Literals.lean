import TimedStreams.Json.Fields
import TimedStreams.Json.Number

/-!
# Literals that are read back

The leaves of a document are literals, and each kind is read back as what was written: a string
whatever characters it consists of (`Json.readString?_escape`), an integer of 64 bits
(`Json.toInt64?_int`), and an identifier in its five groups (`Uuid.read?_render`). Where a string ends
is plain to see. A number ends where what follows can be no part of it, and so it is read back in front
of any text that begins otherwise (`Json.IsNumber`).
-/

namespace TimedStreams

open Text

/-! ### Digits -/

namespace Decimal

theorem isDigit_of_mem_digits {n : Nat} {c : Char} (hc : c ∈ digits n) : isDigit c = true :=
  Nat.isDigit_of_mem_toDigits (by decide) (by decide) hc

theorem ofDigits_digits (n : Nat) : ofDigits 0 (digits n) = n :=
  Nat.ofDigitChars_ten_toDigits

theorem ofDigits_append (n : Nat) (ds es : List Char) : ofDigits n (ds ++ es) = ofDigits (ofDigits n ds) es :=
  List.foldl_append

theorem ofDigits_zeros (k : Nat) : ofDigits 0 (zeros k) = 0 :=
  Nat.ofDigitChars_replicate_zero.trans (Nat.mul_zero _)

theorem isDigit_of_mem_zeros {k : Nat} {c : Char} (hc : c ∈ zeros k) : isDigit c = true := by
  rw [(List.mem_replicate.1 hc).2]
  rfl

/-- Only zero is written with a zero in front. -/
theorem exists_digits {n : Nat} (hn : n ≠ 0) : ∃ c ds, digits n = c :: ds ∧ c ≠ '0' := by
  induction n using Nat.strongRecOn with
  | ind n ih =>
    by_cases hlt : n < 10
    · refine ⟨Nat.digitChar n, [], Nat.toDigits_of_lt_base hlt, ?_⟩
      have hall : ∀ k < 10, k ≠ 0 → Nat.digitChar k ≠ '0' := by decide
      exact hall n hlt hn
    · have hle : 10 ≤ n := Nat.le_of_not_lt hlt
      obtain ⟨c, ds, hdigits, hc⟩ := ih (n / 10) (by omega) (by omega)
      refine ⟨c, ds ++ [Nat.digitChar (n % 10)], ?_, hc⟩
      rw [digits, Nat.toDigits_of_base_le (by decide) hle]
      exact congrArg (· ++ [Nat.digitChar (n % 10)]) hdigits

theorem digits_ne_nil (n : Nat) : digits n ≠ [] :=
  Nat.toDigits_ne_nil

theorem spanDigits_append {ds rest : List Char} (hds : ∀ c ∈ ds, isDigit c = true)
    (hends : ∀ c ∈ rest.head?, isDigit c = false) : spanDigits (ds ++ rest) = (ds, rest) := by
  rw [spanDigits, List.takeWhile_append_of_pos hds, List.dropWhile_append_of_pos hds]
  cases rest with
  | nil => rw [List.takeWhile_nil, List.dropWhile_nil, List.append_nil]
  | cons c rest =>
    have hc : ¬ isDigit c = true := by simp [hends c rfl]
    rw [List.takeWhile_cons_of_neg hc, List.dropWhile_cons_of_neg hc, List.append_nil]

theorem spanSign_withSign {c : Char} (hc : isDigit c = true) (ds : List Char) (negative : Bool) :
    spanSign (withSign negative (c :: ds)) = (negative, c :: ds) := by
  cases negative with
  | true => rfl
  | false =>
    rw [withSign, if_neg (by decide), spanSign]
    · rintro rest hcons
      rw [(List.cons.inj hcons).1] at hc
      cases hc
    · rintro rest hcons
      rw [(List.cons.inj hcons).1] at hc
      cases hc

/-- A run of digits with no zero in front, unless it is zero. -/
structure IsWhole (ds : List Char) : Prop where
  digits : ∀ c ∈ ds, isDigit c = true
  leading : ds = ['0'] ∨ ∃ c rest, ds = c :: rest ∧ c ≠ '0'

theorem isWhole_digits (n : Nat) : IsWhole (digits n) where
  digits := fun _ => isDigit_of_mem_digits
  leading := by
    by_cases hn : n = 0
    · rw [hn]
      exact .inl rfl
    · exact .inr (exists_digits hn)

theorem IsWhole.exists_cons {ds : List Char} (hds : IsWhole ds) : ∃ c rest, ds = c :: rest ∧ isDigit c = true := by
  rcases hds.leading with rfl | ⟨c, rest, rfl, -⟩
  · exact ⟨_, _, rfl, rfl⟩
  · exact ⟨_, _, rfl, hds.digits c List.mem_cons_self⟩

end Decimal

namespace Json

/-! ### Numbers -/

/-- What follows can be no part of a number. -/
def Ends (rest : List Char) : Prop :=
  ∀ c ∈ rest.head?, Decimal.isDigit c = false ∧ c ≠ '.' ∧ c ≠ 'e' ∧ c ≠ 'E'

theorem ends_nil : Ends [] := by
  intro c hc
  cases hc

/-- The characters of a number, which is read wherever it ends. -/
def IsNumber (literal : List Char) : Prop :=
  ∀ rest, Ends rest → ∃ h, readNumber? (literal ++ rest) = some (literal, ⟨rest, h⟩)

theorem takeExponent?_of_ends {rest : List Char} (hends : Ends rest) : takeExponent? rest = some ([], rest) := by
  cases rest with
  | nil => rfl
  | cons c rest =>
    obtain ⟨-, -, he, hE⟩ := hends c rfl
    simp only [takeExponent?, he, hE, or_self, if_false]

theorem takeWhole?_append {ds rest : List Char} (hds : Decimal.IsWhole ds) (negative : Bool)
    (hends : ∀ c ∈ rest.head?, Decimal.isDigit c = false) :
    takeWhole? (Decimal.withSign negative (ds ++ rest)) = some (Decimal.withSign negative ds, rest) := by
  have hspan := Decimal.spanDigits_append hds.digits hends
  rw [Decimal.spanDigits, Prod.mk.injEq] at hspan
  obtain ⟨htake, hdrop⟩ := hspan
  rcases hds.leading with rfl | ⟨c, cs, rfl, hc⟩
  · cases negative <;> rfl
  · have hdigit : Decimal.isDigit c = true := hds.digits c List.mem_cons_self
    have hminus : c ≠ '-' := by
      rintro rfl
      cases hdigit
    rw [List.cons_append] at htake hdrop
    cases negative with
    | true => simp [Decimal.withSign, takeWhole?, hdigit, htake, hdrop]
    | false => simp [Decimal.withSign, takeWhole?, hminus, hdigit, htake, hdrop]

theorem withSign_append (negative : Bool) (s rest : List Char) :
    Decimal.withSign negative s ++ rest = Decimal.withSign negative (s ++ rest) := by
  cases negative <;> rfl

namespace Literal

/-- The point and the digits behind it. -/
def partText (l : Literal) : List Char :=
  if l.part = [] then [] else '.' :: l.part

def exponentText (l : Literal) : List Char :=
  l.exponent.elim [] fun (negative, ds) => 'e' :: (if negative then '-' else '+') :: ds

def spell (l : Literal) : List Char :=
  Decimal.withSign l.negative (l.whole ++ (l.partText ++ l.exponentText))

/-- The parts of a number consist of digits, and there is no zero in front. -/
structure Proper (l : Literal) : Prop where
  whole : Decimal.IsWhole l.whole
  part : ∀ c ∈ l.part, Decimal.isDigit c = true
  exponent : ∀ negative ds, l.exponent = some (negative, ds) → ds ≠ [] ∧ ∀ c ∈ ds, Decimal.isDigit c = true

variable {l : Literal} {rest : List Char}

theorem head_exponentText (l : Literal) (hends : Ends rest) :
    ∀ c ∈ (l.exponentText ++ rest).head?, Decimal.isDigit c = false ∧ c ≠ '.' := by
  intro c hc
  rw [exponentText] at hc
  cases hexponent : l.exponent with
  | none =>
    rw [hexponent] at hc
    exact ⟨(hends c hc).1, (hends c hc).2.1⟩
  | some exponent =>
    rw [hexponent] at hc
    obtain rfl : 'e' = c := Option.some.inj hc
    decide

theorem head_partText (l : Literal) (hends : Ends rest) :
    ∀ c ∈ (l.partText ++ (l.exponentText ++ rest)).head?, Decimal.isDigit c = false := by
  intro c hc
  rw [partText] at hc
  split at hc
  · exact (head_exponentText l hends c hc).1
  · obtain rfl : '.' = c := Option.some.inj hc
    decide

theorem of_spell (hl : l.Proper) : of l.spell = l := by
  obtain ⟨c, ds, hcons, hc⟩ := hl.whole.exists_cons
  have hsign : Decimal.spanSign l.spell = (l.negative, l.whole ++ (l.partText ++ l.exponentText)) := by
    rw [spell, hcons, List.cons_append, Decimal.spanSign_withSign hc]
  have hhead := head_partText l ends_nil
  have hhead' := head_exponentText l ends_nil
  rw [List.append_nil] at hhead hhead'
  have hwhole := Decimal.spanDigits_append hl.whole.digits hhead
  have hpart := Decimal.spanDigits_append hl.part fun c hc => (hhead' c hc).1
  simp only [of, hsign, hwhole]
  obtain ⟨negative, whole, part, exponent⟩ := l
  cases part with
  | nil =>
    cases exponent with
    | none => rfl
    | some exponent =>
      obtain ⟨negative', ds'⟩ := exponent
      cases negative' <;> rfl
  | cons d part =>
    have htext : (Literal.mk negative whole (d :: part) exponent).partText = '.' :: d :: part := rfl
    rw [htext, List.cons_append]
    simp only [hpart]
    cases exponent with
    | none => rfl
    | some exponent =>
      obtain ⟨negative', ds'⟩ := exponent
      cases negative' <;> rfl

theorem takePart?_partText (hl : l.Proper) (hends : Ends rest) :
    takePart? (l.partText ++ (l.exponentText ++ rest)) = some (l.partText, l.exponentText ++ rest) := by
  have hhead := head_exponentText l hends
  rw [partText]
  split
  · rw [List.nil_append, takePart?]
    rintro rest' hcons
    exact (hhead '.' (by rw [hcons]; rfl)).2 rfl
  · next hne =>
    have hspan := Decimal.spanDigits_append hl.part fun c hc => (hhead c hc).1
    simp only [List.cons_append, takePart?, hspan, hne, if_false]

theorem takeExponent?_exponentText (hl : l.Proper) (hends : Ends rest) :
    takeExponent? (l.exponentText ++ rest) = some (l.exponentText, rest) := by
  rw [exponentText]
  cases hexponent : l.exponent with
  | none => exact takeExponent?_of_ends hends
  | some exponent =>
    obtain ⟨negative, ds⟩ := exponent
    obtain ⟨hne, hds⟩ := hl.exponent negative ds hexponent
    have hspan := Decimal.spanDigits_append hds fun c hc => (hends c hc).1
    cases negative <;> simp [takeExponent?, hspan, hne]

theorem isNumber_spell (hl : l.Proper) : IsNumber l.spell := by
  intro rest hends
  have hwhole := takeWhole?_append hl.whole l.negative (head_partText l hends)
  have hspell : l.spell ++ rest = Decimal.withSign l.negative (l.whole ++ (l.partText ++ (l.exponentText ++ rest))) := by
    rw [spell, withSign_append, List.append_assoc, List.append_assoc]
  have hpos : 0 < l.spell.length := by
    obtain ⟨c, ds, hcons, -⟩ := hl.whole.exists_cons
    rw [spell, hcons]
    cases l.negative <;> exact Nat.succ_pos _
  refine ⟨by rw [List.length_append]; omega, ?_⟩
  rw [← hspell] at hwhole
  simp only [readNumber?, hwhole, Option.bind_eq_bind, Option.bind_some, takePart?_partText hl hends,
    takeExponent?_exponentText hl hends]
  rw [dif_pos (by rw [List.length_append]; omega), withSign_append, withSign_append, List.append_assoc]
  rfl

end Literal

/-! ### Integers -/

def intLiteral (n : Int64) : Literal :=
  ⟨n.toInt < 0, Decimal.digits n.toInt.natAbs, [], none⟩

theorem proper_intLiteral (n : Int64) : (intLiteral n).Proper :=
  ⟨Decimal.isWhole_digits _, nofun, nofun⟩

theorem spell_intLiteral (n : Int64) :
    (intLiteral n).spell = Decimal.withSign (n.toInt < 0) (Decimal.digits n.toInt.natAbs) :=
  congrArg (Decimal.withSign _) (List.append_nil _)

theorem isNumber_int (n : Int64) : IsNumber (Decimal.withSign (n.toInt < 0) (Decimal.digits n.toInt.natAbs)) :=
  spell_intLiteral n ▸ Literal.isNumber_spell (proper_intLiteral n)

theorem toInt64?_int (n : Int64) : (int n).toInt64? = some n := by
  have hof : Literal.of (Decimal.withSign (n.toInt < 0) (Decimal.digits n.toInt.natAbs)) = intLiteral n :=
    spell_intLiteral n ▸ Literal.of_spell (proper_intLiteral n)
  rw [int, toInt64?, hof, Literal.toInt64?, intLiteral, Decimal.ofDigits_digits]
  have hlow := n.le_toInt
  have hhigh := n.toInt_lt
  have hpow : Nat.pow 2 63 = 9223372036854775808 := rfl
  rw [if_neg (by simp)]
  by_cases hneg : n.toInt < 0
  · have hsmall : 0 < n.toInt.natAbs ∧ n.toInt.natAbs ≤ Nat.pow 2 63 := by omega
    have hsame : -(n.toInt.natAbs : Int) = n.toInt := by omega
    rw [if_pos (decide_eq_true hneg), if_pos hsmall, hsame, Int64.ofInt_toInt]
  · have hsmall : n.toInt.natAbs < Nat.pow 2 63 := by omega
    have hsame : (n.toInt.natAbs : Int) = n.toInt := by omega
    rw [if_neg (by simpa using hneg), if_pos hsmall, hsame, Int64.ofInt_toInt]

/-! ### Strings -/

def shortEscapes : List Char :=
  ['"', '\\', '\x08', '\t', '\n', '\x0c', '\x0d']

/-- What is read where a character is written. -/
def pieceOf (c : Char) : Piece :=
  if c.toNat < 0x20 ∧ c ∉ shortEscapes then .unit c.toNat else .char c

theorem escape_of_not_mem {c : Char} (hc : c ∉ shortEscapes) : escape c
    = if c.toNat < 0x20 then ['\\', 'u', '0', '0', Nat.digitChar (c.toNat / 16), Nat.digitChar (c.toNat % 16)]
      else [c] := by
  have hne : ∀ d ∈ shortEscapes, c ≠ d ∧ c.toNat ≠ d.toNat := fun d hd =>
    ⟨fun hsame => hc (hsame ▸ hd), fun hsame => hc (Char.toNat_inj.1 hsame ▸ hd)⟩
  have h8 : c.toNat ≠ 0x8 := (hne '\x08' (by decide)).2
  have h9 : c.toNat ≠ 0x9 := (hne '\t' (by decide)).2
  have hA : c.toNat ≠ 0xA := (hne '\n' (by decide)).2
  have hC : c.toNat ≠ 0xC := (hne '\x0c' (by decide)).2
  have hD : c.toNat ≠ 0xD := (hne '\x0d' (by decide)).2
  rw [escape, if_neg (hne '"' (by decide)).1, if_neg (hne '\\' (by decide)).1, if_neg h8, if_neg h9, if_neg hA,
    if_neg hC, if_neg hD]

/-- A character is read from what is written for it. -/
theorem readPieces?_escape (c : Char) (s : List Char) :
    readPieces? (escape c ++ s) = (readPieces? s).map fun (pieces, last) => (pieceOf c :: pieces, last) := by
  by_cases hshort : c ∈ shortEscapes
  · simp only [shortEscapes, List.mem_cons, List.not_mem_nil, or_false] at hshort
    rcases hshort with rfl | rfl | rfl | rfl | rfl | rfl | rfl <;> rfl
  · rw [escape_of_not_mem hshort]
    split
    · next hcontrol =>
      have hdigits : ∀ n < 0x20, Uuid.ofHexDigits? 0 ['0', '0', Nat.digitChar (n / 16), Nat.digitChar (n % 16)] = some n := by
        decide
      have hpiece : pieceOf c = .unit c.toNat := if_pos ⟨hcontrol, hshort⟩
      simp only [List.cons_append, List.nil_append, readPieces?, hdigits _ hcontrol, Option.bind_some, hpiece]
    · next hcontrol =>
      have hquote : c ≠ '"' := fun h => hshort (h ▸ by decide)
      have hslash : c ≠ '\\' := fun h => hshort (h ▸ by decide)
      have hpiece : pieceOf c = .char c := if_neg fun h => hcontrol h.1
      rw [hpiece, List.singleton_append, readPieces?, if_neg (by simp [hcontrol, hslash])]
      · exact hquote
      · exact fun _ _ _ _ _ h => absurd h hslash
      · exact fun _ _ h => absurd h hslash

theorem readPieces?_flatMap (cs s : List Char) :
    readPieces? (cs.flatMap escape ++ '"' :: s) = some (cs.map pieceOf, s) := by
  induction cs with
  | nil => rfl
  | cons c cs ih =>
    rw [List.flatMap_cons, List.append_assoc, readPieces?_escape, ih]
    rfl

theorem assemble?_unit {n : Nat} (hn : n < 0xD800) (pieces : List Piece) :
    assemble? (.unit n :: pieces) = (assemble? pieces).map (Char.ofNat n :: ·) := by
  have hhigh : isHighSurrogate n = false := by
    rw [isHighSurrogate, decide_eq_false (by omega), Bool.false_and]
  have hlow : isLowSurrogate n = false := by
    rw [isLowSurrogate, decide_eq_false (by omega), Bool.false_and]
  cases pieces with
  | nil => simp [assemble?, hhigh, hlow]
  | cons piece pieces => cases piece <;> simp [assemble?, hhigh, hlow]

theorem assemble?_map (cs : List Char) : assemble? (cs.map pieceOf) = some cs := by
  induction cs with
  | nil => rfl
  | cons c cs ih =>
    rw [List.map_cons, pieceOf]
    split
    · next hcontrol =>
      rw [assemble?_unit (by omega), ih, Option.map_some, Char.ofNat_toNat]
    · rw [assemble?, ih, Option.map_some]

/-- A string is read back, up to its closing quote. -/
theorem readString?_escape (t : String) (rest : List Char) :
    ∃ h, readString? (t.toList.flatMap escape ++ '"' :: rest) = some (some t, ⟨rest, h⟩) := by
  have hread := readPieces?_flatMap t.toList rest
  refine ⟨length_lt_of_readPieces? hread, ?_⟩
  rw [readString?]
  split
  · next hnone => exact absurd (hnone.symm.trans hread) (by simp)
  · next pieces last hsome =>
    obtain ⟨rfl, rfl⟩ := Prod.mk.inj (Option.some.inj (hsome.symm.trans hread))
    rw [assemble?_map, Option.map_some, String.ofList_toList]

end Json

/-! ### Identifiers -/

namespace Uuid

theorem hexValue?_digitChar : ∀ d < 16, hexValue? (Nat.digitChar d) = some d := by decide

theorem ofHexDigits?_append (n : Nat) (ds es : List Char) :
    ofHexDigits? n (ds ++ es) = (ofHexDigits? n ds).bind (ofHexDigits? · es) := by
  induction ds generalizing n with
  | nil => rfl
  | cons d ds ih =>
    rw [List.cons_append, ofHexDigits?, ofHexDigits?]
    cases hexValue? d with
    | none => rfl
    | some value => exact ih _

theorem ofHexDigits?_range (count n start : Nat) :
    ofHexDigits? start ((List.range count).map fun i => Nat.digitChar (n / Nat.pow 16 (count - 1 - i) % 16))
      = some (start * Nat.pow 16 count + n % Nat.pow 16 count) := by
  show _ = some (start * 16 ^ count + n % 16 ^ count)
  induction count generalizing n with
  | zero => simp [ofHexDigits?, Nat.mod_one]
  | succ count ih =>
    have hfront : ((List.range count).map fun i => Nat.digitChar (n / Nat.pow 16 (count + 1 - 1 - i) % 16))
        = (List.range count).map fun i => Nat.digitChar (n / 16 / Nat.pow 16 (count - 1 - i) % 16) := by
      refine List.map_congr_left fun i hi => ?_
      have hpow : Nat.pow 16 (count + 1 - 1 - i) = 16 * Nat.pow 16 (count - 1 - i) := by
        have hi := List.mem_range.1 hi
        rw [show count + 1 - 1 - i = (count - 1 - i) + 1 by omega]
        exact (Nat.pow_succ ..).trans (Nat.mul_comm _ _)
      rw [hpow, Nat.div_div_eq_div_mul]
    have hlast : ofHexDigits? (start * 16 ^ count + n / 16 % 16 ^ count)
        [Nat.digitChar (n / Nat.pow 16 (count + 1 - 1 - count) % 16)]
        = some (16 * (start * 16 ^ count + n / 16 % 16 ^ count) + n % 16) := by
      have hone : n / Nat.pow 16 (count + 1 - 1 - count) = n := by simp
      rw [hone, ofHexDigits?, hexValue?_digitChar _ (Nat.mod_lt _ (by decide))]
      rfl
    rw [List.range_succ, List.map_append, ofHexDigits?_append, hfront, ih, Option.bind_some, List.map_singleton, hlast]
    have hmod : n % 16 ^ (count + 1) = n % 16 + 16 * (n / 16 % 16 ^ count) := by
      rw [Nat.pow_succ, Nat.mul_comm, Nat.mod_mul]
    rw [hmod, Nat.pow_succ, ← Nat.mul_assoc]
    congr 1
    omega

theorem ofHexDigits?_hexDigits (u : Uuid) : ofHexDigits? 0 u.hexDigits = some u.toNat := by
  have hlt : u.toNat < Nat.pow 16 32 := u.bits.isLt
  rw [hexDigits, ofHexDigits?_range 32, Nat.zero_mul, Nat.zero_add, Nat.mod_eq_of_lt hlt]

theorem length_hexDigits (u : Uuid) : u.hexDigits.length = 32 := by
  rw [hexDigits, List.length_map, List.length_range]

theorem of_mem_hexDigits {u : Uuid} {c : Char} (hc : c ∈ u.hexDigits) : c ≠ '-' ∧ c ≠ '\x7b' ∧ c ≠ 'u' := by
  obtain ⟨i, -, rfl⟩ := List.mem_map.1 hc
  have hall : ∀ d < 16, Nat.digitChar d ≠ '-' ∧ Nat.digitChar d ≠ '\x7b' ∧ Nat.digitChar d ≠ 'u' := by decide
  exact hall _ (Nat.mod_lt _ (by decide))

theorem filter_hyphenate {ds : List Char} (hds : ∀ c ∈ ds, c ≠ '-') : (hyphenate ds).filter (· ≠ '-') = ds := by
  have hkept : ∀ {part : List Char}, part ⊆ ds → part.filter (· ≠ '-') = part := fun hpart =>
    List.filter_eq_self.2 fun c hc => decide_eq_true (hds c (hpart hc))
  have htake : ∀ n k, ((ds.drop n).take k).filter (· ≠ '-') = (ds.drop n).take k := fun n k =>
    hkept fun c hc => List.mem_of_mem_drop (List.mem_of_mem_take hc)
  have hjoin : ∀ n k, (ds.drop n).take k ++ ds.drop (n + k) = ds.drop n := fun n k => by
    rw [← List.drop_drop, List.take_append_drop]
  simp only [hyphenate, List.filter_append, List.filter_cons, ne_eq, not_true_eq_false, decide_false,
    Bool.false_eq_true, if_false]
  have hfront : (ds.take 8).filter (· ≠ '-') = ds.take 8 := htake 0 8
  have hback : (ds.drop 20).filter (· ≠ '-') = ds.drop 20 := hkept fun c hc => List.mem_of_mem_drop hc
  simp only [ne_eq] at hfront hback htake
  rw [hfront, htake, htake, htake, hback, hjoin 16 4, hjoin 12 4, hjoin 8 4, List.take_append_drop]

theorem read?_render (u : Uuid) : read? u.render.toList = some u := by
  have hspell : u.render.toList = hyphenate u.hexDigits := String.toList_ofList
  have hfilter : (hyphenate u.hexDigits).filter (· ≠ '-') = u.hexDigits :=
    filter_hyphenate fun c hc => (of_mem_hexDigits hc).1
  have hsimple : readSimple? u.hexDigits = some u := by
    rw [readSimple?, if_pos (length_hexDigits u), ofHexDigits?_hexDigits, Option.map_some]
    exact congrArg some (congrArg mk (BitVec.ofNat_toNat ..))
  have hhyphenated : readHyphenated? (hyphenate u.hexDigits) = some u := by
    simp only [readHyphenated?, hfilter, if_pos, hsimple]
  have hlong : readSimple? (hyphenate u.hexDigits) = none := by
    have hlength : (hyphenate u.hexDigits).length = 36 := by simp [hyphenate, length_hexDigits]
    rw [readSimple?, hlength, if_neg (by decide)]
  -- The first character is a digit, and so the text has neither braces nor a prefix.
  obtain ⟨c, ds, hdigits⟩ : ∃ c ds, u.hexDigits = c :: ds := List.exists_cons_of_length_pos (by simp [length_hexDigits])
  obtain ⟨-, hbrace, hprefix⟩ := of_mem_hexDigits (hdigits ▸ List.mem_cons_self : c ∈ u.hexDigits)
  obtain ⟨rest, hcons⟩ : ∃ rest, hyphenate u.hexDigits = c :: rest := ⟨_, by rw [hdigits]; rfl⟩
  rw [hspell, read?, hlong, hhyphenated, Option.none_or]
  · rw [hcons]
    exact fun _ h => hbrace (List.cons.inj h).1
  · rw [hcons]
    exact fun _ h => hprefix (List.cons.inj h).1

end Uuid

end TimedStreams
