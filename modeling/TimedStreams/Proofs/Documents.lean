import TimedStreams.Proofs.Literals

/-!
# Documents that are read back

Both written forms of a document are one, with different gaps between the tokens: none in the compact
form, the start of a line in the pretty form (`Json.compact_eq`, `Json.prettyAt_eq`). The reader passes
over gaps, and so it reads back whatever is written with any gaps (`Json.reads_laidOut`), as long as the
literals can be read at all (`Json.Proper`). How deep a document is nested does not matter to it: that
is a matter of those who read data from documents, and they count the levels (`Json.levels`).
-/

namespace TimedStreams.Json

open Text

/-! ### Written forms -/

inductive Form where
  | compact
  | pretty
  deriving DecidableEq, Repr

def write (form : Form) (j : Json) : List Char :=
  match form with
  | .compact => j.compact
  | .pretty => j.pretty

section
variable (gap : Nat → List Char) (colon : List Char)

mutual

/-- The document with a gap in front of each item, member and end, as wide as its level tells. -/
def laidOut (level : Nat) : Json → List Char
  | null => "null".toList
  | bool b => (if b then "true" else "false").toList
  | number literal => literal
  | string s => quote s
  | array [] => "[]".toList
  | array (item :: items) =>
    '[' :: (gap (level + 1) ++ (item.laidOut (level + 1) ++ laidOutItems level items))
  | object [] => "\x7b\x7d".toList
  | object ((key, item) :: members) =>
    '\x7b' :: (gap (level + 1) ++ (quote key ++ (colon ++ (item.laidOut (level + 1) ++ laidOutMembers level members))))

def laidOutItems (level : Nat) : List Json → List Char
  | [] => gap level ++ [']']
  | item :: items => ',' :: (gap (level + 1) ++ (item.laidOut (level + 1) ++ laidOutItems level items))

def laidOutMembers (level : Nat) : List (Option String × Json) → List Char
  | [] => gap level ++ ['\x7d']
  | (key, item) :: members =>
    ',' :: (gap (level + 1) ++ (quote key ++ (colon ++ (item.laidOut (level + 1) ++ laidOutMembers level members))))

end

end

mutual

/-- All literals of a document can be read. -/
def Proper : Json → Prop
  | null | bool _ => True
  | number literal => IsNumber literal
  | string s => s.isSome = true
  | array items => ProperItems items
  | object members => ProperMembers members

def ProperItems : List Json → Prop
  | [] => True
  | item :: items => item.Proper ∧ ProperItems items

def ProperMembers : List (Option String × Json) → Prop
  | [] => True
  | (key, item) :: members => key.isSome = true ∧ item.Proper ∧ ProperMembers members

end

mutual

/-- The number of arrays and objects around the innermost of a document, itself included. -/
def levels : Json → Nat
  | null | bool _ | number _ | string _ => 0
  | array items => 1 + levelsOfItems items
  | object members => 1 + levelsOfMembers members

def levelsOfItems : List Json → Nat
  | [] => 0
  | item :: items => max item.levels (levelsOfItems items)

def levelsOfMembers : List (Option String × Json) → Nat
  | [] => 0
  | (_, item) :: members => max item.levels (levelsOfMembers members)

end

mutual

theorem compact_eq (level : Nat) : ∀ j : Json, j.compact = j.laidOut (fun _ => []) [':'] level
  | null | bool _ | number _ | string _ | array [] | object [] => by simp [compact, laidOut]
  | array (item :: items) => by simp [compact, laidOut, compact_eq (level + 1) item, compactItems_eq level items]
  | object ((key, item) :: members) => by
    simp [compact, laidOut, compact_eq (level + 1) item, compactMembers_eq level members]

theorem compactItems_eq (level : Nat) : ∀ items : List Json, compactItems items = laidOutItems (fun _ => []) [':'] level items
  | [] => by simp [compactItems, laidOutItems]
  | item :: items => by simp [compactItems, laidOutItems, compact_eq (level + 1) item, compactItems_eq level items]

theorem compactMembers_eq (level : Nat) : ∀ members : List (Option String × Json),
    compactMembers members = laidOutMembers (fun _ => []) [':'] level members
  | [] => by simp [compactMembers, laidOutMembers]
  | (key, item) :: members => by
    simp [compactMembers, laidOutMembers, compact_eq (level + 1) item, compactMembers_eq level members]

end

mutual

theorem prettyAt_eq (level : Nat) : ∀ j : Json, j.prettyAt level = j.laidOut newline ": ".toList level
  | null | bool _ | number _ | string _ | array [] | object [] => by simp [prettyAt, laidOut]
  | array (item :: items) => by simp [prettyAt, laidOut, prettyAt_eq (level + 1) item, prettyItems_eq level items]
  | object ((key, item) :: members) => by
    simp [prettyAt, laidOut, prettyAt_eq (level + 1) item, prettyMembers_eq level members]

theorem prettyItems_eq (level : Nat) : ∀ items : List Json,
    prettyItems level items = laidOutItems newline ": ".toList level items
  | [] => by simp [prettyItems, laidOutItems]
  | item :: items => by simp [prettyItems, laidOutItems, prettyAt_eq (level + 1) item, prettyItems_eq level items]

theorem prettyMembers_eq (level : Nat) : ∀ members : List (Option String × Json),
    prettyMembers level members = laidOutMembers newline ": ".toList level members
  | [] => by simp [prettyMembers, laidOutMembers]
  | (key, item) :: members => by
    simp [prettyMembers, laidOutMembers, prettyAt_eq (level + 1) item, prettyMembers_eq level members]

end

/-! ### Reading -/

/-- A document is read from the beginning of `s`, and `rest` is left. -/
def Reads (s : List Char) (j : Json) (rest : List Char) : Prop :=
  ∃ h, readValue? s = some (j, ⟨rest, h⟩)

/-- The items of an array and its end are read. -/
def ReadsItems (s : List Char) (items : List Json) (rest : List Char) : Prop :=
  ∃ h, readItems? s = some (items, ⟨rest, h⟩)

def ReadsMembers (s : List Char) (members : List (Option String × Json)) (rest : List Char) : Prop :=
  ∃ h, readMembers? s = some (members, ⟨rest, h⟩)

variable {s s' rest : List Char} {c : Char} {literal : List Char} {t : String} {j item : Json} {items : List Json}
  {members : List (Option String × Json)}

theorem nextToken?_of_skipSpace (hs : skipSpace s = c :: rest) : ∃ h, nextToken? s = some (c, ⟨rest, h⟩) := by
  have hlength := length_skipSpace_le s
  rw [hs, List.length_cons] at hlength
  refine ⟨hlength, ?_⟩
  rw [nextToken?]
  split
  · next hnil => exact absurd (hs.symm.trans hnil) (List.cons_ne_nil _ _)
  · next d last hcons =>
    obtain ⟨rfl, rfl⟩ := List.cons.inj (hs.symm.trans hcons)
    rfl

theorem skipSpace_gap {gap : List Char} (hgap : ∀ d ∈ gap, isSpace d = true) (hc : isSpace c = false) :
    skipSpace (gap ++ c :: rest) = c :: rest := by
  rw [skipSpace, List.dropWhile_append_of_pos hgap, List.dropWhile_cons_of_neg (by simp [hc])]

theorem exists_of_readNumber? {x : List Char × Shorter s} (hread : readNumber? s = some x) :
    ∃ c s', s = c :: s' ∧ (c = '-' ∨ Decimal.isDigit c = true) := by
  cases s with
  | nil => cases hread
  | cons c s' =>
    refine ⟨c, s', rfl, ?_⟩
    by_cases hminus : c = '-'
    · exact .inl hminus
    by_cases hdigit : Decimal.isDigit c = true
    · exact .inr hdigit
    have hzero : c ≠ '0' := by
      rintro rfl
      exact hdigit rfl
    have hwhole : takeWhole? (c :: s') = none := by simp [takeWhole?, hminus, hdigit]
    rw [readNumber?, hwhole] at hread
    cases hread

theorem quote_append (t : String) (rest : List Char) :
    quote (some t) ++ rest = '"' :: (t.toList.flatMap escape ++ '"' :: rest) := by
  simp [quote]

theorem reads_null (hs : skipSpace s = 'n' :: 'u' :: 'l' :: 'l' :: rest) : Reads s null rest := by
  obtain ⟨h, hnext⟩ := nextToken?_of_skipSpace hs
  refine ⟨by simp only [List.length_cons] at h; omega, ?_⟩
  rw [readValue?, hnext]
  rfl

theorem reads_bool (b : Bool) (hs : skipSpace s = (if b then "true" else "false").toList ++ rest) :
    Reads s (bool b) rest := by
  cases b with
  | true =>
    obtain ⟨h, hnext⟩ := @nextToken?_of_skipSpace s ('r' :: 'u' :: 'e' :: rest) 't' hs
    refine ⟨by simp only [List.length_cons] at h; omega, ?_⟩
    rw [readValue?, hnext]
    rfl
  | false =>
    obtain ⟨h, hnext⟩ := @nextToken?_of_skipSpace s ('a' :: 'l' :: 's' :: 'e' :: rest) 'f' hs
    refine ⟨by simp only [List.length_cons] at h; omega, ?_⟩
    rw [readValue?, hnext]
    rfl

theorem reads_text (hs : skipSpace s = quote (some t) ++ rest) : Reads s (text t) rest := by
  obtain ⟨h, hnext⟩ := nextToken?_of_skipSpace (hs.trans (quote_append t rest))
  obtain ⟨h', hread⟩ := readString?_escape t rest
  refine ⟨Nat.lt_trans h' h, ?_⟩
  rw [readValue?, hnext]
  simp only [Option.bind_eq_bind, Option.bind_some, hread]
  rfl

theorem reads_number (hliteral : IsNumber literal) (hends : Ends rest) (hs : skipSpace s = literal ++ rest) :
    Reads s (number literal) rest := by
  obtain ⟨h, hread⟩ : ∃ h, readNumber? (skipSpace s) = some (literal, ⟨rest, h⟩) := hs ▸ hliteral rest hends
  obtain ⟨c, s', hcons, hc⟩ := exists_of_readNumber? hread
  obtain ⟨_, hnext⟩ := nextToken?_of_skipSpace hcons
  refine ⟨Nat.lt_of_lt_of_le h (length_skipSpace_le s), ?_⟩
  rw [readValue?, hnext]
  simp only [Option.bind_eq_bind, Option.bind_some]
  -- The other kinds of documents begin otherwise.
  split
  · exact absurd hc (by decide)
  · exact absurd hc (by decide)
  · exact absurd hc (by decide)
  · exact absurd hc (by decide)
  · exact absurd hc (by decide)
  · exact absurd hc (by decide)
  · simp only [hread]
    rfl

theorem reads_array_nil (hs : skipSpace s = '[' :: ']' :: rest) : Reads s (array []) rest := by
  obtain ⟨h, hnext⟩ := nextToken?_of_skipSpace hs
  obtain ⟨h', hclose⟩ := @nextToken?_of_skipSpace (']' :: rest) rest ']' rfl
  refine ⟨Nat.lt_trans h' h, ?_⟩
  rw [readValue?, hnext]
  simp only [Option.bind_eq_bind, Option.bind_some, hclose]
  rfl

theorem reads_object_nil (hs : skipSpace s = '\x7b' :: '\x7d' :: rest) : Reads s (object []) rest := by
  obtain ⟨h, hnext⟩ := nextToken?_of_skipSpace hs
  obtain ⟨h', hclose⟩ := @nextToken?_of_skipSpace ('\x7d' :: rest) rest '\x7d' rfl
  refine ⟨Nat.lt_trans h' h, ?_⟩
  rw [readValue?, hnext]
  simp only [Option.bind_eq_bind, Option.bind_some, hclose]
  rfl

theorem skipSpace_of_nextToken? {r : Shorter s} (hnext : nextToken? s = some (c, r)) : skipSpace s = c :: r.1 := by
  rw [nextToken?] at hnext
  split at hnext
  · cases hnext
  · next hcons =>
    cases hnext
    exact hcons

theorem readValue?_of_close {r : Shorter s} (hnext : nextToken? s = some (']', r)) : readValue? s = none := by
  have hnumber : readNumber? (skipSpace s) = none := by
    rw [Option.eq_none_iff_forall_ne_some]
    intro x hread
    obtain ⟨c, s', hcons, hc⟩ := exists_of_readNumber? hread
    obtain ⟨rfl, -⟩ := List.cons.inj ((skipSpace_of_nextToken? hnext).symm.trans hcons)
    exact absurd hc (by decide)
  rw [readValue?, hnext]
  simp only [Option.bind_eq_bind, Option.bind_some, hnumber]
  rfl

theorem reads_array (hs : skipSpace s = '[' :: s') (hitems : ReadsItems s' items rest) : Reads s (array items) rest := by
  obtain ⟨h, hnext⟩ := nextToken?_of_skipSpace hs
  obtain ⟨h', hread⟩ := hitems
  refine ⟨Nat.lt_trans h' h, ?_⟩
  rw [readValue?, hnext]
  simp only [Option.bind_eq_bind, Option.bind_some]
  split
  · next hclose =>
    rw [readItems?, readValue?_of_close hclose] at hread
    cases hread
  · simp only [hread]
    rfl

theorem reads_object (hs : skipSpace s = '\x7b' :: s') (hmembers : ReadsMembers s' members rest) :
    Reads s (object members) rest := by
  obtain ⟨h, hnext⟩ := nextToken?_of_skipSpace hs
  obtain ⟨h', hread⟩ := hmembers
  refine ⟨Nat.lt_trans h' h, ?_⟩
  rw [readValue?, hnext]
  simp only [Option.bind_eq_bind, Option.bind_some]
  split
  · next hclose =>
    rw [readMembers?, hclose] at hread
    cases hread
  · simp only [hread]
    rfl

/-- Behind an item stands the end of the array, or a comma and further items. -/
theorem readsItems_cons (hitem : Reads s item s')
    (hafter : items = [] ∧ skipSpace s' = ']' :: rest ∨
      ∃ s'', skipSpace s' = ',' :: s'' ∧ ReadsItems s'' items rest) : ReadsItems s (item :: items) rest := by
  obtain ⟨h, hread⟩ := hitem
  rcases hafter with ⟨rfl, hs⟩ | ⟨s'', hs, h'', hrest⟩
  · obtain ⟨h', hnext⟩ := nextToken?_of_skipSpace hs
    refine ⟨Nat.lt_trans h' h, ?_⟩
    rw [readItems?, hread]
    simp only [Option.bind_eq_bind, Option.bind_some, hnext]
    rfl
  · obtain ⟨h', hnext⟩ := nextToken?_of_skipSpace hs
    refine ⟨Nat.lt_trans h'' (Nat.lt_trans h' h), ?_⟩
    rw [readItems?, hread]
    simp only [Option.bind_eq_bind, Option.bind_some, hnext, hrest]
    rfl

theorem readsMembers_cons {afterKey afterColon : List Char} (hkey : skipSpace s = quote (some t) ++ afterKey)
    (hcolon : skipSpace afterKey = ':' :: afterColon) (hitem : Reads afterColon item s')
    (hafter : members = [] ∧ skipSpace s' = '\x7d' :: rest ∨
      ∃ s'', skipSpace s' = ',' :: s'' ∧ ReadsMembers s'' members rest) :
    ReadsMembers s ((some t, item) :: members) rest := by
  obtain ⟨h₁, hnext₁⟩ := nextToken?_of_skipSpace (hkey.trans (quote_append t afterKey))
  obtain ⟨h₂, hread₂⟩ := readString?_escape t afterKey
  obtain ⟨h₃, hnext₃⟩ := nextToken?_of_skipSpace hcolon
  obtain ⟨h₄, hread₄⟩ := hitem
  rcases hafter with ⟨rfl, hs⟩ | ⟨s'', hs, h₆, hread₆⟩
  · obtain ⟨h₅, hnext₅⟩ := nextToken?_of_skipSpace hs
    refine ⟨by omega, ?_⟩
    rw [readMembers?, hnext₁]
    simp only [Option.bind_eq_bind, Option.bind_some, hread₂, hnext₃, hread₄, hnext₅]
    rfl
  · obtain ⟨h₅, hnext₅⟩ := nextToken?_of_skipSpace hs
    refine ⟨by omega, ?_⟩
    rw [readMembers?, hnext₁]
    simp only [Option.bind_eq_bind, Option.bind_some, hread₂, hnext₃, hread₄, hnext₅, hread₆]
    rfl

/-! ### Written documents -/

/-- What ends an item or a member can be no part of a number. -/
theorem ends_gap {gap : List Char} (hgap : ∀ d ∈ gap, isSpace d = true) (hc : c ∈ [',', ']', '\x7d']) :
    Ends (gap ++ c :: rest) := by
  have hspace : ∀ d, isSpace d = true → Decimal.isDigit d = false ∧ d ≠ '.' ∧ d ≠ 'e' ∧ d ≠ 'E' := by
    intro d hd
    simp only [isSpace, Bool.or_eq_true, beq_iff_eq] at hd
    rcases hd with ((rfl | rfl) | rfl) | rfl <;> decide
  cases gap with
  | nil =>
    rintro d hd
    obtain rfl : c = d := Option.some.inj hd
    simp only [List.mem_cons, List.not_mem_nil, or_false] at hc
    rcases hc with rfl | rfl | rfl <;> decide
  | cons d gap =>
    rintro d' hd
    obtain rfl : d = d' := Option.some.inj hd
    exact hspace d (hgap d List.mem_cons_self)

/-- The gaps in front of tokens, and of what follows a key, are spaces. -/
structure Spaced (gap : Nat → List Char) (blank : List Char) : Prop where
  gap : ∀ level, ∀ c ∈ gap level, isSpace c = true
  blank : ∀ c ∈ blank, isSpace c = true

section
variable {gap : Nat → List Char} {blank : List Char}

theorem exists_laidOut (gap : Nat → List Char) (colon : List Char) (level : Nat) (hj : j.Proper) :
    ∃ c cs, j.laidOut gap colon level = c :: cs ∧ isSpace c = false := by
  cases j with
  | null => exact ⟨_, _, rfl, rfl⟩
  | bool b => cases b <;> exact ⟨_, _, rfl, rfl⟩
  | string s => exact ⟨_, _, rfl, rfl⟩
  | array items => cases items <;> exact ⟨_, _, rfl, rfl⟩
  | object members =>
    cases members with
    | nil => exact ⟨_, _, rfl, rfl⟩
    | cons member members => exact ⟨_, _, rfl, rfl⟩
  | number literal =>
    obtain ⟨h, hread⟩ := hj [] ends_nil
    obtain ⟨c, cs, hcons, hc⟩ := exists_of_readNumber? hread
    rw [List.append_nil] at hcons
    refine ⟨c, cs, hcons, Bool.eq_false_iff.2 fun hspace => ?_⟩
    simp only [isSpace, Bool.or_eq_true, beq_iff_eq] at hspace
    rcases hspace with ((rfl | rfl) | rfl) | rfl <;> exact absurd hc (by decide)

theorem skipSpace_laidOut {g colon : List Char} (hg : ∀ c ∈ g, isSpace c = true) (hj : j.Proper) (level : Nat)
    (rest : List Char) :
    skipSpace (g ++ (j.laidOut gap colon level ++ rest)) = j.laidOut gap colon level ++ rest := by
  obtain ⟨c, cs, hcons, hc⟩ := exists_laidOut gap colon level hj
  rw [hcons]
  exact skipSpace_gap hg hc

theorem skipSpace_quote {g : List Char} (hg : ∀ c ∈ g, isSpace c = true) (t : String) (rest : List Char) :
    skipSpace (g ++ (quote (some t) ++ rest)) = quote (some t) ++ rest := by
  rw [quote_append]
  exact skipSpace_gap hg rfl

variable (hspaced : Spaced gap blank)
include hspaced

theorem ends_laidOutItems (colon : List Char) (level : Nat) (items : List Json) (rest : List Char) :
    Ends (laidOutItems gap colon level items ++ rest) := by
  cases items with
  | cons item items => exact @ends_gap _ _ [] nofun (by simp)
  | nil =>
    rw [laidOutItems, List.append_assoc]
    exact ends_gap (hspaced.gap level) (by simp)

theorem ends_laidOutMembers (colon : List Char) (level : Nat) (members : List (Option String × Json))
    (rest : List Char) : Ends (laidOutMembers gap colon level members ++ rest) := by
  cases members with
  | cons member members => exact @ends_gap _ _ [] nofun (by simp)
  | nil =>
    rw [laidOutMembers, List.append_assoc]
    exact ends_gap (hspaced.gap level) (by simp)

mutual

/-- Whatever the gaps in front of the tokens, the document is read back. -/
theorem reads_laidOut (level : Nat) : ∀ (j : Json), j.Proper → ∀ {s rest : List Char}, Ends rest →
    skipSpace s = j.laidOut gap (':' :: blank) level ++ rest → Reads s j rest
  | null, _, _, _, _, hs => reads_null hs
  | bool b, _, _, _, _, hs => reads_bool b hs
  | number literal, hliteral, _, _, hends, hs => reads_number hliteral hends hs
  | string (some t), _, _, _, _, hs => reads_text hs
  | string none, hj, _, _, _, _ => nomatch hj
  | array [], _, _, _, _, hs => reads_array_nil hs
  | array (item :: items), ⟨hitem, hitems⟩, s, rest, _, hs => by
    rw [laidOut, List.cons_append, List.append_assoc, List.append_assoc] at hs
    refine reads_array hs (readsItems_laidOut level items hitems ?_)
    exact reads_laidOut (level + 1) item hitem (ends_laidOutItems hspaced _ level items rest)
      (skipSpace_laidOut (hspaced.gap (level + 1)) hitem (level + 1) _)
  | object [], _, _, _, _, hs => reads_object_nil hs
  | object ((none, _) :: _), ⟨hkey, _, _⟩, _, _, _, _ => nomatch hkey
  | object ((some t, item) :: members), ⟨_, hitem, hmembers⟩, s, rest, _, hs => by
    rw [laidOut, List.cons_append, List.append_assoc, List.append_assoc, List.append_assoc, List.append_assoc] at hs
    refine reads_object hs (readsMembers_laidOut level members hmembers
      (skipSpace_quote (hspaced.gap (level + 1)) t _) ?_)
    exact reads_laidOut (level + 1) item hitem (ends_laidOutMembers hspaced _ level members rest)
      (skipSpace_laidOut hspaced.blank hitem (level + 1) _)

theorem readsItems_laidOut (level : Nat) : ∀ (items : List Json), ProperItems items →
    ∀ {s rest : List Char} {first : Json},
      Reads s first (laidOutItems gap (':' :: blank) level items ++ rest) → ReadsItems s (first :: items) rest
  | [], _, s, rest, first, hfirst => by
    rw [laidOutItems, List.append_assoc] at hfirst
    exact readsItems_cons hfirst (.inl ⟨rfl, skipSpace_gap (hspaced.gap level) rfl⟩)
  | item :: items, ⟨hitem, hitems⟩, s, rest, first, hfirst => by
    rw [laidOutItems, List.cons_append, List.append_assoc, List.append_assoc] at hfirst
    refine readsItems_cons hfirst (.inr ⟨_, rfl, readsItems_laidOut level items hitems ?_⟩)
    exact reads_laidOut (level + 1) item hitem (ends_laidOutItems hspaced _ level items rest)
      (skipSpace_laidOut (hspaced.gap (level + 1)) hitem (level + 1) _)

theorem readsMembers_laidOut (level : Nat) : ∀ (members : List (Option String × Json)), ProperMembers members →
    ∀ {s afterColon rest : List Char} {key : String} {first : Json},
      skipSpace s = quote (some key) ++ ':' :: afterColon →
      Reads afterColon first (laidOutMembers gap (':' :: blank) level members ++ rest) →
      ReadsMembers s ((some key, first) :: members) rest
  | [], _, s, afterColon, rest, key, first, hkey, hfirst => by
    rw [laidOutMembers, List.append_assoc] at hfirst
    exact readsMembers_cons hkey rfl hfirst (.inl ⟨rfl, skipSpace_gap (hspaced.gap level) rfl⟩)
  | (none, _) :: _, ⟨hnone, _, _⟩, _, _, _, _, _, _, _ => nomatch hnone
  | (some t, item) :: members, ⟨_, hitem, hmembers⟩, s, afterColon, rest, key, first, hkey, hfirst => by
    rw [laidOutMembers, List.cons_append, List.append_assoc, List.append_assoc, List.append_assoc,
      List.append_assoc] at hfirst
    refine readsMembers_cons hkey rfl hfirst (.inr ⟨_, rfl, readsMembers_laidOut level members hmembers
      (skipSpace_quote (hspaced.gap (level + 1)) t _) ?_⟩)
    exact reads_laidOut (level + 1) item hitem (ends_laidOutMembers hspaced _ level members rest)
      (skipSpace_laidOut hspaced.blank hitem (level + 1) _)

end

end

theorem read?_laidOut {gap : Nat → List Char} {blank : List Char} (hspaced : Spaced gap blank) (hj : j.Proper) :
    read? (j.laidOut gap (':' :: blank) 0) = some j := by
  have hstart : skipSpace (j.laidOut gap (':' :: blank) 0) = j.laidOut gap (':' :: blank) 0 ++ [] := by
    have hskip := @skipSpace_laidOut _ gap [] (':' :: blank) nofun hj 0 []
    rw [List.nil_append, List.append_nil] at hskip
    rw [hskip, List.append_nil]
  obtain ⟨h, hread⟩ := reads_laidOut hspaced 0 j hj ends_nil hstart
  rw [read?, hread]
  rfl

/-- What is written in either form is read back. -/
theorem read?_write (form : Form) (hj : j.Proper) : read? (j.write form) = some j := by
  cases form with
  | compact =>
    have hspaced : Spaced (fun _ => []) [] := ⟨fun _ => nofun, nofun⟩
    rw [write, compact_eq 0]
    exact read?_laidOut hspaced hj
  | pretty =>
    have hspaced : Spaced newline [' '] := by
      refine ⟨fun level c hc => ?_, by simp [isSpace]⟩
      rcases List.mem_cons.1 hc with rfl | hc
      · rfl
      · rw [(List.mem_replicate.1 hc).2]
        rfl
    rw [write, pretty, prettyAt_eq 0]
    exact read?_laidOut hspaced hj

end TimedStreams.Json
