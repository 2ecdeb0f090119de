import Mathlib
import TimedStreams.Fault

/-!
# The grammar of expressions

What a text has to be in order to be read as an expression is said in two steps, without any
reader. A text lexes into tokens (`Lexes`): a name is a longest run of letters, digits and
underscores, any other character that is not blank is a token of its own, and blanks stand wherever
they like in between. Texts can be put together and taken apart between two tokens (`Lexes.append`,
`Leaves`). A list of tokens is derived from the grammar, and every derivation denotes an
expression (`Expression`).

The reader accepts exactly the texts whose tokens are derived, and reads them as what the derivation
denotes (`parse_iff_spells`). It decides on the next token alone, so the induction for completeness
carries the text that is left: reading a text that starts with the tokens of a primary comes to
reading suffixes behind them.
-/

namespace TimedStreams.Expr

open Text

inductive Token where
  | name (name : String)
  | sign (c : Char)
  deriving DecidableEq

/-- A text and the tokens that it consists of. -/
inductive Lexes : List Char → List Token → Prop
  | nil : Lexes [] []
  | blank {c : Char} {s : List Char} {ts : List Token} (hblank : isBlank c = true) (hs : Lexes s ts) :
      Lexes (c :: s) ts
  | sign {c : Char} {s : List Char} {ts : List Token} (hblank : isBlank c = false) (hname : isNameChar c = false)
      (hs : Lexes s ts) : Lexes (c :: s) (.sign c :: ts)
  | name {run s : List Char} {ts : List Token} (hrun : run ≠ []) (hname : ∀ c ∈ run, isNameChar c = true)
      (hlongest : ∀ c ∈ s.head?, isNameChar c = false) (hs : Lexes s ts) :
      Lexes (run ++ s) (.name (String.ofList run) :: ts)

/-- The names by which an input may be called. -/
def inputNames : Input → List String
  | .first => ["input1", "first"]
  | .second => ["input2", "second"]

def suffix : List Token :=
  [.sign '.', .name "adjacentPairs", .sign '(', .sign ')']

mutual

/-- The tokens that `primary` derives, with the expression that the derivation denotes. -/
inductive Primary : List Token → Expr → Prop
  | input {name : String} {source : Input} (hname : name ∈ inputNames source) :
      Primary [.name name] (input source)
  | join {kind : Join} {ls rs : List Token} {left right : Expr} (hleft : Expression ls left)
      (hright : Expression rs right) :
      Primary (.name kind.name :: .sign '(' :: (ls ++ .sign ',' :: (rs ++ [.sign ')']))) (join kind left right)
  | adjacentPairs {ts : List Token} {source : Expr} (hsource : Expression ts source) :
      Primary (.name "adjacentPairs" :: .sign '(' :: (ts ++ [.sign ')'])) (adjacentPairs source)

/-- The tokens that `expression` derives: a primary and any number of suffixes. -/
inductive Expression : List Token → Expr → Prop
  | primary {ts : List Token} {e : Expr} (hprimary : Primary ts e) : Expression ts e
  | suffixed {ts : List Token} {e : Expr} (hexpression : Expression ts e) :
      Expression (ts ++ suffix) (adjacentPairs e)

end

/-- The text is derived from the grammar, and the derivation denotes `e`. -/
def Spells (s : List Char) (e : Expr) : Prop :=
  ∃ ts, Lexes s ts ∧ Expression ts e

/-! ### Tokens -/

def tokens (s : List Char) : List Token :=
  match h : skipBlanks s with
  | [] => []
  | c :: rest =>
    have := length_lt_of_skipBlanks h
    if isNameChar c then
      .name (String.ofList (c :: rest.takeWhile isNameChar)) :: tokens (rest.dropWhile isNameChar)
    else .sign c :: tokens rest
termination_by s.length
decreasing_by
  · exact Nat.lt_of_le_of_lt (List.dropWhile_suffix isNameChar).length_le this
  · exact this

theorem isNameChar_of_isBlank {c : Char} (hblank : isBlank c = true) : isNameChar c = false := by
  refine Bool.eq_false_iff.2 fun hname => ?_
  simp only [isNameChar, Char.isAlphanum, Char.isAlpha, Char.isUpper, Char.isLower, Char.isDigit, Bool.or_eq_true,
    Bool.and_eq_true, decide_eq_true_eq, UInt32.le_iff_toNat_le, ge_iff_le, beq_iff_eq] at hname
  change ((((65 ≤ c.toNat ∧ c.toNat ≤ 90) ∨ (97 ≤ c.toNat ∧ c.toNat ≤ 122)) ∨
    (48 ≤ c.toNat ∧ c.toNat ≤ 57)) ∨ c = '_') at hname
  rcases hname with hname | rfl
  · simp only [isBlank, blankRanges, List.any_cons, List.any_nil, Bool.or_false, Bool.or_eq_true, Bool.and_eq_true,
      decide_eq_true_eq] at hblank
    omega
  · cases hblank

theorem tokens_of_nil {s : List Char} (hs : skipBlanks s = []) : tokens s = [] := by
  rw [tokens]
  split
  · rfl
  · next hcons => cases hs.symm.trans hcons

theorem tokens_of_name {s rest : List Char} {c : Char} (hs : skipBlanks s = c :: rest) (hc : isNameChar c = true) :
    tokens s = .name (String.ofList (c :: rest.takeWhile isNameChar)) :: tokens (rest.dropWhile isNameChar) := by
  rw [tokens]
  split
  · next hnil => cases hs.symm.trans hnil
  · next hcons =>
    obtain ⟨rfl, rfl⟩ := List.cons.inj (hs.symm.trans hcons)
    rw [if_pos hc]

theorem tokens_of_sign {s rest : List Char} {c : Char} (hs : skipBlanks s = c :: rest) (hc : isNameChar c = false) :
    tokens s = .sign c :: tokens rest := by
  rw [tokens]
  split
  · next hnil => cases hs.symm.trans hnil
  · next hcons =>
    obtain ⟨rfl, rfl⟩ := List.cons.inj (hs.symm.trans hcons)
    rw [if_neg (by simp [hc])]

theorem tokens_congr {s r : List Char} (hsame : skipBlanks s = skipBlanks r) : tokens s = tokens r := by
  cases hs : skipBlanks s with
  | nil => rw [tokens_of_nil hs, tokens_of_nil (hsame.symm.trans hs)]
  | cons c rest =>
    have hr := hsame.symm.trans hs
    cases hc : isNameChar c with
    | true => rw [tokens_of_name hs hc, tokens_of_name hr hc]
    | false => rw [tokens_of_sign hs hc, tokens_of_sign hr hc]

theorem Lexes.of_skipBlanks {s : List Char} {ts : List Token} (hs : Lexes (skipBlanks s) ts) : Lexes s ts := by
  induction s with
  | nil => exact hs
  | cons c rest ih =>
    cases hc : isBlank c with
    | true =>
      rw [skipBlanks, List.dropWhile_cons_of_pos hc] at hs
      exact .blank hc (ih hs)
    | false =>
      rw [skipBlanks, List.dropWhile_cons_of_neg (by simp [hc])] at hs
      exact hs

theorem lexes_tokens (s : List Char) : Lexes s (tokens s) := by
  fun_induction tokens s with
  | case1 s hs => exact .of_skipBlanks (hs ▸ .nil)
  | case2 s c rest hs _ hc ih =>
    refine .of_skipBlanks ?_
    have hrun : (c :: rest.takeWhile isNameChar) ++ rest.dropWhile isNameChar = skipBlanks s := by
      rw [List.cons_append, List.takeWhile_append_dropWhile, hs]
    rw [← hrun]
    refine .name (List.cons_ne_nil _ _) ?_ ?_ ih
    · intro d hd
      rcases List.mem_cons.1 hd with rfl | hd
      · exact hc
      · exact List.all_eq_true.1 List.all_takeWhile d hd
    · intro d hd
      have hhead := List.head?_dropWhile_not isNameChar rest
      rw [Option.mem_def.1 hd] at hhead
      simpa using hhead
  | case3 s c rest hs _ hc ih =>
    exact .of_skipBlanks (hs ▸ .sign (isBlank_of_skipBlanks hs) (by simpa using hc) ih)

/-- A text has one list of tokens. -/
theorem Lexes.tokens_eq {s : List Char} {ts : List Token} (hs : Lexes s ts) : tokens s = ts := by
  induction hs with
  | nil => exact tokens_of_nil rfl
  | @blank c s ts hblank _ ih =>
    rw [← ih]
    exact tokens_congr (List.dropWhile_cons_of_pos hblank)
  | @sign c s ts hblank hname _ ih =>
    rw [tokens_of_sign (List.dropWhile_cons_of_neg (by simp [hblank])) hname, ih]
  | @name run s ts hrun hname hlongest _ ih =>
    obtain ⟨c, run, rfl⟩ := List.exists_cons_of_ne_nil hrun
    have hc := hname c (List.mem_cons_self ..)
    have hblank : isBlank c = false := Bool.eq_false_iff.2 fun hblank => by
      simp [isNameChar_of_isBlank hblank] at hc
    have hall : ∀ d ∈ run, isNameChar d = true := fun d hd => hname d (List.mem_cons_of_mem _ hd)
    have htake : s.takeWhile isNameChar = [] ∧ s.dropWhile isNameChar = s := by
      cases s with
      | nil => exact ⟨rfl, rfl⟩
      | cons d rest =>
        have hd := hlongest d rfl
        exact ⟨List.takeWhile_cons_of_neg (by simp [hd]), List.dropWhile_cons_of_neg (by simp [hd])⟩
    have hskip : skipBlanks (c :: run ++ s) = c :: (run ++ s) := List.dropWhile_cons_of_neg (by simp [hblank])
    rw [tokens_of_name hskip hc, List.takeWhile_append_of_pos hall, List.dropWhile_append_of_pos hall, htake.1, htake.2,
      List.append_nil, ih]

/-! ### Putting texts together -/

/-- No name runs on from the first text into the second. -/
def Apart (s r : List Char) : Prop :=
  ∀ c ∈ s.getLast?, ∀ d ∈ r.head?, isNameChar c = true → isNameChar d = false

theorem Apart.of_append {p s r : List Char} (hapart : Apart (p ++ s) r) : Apart s r :=
  fun c hc => hapart c (by rw [List.getLast?_append, Option.mem_def.1 hc]; rfl)

theorem apart_of_getLast? {s r : List Char} (hs : ∀ c ∈ s.getLast?, isNameChar c = false) : Apart s r :=
  fun c hc d _ hname => by simp [hs c hc] at hname

theorem apart_of_head? {s r : List Char} (hr : ∀ d ∈ r.head?, isNameChar d = false) : Apart s r :=
  fun _ _ d hd _ => hr d hd

/-- Texts that are put together keep their tokens, unless a name runs on from one into the other. -/
theorem Lexes.append {s r : List Char} {ts us : List Token} (hs : Lexes s ts) (hr : Lexes r us) (hapart : Apart s r) :
    Lexes (s ++ r) (ts ++ us) := by
  induction hs with
  | nil => exact hr
  | @blank c s _ hblank _ ih => exact .blank hblank (ih (hapart.of_append (p := [c])))
  | @sign c s _ hblank hname _ ih => exact .sign hblank hname (ih (hapart.of_append (p := [c])))
  | @name run s _ hrun hname hlongest _ ih =>
    rw [List.append_assoc]
    refine .name hrun hname ?_ (ih hapart.of_append)
    cases s with
    | cons d rest => exact hlongest
    | nil =>
      rw [List.append_nil] at hapart
      have hlast := List.getLast?_eq_some_getLast hrun
      exact fun d hd => hapart _ hlast d hd (hname _ (List.getLast_mem hrun))

theorem lexes_run {run : List Char} (hrun : run ≠ []) (hname : ∀ c ∈ run, isNameChar c = true) :
    Lexes run [.name (String.ofList run)] := by
  have hlexes : Lexes (run ++ []) [.name (String.ofList run)] := .name hrun hname (by simp) .nil
  rwa [List.append_nil] at hlexes

theorem lexes_blanks {s : List Char} (hs : ∀ c ∈ s, isBlank c = true) : Lexes s [] := by
  induction s with
  | nil => exact .nil
  | cons c rest ih =>
    exact .blank (hs c (List.mem_cons_self ..)) (ih fun d hd => hs d (List.mem_cons_of_mem _ hd))

theorem apart_blanks {s r : List Char} (hs : ∀ c ∈ s, isBlank c = true) : Apart s r :=
  apart_of_getLast? fun c hc => isNameChar_of_isBlank (hs c (List.mem_of_getLast? hc))

/-- What a text leaves when its first tokens `ts` have been taken from it. -/
def Leaves (s : List Char) (ts : List Token) (r : List Char) : Prop :=
  ∃ p, s = p ++ r ∧ Lexes p ts ∧ Apart p r

namespace Leaves

variable {s m r : List Char} {ts us : List Token}

theorem tokens_eq (hr : Leaves s ts r) : tokens s = ts ++ tokens r := by
  obtain ⟨p, rfl, hp, hapart⟩ := hr
  exact (hp.append (lexes_tokens r) hapart).tokens_eq

theorem refl (s : List Char) : Leaves s [] s :=
  ⟨[], rfl, .nil, by simp [Apart]⟩

theorem trans (hm : Leaves s ts m) (hr : Leaves m us r) : Leaves s (ts ++ us) r := by
  obtain ⟨p, rfl, hp, hpm⟩ := hm
  obtain ⟨q, rfl, hq, hqr⟩ := hr
  cases q with
  | nil =>
    obtain rfl : us = [] := hq.tokens_eq.symm.trans (tokens_of_nil rfl)
    exact ⟨p, rfl, by rwa [List.append_nil], hpm⟩
  | cons c q =>
    refine ⟨p ++ c :: q, (List.append_assoc ..).symm, hp.append hq hpm, fun d hd => hqr d ?_⟩
    simpa [List.getLast?_append] using hd

theorem skipBlanks (s : List Char) : Leaves s [] (skipBlanks s) := by
  have hblank : ∀ c ∈ s.takeWhile isBlank, isBlank c = true := List.all_eq_true.1 List.all_takeWhile
  exact ⟨s.takeWhile isBlank, List.takeWhile_append_dropWhile.symm, lexes_blanks hblank, apart_blanks hblank⟩

theorem of_skipBlanks (hr : Leaves (Text.skipBlanks s) ts r) : Leaves s ts r :=
  (skipBlanks s).trans hr

theorem of_sign {c : Char} (hs : Text.skipBlanks s = c :: r) (hc : isNameChar c = false) : Leaves s [.sign c] r :=
  of_skipBlanks ⟨[c], hs, .sign (isBlank_of_skipBlanks hs) hc .nil, apart_of_getLast? (by simpa using hc)⟩

end Leaves

/-! ### Reading one token -/

theorem Refusal.of_bind_eq_ok {α β : Type} {x : Except Refusal α} {f : α → Except Refusal β} {b : β}
    (hbind : x >>= f = .ok b) : ∃ a, x = .ok a ∧ f a = .ok b := by
  cases x with
  | error refusal => cases hbind
  | ok a => exact ⟨a, rfl, hbind⟩

theorem Refusal.bind_of_ok {α β : Type} {x : Except Refusal α} {a : α} (hx : x = .ok a) (f : α → Except Refusal β) :
    x >>= f = f a := by
  rw [hx]
  rfl

variable {s : List Char} {ts : List Token} {name : String} {c : Char}

theorem tokens_skipBlanks (s : List Char) : tokens (skipBlanks s) = tokens s :=
  tokens_congr (skipBlanks_skipBlanks s)

theorem leaves_of_readName {r : Shorter s} (hread : readName s = .ok (name, r)) : Leaves s [.name name] r.1 := by
  rw [readName] at hread
  split at hread
  · cases hread
  · next c run htake =>
    obtain ⟨rfl, rfl⟩ := Prod.mk.inj (Except.ok.inj hread)
    have hrun : ∀ d ∈ c :: run, isNameChar d = true := htake ▸ List.all_eq_true.1 List.all_takeWhile
    refine .of_skipBlanks ⟨c :: run, ?_, lexes_run (List.cons_ne_nil c run) hrun, apart_of_head? fun d hd => ?_⟩
    · change skipBlanks s = c :: run ++ (skipBlanks s).dropWhile isNameChar
      rw [← htake, List.takeWhile_append_dropWhile]
    · have hhead := List.head?_dropWhile_not isNameChar (skipBlanks s)
      rw [Option.mem_def.1 hd] at hhead
      simpa using hhead

theorem exists_readName (hs : tokens s = .name name :: ts) :
    ∃ r, readName s = .ok (name, r) ∧ tokens r.1 = ts := by
  cases hread : readName s with
  | ok p =>
    have htokens := (leaves_of_readName (r := p.2) hread).tokens_eq
    obtain ⟨hname, hrest⟩ := List.cons.inj (htokens.symm.trans hs)
    obtain rfl := Token.name.inj hname
    exact ⟨p.2, rfl, hrest⟩
  | error refusal =>
    rw [readName] at hread
    split at hread
    · next hempty =>
      cases hskip : skipBlanks s with
      | nil => simp [tokens_of_nil hskip] at hs
      | cons d rest =>
        cases hd : isNameChar d with
        | true => simp [hskip, List.takeWhile_cons_of_pos hd] at hempty
        | false => simp [tokens_of_sign hskip hd] at hs
    · cases hread

theorem leaves_of_readToken {r : Shorter s} (hc : isNameChar c = false) (hread : readToken c s = .ok r) :
    Leaves s [.sign c] r.1 := by
  rw [readToken] at hread
  split at hread
  · cases hread
  · next d rest hskip =>
    split at hread
    · next hsame =>
      subst hsame
      obtain rfl := Except.ok.inj hread
      exact .of_sign hskip hc
    · cases hread

theorem skipBlanks_of_tokens_sign (hs : tokens s = .sign c :: ts) :
    ∃ rest, skipBlanks s = c :: rest ∧ tokens rest = ts := by
  cases hskip : skipBlanks s with
  | nil => simp [tokens_of_nil hskip] at hs
  | cons d rest =>
    cases hd : isNameChar d with
    | true => simp [tokens_of_name hskip hd] at hs
    | false =>
      rw [tokens_of_sign hskip hd] at hs
      obtain ⟨hsign, hrest⟩ := List.cons.inj hs
      obtain rfl := Token.sign.inj hsign
      exact ⟨rest, rfl, hrest⟩

theorem exists_readToken (hs : tokens s = .sign c :: ts) : ∃ r, readToken c s = .ok r ∧ tokens r.1 = ts := by
  obtain ⟨rest, hskip, hrest⟩ := skipBlanks_of_tokens_sign hs
  rw [readToken]
  split
  · next hnil => cases hskip.symm.trans hnil
  · next hcons =>
    obtain ⟨rfl, rfl⟩ := List.cons.inj (hskip.symm.trans hcons)
    rw [if_pos rfl]
    exact ⟨_, rfl, hrest⟩

/-! ### Reading an expression -/

/-- Reading suffixes ends where none begins, or reads one and goes on. -/
theorem readSuffixes_eq_ok {e whole : Expr} {r : { r : List Char // r.length ≤ s.length }}
    (hread : readSuffixes e s = .ok (whole, r)) :
    (whole = e ∧ r.1 = skipBlanks s ∧ (tokens s).head? ≠ some (.sign '.')) ∨
      ∃ closed, closed.length < s.length ∧ Leaves s suffix closed ∧
        ∃ last, readSuffixes (adjacentPairs e) closed = .ok (whole, last) ∧ last.1 = r.1 := by
  rw [readSuffixes] at hread
  split at hread
  · next rest hskip =>
    obtain ⟨⟨name, afterName, hname⟩, hreadName, hread⟩ := Refusal.of_bind_eq_ok hread
    dsimp only at hread
    split at hread
    · cases hread
    · next hmethod =>
      obtain rfl := Decidable.not_not.1 hmethod
      obtain ⟨⟨opened, hopened⟩, hreadOpen, hread⟩ := Refusal.of_bind_eq_ok hread
      obtain ⟨⟨closed, hclosed⟩, hreadClose, hread⟩ := Refusal.of_bind_eq_ok hread
      obtain ⟨⟨whole', last⟩, hreadRest, hread⟩ := Refusal.of_bind_eq_ok hread
      obtain ⟨rfl, rfl⟩ := Prod.mk.inj (Except.ok.inj hread)
      have hless : closed.length < s.length :=
        Nat.lt_trans hclosed (Nat.lt_trans hopened (Nat.lt_trans hname (length_lt_of_skipBlanks hskip)))
      have hsuffix : Leaves s suffix closed := (Leaves.of_sign hskip rfl).trans
        ((leaves_of_readName hreadName).trans ((leaves_of_readToken rfl hreadOpen).trans
          (leaves_of_readToken rfl hreadClose)))
      exact .inr ⟨closed, hless, hsuffix, last, hreadRest, rfl⟩
  · next hnone =>
    obtain ⟨rfl, rfl⟩ := Prod.mk.inj (Except.ok.inj hread)
    refine .inl ⟨rfl, rfl, fun hdot => ?_⟩
    obtain ⟨ts, hdot⟩ := List.head?_eq_some_iff.1 hdot
    obtain ⟨rest, hskip, -⟩ := skipBlanks_of_tokens_sign hdot
    exact hnone rest hskip

/-- What is read behind an expression are suffixes of it, up to the first token that begins none. -/
theorem expression_of_readSuffixes {s : List Char} {ts : List Token} {e whole : Expr}
    {r : { r : List Char // r.length ≤ s.length }} (hread : readSuffixes e s = .ok (whole, r)) (he : Expression ts e) :
    ∃ us, Leaves s us r.1 ∧ Expression (ts ++ us) whole ∧ (tokens r.1).head? ≠ some (.sign '.') := by
  rcases readSuffixes_eq_ok hread with ⟨rfl, hr, hdot⟩ | ⟨closed, hless, hsuffix, last, hreadRest, hlast⟩
  · rw [hr, tokens_skipBlanks]
    exact ⟨[], .skipBlanks s, by rwa [List.append_nil], hdot⟩
  · obtain ⟨us, hus, hwhole, hdot⟩ := expression_of_readSuffixes hreadRest (.suffixed he)
    rw [hlast] at hus hdot
    exact ⟨suffix ++ us, hsuffix.trans hus, by rwa [← List.append_assoc], hdot⟩
termination_by s.length

def Head.names : Head → List String
  | input source => inputNames source
  | join kind => [kind.name]
  | adjacentPairs => ["adjacentPairs"]

theorem Head.ofName?_eq_some_iff {name : String} {head : Head} : ofName? name = some head ↔ name ∈ head.names := by
  constructor
  · intro hname
    unfold ofName? at hname
    split at hname <;> cases hname <;> decide
  · intro hname
    cases head with
    | adjacentPairs =>
      obtain rfl := List.mem_singleton.1 hname
      rfl
    | join kind =>
      obtain rfl := List.mem_singleton.1 hname
      cases kind <;> rfl
    | input source => cases source <;> simp [names, inputNames] at hname <;> rcases hname with rfl | rfl <;> rfl

/-- Reads an expression and the sign behind it. -/
def readBefore (c : Char) (s : List Char) : Except Refusal (Expr × Shorter s) := do
  let (e, after) ← readExpr s
  let rest ← readToken c after.1
  return (e, ⟨rest.1, Nat.lt_trans rest.2 after.2⟩)

/-- The part of `readExpr` between the first name and the suffixes: what the name announces. -/
def readPrimary (name : String) {s : List Char} (afterName : Shorter s) : Except Refusal (Expr × Shorter s) :=
  match Head.ofName? name with
  | none => throw ⟨s, .unknownStream name⟩
  | some (.input source) => return (input source, afterName)
  | some .adjacentPairs => do
    let opened ← readToken '(' afterName.1
    let (source, closed) ← readBefore ')' opened.1
    return (adjacentPairs source, ⟨closed.1, Nat.lt_trans closed.2 (Nat.lt_trans opened.2 afterName.2)⟩)
  | some (.join kind) => do
    let opened ← readToken '(' afterName.1
    let (left, separated) ← readBefore ',' opened.1
    let (right, closed) ← readBefore ')' separated.1
    return (join kind left right,
      ⟨closed.1, Nat.lt_trans closed.2 (Nat.lt_trans separated.2 (Nat.lt_trans opened.2 afterName.2))⟩)

theorem readExpr_eq (s : List Char) : readExpr s = (do
    let (name, afterName) ← readName s
    let (primary, rest) ← readPrimary name afterName
    let (whole, last) ← readSuffixes primary rest.1
    return (whole, ⟨last.1, Nat.lt_of_le_of_lt last.2 rest.2⟩)) := by
  rw [readExpr]
  refine congrArg (readName s >>= ·) (funext fun ⟨name, afterName⟩ => ?_)
  simp only [readPrimary]
  cases Head.ofName? name with
  | none => rfl
  | some head =>
    cases head with
    | input source => rfl
    | join kind => simp only [readBefore, bind_assoc, pure_bind]
    | adjacentPairs => simp only [readBefore, bind_assoc, pure_bind]

theorem expression_of_readBefore {s : List Char} {c : Char} {e : Expr} {r : Shorter s}
    (ih : ∀ (e : Expr) (r : Shorter s), readExpr s = .ok (e, r) →
      ∃ us, Leaves s us r.1 ∧ Expression us e ∧ (tokens r.1).head? ≠ some (.sign '.'))
    (hc : isNameChar c = false) (hread : readBefore c s = .ok (e, r)) :
    ∃ us, Leaves s (us ++ [.sign c]) r.1 ∧ Expression us e := by
  obtain ⟨⟨e', after⟩, hreadExpr, hread⟩ := Refusal.of_bind_eq_ok hread
  obtain ⟨rest, hreadToken, hread⟩ := Refusal.of_bind_eq_ok hread
  obtain ⟨rfl, rfl⟩ := Prod.mk.inj (Except.ok.inj hread)
  obtain ⟨us, hus, he, -⟩ := ih e' after hreadExpr
  exact ⟨us, hus.trans (leaves_of_readToken hc hreadToken), he⟩

/-- What is read between the first name and the suffixes is a primary, if shorter texts are read as the
grammar says. -/
theorem primary_of_readPrimary {s : List Char} {afterName rest : Shorter s} {primary : Expr}
    (ih : ∀ t : List Char, t.length < s.length → ∀ (e : Expr) (r : Shorter t), readExpr t = .ok (e, r) →
      ∃ us, Leaves t us r.1 ∧ Expression us e ∧ (tokens r.1).head? ≠ some (.sign '.'))
    (hname : Leaves s [.name name] afterName.1) (hread : readPrimary name afterName = .ok (primary, rest)) :
    ∃ us, Leaves s us rest.1 ∧ Primary us primary := by
  unfold readPrimary at hread
  split at hread
  · cases hread
  · next source hhead =>
    obtain ⟨rfl, rfl⟩ := Prod.mk.inj (Except.ok.inj hread)
    exact ⟨_, hname, .input (Head.ofName?_eq_some_iff.1 hhead)⟩
  · next hhead =>
    obtain ⟨opened, hreadOpen, hread⟩ := Refusal.of_bind_eq_ok hread
    obtain ⟨⟨source, closed⟩, hreadSource, hread⟩ := Refusal.of_bind_eq_ok hread
    obtain ⟨rfl, rfl⟩ := Prod.mk.inj (Except.ok.inj hread)
    have hless : opened.1.length < s.length := Nat.lt_trans opened.2 afterName.2
    obtain ⟨us, hus, hsource⟩ := expression_of_readBefore (ih opened.1 hless) rfl hreadSource
    obtain rfl := List.mem_singleton.1 (Head.ofName?_eq_some_iff.1 hhead)
    exact ⟨_, (hname.trans (leaves_of_readToken rfl hreadOpen)).trans hus, .adjacentPairs hsource⟩
  · next kind hhead =>
    obtain ⟨opened, hreadOpen, hread⟩ := Refusal.of_bind_eq_ok hread
    obtain ⟨⟨left, separated⟩, hreadLeft, hread⟩ := Refusal.of_bind_eq_ok hread
    obtain ⟨⟨right, closed⟩, hreadRight, hread⟩ := Refusal.of_bind_eq_ok hread
    obtain ⟨rfl, rfl⟩ := Prod.mk.inj (Except.ok.inj hread)
    have hless : opened.1.length < s.length := Nat.lt_trans opened.2 afterName.2
    obtain ⟨ls, hls, hleft⟩ := expression_of_readBefore (ih opened.1 hless) rfl hreadLeft
    obtain ⟨rs, hrs, hright⟩ :=
      expression_of_readBefore (ih separated.1 (Nat.lt_trans separated.2 hless)) rfl hreadRight
    obtain rfl := List.mem_singleton.1 (Head.ofName?_eq_some_iff.1 hhead)
    have hopen := hname.trans (leaves_of_readToken rfl hreadOpen)
    exact ⟨_, hopen.trans (hls.trans hrs), by simpa using Primary.join hleft hright⟩

/-- What is read is derived from the grammar, up to the first token that begins no suffix. -/
theorem expression_of_readExpr (s : List Char) (whole : Expr) (r : Shorter s) (hread : readExpr s = .ok (whole, r)) :
    ∃ us, Leaves s us r.1 ∧ Expression us whole ∧ (tokens r.1).head? ≠ some (.sign '.') := by
  rw [readExpr_eq] at hread
  obtain ⟨⟨name, afterName⟩, hreadName, hread⟩ := Refusal.of_bind_eq_ok hread
  obtain ⟨⟨primary, rest⟩, hreadPrimary, hread⟩ := Refusal.of_bind_eq_ok hread
  obtain ⟨⟨whole', last⟩, hreadSuffixes, hread⟩ := Refusal.of_bind_eq_ok hread
  obtain ⟨rfl, rfl⟩ := Prod.mk.inj (Except.ok.inj hread)
  obtain ⟨us, hus, hprimary⟩ :=
    primary_of_readPrimary (fun t _ => expression_of_readExpr t) (leaves_of_readName hreadName) hreadPrimary
  obtain ⟨vs, hvs, hwhole, hends⟩ := expression_of_readSuffixes hreadSuffixes (.primary hprimary)
  exact ⟨us ++ vs, hus.trans hvs, hwhole, hends⟩
termination_by s.length

/-- What a reader gives, without the proof that something was read. -/
def outcome {α : Type} {p : List Char → Prop} (x : Except Refusal (α × { r : List Char // p r })) :
    Except Refusal (α × List Char) :=
  x.map fun read => (read.1, read.2.1)

theorem exists_readSuffixes (e : Expr) (hs : (tokens s).head? ≠ some (.sign '.')) :
    ∃ r, readSuffixes e s = .ok (e, r) ∧ r.1 = skipBlanks s := by
  rw [readSuffixes]
  split
  · next rest hskip => simp [tokens_of_sign hskip rfl] at hs
  · exact ⟨_, rfl, rfl⟩

theorem outcome_readSuffixes (e : Expr)
    (hs : tokens s = .sign '.' :: .name "adjacentPairs" :: .sign '(' :: .sign ')' :: ts) :
    ∃ rest, tokens rest = ts ∧ outcome (readSuffixes e s) = outcome (readSuffixes (adjacentPairs e) rest) := by
  obtain ⟨rest, hskip, hname⟩ := skipBlanks_of_tokens_sign hs
  obtain ⟨⟨afterName, hafterName⟩, hreadName, hopen⟩ := exists_readName hname
  obtain ⟨⟨opened, hopened⟩, hreadOpen, hclose⟩ := exists_readToken hopen
  obtain ⟨⟨closed, hclosed⟩, hreadClose, hrest⟩ := exists_readToken hclose
  refine ⟨closed, hrest, ?_⟩
  rw [readSuffixes]
  split
  · next rest' hskip' =>
    obtain rfl := (List.cons.inj (hskip.symm.trans hskip')).2
    rw [Refusal.bind_of_ok hreadName]
    dsimp only
    rw [if_neg (not_not_intro rfl), Refusal.bind_of_ok hreadOpen]
    dsimp only
    rw [Refusal.bind_of_ok hreadClose]
    dsimp only
    cases readSuffixes (adjacentPairs e) closed with
    | error refusal => rfl
    | ok read => rfl
  · next hnone => exact absurd hskip (hnone rest)

/-- Where no suffix follows, the expression is all that is read, and the blanks behind it. -/
theorem exists_readExpr {s : List Char} {us : List Token} {e : Expr}
    (hread : ∃ rest, tokens rest = us ∧ outcome (readExpr s) = outcome (readSuffixes e rest))
    (hus : us.head? ≠ some (.sign '.')) :
    ∃ r, readExpr s = .ok (e, r) ∧ tokens r.1 = us ∧ skipBlanks r.1 = r.1 := by
  obtain ⟨rest, rfl, hread⟩ := hread
  obtain ⟨last, hlast, hskip⟩ := exists_readSuffixes e hus
  rw [hlast] at hread
  cases hwhole : readExpr s with
  | error refusal => simp [hwhole, outcome, Except.map] at hread
  | ok read =>
    simp only [hwhole, outcome, Except.map, Except.ok.injEq, Prod.mk.injEq] at hread
    obtain ⟨rfl, hsame⟩ := hread
    rw [hskip] at hsame
    exact ⟨read.2, rfl, hsame ▸ tokens_skipBlanks rest, hsame ▸ skipBlanks_skipBlanks rest⟩

/-- The sign behind an expression is read where it is the next token, unless it begins a suffix. -/
theorem exists_readBefore {s : List Char} {us : List Token} {e : Expr} {c : Char}
    (hread : ∃ rest, tokens rest = .sign c :: us ∧ outcome (readExpr s) = outcome (readSuffixes e rest))
    (hc : c ≠ '.') : ∃ r, readBefore c s = .ok (e, r) ∧ tokens r.1 = us := by
  obtain ⟨after, hreadExpr, hafter, -⟩ := exists_readExpr hread (by simpa using hc)
  obtain ⟨rest, hreadToken, hrest⟩ := exists_readToken hafter
  refine ⟨⟨rest.1, Nat.lt_trans rest.2 after.2⟩, ?_, hrest⟩
  rw [readBefore, Refusal.bind_of_ok hreadExpr]
  dsimp only
  rw [Refusal.bind_of_ok hreadToken]
  rfl

/-- After its primary, reading an expression comes to reading suffixes. -/
theorem outcome_readExpr_of_primary {s : List Char} {e : Expr} {afterName rest : Shorter s}
    (hname : readName s = .ok (name, afterName)) (hprimary : readPrimary name afterName = .ok (e, rest)) :
    outcome (readExpr s) = outcome (readSuffixes e rest.1) := by
  rw [readExpr_eq, Refusal.bind_of_ok hname]
  dsimp only
  rw [Refusal.bind_of_ok hprimary]
  dsimp only
  cases readSuffixes e rest.1 with
  | error refusal => rfl
  | ok read => rfl

mutual

theorem Primary.outcome_readExpr {s : List Char} {ts us : List Token} {e : Expr} (he : Primary ts e)
    (hs : tokens s = ts ++ us) :
    ∃ rest, tokens rest = us ∧ outcome (readExpr s) = outcome (readSuffixes e rest) := by
  cases he with
  | @input name source hname =>
    have hhead : Head.ofName? name = some (.input source) := Head.ofName?_eq_some_iff.2 hname
    obtain ⟨rest, hreadName, hrest⟩ := exists_readName hs
    refine ⟨rest.1, hrest, outcome_readExpr_of_primary hreadName ?_⟩
    simp only [readPrimary, hhead]
    rfl
  | @adjacentPairs ts source hsource =>
    have hhead : Head.ofName? "adjacentPairs" = some .adjacentPairs := rfl
    simp only [List.cons_append, List.append_assoc] at hs
    obtain ⟨afterName, hreadName, hopen⟩ := exists_readName hs
    obtain ⟨opened, hreadOpen, hinner⟩ := exists_readToken hopen
    obtain ⟨closed, hreadSource, hrest⟩ := exists_readBefore (hsource.outcome_readExpr hinner) (by decide)
    have hless := Nat.lt_trans closed.2 (Nat.lt_trans opened.2 afterName.2)
    have hprimary : readPrimary "adjacentPairs" afterName = .ok (adjacentPairs source, ⟨closed.1, hless⟩) := by
      simp only [readPrimary, hhead]
      rw [Refusal.bind_of_ok hreadOpen, Refusal.bind_of_ok hreadSource]
      rfl
    exact ⟨closed.1, hrest, outcome_readExpr_of_primary hreadName hprimary⟩
  | @join kind ls rs left right hleft hright =>
    have hhead : Head.ofName? kind.name = some (.join kind) :=
      Head.ofName?_eq_some_iff.2 (List.mem_singleton_self _)
    simp only [List.cons_append, List.append_assoc] at hs
    obtain ⟨afterName, hreadName, hopen⟩ := exists_readName hs
    obtain ⟨opened, hreadOpen, hinner⟩ := exists_readToken hopen
    obtain ⟨separated, hreadLeft, hinner'⟩ := exists_readBefore (hleft.outcome_readExpr hinner) (by decide)
    obtain ⟨closed, hreadRight, hrest⟩ := exists_readBefore (hright.outcome_readExpr hinner') (by decide)
    have hless := Nat.lt_trans closed.2 (Nat.lt_trans separated.2 (Nat.lt_trans opened.2 afterName.2))
    have hprimary : readPrimary kind.name afterName = .ok (join kind left right, ⟨closed.1, hless⟩) := by
      simp only [readPrimary, hhead]
      rw [Refusal.bind_of_ok hreadOpen, Refusal.bind_of_ok hreadLeft]
      dsimp only
      rw [Refusal.bind_of_ok hreadRight]
      rfl
    exact ⟨closed.1, hrest, outcome_readExpr_of_primary hreadName hprimary⟩
termination_by (sizeOf e, 0)

theorem Expression.outcome_readExpr {s : List Char} {ts us : List Token} {e : Expr} (he : Expression ts e)
    (hs : tokens s = ts ++ us) :
    ∃ rest, tokens rest = us ∧ outcome (readExpr s) = outcome (readSuffixes e rest) := by
  cases he with
  | primary hprimary => exact hprimary.outcome_readExpr hs
  | @suffixed ts e hexpression =>
    rw [List.append_assoc] at hs
    obtain ⟨between, hbetween, hread⟩ := hexpression.outcome_readExpr hs
    obtain ⟨rest, hrest, hsuffix⟩ := outcome_readSuffixes e hbetween
    exact ⟨rest, hrest, hread.trans hsuffix⟩
termination_by (sizeOf e, 1)

end

/-! ### Reading a whole text -/

theorem spells_iff {s : List Char} {e : Expr} : Spells s e ↔ Expression (tokens s) e := by
  constructor
  · rintro ⟨ts, hs, he⟩
    exact hs.tokens_eq ▸ he
  · exact fun he => ⟨_, lexes_tokens s, he⟩

theorem skipBlanks_eq_nil {s : List Char} (hs : tokens s = []) : skipBlanks s = [] := by
  cases hskip : skipBlanks s with
  | nil => rfl
  | cons c rest =>
    cases hc : isNameChar c with
    | true => simp [tokens_of_name hskip hc] at hs
    | false => simp [tokens_of_sign hskip hc] at hs

theorem read_eq_ok_iff {s : List Char} {e : Expr} : read s = .ok e ↔ Spells s e := by
  rw [spells_iff]
  constructor
  · intro hread
    obtain ⟨⟨whole, rest, hrest⟩, hreadExpr, hread⟩ := Refusal.of_bind_eq_ok hread
    dsimp only at hread
    split at hread
    · next hempty =>
      obtain rfl := Except.ok.inj hread
      subst hempty
      obtain ⟨us, hus, he, -⟩ := expression_of_readExpr _ _ _ hreadExpr
      have hnil : tokens [] = [] := tokens_of_nil rfl
      rw [hus.tokens_eq, hnil, List.append_nil]
      exact he
    · cases hread
  · intro he
    obtain ⟨⟨rest, hrest⟩, hread, htokens, hskip⟩ :=
      exists_readExpr (he.outcome_readExpr (List.append_nil _).symm) (by simp)
    rw [read, Refusal.bind_of_ok hread]
    dsimp only
    rw [if_pos (hskip.symm.trans (skipBlanks_eq_nil htokens))]
    rfl

/-- The grammar is unambiguous. -/
theorem Spells.eq {s : List Char} {e e' : Expr} (he : Spells s e) (he' : Spells s e') : e = e' :=
  Except.ok.inj ((read_eq_ok_iff.2 he).symm.trans (read_eq_ok_iff.2 he'))

/-- A text is read as an expression exactly if the grammar derives it and that is what the derivation
denotes; every other text is refused. -/
theorem parse_iff_spells (s : String) :
    (∀ e, Expr.parse s = .ok e ↔ Spells s.toList e) ∧
      ((∃ e, Spells s.toList e) ∨ ∃ offset complaint, Expr.parse s = .error (.badExpr offset complaint)) := by
  have hparse : ∀ e, Expr.parse s = .ok e ↔ Spells s.toList e := by
    intro e
    rw [← read_eq_ok_iff, Expr.parse]
    cases read s.toList with
    | error refusal => simp [Except.mapError]
    | ok whole => simp [Except.mapError]
  refine ⟨hparse, ?_⟩
  cases hread : read s.toList with
  | ok e => exact .inl ⟨e, read_eq_ok_iff.1 hread⟩
  | error refusal =>
    right
    exact ⟨refusal.offset s.toList, refusal.complaint, by rw [Expr.parse, hread]; rfl⟩

end TimedStreams.Expr
