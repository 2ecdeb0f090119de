import TimedStreams.Proofs.Spelling

/-!
# Where reading stops

A text that cannot be read is refused with an offset. It locates the first token behind which no
expression is left: the tokens before it can still be completed, those up to it cannot
(`Expr.parse_error_located`).

The grammar is said to be stuck between a list of tokens and the next one (`Expr.Stuck`), along the
reader's own recursion: every constructor is a place at which the reader may refuse. That the tokens
can be completed follows by induction on where the grammar is stuck (`Stuck.exists_expression`), and
so does that no text which goes on in the same way is read (`Stuck.refuses`), because the reader
decides on the next token alone. An operand is read together with the sign behind it, and the whole
text together with its end; this is what an `Aim` tells apart.

Some refusals leave the blanks in front of the offending token, others have skipped them. Neither
takes a token, so the offset is in the gap between the two tokens in both cases (`Leaves.inGap`).
-/

namespace TimedStreams.Expr

open Text

variable {s : List Char} {ts us : List Token} {next : Option Token} {name : String} {head : Head} {c : Char} {e : Expr}

/-! ### Where the grammar is stuck -/

def Head.separator? : Head → Option Char
  | input _ => none
  | join _ => some ','
  | adjacentPairs => some ')'

/-- What is to be read: an expression, or an expression and the sign behind it; `none` is the end of the text. -/
inductive Aim where
  | expression
  | before (sign : Option Char)

/-- The tokens `ts` begin what is to be read, and the grammar does not let `next` follow them; `none` is the
end of the text. -/
inductive Stuck : Aim → List Token → Option Token → Prop
  | head {next : Option Token} (hnext : ∀ name, next = some (.name name) → Head.ofName? name = none) :
      Stuck .expression [] next
  | opening {name : String} {head : Head} {c : Char} {next : Option Token} (hname : Head.ofName? name = some head)
      (hhead : head.separator? = some c) (hnext : next ≠ some (.sign '(')) : Stuck .expression [.name name] next
  | operand {name : String} {head : Head} {c : Char} {ts : List Token} {next : Option Token}
      (hname : Head.ofName? name = some head) (hhead : head.separator? = some c)
      (hts : Stuck (.before (some c)) ts next) : Stuck .expression (.name name :: .sign '(' :: ts) next
  | second {kind : Join} {ls ts : List Token} {left : Expr} {next : Option Token} (hleft : Expression ls left)
      (hts : Stuck (.before (some ')')) ts next) :
      Stuck .expression (.name kind.name :: .sign '(' :: (ls ++ .sign ',' :: ts)) next
  | suffix {ts us vs : List Token} {e : Expr} {wanted : Token} {next : Option Token} (he : Expression ts e)
      (hus : us ≠ []) (hsuffix : us ++ wanted :: vs = suffix) (hnext : next ≠ some wanted) :
      Stuck .expression (ts ++ us) next
  | within {sign : Option Char} {ts : List Token} {next : Option Token} (hts : Stuck .expression ts next) :
      Stuck (.before sign) ts next
  | behind {sign : Option Char} {ts : List Token} {e : Expr} {next : Option Token} (he : Expression ts e)
      (hsign : ∀ c ∈ sign, isNameChar c = false) (hdot : next ≠ some (.sign '.')) (hnext : next ≠ sign.map .sign) :
      Stuck (.before sign) ts next

theorem expression_input1 : Expression [.name "input1"] (input .first) :=
  .primary (.input (by decide))

theorem exists_expression_of_operand (hname : Head.ofName? name = some head) (hhead : head.separator? = some c)
    (he : Expression ts e) : ∃ us e', Expression (.name name :: .sign '(' :: (ts ++ us)) e' := by
  cases head with
  | input source => cases hhead
  | join kind =>
    obtain rfl := List.mem_singleton.1 (Head.ofName?_eq_some_iff.1 hname)
    exact ⟨_, _, .primary (.join he expression_input1)⟩
  | adjacentPairs =>
    obtain rfl := List.mem_singleton.1 (Head.ofName?_eq_some_iff.1 hname)
    exact ⟨_, _, .primary (.adjacentPairs he)⟩

/-- What the grammar is stuck behind can be completed. -/
theorem Stuck.exists_expression {aim : Aim} (hts : Stuck aim ts next) : ∃ us e, Expression (ts ++ us) e := by
  induction hts with
  | head => exact ⟨_, _, expression_input1⟩
  | opening hname hhead =>
    obtain ⟨us, e, he⟩ := exists_expression_of_operand hname hhead expression_input1
    exact ⟨_, e, he⟩
  | operand hname hhead _ ih =>
    obtain ⟨us, e, he⟩ := ih
    obtain ⟨vs, e', he'⟩ := exists_expression_of_operand hname hhead he
    exact ⟨us ++ vs, e', by simpa using he'⟩
  | @second kind ls ts left next hleft _ ih =>
    obtain ⟨us, e, he⟩ := ih
    exact ⟨us ++ [.sign ')'], join kind left e, by simpa using Expression.primary (.join hleft he)⟩
  | @suffix ts us vs e wanted next he _ hsuffix =>
    exact ⟨wanted :: vs, adjacentPairs e, by rw [List.append_assoc, hsuffix]; exact .suffixed he⟩
  | within _ ih => exact ih
  | @behind sign ts e next he => exact ⟨[], e, by rwa [List.append_nil]⟩

/-! ### The reader stops where the grammar is stuck -/

theorem Refusal.of_bind_eq_error {α β : Type} {x : Except Refusal α} {f : α → Except Refusal β} {r : Refusal}
    (hbind : x >>= f = .error r) : x = .error r ∨ ∃ a, x = .ok a ∧ f a = .error r := by
  cases x with
  | error refusal =>
    cases hbind
    exact .inl rfl
  | ok a => exact .inr ⟨a, rfl, hbind⟩

theorem leaves_of_readName_error {r : Refusal} (hread : readName s = .error r) :
    Leaves s [] r.rest ∧ ∀ name, (tokens r.rest).head? ≠ some (.name name) := by
  have hrest : r.rest = skipBlanks s := by
    rw [readName] at hread
    split at hread <;> cases hread
    rfl
  rw [hrest, tokens_skipBlanks]
  refine ⟨.skipBlanks s, fun name hname => ?_⟩
  obtain ⟨ts, hs⟩ := List.head?_eq_some_iff.1 hname
  obtain ⟨p, hok, -⟩ := exists_readName hs
  cases hok.symm.trans hread

theorem leaves_of_readToken_error {r : Refusal} (hread : readToken c s = .error r) :
    Leaves s [] r.rest ∧ (tokens r.rest).head? ≠ some (.sign c) := by
  have hrest : r.rest = skipBlanks s := by
    rw [readToken] at hread
    split at hread
    · next hskip =>
      cases hread
      exact hskip.symm
    · next hskip =>
      split at hread <;> cases hread
      exact hskip.symm
  rw [hrest, tokens_skipBlanks]
  refine ⟨.skipBlanks s, fun hsign => ?_⟩
  obtain ⟨ts, hs⟩ := List.head?_eq_some_iff.1 hsign
  obtain ⟨p, hok, -⟩ := exists_readToken hs
  cases hok.symm.trans hread

/-- A refusal leaves the text where the grammar is stuck. -/
def Refusal.IsStuck (r : Refusal) (aim : Aim) (s : List Char) : Prop :=
  ∃ us, Leaves s us r.rest ∧ Stuck aim us (tokens r.rest).head?

theorem stuck_of_readSuffixes {r : Refusal} (hread : readSuffixes e s = .error r) (he : Expression ts e) :
    ∃ us, Leaves s us r.rest ∧ Stuck .expression (ts ++ us) (tokens r.rest).head? := by
  induction e, s using readSuffixes.induct generalizing ts with
  | case1 e s rest hskip ih =>
    have hdot : Leaves s [.sign '.'] rest := .of_sign hskip rfl
    rw [readSuffixes] at hread
    split at hread
    · next rest' hskip' =>
      obtain rfl := (List.cons.inj (hskip.symm.trans hskip')).2
      rcases Refusal.of_bind_eq_error hread with hread | ⟨⟨name, afterName, hname⟩, hreadName, hread⟩
      · obtain ⟨hr, hnext⟩ := leaves_of_readName_error hread
        exact ⟨[.sign '.'], hdot.trans hr, .suffix he (by simp) rfl (hnext _)⟩
      dsimp only at hread
      have hmethod := leaves_of_readName hreadName
      split at hread
      · next hunknown =>
        cases hread
        refine ⟨[.sign '.'], hdot, .suffix he (by simp) rfl ?_⟩
        simpa [hmethod.tokens_eq] using hunknown
      next hknown =>
      obtain rfl := Decidable.not_not.1 hknown
      have hmethod := hdot.trans hmethod
      rcases Refusal.of_bind_eq_error hread with hread | ⟨⟨opened, hopened⟩, hreadOpen, hread⟩
      · obtain ⟨hr, hnext⟩ := leaves_of_readToken_error hread
        exact ⟨_, hmethod.trans hr, .suffix he (by simp) rfl hnext⟩
      have hopen := hmethod.trans (leaves_of_readToken rfl hreadOpen)
      rcases Refusal.of_bind_eq_error hread with hread | ⟨⟨closed, hclosed⟩, hreadClose, hread⟩
      · obtain ⟨hr, hnext⟩ := leaves_of_readToken_error hread
        exact ⟨_, hopen.trans hr, .suffix he (by simp) rfl hnext⟩
      have hclose : Leaves s suffix closed := hopen.trans (leaves_of_readToken rfl hreadClose)
      rcases Refusal.of_bind_eq_error hread with hread | ⟨_, _, hread⟩
      · obtain ⟨us, hr, hstuck⟩ := ih afterName hname opened hopened closed hclosed hread (.suffixed he)
        exact ⟨suffix ++ us, hclose.trans hr, by rwa [← List.append_assoc]⟩
      · cases hread
    · next hnone => exact absurd hskip (hnone rest)
  | case2 e s hnone =>
    rw [readSuffixes] at hread
    split at hread
    · next rest hskip => exact absurd hskip (hnone rest)
    · cases hread

theorem stuck_of_readBefore {r : Refusal}
    (ih : ∀ r : Refusal, readExpr s = .error r → r.IsStuck .expression s) (hc : isNameChar c = false)
    (hread : readBefore c s = .error r) : r.IsStuck (.before (some c)) s := by
  rcases Refusal.of_bind_eq_error hread with hread | ⟨⟨e, after⟩, hreadExpr, hread⟩
  · obtain ⟨us, hr, hstuck⟩ := ih r hread
    exact ⟨us, hr, .within hstuck⟩
  obtain ⟨us, hus, he, hdot⟩ := expression_of_readExpr _ _ _ hreadExpr
  rcases Refusal.of_bind_eq_error hread with hread | ⟨_, _, hread⟩
  · obtain ⟨hr, hnext⟩ := leaves_of_readToken_error hread
    rw [hr.tokens_eq] at hdot
    exact ⟨us ++ [], hus.trans hr, .behind (by rwa [List.append_nil]) (by simpa using hc) hdot hnext⟩
  · cases hread

theorem stuck_of_readPrimary {s : List Char} {afterName : Shorter s} {r : Refusal}
    (ih : ∀ t : List Char, t.length < s.length → ∀ r : Refusal, readExpr t = .error r → r.IsStuck .expression t)
    (hname : Leaves s [.name name] afterName.1) (hread : readPrimary name afterName = .error r) :
    r.IsStuck .expression s := by
  unfold readPrimary at hread
  split at hread
  · next hunknown =>
    cases hread
    refine ⟨[], .refl s, .head fun name' hname' => ?_⟩
    rw [hname.tokens_eq] at hname'
    cases hname'
    exact hunknown
  · cases hread
  · next hhead =>
    rcases Refusal.of_bind_eq_error hread with hread | ⟨opened, hreadOpen, hread⟩
    · obtain ⟨hr, hnext⟩ := leaves_of_readToken_error hread
      exact ⟨_, hname.trans hr, .opening hhead rfl hnext⟩
    have hopen := hname.trans (leaves_of_readToken rfl hreadOpen)
    rcases Refusal.of_bind_eq_error hread with hread | ⟨_, _, hread⟩
    · obtain ⟨us, hr, hstuck⟩ := stuck_of_readBefore (ih _ (Nat.lt_trans opened.2 afterName.2)) rfl hread
      exact ⟨_, hopen.trans hr, .operand hhead rfl hstuck⟩
    · cases hread
  · next kind hhead =>
    rcases Refusal.of_bind_eq_error hread with hread | ⟨opened, hreadOpen, hread⟩
    · obtain ⟨hr, hnext⟩ := leaves_of_readToken_error hread
      exact ⟨_, hname.trans hr, .opening hhead rfl hnext⟩
    have hopen := hname.trans (leaves_of_readToken rfl hreadOpen)
    have hless : opened.1.length < s.length := Nat.lt_trans opened.2 afterName.2
    rcases Refusal.of_bind_eq_error hread with hread | ⟨⟨left, separated⟩, hreadLeft, hread⟩
    · obtain ⟨us, hr, hstuck⟩ := stuck_of_readBefore (ih _ hless) rfl hread
      exact ⟨_, hopen.trans hr, .operand hhead rfl hstuck⟩
    obtain ⟨ls, hls, hleft⟩ := expression_of_readBefore (expression_of_readExpr _) rfl hreadLeft
    obtain rfl := List.mem_singleton.1 (Head.ofName?_eq_some_iff.1 hhead)
    rcases Refusal.of_bind_eq_error hread with hread | ⟨_, _, hread⟩
    · obtain ⟨us, hr, hstuck⟩ := stuck_of_readBefore (ih _ (Nat.lt_trans separated.2 hless)) rfl hread
      exact ⟨_, hopen.trans (hls.trans hr), by simpa using Stuck.second hleft hstuck⟩
    · cases hread

theorem stuck_of_readExpr (s : List Char) (r : Refusal) (hread : readExpr s = .error r) : r.IsStuck .expression s := by
  rw [readExpr_eq] at hread
  rcases Refusal.of_bind_eq_error hread with hread | ⟨⟨name, afterName⟩, hreadName, hread⟩
  · obtain ⟨hr, hnext⟩ := leaves_of_readName_error hread
    exact ⟨[], hr, .head fun name hname => absurd hname (hnext name)⟩
  have hname := leaves_of_readName hreadName
  rcases Refusal.of_bind_eq_error hread with hread | ⟨⟨primary, rest⟩, hreadPrimary, hread⟩
  · exact stuck_of_readPrimary (fun t _ => stuck_of_readExpr t) hname hread
  obtain ⟨us, hus, hprimary⟩ := primary_of_readPrimary (fun t _ => expression_of_readExpr t) hname hreadPrimary
  rcases Refusal.of_bind_eq_error hread with hread | ⟨_, _, hread⟩
  · obtain ⟨vs, hr, hstuck⟩ := stuck_of_readSuffixes hread (.primary hprimary)
    exact ⟨us ++ vs, hus.trans hr, hstuck⟩
  · cases hread
termination_by s.length

theorem stuck_of_read {r : Refusal} (hread : read s = .error r) : r.IsStuck (.before none) s := by
  rcases Refusal.of_bind_eq_error hread with hread | ⟨⟨e, rest⟩, hreadExpr, hread⟩
  · obtain ⟨us, hr, hstuck⟩ := stuck_of_readExpr s r hread
    exact ⟨us, hr, .within hstuck⟩
  obtain ⟨us, hus, he, hdot⟩ := expression_of_readExpr _ _ _ hreadExpr
  dsimp only at hread
  split at hread
  · cases hread
  · next hrest =>
    cases hread
    refine ⟨us, hus, .behind he (by simp) hdot fun hend => hrest ?_⟩
    -- The blanks behind the expression are read with it, so nothing but an end is left.
    obtain ⟨rest', hreadExpr', -, hskip⟩ := exists_readExpr (he.outcome_readExpr hus.tokens_eq) hdot
    cases hreadExpr.symm.trans hreadExpr'
    rw [← hskip, skipBlanks_eq_nil (List.head?_eq_none_iff.1 hend)]

/-! ### Nothing is read where the grammar is stuck -/

def Refused {α : Type} (x : Except Refusal α) : Prop :=
  ∃ r, x = .error r

theorem Refused.bind {α β : Type} {x : Except Refusal α} (hx : Refused x) (f : α → Except Refusal β) :
    Refused (x >>= f) := by
  obtain ⟨r, rfl⟩ := hx
  exact ⟨r, rfl⟩

theorem Refused.bind_of_ok {α β : Type} {x : Except Refusal α} {a : α} {f : α → Except Refusal β} (hx : x = .ok a)
    (hf : Refused (f a)) : Refused (x >>= f) := by
  rwa [Refusal.bind_of_ok hx]

theorem Refused.of_outcome_eq {α : Type} {p q : List Char → Prop}
    {x : Except Refusal (α × { r : List Char // p r })} {y : Except Refusal (α × { r : List Char // q r })}
    (hsame : outcome x = outcome y) (hy : Refused y) : Refused x := by
  obtain ⟨r, rfl⟩ := hy
  cases x with
  | error r' => exact ⟨r', rfl⟩
  | ok read => cases hsame

theorem refused_readToken (hc : isNameChar c = false) (hs : (tokens s).head? ≠ some (.sign c)) :
    Refused (readToken c s) := by
  cases hread : readToken c s with
  | error r => exact ⟨r, rfl⟩
  | ok r => exact absurd (by rw [(leaves_of_readToken hc hread).tokens_eq]; rfl) hs

theorem refused_readPrimary {afterName : Shorter s} (hname : Head.ofName? name = some head)
    (hhead : head.separator? = some c) (hopening : Refused (readToken '(' afterName.1) ∨
      ∃ opened, readToken '(' afterName.1 = .ok opened ∧ Refused (readBefore c opened.1)) :
    Refused (readPrimary name afterName) := by
  cases head with
  | input source => cases hhead
  | join kind =>
    cases hhead
    simp only [readPrimary, hname]
    rcases hopening with hopening | ⟨opened, hopen, hoperand⟩
    · exact hopening.bind _
    · exact .bind_of_ok hopen (hoperand.bind _)
  | adjacentPairs =>
    cases hhead
    simp only [readPrimary, hname]
    rcases hopening with hopening | ⟨opened, hopen, hoperand⟩
    · exact hopening.bind _
    · exact .bind_of_ok hopen (hoperand.bind _)

theorem refused_readExpr {afterName : Shorter s} (hname : readName s = .ok (name, afterName))
    (hprimary : Refused (readPrimary name afterName)) : Refused (readExpr s) := by
  rw [readExpr_eq]
  exact .bind_of_ok hname (hprimary.bind _)

theorem refused_readSuffixes {vs ws : List Token} {wanted : Token} (hus : us ≠ [])
    (hsuffix : us ++ wanted :: vs = suffix) (hs : tokens s = us ++ ws) (hws : ws.head? ≠ some wanted) :
    Refused (readSuffixes e s) := by
  cases hread : readSuffixes e s with
  | error r => exact ⟨r, rfl⟩
  | ok read =>
    rcases readSuffixes_eq_ok (r := read.2) hread with ⟨-, -, hdot⟩ | ⟨closed, -, hclosed, -⟩
    · obtain ⟨u, us, rfl⟩ := List.exists_cons_of_ne_nil hus
      obtain rfl := (List.cons.inj hsuffix).1
      exact absurd (by rw [hs]; rfl) hdot
    · have hsame := hclosed.tokens_eq.symm.trans hs
      rw [← hsuffix, List.append_assoc, List.append_cancel_left_eq] at hsame
      exact absurd (by rw [← hsame]; rfl) hws

def Aim.Refuses : Aim → List Char → Prop
  | expression, s => Refused (readExpr s)
  | before (some c), s => Refused (readBefore c s)
  | before none, s => Refused (read s)

/-- The reader decides on the next token: a text that goes on like one behind which the grammar is stuck is
refused, whatever follows. -/
theorem Stuck.refuses {aim : Aim} (hts : Stuck aim ts next) :
    ∀ {s us}, tokens s = ts ++ us → us.head? = next → aim.Refuses s := by
  induction hts with
  | head hnext =>
    -- Either there is no name, or there is one that announces nothing.
    intro s us hs hus
    cases hread : readName s with
    | error r =>
      rw [Aim.Refuses, readExpr_eq]
      exact Refused.bind ⟨r, hread⟩ _
    | ok p =>
      obtain ⟨name, afterName⟩ := p
      rw [List.nil_append] at hs
      rw [← hs, (leaves_of_readName hread).tokens_eq] at hus
      refine refused_readExpr hread ?_
      simp only [readPrimary, hnext name hus.symm]
      exact ⟨_, rfl⟩
  | opening hname hhead hnext =>
    intro s us hs hus
    obtain ⟨afterName, hreadName, hrest⟩ := exists_readName hs
    have hnot : (tokens afterName.1).head? ≠ some (.sign '(') := by
      rw [hrest]
      exact hus ▸ hnext
    exact refused_readExpr hreadName (refused_readPrimary hname hhead (.inl (refused_readToken rfl hnot)))
  | operand hname hhead _ ih =>
    intro s us hs hus
    obtain ⟨afterName, hreadName, hopen⟩ := exists_readName hs
    obtain ⟨opened, hreadOpen, hrest⟩ := exists_readToken hopen
    exact refused_readExpr hreadName (refused_readPrimary hname hhead (.inr ⟨opened, hreadOpen, ih hrest hus⟩))
  | @second kind ls ts left next hleft _ ih =>
    -- The left operand is complete and is read to its separator, so the refusal is that of the right.
    intro s us hs hus
    have hhead : Head.ofName? kind.name = some (.join kind) :=
      Head.ofName?_eq_some_iff.2 (List.mem_singleton_self _)
    simp only [List.cons_append, List.append_assoc] at hs
    obtain ⟨afterName, hreadName, hopen⟩ := exists_readName hs
    obtain ⟨opened, hreadOpen, hinner⟩ := exists_readToken hopen
    obtain ⟨separated, hreadLeft, hrest⟩ := exists_readBefore (hleft.outcome_readExpr hinner) (by decide)
    refine refused_readExpr hreadName ?_
    simp only [readPrimary, hhead]
    exact .bind_of_ok hreadOpen (.bind_of_ok hreadLeft (Refused.bind (ih hrest hus) _))
  | @suffix ts us vs e wanted next he hus hsuffix hnext =>
    intro s ws hs hws
    rw [List.append_assoc] at hs
    obtain ⟨rest, hrest, hread⟩ := he.outcome_readExpr hs
    exact .of_outcome_eq hread (refused_readSuffixes hus hsuffix hrest (hws ▸ hnext))
  | @within sign ts next _ ih =>
    intro s us hs hus
    cases sign with
    | none => exact Refused.bind (ih hs hus) _
    | some c => exact Refused.bind (ih hs hus) _
  | @behind sign ts e next he hsign hdot hnext =>
    intro s us hs hus
    obtain ⟨after, hread, hafter, -⟩ := exists_readExpr (he.outcome_readExpr hs) (hus ▸ hdot)
    cases sign with
    | none =>
      have hrest : after.1 ≠ [] := fun hempty => hnext (by
        rw [← hus, ← hafter, hempty, tokens_of_nil rfl]
        rfl)
      refine .bind_of_ok hread ?_
      dsimp only
      rw [if_neg hrest]
      exact ⟨_, rfl⟩
    | some c =>
      refine .bind_of_ok hread (Refused.bind (refused_readToken (hsign c rfl) ?_) _)
      rwa [hafter, hus]

/-! ### The offset of a refusal -/

mutual

theorem Primary.exists_lexes {ts : List Token} {e : Expr} : Primary ts e → ∃ s, Lexes s ts
  | @Primary.input name source hname => by
    have hlexable : name ≠ "" ∧ name.toList.all isNameChar = true := by
      cases source <;> simp only [inputNames, List.mem_cons, List.not_mem_nil, or_false] at hname <;>
        rcases hname with rfl | rfl <;> decide +kernel
    exact ⟨_, lexes_name hlexable⟩
  | .join hleft hright => by
    obtain ⟨l, hl⟩ := hleft.exists_lexes
    obtain ⟨r, hr⟩ := hright.exists_lexes
    exact ⟨_, lexes_join _ hl hr⟩
  | .adjacentPairs hsource => by
    obtain ⟨s, hs⟩ := hsource.exists_lexes
    exact ⟨_, lexes_adjacentPairs.append_sign rfl rfl (hs.append_sign rfl rfl .nil)⟩

theorem Expression.exists_lexes {ts : List Token} {e : Expr} : Expression ts e → ∃ s, Lexes s ts
  | .primary hprimary => hprimary.exists_lexes
  | .suffixed hexpression => by
    obtain ⟨s, hs⟩ := hexpression.exists_lexes
    exact ⟨_, lexes_suffixed hs⟩

end

/-- The tokens of a text, and its end. -/
def marks (s : List Char) : List (Option Token) :=
  (tokens s).map some ++ [none]

/-- Some text that can be read begins with these tokens. -/
def Viable (p : List (Option Token)) : Prop :=
  ∃ (t : String) (e : Expr), Expr.parse t = .ok e ∧ p <+: marks t.toList

theorem viable_of_expression {e : Expr} (he : Expression (ts ++ us) e) : Viable (ts.map some) := by
  obtain ⟨t, ht⟩ := he.exists_lexes
  refine ⟨String.ofList t, e, parse_ofList ⟨_, ht, he⟩, us.map some ++ [none], ?_⟩
  rw [String.toList_ofList, marks, ht.tokens_eq, List.map_append, List.append_assoc]

theorem exists_of_prefix_marks (hnext : ts.map some ++ [next] <+: us.map some ++ [none]) :
    ∃ vs, us = ts ++ vs ∧ vs.head? = next := by
  induction ts generalizing us with
  | nil =>
    refine ⟨us, rfl, ?_⟩
    cases us with
    | nil => exact (List.cons_prefix_cons.1 hnext).1.symm
    | cons u us => exact (List.cons_prefix_cons.1 hnext).1.symm
  | cons t ts ih =>
    cases us with
    | nil => cases (List.cons_prefix_cons.1 hnext).1
    | cons u us =>
      obtain ⟨htoken, hnext⟩ := List.cons_prefix_cons.1 hnext
      obtain ⟨vs, rfl, hvs⟩ := ih hnext
      exact ⟨vs, by rw [Option.some.inj htoken]; rfl, hvs⟩

theorem Stuck.not_viable (hts : Stuck (.before none) ts next) : ¬ Viable (ts.map some ++ [next]) := by
  rintro ⟨t, e, ht, hprefix⟩
  obtain ⟨vs, hvs, hnext⟩ := exists_of_prefix_marks hprefix
  obtain ⟨r, hr⟩ := hts.refuses hvs hnext
  rw [Expr.parse, hr] at ht
  cases ht

theorem Leaves.take_marks {r : List Char} (hr : Leaves s ts r) :
    (marks s).take ts.length = ts.map some ∧ (marks s).take (ts.length + 1) = ts.map some ++ [(tokens r).head?] := by
  have hmarks : marks s = ts.map some ++ marks r := by
    rw [marks, marks, hr.tokens_eq, List.map_append, List.append_assoc]
  have hhead : (marks r).take 1 = [(tokens r).head?] := by
    cases htokens : tokens r <;> simp [marks, htokens]
  simp [hmarks, List.take_append, hhead]

/-- The place that is `offset` bytes into `s` is in the gap in front of the token with the index `k`, the end of
the text counted as one: behind the last character of the token before it, and with nothing but blanks up to its
first. -/
def InGap (s : List Char) (k offset : Nat) : Prop :=
  ∃ before passed skipped after : List Char, s = (before ++ passed) ++ (skipped ++ after) ∧
    offset = byteLength (before ++ passed) ∧ Lexes before ((tokens s).take k) ∧ Lexes after ((tokens s).drop k) ∧
    (∀ c ∈ before.getLast?, isBlank c = false) ∧ (∀ c ∈ passed ++ skipped, isBlank c = true) ∧
    ∀ c ∈ after.head?, isBlank c = false

theorem byteLength_eq (s : List Char) : byteLength s = (String.ofList s).utf8ByteSize := by
  induction s with
  | nil => rfl
  | cons c s ih => rw [String.ofList_cons, String.utf8ByteSize_append, String.utf8ByteSize_singleton, ← ih]; rfl

theorem byteLength_append (s r : List Char) : byteLength (s ++ r) = byteLength s + byteLength r := by
  rw [byteLength_eq, byteLength_eq, byteLength_eq, String.ofList_append, String.utf8ByteSize_append]

theorem Leaves.inGap {r : List Char} (hr : Leaves s ts r) : InGap s ts.length (byteLength s - byteLength r) := by
  have htokens := hr.tokens_eq
  obtain ⟨p, rfl, hp, -⟩ := hr
  have hbefore : p.rdropWhile isBlank ++ p.rtakeWhile isBlank = p := List.rdropWhile_append_rtakeWhile
  have hpassed : ∀ c ∈ p.rtakeWhile isBlank, isBlank c = true := fun c hc => List.mem_rtakeWhile_imp hc
  have hskipped : ∀ c ∈ r.takeWhile isBlank, isBlank c = true := List.all_eq_true.1 List.all_takeWhile
  refine ⟨p.rdropWhile isBlank, p.rtakeWhile isBlank, r.takeWhile isBlank, Text.skipBlanks r,
    ?_, ?_, ?_, ?_, ?_, ?_, ?_⟩
  · rw [hbefore, Text.skipBlanks, List.takeWhile_append_dropWhile]
  · rw [hbefore, byteLength_append, Nat.add_sub_cancel]
  · have hlexes := (lexes_tokens (p.rdropWhile isBlank)).append (lexes_blanks hpassed)
      (apart_of_head? fun c hc => isNameChar_of_isBlank (hpassed c (List.mem_of_mem_head? hc)))
    rw [hbefore, List.append_nil] at hlexes
    rw [htokens, List.take_left, ← hp.tokens_eq, hlexes.tokens_eq]
    exact lexes_tokens _
  · rw [htokens, List.drop_left, ← tokens_skipBlanks]
    exact lexes_tokens _
  · intro c hc
    have hne : p.rdropWhile isBlank ≠ [] := fun hnil => by simp [hnil] at hc
    rw [List.getLast?_eq_some_getLast hne] at hc
    obtain rfl := Option.some.inj hc
    exact Bool.eq_false_iff.2 (List.rdropWhile_last_not isBlank p hne)
  · exact fun c hc => (List.mem_append.1 hc).elim (hpassed c) (hskipped c)
  · intro c hc
    have hhead := List.head?_dropWhile_not isBlank r
    rw [← Text.skipBlanks, Option.mem_def.1 hc] at hhead
    simpa using hhead

/-- The offset of a refusal locates the first token that makes the text hopeless, the end of the text counted as
one. The tokens before it can be completed to a text that can be read, those up to it cannot. The offset is in
the gap in front of it, where skipping blanks arrives at it: no further than the end of the text, and between two
characters. -/
theorem parse_error_located {s : String} {fault : Fault} (hparse : Expr.parse s = .error fault) :
    ∃ (offset : Nat) (complaint : Complaint) (k : Nat), fault = .badExpr offset complaint ∧
      k < (marks s.toList).length ∧ Viable ((marks s.toList).take k) ∧ ¬ Viable ((marks s.toList).take (k + 1)) ∧
      InGap s.toList k offset ∧ offset ≤ s.utf8ByteSize ∧ String.Pos.Raw.IsValid s ⟨offset⟩ := by
  cases hread : read s.toList with
  | ok e =>
    rw [Expr.parse, hread] at hparse
    cases hparse
  | error r =>
    rw [Expr.parse, hread] at hparse
    obtain rfl := Except.error.inj hparse
    obtain ⟨us, hr, hstuck⟩ := stuck_of_read hread
    obtain ⟨htake, htake'⟩ := hr.take_marks
    obtain ⟨vs, e, he⟩ := hstuck.exists_expression
    obtain ⟨p, hs, -⟩ := id hr
    have hoffset : r.offset s.toList = (String.ofList p).utf8ByteSize := by
      rw [Refusal.offset, hs, byteLength_append, Nat.add_sub_cancel, byteLength_eq]
    have hsplit : s = String.ofList p ++ String.ofList r.rest := by
      rw [← String.ofList_append, ← hs, String.ofList_toList]
    refine ⟨r.offset s.toList, r.complaint, us.length, rfl, ?_, ?_, ?_, hr.inGap, ?_, ?_⟩
    · rw [marks, hr.tokens_eq]
      simp
    · exact htake ▸ viable_of_expression he
    · exact htake' ▸ hstuck.not_viable
    · rw [hoffset, hsplit, String.utf8ByteSize_append]
      exact Nat.le_add_right ..
    · rw [hoffset]
      exact String.Pos.Raw.isValid_iff_exists_append.2 ⟨_, _, hsplit, rfl⟩

/-- The second operand is missing, behind a blank of three bytes. -/
theorem parse_error_located_wide_blank :
    Expr.parse "merge(\u3000input1 )" = .error (.badExpr 16 (.expected ',')) ∧
      ∃ k, ¬ Viable ((marks "merge(\u3000input1 )".toList).take (k + 1)) ∧
        InGap "merge(\u3000input1 )".toList k 16 := by
  have hparse : Expr.parse "merge(\u3000input1 )" = .error (.badExpr 16 (.expected ',')) := by cbv
  obtain ⟨offset, complaint, k, hfault, -, -, hviable, hgap, -⟩ := parse_error_located hparse
  cases hfault
  exact ⟨hparse, k, hviable, hgap⟩

end TimedStreams.Expr
