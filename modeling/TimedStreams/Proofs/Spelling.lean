import TimedStreams.Proofs.Grammar

/-!
# Spelling and reading are inverse

The pretty form writes a pair of neighbours as a suffix behind a whole expression, and the reader
collects suffixes behind every primary. Neither captures what belongs to the other, because the
tokens of the pretty form are derived from the grammar (`Expr.expression_spelling`), which is
unambiguous: the suffixes behind a join follow its closing parenthesis, those behind an operand come
before it.

What is left is that the pretty form consists of just these tokens (`Expr.lexes_spell`). Two texts
that are put together keep their tokens, unless a name would run on into the second
(`Lexes.append`).
-/

namespace TimedStreams.Expr

open Text

variable {s r : List Char} {ts us : List Token}

/-! ### Texts of expressions -/

theorem Lexes.append_sign {c : Char} (hs : Lexes s ts) (hblank : isBlank c = false) (hname : isNameChar c = false)
    (hr : Lexes r us) : Lexes (s ++ c :: r) (ts ++ .sign c :: us) :=
  hs.append (.sign hblank hname hr) (apart_of_head? (by simpa using hname))

theorem lexes_name {name : String} (hname : name ≠ "" ∧ name.toList.all isNameChar = true) :
    Lexes name.toList [.name name] := by
  have hlexes := lexes_run (mt String.toList_eq_nil_iff.1 hname.1) (List.all_eq_true.1 hname.2)
  rwa [String.ofList_toList] at hlexes

theorem lexes_join (kind : Join) {l r : List Char} {ls rs : List Token} (hl : Lexes l ls) (hr : Lexes r rs) :
    Lexes (kind.name.toList ++ '(' :: (l ++ ',' :: (r ++ [')'])))
      (.name kind.name :: .sign '(' :: (ls ++ .sign ',' :: (rs ++ [.sign ')']))) :=
  have hname : Lexes kind.name.toList [.name kind.name] := lexes_name (by cases kind <;> decide +kernel)
  hname.append_sign rfl rfl (hl.append_sign rfl rfl (hr.append_sign rfl rfl .nil))

theorem lexes_adjacentPairs : Lexes "adjacentPairs".toList [.name "adjacentPairs"] :=
  lexes_name (by decide +kernel)

theorem lexes_suffixed (hs : Lexes s ts) : Lexes (s ++ ".adjacentPairs()".toList) (ts ++ suffix) :=
  have hmethod : Lexes "adjacentPairs()".toList [.name "adjacentPairs", .sign '(', .sign ')'] :=
    lexes_adjacentPairs.append_sign rfl rfl (.sign rfl rfl .nil)
  hs.append_sign rfl rfl hmethod

/-! ### The pretty form -/

def spelling : Expr → List Token
  | input source => [.name source.name]
  | join kind left right =>
    .name kind.name :: .sign '(' :: (left.spelling ++ .sign ',' :: (right.spelling ++ [.sign ')']))
  | adjacentPairs source => source.spelling ++ suffix

theorem expression_spelling (e : Expr) : Expression e.spelling e := by
  induction e with
  | input source => exact .primary (.input (by cases source <;> decide))
  | join kind left right ihleft ihright => exact .primary (.join ihleft ihright)
  | adjacentPairs source ih => exact .suffixed ih

theorem lexes_spell (e : Expr) : Lexes e.spell e.spelling := by
  induction e with
  | input source => exact lexes_name (by cases source <;> decide +kernel)
  | join kind left right ihleft ihright =>
    have hwhole := lexes_join kind ihleft (.blank (c := ' ') rfl ihright)
    simpa [spell, spelling] using hwhole
  | adjacentPairs source ih => exact lexes_suffixed ih

theorem spells_spell (e : Expr) : Spells e.spell e :=
  ⟨e.spelling, lexes_spell e, expression_spelling e⟩

theorem parse_ofList {s : List Char} {e : Expr} (hs : Spells s e) : Expr.parse (String.ofList s) = .ok e := by
  rw [Expr.parse, String.toList_ofList, read_eq_ok_iff.2 hs]
  rfl

theorem parse_render_self (e : Expr) : Expr.parse e.render = .ok e :=
  parse_ofList (spells_spell e)

/-- Every expression is read back from its pretty form. Different expressions therefore have different
pretty forms, and the pretty form of what a text spells is a canonical spelling of it: it spells the same,
and other texts that can be read share it exactly if they spell the same. -/
theorem parse_render :
    (∀ e : Expr, Expr.parse e.render = .ok e) ∧ Function.Injective render ∧
      ∀ (s : String) (e : Expr), Expr.parse s = .ok e → Expr.parse e.render = .ok e ∧
        ∀ (s' : String) (e' : Expr), Expr.parse s' = .ok e' →
          (e'.render = e.render ↔ Expr.parse s' = Expr.parse s) := by
  have hinjective : Function.Injective render := by
    intro e e' hsame
    have hread := congrArg Expr.parse hsame
    rw [parse_render_self, parse_render_self] at hread
    exact Except.ok.inj hread
  refine ⟨parse_render_self, hinjective, fun s e hs => ⟨parse_render_self e, fun s' e' hs' => ?_⟩⟩
  rw [hs, hs', hinjective.eq_iff, Except.ok.injEq]

/-- A text with blanks and other names for its parts has the same canonical spelling. -/
theorem parse_render_aliased :
    let e : Expr := .adjacentPairs (.input .first)
    Expr.parse " adjacentPairs ( first ) " = .ok e ∧ e.render = "input1.adjacentPairs()" ∧
      Expr.parse "input1.adjacentPairs()" = .ok e := by
  intro e
  have hs : Expr.parse " adjacentPairs ( first ) " = .ok e := by cbv
  have hrender : e.render = "input1.adjacentPairs()" := rfl
  obtain ⟨-, -, hcanonical⟩ := parse_render
  exact ⟨hs, hrender, hrender ▸ (hcanonical _ e hs).1⟩

end TimedStreams.Expr
