import TimedStreams.Expr.Basic
import TimedStreams.Text

/-!
# Reading expressions

The reader of the pretty form. Blanks may stand before every token and at the end; a name is a longest run of ASCII letters, digits and underscores.

    expression := primary ("." "adjacentPairs" "(" ")")*
    primary    := "input1" | "first" | "input2" | "second"
                | "adjacentPairs" "(" expression ")"
                | join "(" expression "," expression ")"
    join       := "merge" | "chain" | "zip" | "combineLatest"

Every function takes the text still to be read and gives back a shorter one, which is why the recursion ends. A refusal names the text that was left where reading stopped, so that its offset is the length of what was read (`Refusal.offset`). A name that is not known is refused at the end of the token before it, whereas a missing token is refused past the blanks that stand in its place.
-/

namespace TimedStreams.Expr

open Text

/-- Why a text is not an expression. -/
inductive Complaint where
  | nameExpected
  | unknownStream (name : String)
  | unknownMethod (name : String)
  | expected (token : Char)
  | trailingInput
  deriving DecidableEq, Repr

def Complaint.message : Complaint → String
  | nameExpected => "expected a stream name"
  | unknownStream name => "unknown stream '" ++ name ++ "'"
  | unknownMethod name => "unknown method '" ++ name ++ "'"
  | expected token => "expected '" ++ token.toString ++ "'"
  | trailingInput => "unexpected trailing input"

/-- A complaint and the text that was left where it arose. -/
structure Refusal where
  rest : List Char
  complaint : Complaint
  deriving DecidableEq, Repr

/-- The number of bytes of `s` that were read before the refusal. -/
def Refusal.offset (s : List Char) (r : Refusal) : Nat :=
  byteLength s - byteLength r.rest

def isNameChar (c : Char) : Bool :=
  c.isAlphanum || c == '_'

def readName (s : List Char) : Except Refusal (String × Shorter s) :=
  match h : (skipBlanks s).takeWhile isNameChar with
  | [] => .error ⟨skipBlanks s, .nameExpected⟩
  | c :: cs => .ok (String.ofList (c :: cs), ⟨(skipBlanks s).dropWhile isNameChar, by
      have hlength := congrArg List.length (List.takeWhile_append_dropWhile (p := isNameChar) (l := skipBlanks s))
      rw [h, List.length_append, List.length_cons] at hlength
      have := length_skipBlanks_le s
      omega⟩)

def readToken (token : Char) (s : List Char) : Except Refusal (Shorter s) :=
  match h : skipBlanks s with
  | [] => .error ⟨[], .expected token⟩
  | c :: rest =>
    if c = token then
      .ok ⟨rest, by
        have := length_skipBlanks_le s
        rw [h, List.length_cons] at this
        omega⟩
    else .error ⟨c :: rest, .expected token⟩

/-- What the first name of an expression announces. -/
inductive Head where
  | input (source : Input)
  | join (kind : Join)
  | adjacentPairs
  deriving DecidableEq, Repr

def Head.ofName? : String → Option Head
  | "input1" | "first" => some (input .first)
  | "input2" | "second" => some (input .second)
  | "merge" => some (join .merge)
  | "chain" => some (join .chain)
  | "zip" => some (join .zip)
  | "combineLatest" => some (join .combineLatest)
  | "adjacentPairs" => some adjacentPairs
  | _ => none

/-- Reads the suffixes that follow `e` and applies them from left to right. -/
def readSuffixes (e : Expr) (s : List Char) : Except Refusal (Expr × { r : List Char // r.length ≤ s.length }) :=
  match h : skipBlanks s with
  | '.' :: rest => do
    let (name, ⟨afterName, hname⟩) ← readName rest
    if name ≠ "adjacentPairs" then
      throw ⟨rest, .unknownMethod name⟩
    let ⟨opened, hopened⟩ ← readToken '(' afterName
    let ⟨closed, hclosed⟩ ← readToken ')' opened
    have hrest : rest.length < s.length := by
      have := length_skipBlanks_le s
      rw [h, List.length_cons] at this
      omega
    let (whole, ⟨last, hlast⟩) ← readSuffixes (adjacentPairs e) closed
    return (whole, ⟨last, by omega⟩)
  | rest => .ok (e, ⟨rest, h ▸ length_skipBlanks_le s⟩)
termination_by s.length

def readExpr (s : List Char) : Except Refusal (Expr × Shorter s) := do
  let (name, ⟨afterName, hname⟩) ← readName s
  let (primary, ⟨rest, hrest⟩) ← show Except Refusal (Expr × Shorter s) from
    match Head.ofName? name with
    | none => throw ⟨s, .unknownStream name⟩
    | some (.input source) => return (input source, ⟨afterName, hname⟩)
    | some .adjacentPairs => do
      let ⟨opened, hopened⟩ ← readToken '(' afterName
      let (source, ⟨afterSource, hsource⟩) ← readExpr opened
      let ⟨closed, hclosed⟩ ← readToken ')' afterSource
      return (adjacentPairs source, ⟨closed, by omega⟩)
    | some (.join kind) => do
      let ⟨opened, hopened⟩ ← readToken '(' afterName
      let (left, ⟨afterLeft, hleft⟩) ← readExpr opened
      let ⟨separated, hseparated⟩ ← readToken ',' afterLeft
      let (right, ⟨afterRight, hright⟩) ← readExpr separated
      let ⟨closed, hclosed⟩ ← readToken ')' afterRight
      return (join kind left right, ⟨closed, by omega⟩)
  let (whole, ⟨last, hlast⟩) ← readSuffixes primary rest
  return (whole, ⟨last, by omega⟩)
termination_by s.length

/-- The expression that the whole text spells. -/
def read (s : List Char) : Except Refusal Expr := do
  let (e, ⟨rest, _⟩) ← readExpr s
  if rest = [] then return e else throw ⟨rest, .trailingInput⟩

end TimedStreams.Expr
