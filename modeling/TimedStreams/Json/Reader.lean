import TimedStreams.Decimal.Reading
import TimedStreams.Json.Basic
import TimedStreams.Text
import TimedStreams.Uuid

/-!
# Reading JSON documents

The reader accepts exactly the grammar of JSON: four blank characters, numbers without leading zeros and with digits on both sides of a point, and strings without control characters. How deep a document is nested and how large its numbers are is not its concern.
-/

namespace TimedStreams.Json

open Text

/-! ### Blanks -/

def isSpace (c : Char) : Bool :=
  c == ' ' || c == '\n' || c == '\t' || c == '\r'

def skipSpace (s : List Char) : List Char :=
  s.dropWhile isSpace

theorem length_skipSpace_le (s : List Char) : (skipSpace s).length ≤ s.length :=
  (List.dropWhile_suffix _).length_le

/-! ### Strings -/

/-- What stands inside a string literal: a character, or an escape for a unit of sixteen bits. -/
inductive Piece where
  | char (c : Char)
  | unit (n : Nat)
  deriving DecidableEq, Repr

/-- The character that an escape of one letter stands for. -/
def unescape? : Char → Option Char
  | '"' => some '"'
  | '\\' => some '\\'
  | '/' => some '/'
  | 'b' => some '\x08'
  | 'f' => some '\x0c'
  | 'n' => some '\n'
  | 'r' => some '\x0d'
  | 't' => some '\t'
  | _ => none

/-- The pieces up to the closing quote, and the rest. -/
def readPieces? : List Char → Option (List Piece × List Char)
  | [] => none
  | '"' :: rest => some ([], rest)
  | '\\' :: 'u' :: a :: b :: c :: d :: rest =>
    (Uuid.ofHexDigits? 0 [a, b, c, d]).bind fun n => (readPieces? rest).map fun (pieces, last) => (.unit n :: pieces, last)
  | '\\' :: c :: rest =>
    (unescape? c).bind fun e => (readPieces? rest).map fun (pieces, last) => (.char e :: pieces, last)
  | c :: rest =>
    if c.toNat < 0x20 ∨ c = '\\' then none else (readPieces? rest).map fun (pieces, last) => (.char c :: pieces, last)

theorem length_lt_of_readPieces? {s last : List Char} {pieces : List Piece} (hread : readPieces? s = some (pieces, last)) :
    last.length < s.length := by
  fun_induction readPieces? s generalizing pieces last with
  | case1 => exact absurd hread (by simp)
  | case2 => simp_all
  | case3 a b c d rest ih =>
    simp only [Option.bind_eq_some_iff, Option.map_eq_some_iff, Prod.exists, Prod.mk.injEq] at hread
    obtain ⟨_, _, _, _, hrest, -, rfl⟩ := hread
    have := ih hrest
    simp only [List.length_cons]
    omega
  | case4 c rest _ ih =>
    simp only [Option.bind_eq_some_iff, Option.map_eq_some_iff, Prod.exists, Prod.mk.injEq] at hread
    obtain ⟨_, _, _, _, hrest, -, rfl⟩ := hread
    have := ih hrest
    simp only [List.length_cons]
    omega
  | case5 => exact absurd hread (by simp)
  | case6 c rest _ _ _ _ ih =>
    simp only [Option.map_eq_some_iff, Prod.exists, Prod.mk.injEq] at hread
    obtain ⟨_, _, hrest, -, rfl⟩ := hread
    have := ih hrest
    simp only [List.length_cons]
    omega

def isHighSurrogate (n : Nat) : Bool :=
  0xD800 ≤ n && n < 0xDC00

def isLowSurrogate (n : Nat) : Bool :=
  0xDC00 ≤ n && n < 0xE000

/-- The characters that pieces stand for: escapes of a high and a low surrogate, one after the other, make one character, and on its own neither stands for any. -/
def assemble? : List Piece → Option (List Char)
  | [] => some []
  | .char c :: rest => (assemble? rest).map (c :: ·)
  | .unit high :: .unit low :: rest =>
    if isHighSurrogate high && isLowSurrogate low then
      (assemble? rest).map (Char.ofNat (0x10000 + (high - 0xD800) * 0x400 + (low - 0xDC00)) :: ·)
    else if isHighSurrogate high || isLowSurrogate high then none
    else (assemble? (.unit low :: rest)).map (Char.ofNat high :: ·)
  | .unit n :: rest =>
    if isHighSurrogate n || isLowSurrogate n then none else (assemble? rest).map (Char.ofNat n :: ·)

def readString? (s : List Char) : Option (Option String × Shorter s) :=
  match h : readPieces? s with
  | none => none
  | some (pieces, rest) => some ((assemble? pieces).map String.ofList, ⟨rest, length_lt_of_readPieces? h⟩)

/-! ### Numbers -/

/-- An optional minus sign and digits without leading zeros. -/
def takeWhole? (s : List Char) : Option (List Char × List Char) :=
  let (sign, digits) := match s with
    | '-' :: rest => (['-'], rest)
    | s => ([], s)
  match digits with
  | '0' :: rest => some (sign ++ ['0'], rest)
  | c :: _ =>
    if Decimal.isDigit c then some (sign ++ digits.takeWhile Decimal.isDigit, digits.dropWhile Decimal.isDigit) else none
  | [] => none

/-- A point and at least one digit, or nothing. -/
def takePart? : List Char → Option (List Char × List Char)
  | '.' :: rest =>
    let (ds, last) := Decimal.spanDigits rest
    if ds = [] then none else some ('.' :: ds, last)
  | s => some ([], s)

/-- An exponent with at least one digit, or nothing. -/
def takeExponent? : List Char → Option (List Char × List Char)
  | c :: rest =>
    if c = 'e' ∨ c = 'E' then
      let (sign, digits) := match rest with
        | '+' :: rest => (['+'], rest)
        | '-' :: rest => (['-'], rest)
        | rest => ([], rest)
      let (ds, last) := Decimal.spanDigits digits
      if ds = [] then none else some (c :: sign ++ ds, last)
    else some ([], c :: rest)
  | [] => some ([], [])

def readNumber? (s : List Char) : Option (List Char × Shorter s) := do
  let (whole, afterWhole) ← takeWhole? s
  let (part, afterPart) ← takePart? afterWhole
  let (exponent, rest) ← takeExponent? afterPart
  if h : rest.length < s.length then return (whole ++ part ++ exponent, ⟨rest, h⟩) else none

/-! ### Documents -/

/-- Reads the characters of a word. -/
def readWord? (word : List Char) (s : List Char) : Option { r : List Char // r.length + word.length = s.length } :=
  match word, s with
  | [], s => some ⟨s, rfl⟩
  | _ :: _, [] => none
  | w :: ws, c :: cs =>
    if w = c then (readWord? ws cs).map fun ⟨r, hr⟩ => ⟨r, by simp only [List.length_cons]; omega⟩ else none

/-- The next character that is not a space. -/
def nextToken? (s : List Char) : Option (Char × Shorter s) :=
  match h : skipSpace s with
  | [] => none
  | c :: rest => some (c, ⟨rest, by
      have := length_skipSpace_le s
      rw [h, List.length_cons] at this
      omega⟩)

mutual

def readValue? (s : List Char) : Option (Json × Shorter s) := do
  let (c, ⟨rest, hrest⟩) ← nextToken? s
  match c with
  | '"' =>
    let (t, ⟨last, hlast⟩) ← readString? rest
    return (string t, ⟨last, by omega⟩)
  | '[' =>
    match nextToken? rest with
    | some (']', ⟨last, hlast⟩) => return (array [], ⟨last, by omega⟩)
    | _ =>
      let (items, ⟨last, hlast⟩) ← readItems? rest
      return (array items, ⟨last, by omega⟩)
  | '\x7b' =>
    match nextToken? rest with
    | some ('\x7d', ⟨last, hlast⟩) => return (object [], ⟨last, by omega⟩)
    | _ =>
      let (members, ⟨last, hlast⟩) ← readMembers? rest
      return (object members, ⟨last, by omega⟩)
  | 'n' =>
    let ⟨last, hlast⟩ ← readWord? "ull".toList rest
    return (null, ⟨last, by omega⟩)
  | 't' =>
    let ⟨last, hlast⟩ ← readWord? "rue".toList rest
    return (bool true, ⟨last, by omega⟩)
  | 'f' =>
    let ⟨last, hlast⟩ ← readWord? "alse".toList rest
    return (bool false, ⟨last, by omega⟩)
  | _ =>
    let (literal, ⟨last, hlast⟩) ← readNumber? (skipSpace s)
    return (number literal, ⟨last, Nat.lt_of_lt_of_le hlast (length_skipSpace_le s)⟩)
termination_by (s.length, 0)

def readItems? (s : List Char) : Option (List Json × Shorter s) := do
  let (item, ⟨afterItem, hitem⟩) ← readValue? s
  match ← nextToken? afterItem with
  | (']', ⟨last, hlast⟩) => return ([item], ⟨last, by omega⟩)
  | (',', ⟨rest, hrest⟩) =>
    let (items, ⟨last, hlast⟩) ← readItems? rest
    return (item :: items, ⟨last, by omega⟩)
  | _ => none
termination_by (s.length, 1)

def readMembers? (s : List Char) : Option (List (Option String × Json) × Shorter s) := do
  let ('"', ⟨afterQuote, hquote⟩) ← nextToken? s | none
  let (key, ⟨afterKey, hkey⟩) ← readString? afterQuote
  let (':', ⟨afterColon, hcolon⟩) ← nextToken? afterKey | none
  let (item, ⟨afterItem, hitem⟩) ← readValue? afterColon
  match ← nextToken? afterItem with
  | ('\x7d', ⟨last, hlast⟩) => return ([(key, item)], ⟨last, by omega⟩)
  | (',', ⟨rest, hrest⟩) =>
    let (members, ⟨last, hlast⟩) ← readMembers? rest
    return ((key, item) :: members, ⟨last, by omega⟩)
  | _ => none
termination_by (s.length, 1)

end

/-- The document that the whole text spells. -/
def read? (s : List Char) : Option Json :=
  (readValue? s).bind fun (j, rest) => if skipSpace rest.1 = [] then some j else none

end TimedStreams.Json
