/-!
# JSON documents

Documents as trees, and their two written forms: compact, without any space, and pretty, with two spaces of indentation for each level. Numbers keep the digits with which they are written, since how they are understood depends on what is asked of them. A string literal can hold an escape for half of a surrogate pair; it then names no string, and only a reader that has no need of it accepts it.
-/

namespace TimedStreams

inductive Json where
  | null
  | bool (b : Bool)
  /-- A number as it is written. -/
  | number (literal : List Char)
  /-- The string that a literal names, if it names one. -/
  | string (s : Option String)
  | array (items : List Json)
  /-- The members in the order in which they are written; keys may repeat. -/
  | object (members : List (Option String × Json))

namespace Json

/-- A string that is there to be written. -/
def text (s : String) : Json :=
  string (some s)

/-- An object with the given members. -/
def record (members : List (String × Json)) : Json :=
  object (members.map fun member => (some member.1, member.2))

/-- An object with a single member, which tells the kind of its content. -/
def tagged (tag : String) (content : Json) : Json :=
  record [(tag, content)]

/-! ### Strings -/

def escape (c : Char) : List Char :=
  if c = '"' then ['\\', '"']
  else if c = '\\' then ['\\', '\\']
  else if c.toNat = 0x8 then ['\\', 'b']
  else if c.toNat = 0x9 then ['\\', 't']
  else if c.toNat = 0xA then ['\\', 'n']
  else if c.toNat = 0xC then ['\\', 'f']
  else if c.toNat = 0xD then ['\\', 'r']
  else if c.toNat < 0x20 then ['\\', 'u', '0', '0', Nat.digitChar (c.toNat / 16), Nat.digitChar (c.toNat % 16)]
  else [c]

def quote (s : Option String) : List Char :=
  '"' :: ((s.getD "").toList.flatMap escape ++ ['"'])

/-! ### The compact form -/

mutual

/-- The document without any space. -/
def compact : Json → List Char
  | null => "null".toList
  | bool b => (if b then "true" else "false").toList
  | number literal => literal
  | string s => quote s
  | array [] => "[]".toList
  | array (item :: items) => '[' :: (item.compact ++ compactItems items)
  | object [] => "\x7b\x7d".toList
  | object ((key, item) :: members) => '\x7b' :: (quote key ++ ':' :: (item.compact ++ compactMembers members))

/-- The items of an array after its first. -/
def compactItems : List Json → List Char
  | [] => [']']
  | item :: items => ',' :: (item.compact ++ compactItems items)

/-- The members of an object after its first. -/
def compactMembers : List (Option String × Json) → List Char
  | [] => ['\x7d']
  | (key, item) :: members => ',' :: (quote key ++ ':' :: (item.compact ++ compactMembers members))

end

/-! ### The pretty form -/

/-- The start of a line of some level. -/
def newline (level : Nat) : List Char :=
  '\n' :: List.replicate (2 * level) ' '

mutual

/-- The document with a line for each item and member, inside a document of some level. -/
def prettyAt (level : Nat) : Json → List Char
  | null => "null".toList
  | bool b => (if b then "true" else "false").toList
  | number literal => literal
  | string s => quote s
  | array [] => "[]".toList
  | array (item :: items) =>
    '[' :: (newline (level + 1) ++ item.prettyAt (level + 1) ++ prettyItems level items)
  | object [] => "\x7b\x7d".toList
  | object ((key, item) :: members) =>
    '\x7b' :: (newline (level + 1) ++ quote key ++ ": ".toList ++ item.prettyAt (level + 1) ++ prettyMembers level members)

/-- The items of an array after its first. -/
def prettyItems (level : Nat) : List Json → List Char
  | [] => newline level ++ [']']
  | item :: items => ',' :: (newline (level + 1) ++ item.prettyAt (level + 1) ++ prettyItems level items)

/-- The members of an object after its first. -/
def prettyMembers (level : Nat) : List (Option String × Json) → List Char
  | [] => newline level ++ ['\x7d']
  | (key, item) :: members =>
    ',' :: (newline (level + 1) ++ quote key ++ ": ".toList ++ item.prettyAt (level + 1) ++ prettyMembers level members)

end

def pretty (j : Json) : List Char :=
  j.prettyAt 0

end Json

end TimedStreams
