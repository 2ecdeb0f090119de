/-!
# Texts that are read

A reader takes the text still to be read and gives back what is left of it. That something was read is part of the type (`Text.Shorter`), so that recursion on the rest ends.

The characters that count as space between the tokens of an expression and around a setting are exactly those with the Unicode property `White_Space`. The set is wider than the one of `Char.isWhitespace`, which knows four of them, and it leaves out look-alikes such as the zero width space and the byte order mark.
-/

namespace TimedStreams.Text

/-- What is left of `s` after at least one character. -/
abbrev Shorter (s : List Char) := { r : List Char // r.length < s.length }

/-- The property `White_Space`, as ranges of code points. -/
def blankRanges : List (Nat × Nat) :=
  [(0x9, 0xD), (0x20, 0x20), (0x85, 0x85), (0xA0, 0xA0), (0x1680, 0x1680), (0x2000, 0x200A), (0x2028, 0x2029),
    (0x202F, 0x202F), (0x205F, 0x205F), (0x3000, 0x3000)]

def isBlank (c : Char) : Bool :=
  blankRanges.any fun range => range.1 ≤ c.toNat && c.toNat ≤ range.2

def skipBlanks (s : List Char) : List Char :=
  s.dropWhile isBlank

def trimBlanks (s : List Char) : List Char :=
  (skipBlanks (skipBlanks s).reverse).reverse

/-- The number of bytes of the text in UTF-8, the unit in which offsets into an expression are counted. -/
def byteLength (s : List Char) : Nat :=
  s.foldr (fun c bytes => c.utf8Size + bytes) 0

theorem length_skipBlanks_le (s : List Char) : (skipBlanks s).length ≤ s.length :=
  (List.dropWhile_suffix _).length_le

theorem length_lt_of_skipBlanks {s rest : List Char} {c : Char} (hs : skipBlanks s = c :: rest) :
    rest.length < s.length := by
  have hless := length_skipBlanks_le s
  rwa [hs, List.length_cons] at hless

theorem skipBlanks_cons {c : Char} (hc : isBlank c = false) (rest : List Char) : skipBlanks (c :: rest) = c :: rest :=
  List.dropWhile_cons_of_neg (by simp [hc])

theorem isBlank_of_skipBlanks {s rest : List Char} {c : Char} (hs : skipBlanks s = c :: rest) :
    isBlank c = false := by
  have hhead := List.head?_dropWhile_not isBlank s
  rw [← skipBlanks, hs] at hhead
  simpa using hhead

theorem skipBlanks_skipBlanks (s : List Char) : skipBlanks (skipBlanks s) = skipBlanks s := by
  cases hs : skipBlanks s with
  | nil => rfl
  | cons c rest => exact skipBlanks_cons (isBlank_of_skipBlanks hs) rest

end TimedStreams.Text
