/-!
# Blank characters

The characters that separate words of a source text and that are trimmed from settings: tab to
carriage return, the four separators U+001C to U+001F, the space, next line, no-break space and the
space characters and line and paragraph separators beyond Latin-1.

Main definitions: `isBlank`, `trim`, and `words`, the maximal runs of characters that are not blank.
-/

namespace Lisplet.Text

/-- The blank characters, as ranges of code points with both ends included. -/
def blankRanges : List (Nat × Nat) :=
  [(0x09, 0x0D), (0x1C, 0x20), (0x85, 0x85), (0xA0, 0xA0), (0x1680, 0x1680), (0x2000, 0x200A),
    (0x2028, 0x2029), (0x202F, 0x202F), (0x205F, 0x205F), (0x3000, 0x3000)]

/-- Whether a code point lies in one of the ranges. -/
def inRanges (ranges : List (Nat × Nat)) (n : Nat) : Bool :=
  ranges.any fun r => decide (r.1 ≤ n) && decide (n ≤ r.2)

/-- Whether a character is blank. -/
def isBlank (c : Char) : Bool :=
  inRanges blankRanges c.toNat

/-- A text without its leading and trailing blanks. -/
def trim (s : List Char) : List Char :=
  ((s.dropWhile isBlank).reverse.dropWhile isBlank).reverse

/-- The words of a text, where `word` holds the characters of the word under way, last one first. -/
def wordsFrom (word : List Char) : List Char → List (List Char)
  | [] => if word.isEmpty then [] else [word.reverse]
  | c :: cs =>
    if isBlank c then
      if word.isEmpty then wordsFrom [] cs else word.reverse :: wordsFrom [] cs
    else
      wordsFrom (c :: word) cs

/-- The words of a text: its pieces between blanks, none of them empty. -/
def words (s : List Char) : List (List Char) :=
  wordsFrom [] s

end Lisplet.Text
