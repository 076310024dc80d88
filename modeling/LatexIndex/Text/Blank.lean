/-
LatexIndex/Text/Blank.lean

Blank characters and what is trimmed away around a word.

Two sets of blanks are in use.  Keys, names and values are trimmed of every
character with the Unicode property `White_Space` (`isBlank`); between a
command and its argument only the five ASCII blanks may stand
(`isAsciiBlank`), and the vertical tab is not one of them.

Text is worked on as a list of characters throughout; a `String` is only
what comes in and what is kept.
-/

namespace LatexIndex.Text

/-! ### The two sets of blanks -/

/-- Characters with the Unicode property `White_Space`. -/
def isBlank (c : Char) : Bool :=
  let n := c.toNat
  (0x09 ≤ n && n ≤ 0x0D) || n == 0x20 || n == 0x85 || n == 0xA0 || n == 0x1680 ||
    (0x2000 ≤ n && n ≤ 0x200A) || n == 0x2028 || n == 0x2029 || n == 0x202F ||
    n == 0x205F || n == 0x3000

/-- Space, tab, line feed, form feed and carriage return. -/
def isAsciiBlank (c : Char) : Bool :=
  c == ' ' || c == '\t' || c == '\n' || c == '\x0c' || c == '\r'

/-! ### Trimming -/

/-- The text from its first character that is not blank. -/
def trimStart (text : List Char) : List Char :=
  text.dropWhile isBlank

/-- The text up to its last character that is not blank. -/
def trimEnd (text : List Char) : List Char :=
  (text.reverse.dropWhile isBlank).reverse

/-- The text without the blanks around it. -/
def trim (text : List Char) : List Char :=
  trimEnd (trimStart text)

/-- Puts the word that was being read, if any, before the words after it. -/
private def closeWord (word : List Char) (rest : List (List Char)) : List (List Char) :=
  if word.isEmpty then rest else word.reverse :: rest

/-- The words of a text, given the word read so far, last character first. -/
def wordsFrom (word : List Char) : List Char → List (List Char)
  | [] => closeWord word []
  | c :: rest =>
    if isBlank c then closeWord word (wordsFrom [] rest) else wordsFrom (c :: word) rest

/-- The maximal runs of characters that are not blank. -/
def words (text : List Char) : List (List Char) :=
  wordsFrom [] text

end LatexIndex.Text
