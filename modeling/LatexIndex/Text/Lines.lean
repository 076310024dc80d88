/-
LatexIndex/Text/Lines.lean

The two ways a text falls into lines.

*Source lines* are what the index counts: a line ends at `\n` or at `\r\n`,
neither of which belongs to it, and nothing follows a final line end.

*Buffer lines* are what an editor shows: a line also ends at a lone `\r`, at
the vertical tab, the form feed, U+0085, U+2028 and U+2029; it keeps its own
break; and the text after the last break is a line even when it is empty, so
there is always one line more than there are breaks.
-/

namespace LatexIndex.Text

/-- The lines of a source file, without their ends. -/
def sourceLines : List Char → List (List Char)
  | [] => []
  | '\n' :: rest => [] :: sourceLines rest
  | '\r' :: '\n' :: rest => [] :: sourceLines rest
  | c :: rest => match sourceLines rest with
    | [] => [[c]]
    | line :: more => (c :: line) :: more

/-- Characters that end a buffer line by themselves. -/
def isBreak (c : Char) : Bool :=
  let n := c.toNat
  (0x0A ≤ n && n ≤ 0x0D) || n == 0x85 || n == 0x2028 || n == 0x2029

/-- The lines of an editor buffer, each with its break. -/
def bufferLines : List Char → List (List Char)
  | [] => [[]]
  | '\r' :: '\n' :: rest => ['\r', '\n'] :: bufferLines rest
  | c :: rest =>
    if isBreak c then [c] :: bufferLines rest
    else match bufferLines rest with
      | [] => [[c]]
      | line :: more => (c :: line) :: more

/-- Number of line feeds, which is the line a bibliography entry is on when
counted over the text before it. -/
def lineFeeds (text : List Char) : Nat :=
  text.count '\n'

end LatexIndex.Text
