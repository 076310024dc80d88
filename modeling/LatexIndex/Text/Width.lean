/-
LatexIndex/Text/Width.lean

Three measures of a text: characters, bytes of its UTF-8 form and units of
its UTF-16 form.  Positions inside a line are kept in characters; columns
are reported in bytes, and an editor counts in UTF-16 units.
-/

namespace LatexIndex.Text

/-- Bytes of the UTF-8 form. -/
def bytes : List Char → Nat
  | [] => 0
  | c :: rest => c.utf8Size + bytes rest

/-- Units of the UTF-16 form of one character. -/
def units16 (c : Char) : Nat :=
  if c.toNat < 0x10000 then 1 else 2

/-- Byte column of the character at position `pos`. -/
def byteColumn (line : List Char) (pos : Nat) : Nat :=
  bytes (line.take pos)

/-- Character position of an editor column: the character that the unit at
that column belongs to, or the end of the line. -/
def positionOfUnits (column : Nat) : List Char → Nat
  | [] => 0
  | c :: rest =>
    if column < units16 c then 0 else positionOfUnits (column - units16 c) rest + 1

end LatexIndex.Text
