/-
LatexIndex/Text/Split.lean

Cutting a text at a separator, and finding one text inside another.
Positions are character positions; `Text.Width` turns them into bytes.
-/

namespace LatexIndex.Text

/-- What stands before and after the first character that `stop` accepts;
the character itself belongs to neither side. -/
def cutAt (stop : Char → Bool) : List Char → Option (List Char × List Char)
  | [] => none
  | c :: rest =>
    if stop c then some ([], rest)
    else (cutAt stop rest).map fun (before, after) => (c :: before, after)

/-- Position of the first occurrence of `needle`. -/
def find? (needle : List Char) : List Char → Option Nat
  | [] => if needle.isEmpty then some 0 else none
  | c :: rest =>
    if needle.isPrefixOf (c :: rest) then some 0 else (find? needle rest).map (· + 1)

/-- Whether `needle` occurs anywhere. -/
def contains (needle text : List Char) : Bool :=
  (find? needle text).isSome

/-- ASCII letters in lower case, every other character as it is. -/
def asciiLower (text : List Char) : List Char :=
  text.map Char.toLower

/-- The text without `ending`, when it ends so. -/
def withoutEnding? (ending text : List Char) : Option (List Char) :=
  if ending.isSuffixOf text then some (text.take (text.length - ending.length)) else none

end LatexIndex.Text
