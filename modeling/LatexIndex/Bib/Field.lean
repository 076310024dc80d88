/-
LatexIndex/Bib/Field.lean

The fields of a bibliography entry: `name = value` parts between commas.
A comma inside braces or inside quotes does not divide; a quote counts only
outside braces.  Of the values only what is shown matters, so braces and
quotes are dropped and every run of blanks becomes one space.
-/
import LatexIndex.Text.Blank
import LatexIndex.Text.Split

namespace LatexIndex.Bib

open Text

/-- The parts between the dividing commas, when `depth` braces are open and
`quoted` tells whether a quote is. -/
def fieldParts (depth : Nat) (quoted : Bool) : List Char → List (List Char)
  | [] => [[]]
  | c :: rest =>
    if c == ',' && depth == 0 && !quoted then [] :: fieldParts depth quoted rest
    else
      let depth' := if c == '{' then depth + 1 else if c == '}' then depth - 1 else depth
      let quoted' := if c == '"' && depth == 0 then !quoted else quoted
      match fieldParts depth' quoted' rest with
      | [] => [[c]]
      | part :: more => (c :: part) :: more

/-- A value as it is shown. -/
def cleanValue (value : List Char) : String :=
  String.ofList ([' '].intercalate
    (words (value.filter fun c => !(c == '{' || c == '}' || c == '"'))))

/-- The name, in lower case, and the value of a part; a part without `=` is
not a field. -/
def field? (part : List Char) : Option (String × String) :=
  (cutAt (· == '=') part).map fun (name, value) =>
    (String.ofList (asciiLower (trim name)), cleanValue value)

/-- The fields of an entry, in order. -/
def fields (text : List Char) : List (String × String) :=
  (fieldParts 0 false text).filterMap field?

/-- The value of the last field of a name. -/
def lastValue? (name : String) (fields : List (String × String)) : Option String :=
  (fields.reverse.find? (·.1 = name)).map (·.2)

end LatexIndex.Bib
