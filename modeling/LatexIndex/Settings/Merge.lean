/-
LatexIndex/Settings/Merge.lean

Laying structured data over other data, name by name.

A name at the top may be a *way* into the data: a name followed by further
names after dots and by positions in brackets.  Going a way makes the tables
and lists that are missing on it, and replaces what is in its way.  A table
is merged into what is there, so an empty one changes nothing; anything else
takes the place of what was there.  Names are the same in upper and lower
case.
-/
import LatexIndex.Data.Json
import LatexIndex.Text.Split

namespace LatexIndex.Settings

open Text

/-! ### Ways -/

/-- A step further into data. -/
inductive Step where
  | field (name : String)
  /-- A position in a list; a negative one counts from the end. -/
  | position (index : Int)
  deriving DecidableEq, Repr

/-- Characters of a name on a way. -/
def isWayChar (c : Char) : Bool :=
  c.isAlphanum || c == ' ' || c == '_' || c == '-'

/-- A position after its opening bracket. -/
def readPosition (text : List Char) : Option (Int × List Char) :=
  let skip := List.dropWhile fun c => c == ' ' || c == '\t'
  let (negative, rest) := match skip text with
    | '-' :: rest => (true, rest)
    | rest => (false, rest)
  let digits := rest.takeWhile Json.isDigit
  let value : Int := Json.decimalValue digits
  let index := if negative then -value else value
  match skip (rest.drop digits.length) with
  | ']' :: rest => if digits.isEmpty || !Json.isWord index then none else some (index, rest)
  | _ => none

/-- The steps after the first name of a way. -/
def readSteps : Nat → List Char → Option (List Step)
  | _, [] => some []
  | 0, _ => none
  | fuel + 1, '.' :: rest =>
    let name := rest.takeWhile isWayChar
    if name.isEmpty then none
    else (readSteps fuel (rest.drop name.length)).map (.field (String.ofList name) :: ·)
  | fuel + 1, '[' :: rest => do
    let (index, rest) ← readPosition rest
    return .position index :: (← readSteps fuel rest)
  | _, _ => none

/-- The way that a text stands for.  A text that is none stands for itself as
a name. -/
def wayOf (text : String) : List Step :=
  let name := text.toList.takeWhile isWayChar
  let steps := if name.isEmpty then none
    else readSteps text.length (text.toList.drop name.length)
  match steps with
  | some steps => .field (String.ofList name) :: steps
  | none => [.field text]

/-! ### Merging -/

/-- The name under which a field is kept. -/
def fieldName (name : String) : String :=
  String.ofList (asciiLower name.toList)

/-- The fields of a table; anything else has none. -/
def fieldsOf : Data → List (String × Data)
  | .table fields => fields
  | _ => []

/-- The items of a list; anything else has none. -/
def itemsOf : Data → List Data
  | .list items => items
  | _ => []

/-- Changes the field with a name, which is made if it is missing. -/
def changeField (name : String) (change : Option Data → Data) (data : Data) : Data :=
  let name := fieldName name
  let fields := fieldsOf data
  match fields.find? (·.1 = name) with
  | some (_, old) =>
    .table (fields.map fun f => if f.1 = name then (name, change (some old)) else f)
  | none => .table (fields ++ [(name, change none)])

/-- Changes the item at a position; the list gets as long as that takes. -/
def changeItem (index : Int) (change : Data → Data) (data : Data) : Data :=
  let items := itemsOf data
  let place := if 0 ≤ index then index.toNat else (items.length + index).toNat
  let items := items ++ List.replicate (place + 1 - items.length) .null
  .list (items.set place (change (items.getD place .null)))

mutual

/-- Merges a value into what is at its place. -/
def mergeValue (old : Option Data) : Data → Data
  | .table fields => mergeFields (old.getD (.table [])) fields
  | value => value

/-- Merges fields into data, which is a table if there are any. -/
def mergeFields (data : Data) : List (String × Data) → Data
  | [] => data
  | (name, value) :: more =>
    mergeFields (changeField name (fun old => mergeValue old value) data) more

end

/-- Sets the value at the end of a way. -/
def setAt (value : Data) : List Step → Data → Data
  | [], data => data
  | [.field name], data => changeField name (fun old => mergeValue old value) data
  | [.position index], data => changeItem index (fun _ => value) data
  | .field name :: more, data =>
    changeField name (fun old => setAt value more (old.getD .null)) data
  | .position index :: more, data => changeItem index (setAt value more) data

/-- Lays a source over data. -/
def lay (data source : Data) : Data :=
  (fieldsOf source).foldl (fun data (name, value) => setAt value (wayOf name) data) data

end LatexIndex.Settings
