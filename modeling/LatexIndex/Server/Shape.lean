/-
LatexIndex/Server/Shape.lean

Shapes of the data in messages, and reading data of a shape.

Data that fits is read into a plain form, in which a record is a table of all
its fields, with `null` for one that was left out.  A record may be written
as a table, where other fields than its own are passed over, or as the list
of its fields.  One that is made of parts, each with fields of its own, is
always a table.

Data that does not fit is answered with its first misfit.  The fields that
are there come before the fields that are missing, in the order of their
names, and the fields of a record come before those of its parts.
-/
import LatexIndex.Server.Uri
import LatexIndex.Text.Quoted

namespace LatexIndex.Server

open Text

/-- Why data does not have a shape. -/
inductive Misfit where
  | wrongType (found : Data) (expected : String)
  | wrongValue (found : Data) (expected : String)
  /-- A field is missing. -/
  | missing (field : String)
  /-- A list has fewer items than a record has fields. -/
  | tooFew (count : Nat) (record : String) (size : Nat)
  /-- A list has more items than a record has fields. -/
  | tooMany (count : Nat) (size : Option Nat)
  /-- None of the alternatives fits. -/
  | noneFits (choice : String)
  | unknownWord (word : String) (words : List String)
  | notUri (fault : Uri.Fault) (text : String)

/-- What a piece of data is. -/
def description : Data → String
  | .null => "null"
  | .bool value => s!"boolean `{value}`"
  | .integer value => s!"integer `{value}`"
  | .real value => s!"floating point `{value.pointed}`"
  | .text value => s!"string {quoted value}"
  | .list _ => "sequence"
  | .table _ => "map"

/-- A number of elements. -/
def elements (count : Nat) : String :=
  if count = 1 then "1 element" else s!"{count} elements"

/-- The words that may stand somewhere. -/
def wordList (words : List String) : String :=
  match words.map fun word => s!"`{word}`" with
  | [] => "there are no variants"
  | [word] => s!"expected {word}"
  | [first, second] => s!"expected {first} or {second}"
  | words => "expected one of " ++ String.intercalate ", " words

/-- The wording of a misfit. -/
def Misfit.message : Misfit → String
  | wrongType found expected => s!"invalid type: {description found}, expected {expected}"
  | wrongValue found expected => s!"invalid value: {description found}, expected {expected}"
  | missing field => s!"missing field `{field}`"
  | tooFew count record size =>
    s!"invalid length {count}, expected struct {record} with {elements size}"
  | tooMany count none => s!"invalid length {count}, expected fewer elements in array"
  | tooMany count (some size) =>
    s!"invalid length {count}, expected {elements size} in sequence"
  | noneFits choice => s!"data did not match any variant of untagged enum {choice}"
  | unknownWord word words => s!"unknown variant `{word}`, {wordList words}"
  | notUri fault text => s!"{fault.message}: {quoted text}"

/-- Where data is read from. -/
inductive Origin where
  /-- The message itself. -/
  | message
  /-- What was kept of a message for the parts of a record. -/
  | kept
  deriving DecidableEq, Repr

/-- A shape of data, by how data is read into its plain form. -/
abbrev Shape := Origin → Data → Except Misfit Data

/-- A field of a record. -/
structure RecordField where
  name : String
  shape : Shape
  /-- What stands for the field when a table does not have it. -/
  absent : Option Data
  /-- Whether it may be absent from a list too. -/
  mayEndList : Bool

namespace Shape

/-! ### Single values -/

/-- Any data. -/
def anything : Shape := fun _ data =>
  .ok data

/-- A truth value. -/
def truth : Shape := fun _ data =>
  match data with
  | .bool _ => .ok data
  | _ => .error (.wrongType data "a boolean")

/-- A text. -/
def text : Shape := fun _ data =>
  match data with
  | .text _ => .ok data
  | _ => .error (.wrongType data "a string")

/-- A whole number between two bounds. -/
def wholeNumber (name : String) (least greatest : Int) : Shape := fun _ data =>
  match data with
  | .integer value =>
    if least ≤ value && value ≤ greatest then .ok data else .error (.wrongValue data name)
  | _ => .error (.wrongType data name)

/-- A whole number of 32 bits without a sign. -/
def natural : Shape :=
  wholeNumber "u32" 0 (Int.pow 2 32 - 1)

/-- A whole number of 32 bits with a sign. -/
def integer : Shape :=
  wholeNumber "i32" (-Int.pow 2 31) (Int.pow 2 31 - 1)

/-- A number. -/
def number : Shape := fun _ data =>
  match data with
  | .integer _ => .ok data
  | .real _ => .ok data
  | _ => .error (.wrongType data "f32")

/-- A URI. -/
def uri : Shape := fun _ data =>
  match data with
  | .text value => match Uri.read value with
    | .ok _ => .ok data
    | .error fault => .error (.notUri fault value)
  | _ => .error (.wrongType data "a string representing an URL")

/-- One of some words, which may stand alone or before nothing. -/
def word (words : List String) : Shape := fun _ data =>
  let check := fun (word : String) =>
    if word ∈ words then .ok (.text word) else .error (.unknownWord word words)
  match data with
  | .text value => check value
  | .table [(value, content)] => do
    let data ← check value
    match content with
    | .null => .ok data
    | _ => .error (.wrongType content "unit")
  | .table _ => .error (.wrongValue data "map with a single key")
  | _ => .error (.wrongType data "string or map")

/-! ### Shapes of shapes -/

/-- A shape or nothing. -/
def orNull (shape : Shape) : Shape := fun origin data =>
  match data with
  | .null => .ok .null
  | _ => shape origin data

/-- A list of data of one shape. -/
def list (shape : Shape) : Shape := fun origin data =>
  match data with
  | .list items => (items.mapM (shape origin)).map .list
  | _ => .error (.wrongType data "a sequence")

/-- A pair of data of one shape. -/
def pair (shape : Shape) : Shape := fun origin data =>
  match data with
  | .list [first, second] => do return .list [← shape origin first, ← shape origin second]
  | _ => .error (.wrongType data "an array of length 2")

/-- A table of data of one shape, under names of any kind. -/
def dictionary (expected : String) (key shape : Shape) : Shape := fun origin data =>
  match data with
  | .table fields =>
    let sorted := fields.mergeSort fun a b => decide (a.1 ≤ b.1)
    (sorted.mapM fun (name, value) => do
      let _ ← key origin (.text name)
      return (name, ← shape origin value)).map .table
  | _ => .error (.wrongType data expected)

/-- The first of some alternatives that fits. -/
def choice (name : String) (shapes : List Shape) : Shape := fun _ data =>
  match shapes.findSome? fun shape => (shape .kept data).toOption with
  | some data => .ok data
  | none => .error (.noneFits name)

/-! ### Records -/

/-- The fields of a record that a table has, read in the order of their
names. -/
def presentFields (origin : Origin) (fields : List RecordField) (data : Data) :
    Except Misfit (List (String × Data)) :=
  (fields.mergeSort fun a b => decide (a.name ≤ b.name)).foldlM (fun found field =>
    match data.field? field.name with
    | some value => return found ++ [(field.name, ← field.shape origin value)]
    | none => return found) []

/-- All fields of a record, out of those that were found. -/
def completeFields (fields : List RecordField) (found : List (String × Data)) :
    Except Misfit (List (String × Data)) :=
  fields.mapM fun field =>
    match (found.find? (·.1 = field.name)).map (·.2) <|> field.absent with
    | some value => .ok (field.name, value)
    | none => .error (.missing field.name)

/-- The fields of a record in a table. -/
def tableFields (origin : Origin) (fields : List RecordField) (data : Data) :
    Except Misfit (List (String × Data)) := do
  completeFields fields (← presentFields origin fields data)

/-- The fields of a record in a list, the first of them at position
`place`. -/
def listFields (origin : Origin) (record : String) (size : Nat) (place : Nat) :
    List RecordField → List Data → Except Misfit (List (String × Data))
  | [], [] => .ok []
  | [], extra => .error (.tooMany (place + extra.length)
      (if origin = .kept then some size else none))
  | field :: fields, [] =>
    match field.absent with
    | some value =>
      if field.mayEndList then do
        return (field.name, value) :: (← listFields origin record size (place + 1) fields [])
      else .error (.tooFew place record size)
    | none => .error (.tooFew place record size)
  | field :: fields, item :: items => do
    let value ← field.shape origin item
    return (field.name, value) :: (← listFields origin record size (place + 1) fields items)

/-- A record. -/
def record (name : String) (fields : List RecordField) : Shape := fun origin data =>
  match data with
  | .table _ => (tableFields origin fields data).map .table
  | .list items => (listFields origin name fields.length 0 fields items).map .table
  | _ => .error (.wrongType data s!"struct {name}")

/-- A record that is made of parts besides its own fields. -/
def composite (name : String) (fields : List RecordField) (parts : List (List RecordField)) : Shape :=
  fun origin data =>
    match data with
    | .table _ => do
      let own ← tableFields origin fields data
      let others ← parts.mapM fun part => tableFields .kept part data
      return .table (own ++ others.flatten)
    | _ => .error (.wrongType data s!"struct {name}")

end Shape

namespace RecordField

/-- A field that has to be there. -/
def needed (name : String) (shape : Shape) : RecordField :=
  ⟨name, shape, none, false⟩

/-- A field that a table may leave out. -/
def optional (name : String) (shape : Shape) : RecordField :=
  ⟨name, shape.orNull, some .null, false⟩

/-- A field that may be left out everywhere. -/
def omissible (name : String) (shape : Shape) : RecordField :=
  ⟨name, shape.orNull, some .null, true⟩

/-- A list that may be left out everywhere, but not be null. -/
def listOrEmpty (name : String) (shape : Shape) : RecordField :=
  ⟨name, .list shape, some (.list []), true⟩

end RecordField

end LatexIndex.Server
