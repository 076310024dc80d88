/-
LatexIndex/Data/Json.lean

Structured data written as JSON: a reader that accepts exactly the texts of
that format, up to a limit on nesting and on the size of numbers, and the
printer with one item to a line.

The reader's functions return what they read and what is left, or nothing
where the text goes wrong.  Each of them uses up at least one character for
every two calls, so twice the length of the text is enough fuel.

A number that is not a whole one of 64 bits is rounded twice: its leading
digits, as many as fit into 64 bits, are rounded to a number of their own,
and that is scaled by the power of ten that is left.
-/
import LatexIndex.Data.Basic

namespace LatexIndex.Json

/-! ### Reading -/

/-- Skips spaces, tabs and line ends. -/
def skipBlanks (text : List Char) : List Char :=
  text.dropWhile fun c => c == ' ' || c == '\t' || c == '\n' || c == '\r'

/-- The value of a hexadecimal digit. -/
def hexValue? (c : Char) : Option Nat :=
  if '0' ≤ c && c ≤ '9' then some (c.toNat - '0'.toNat)
  else if 'a' ≤ c && c ≤ 'f' then some (c.toNat - 'a'.toNat + 10)
  else if 'A' ≤ c && c ≤ 'F' then some (c.toNat - 'A'.toNat + 10)
  else none

/-- The number of digits in a base. -/
def digitsValue (base : Nat) (digits : List Nat) : Nat :=
  digits.foldl (fun n d => n * base + d) 0

/-- Four hexadecimal digits. -/
def readUnit : List Char → Option (Nat × List Char)
  | a :: b :: c :: d :: rest => do
    return (digitsValue 16 [← hexValue? a, ← hexValue? b, ← hexValue? c, ← hexValue? d], rest)
  | _ => none

/-- The character of an escape with the given first unit; a high surrogate
needs the escape of a low one after it. -/
def readEscapedUnit (text : List Char) : Option (Char × List Char) := do
  let (unit, rest) ← readUnit text
  if 0xD800 ≤ unit && unit < 0xDC00 then
    match rest with
    | '\\' :: 'u' :: rest =>
      let (low, rest) ← readUnit rest
      if 0xDC00 ≤ low && low < 0xE000 then
        return (Char.ofNat (0x10000 + (unit - 0xD800) * 0x400 + (low - 0xDC00)), rest)
      else none
    | _ => none
  else if 0xDC00 ≤ unit && unit < 0xE000 then none
  else return (Char.ofNat unit, rest)

/-- The character an escape of one letter stands for. -/
def escapeOf? : Char → Option Char
  | '"' => some '"'
  | '\\' => some '\\'
  | '/' => some '/'
  | 'b' => some '\x08'
  | 'f' => some '\x0c'
  | 'n' => some '\n'
  | 'r' => some '\r'
  | 't' => some '\t'
  | _ => none

/-- The rest of a string after its opening quote. -/
def readString : Nat → List Char → Option (List Char × List Char)
  | 0, _ => none
  | fuel + 1, text => match text with
    | [] => none
    | '"' :: rest => some ([], rest)
    | '\\' :: 'u' :: rest => do
      let (c, rest) ← readEscapedUnit rest
      let (chars, rest) ← readString fuel rest
      return (c :: chars, rest)
    | '\\' :: e :: rest => do
      let c ← escapeOf? e
      let (chars, rest) ← readString fuel rest
      return (c :: chars, rest)
    | c :: rest => do
      if c.toNat < 0x20 || c == '\\' then none
      let (chars, rest) ← readString fuel rest
      return (c :: chars, rest)

/-- ASCII digits. -/
def isDigit (c : Char) : Bool :=
  '0' ≤ c && c ≤ '9'

/-- The value of a run of decimal digits. -/
def decimalValue (digits : List Char) : Nat :=
  digitsValue 10 (digits.map fun c => c.toNat - '0'.toNat)

/-- The digits after the point of a number, if it has any. -/
def readFraction : List Char → Option (List Char × List Char)
  | '.' :: rest =>
    let digits := rest.takeWhile isDigit
    if digits.isEmpty then none else some (digits, rest.dropWhile isDigit)
  | text => some ([], text)

/-- The exponent of a number, if it has one. -/
def readExponent (text : List Char) : Option (Option Int × List Char) :=
  let digitsOf := fun (negative : Bool) (rest : List Char) =>
    let digits := rest.takeWhile isDigit
    let value : Int := decimalValue digits
    if digits.isEmpty then none
    else some (some (if negative then -value else value), rest.dropWhile isDigit)
  match text with
  | c :: rest =>
    if c == 'e' || c == 'E' then
      match rest with
      | '-' :: rest => digitsOf true rest
      | '+' :: rest => digitsOf false rest
      | rest => digitsOf false rest
    else some (none, text)
  | [] => some (none, [])

/-- Whether a whole number fits into 64 bits with a sign. -/
def isWord (n : Int) : Bool :=
  -Int.pow 2 63 ≤ n && n < Int.pow 2 63

/-- Appends digits to a number as long as it fits into 64 bits, and returns
the digits that do not. -/
def appendDigits (number : Nat) : List Char → Nat × List Char
  | [] => (number, [])
  | c :: rest =>
    let longer := number * 10 + (c.toNat - '0'.toNat)
    if longer < Nat.pow 2 64 then appendDigits longer rest else (number, c :: rest)

/-- The whole number with a sign, if it is one of 64 bits; `-0` is none. -/
def wordOf? (negative : Bool) (magnitude : Nat) : Option Int :=
  let value : Int := if negative then -(magnitude : Int) else magnitude
  if (negative && magnitude = 0) || !isWord value then none else some value

/-- A number without its sign. -/
def readNumber (negative : Bool) (text : List Char) : Option (Data × List Char) := do
  let digits := text.takeWhile isDigit
  if digits.isEmpty || (digits.head? == some '0' && digits.length > 1) then none
  let (fraction, rest) ← readFraction (text.dropWhile isDigit)
  let (exponent, rest) ← readExponent rest
  let (leading, excess) := appendDigits 0 digits
  let word := if fraction.isEmpty && exponent.isNone && excess.isEmpty then wordOf? negative leading
    else none
  match word with
  | some value => return (.integer value, rest)
  | none =>
    let (leading, left) := appendDigits leading fraction
    let places : Int := excess.length - (fraction.length - left.length)
    let number ← Binary.scale? 4 (Binary.nearest leading 1) (places + exponent.getD 0)
    return (.real (number.withSign negative), rest)

/-- A word that stands for itself, or a number. -/
def readScalar (text : List Char) : Option (Data × List Char) :=
  if "null".toList.isPrefixOf text then some (.null, text.drop 4)
  else if "true".toList.isPrefixOf text then some (.bool true, text.drop 4)
  else if "false".toList.isPrefixOf text then some (.bool false, text.drop 5)
  else match text with
    | '-' :: rest => readNumber true rest
    | text => readNumber false text

/-- How deeply lists and tables may be nested. -/
def nestingLimit : Nat := 127

mutual

/-- One value, in which lists and tables may be nested `room` deep. -/
def readValue : Nat → Nat → List Char → Option (Data × List Char)
  | 0, _, _ => none
  | fuel + 1, room, text => match skipBlanks text, room with
    | '{' :: rest, room + 1 => match skipBlanks rest with
      | '}' :: rest => some (.table [], rest)
      | rest => (readFields fuel room rest).map fun (fields, rest) => (.table fields, rest)
    | '[' :: rest, room + 1 => match skipBlanks rest with
      | ']' :: rest => some (.list [], rest)
      | rest => (readItems fuel room rest).map fun (items, rest) => (.list items, rest)
    | '"' :: rest, _ => (readString (rest.length + 1) rest).map fun (chars, rest) =>
        (.text (String.ofList chars), rest)
    | text, _ => readScalar text

/-- The items of a list up to its closing bracket. -/
def readItems : Nat → Nat → List Char → Option (List Data × List Char)
  | 0, _, _ => none
  | fuel + 1, room, text => do
    let (item, rest) ← readValue fuel room text
    match skipBlanks rest with
    | ',' :: rest =>
      let (items, rest) ← readItems fuel room rest
      return (item :: items, rest)
    | ']' :: rest => return ([item], rest)
    | _ => none

/-- The fields of a table up to its closing brace. -/
def readFields : Nat → Nat → List Char → Option (List (String × Data) × List Char)
  | 0, _, _ => none
  | fuel + 1, room, text => match skipBlanks text with
    | '"' :: rest => do
      let (name, rest) ← readString (rest.length + 1) rest
      match skipBlanks rest with
      | ':' :: rest =>
        let (value, rest) ← readValue fuel room rest
        match skipBlanks rest with
        | ',' :: rest =>
          let (fields, rest) ← readFields fuel room rest
          return ((String.ofList name, value) :: fields, rest)
        | '}' :: rest => return ([(String.ofList name, value)], rest)
        | _ => none
      | _ => none
    | _ => none

end

/-- The data that a text is the JSON of. -/
def read? (text : List Char) : Option Data := do
  let (data, rest) ← readValue (2 * text.length + 2) nestingLimit text
  if (skipBlanks rest).isEmpty then some data else none

/-! ### Printing -/

/-- A hexadecimal digit. -/
def hexDigit (n : Nat) : Char :=
  if n < 10 then Char.ofNat ('0'.toNat + n) else Char.ofNat ('a'.toNat + (n - 10))

/-- How a character is written inside a string. -/
def escape (c : Char) : List Char :=
  if c == '"' then ['\\', '"']
  else if c == '\\' then ['\\', '\\']
  else if c == '\x08' then ['\\', 'b']
  else if c == '\x0c' then ['\\', 'f']
  else if c == '\n' then ['\\', 'n']
  else if c == '\r' then ['\\', 'r']
  else if c == '\t' then ['\\', 't']
  else if c.toNat < 0x20 then
    "\\u00".toList ++ [hexDigit (c.toNat / 16), hexDigit (c.toNat % 16)]
  else [c]

/-- A string in quotes. -/
def quote (text : String) : List Char :=
  '"' :: text.toList.flatMap escape ++ ['"']

/-- The items between two delimiters, each on a line of its own that is
indented one level deeper than `depth`. -/
def block (opener closer : Char) (depth : Nat) (items : List (List Char)) : List Char :=
  if items.isEmpty then [opener, closer]
  else
    let line := fun depth => '\n' :: List.replicate (2 * depth) ' '
    opener :: [','].intercalate (items.map (line (depth + 1) ++ ·)) ++ line depth ++ [closer]

mutual

/-- The JSON of data, lists and tables over several lines. -/
def print (depth : Nat) : Data → List Char
  | .null => "null".toList
  | .bool value => (if value then "true" else "false").toList
  | .integer value => (toString value).toList
  | .real value => value.pointed.toList
  | .text value => quote value
  | .list items => block '[' ']' depth (printItems (depth + 1) items)
  | .table fields => block '{' '}' depth (printFields (depth + 1) fields)

/-- The JSON of each item. -/
def printItems (depth : Nat) : List Data → List (List Char)
  | [] => []
  | item :: more => print depth item :: printItems depth more

/-- The JSON of each field. -/
def printFields (depth : Nat) : List (String × Data) → List (List Char)
  | [] => []
  | (name, value) :: more =>
    (quote name ++ ": ".toList ++ print depth value) :: printFields depth more

end

mutual

/-- The JSON of data on one line, without blanks. -/
def compact : Data → List Char
  | .null => "null".toList
  | .bool value => (if value then "true" else "false").toList
  | .integer value => (toString value).toList
  | .real value => value.pointed.toList
  | .text value => quote value
  | .list items => '[' :: [','].intercalate (compactItems items) ++ [']']
  | .table fields => '{' :: [','].intercalate (compactFields fields) ++ ['}']

/-- The compact JSON of each item. -/
def compactItems : List Data → List (List Char)
  | [] => []
  | item :: more => compact item :: compactItems more

/-- The compact JSON of each field. -/
def compactFields : List (String × Data) → List (List Char)
  | [] => []
  | (name, value) :: more => (quote name ++ ':' :: compact value) :: compactFields more

end

end LatexIndex.Json
