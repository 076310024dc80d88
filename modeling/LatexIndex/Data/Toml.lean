/-
LatexIndex/Data/Toml.lean

Reading structured data written as TOML.

A document is a sequence of lines: `key = value`, a header `[table]` that the
following lines belong to, or a header `[[table]]` that starts a new item of
a list of tables.  Keys may be dotted.  A name is defined once: neither a
value nor a table can be defined again, and only a table that came about as
part of a longer header can still get a header of its own.  A dotted key may
pass through tables without a header and through the last item of a list, but
the table it defines something in has to come from a dotted key too.

Line ends inside strings count as one character.  Dates and times are kept as
text in their usual form.

Every reading function returns what is left of the text, or nothing where
the text goes wrong.
-/
import LatexIndex.Data.Json
import LatexIndex.Text.Split

namespace LatexIndex.Toml

open Text Json

/-! ### Blanks and comments -/

/-- Skips spaces and tabs. -/
def skipSpaces (text : List Char) : List Char :=
  text.dropWhile fun c => c == ' ' || c == '\t'

/-- Control characters that may stand nowhere. -/
def isControl (c : Char) : Bool :=
  (c.toNat < 0x20 && c != '\t') || c.toNat == 0x7F

/-- What is left from the line end after a comment, if a comment is there. -/
def skipComment (text : List Char) : Option (List Char) :=
  match text with
  | '#' :: rest =>
    let after := rest.dropWhile (!isControl ·)
    match after with
    | [] => some []
    | '\n' :: _ => some after
    | '\r' :: '\n' :: _ => some after
    | _ => none
  | text => some text

/-- What is left after the end of a line, spaces and a comment before it. -/
def endLine (text : List Char) : Option (List Char) := do
  match ← skipComment (skipSpaces text) with
  | [] => some []
  | '\n' :: rest => some rest
  | '\r' :: '\n' :: rest => some rest
  | _ => none

/-- Skips spaces, comments and line ends. -/
def skipLines : Nat → List Char → Option (List Char)
  | 0, text => some text
  | fuel + 1, text => do
    match ← skipComment (skipSpaces text) with
    | '\n' :: rest => skipLines fuel rest
    | '\r' :: '\n' :: rest => skipLines fuel rest
    | rest => some rest

/-! ### Strings -/

/-- A number of hexadecimal digits that name a character. -/
def readCode (count : Nat) (text : List Char) : Option (Char × List Char) := do
  let digits ← (text.take count).mapM hexValue?
  let value := digitsValue 16 digits
  if digits.length < count || value > 0x10FFFF || (0xD800 ≤ value && value < 0xE000) then none
  return (Char.ofNat value, text.drop count)

/-- The character an escape stands for, the backslash being read. -/
def readEscape : List Char → Option (Char × List Char)
  | 'u' :: rest => readCode 4 rest
  | 'U' :: rest => readCode 8 rest
  | '/' :: _ => none
  | c :: rest => (escapeOf? c).map (·, rest)
  | [] => none

/-- Skips spaces, tabs and line ends. -/
def skipBreaks : List Char → List Char
  | '\r' :: '\n' :: rest => skipBreaks rest
  | c :: rest => if c == ' ' || c == '\t' || c == '\n' then skipBreaks rest else c :: rest
  | [] => []

/-- Whether a backslash ends its line, and what is left after the blanks that
it takes away. -/
def afterJoin? (text : List Char) : Option (List Char) :=
  match skipSpaces text with
  | '\n' :: rest => some (skipBreaks rest)
  | '\r' :: '\n' :: rest => some (skipBreaks rest)
  | _ => none

/-- The rest of a string on one line; `raw` ones know no escapes. -/
def readLineString (raw : Bool) (quote : Char) : Nat → List Char → Option (List Char × List Char)
  | 0, _ => none
  | fuel + 1, text => match text with
    | [] => none
    | c :: rest =>
      if c == quote then some ([], rest)
      else if isControl c then none
      else if c == '\\' && !raw then do
        let (c, rest) ← readEscape rest
        let (chars, rest) ← readLineString raw quote fuel rest
        return (c :: chars, rest)
      else do
        let (chars, rest) ← readLineString raw quote fuel rest
        return (c :: chars, rest)

/-- The rest of a string between threefold quotes.  Up to two quotes directly
before the closing ones belong to it. -/
def readLongString (raw : Bool) (quote : Char) : Nat → List Char → Option (List Char × List Char)
  | 0, _ => none
  | fuel + 1, text =>
    let quotes := (text.takeWhile (· == quote)).length
    if quotes ≥ 3 then
      if quotes ≤ 5 then some (List.replicate (quotes - 3) quote, text.drop quotes)
      else none
    else match text with
      | [] => none
      | '\r' :: '\n' :: rest => do
        let (chars, rest) ← readLongString raw quote fuel rest
        return ('\n' :: chars, rest)
      | c :: rest =>
        if isControl c && c != '\n' then none
        else if c == '\\' && !raw then
          match afterJoin? rest with
          | some rest => readLongString raw quote fuel rest
          | none => do
            let (c, rest) ← readEscape rest
            let (chars, rest) ← readLongString raw quote fuel rest
            return (c :: chars, rest)
        else do
          let (chars, rest) ← readLongString raw quote fuel rest
          return (c :: chars, rest)

/-- Drops a line end directly after the opening quotes. -/
def dropFirstBreak : List Char → List Char
  | '\n' :: rest => rest
  | '\r' :: '\n' :: rest => rest
  | text => text

/-- A string, if one starts here; `long` ones are read only where a value may
stand. -/
def readQuoted (long : Bool) (text : List Char) : Option (String × List Char) :=
  let fuel := text.length + 1
  let result := match text with
    | '"' :: '"' :: '"' :: rest =>
      if long then readLongString false '"' fuel (dropFirstBreak rest)
      else readLineString false '"' fuel ('"' :: '"' :: rest)
    | '\x27' :: '\x27' :: '\x27' :: rest =>
      if long then readLongString true '\x27' fuel (dropFirstBreak rest)
      else readLineString true '\x27' fuel ('\x27' :: '\x27' :: rest)
    | '"' :: rest => readLineString false '"' fuel rest
    | '\x27' :: rest => readLineString true '\x27' fuel rest
    | _ => none
  result.map fun (chars, rest) => (String.ofList chars, rest)

/-! ### Keys -/

/-- Characters of a key without quotes. -/
def isKeyChar (c : Char) : Bool :=
  c.isAlphanum || c == '_' || c == '-'

/-- One part of a key. -/
def readKeyPart (text : List Char) : Option (String × List Char) :=
  let bare := text.takeWhile isKeyChar
  if bare.isEmpty then readQuoted false text
  else some (String.ofList bare, text.dropWhile isKeyChar)

/-- How many parts a key may have, and how deeply lists and tables in braces
may be nested. -/
def nestingLimit : Nat := 79

/-- A key of at most so many parts, with dots between them. -/
def readKeyParts : Nat → List Char → Option (List String × List Char)
  | 0, _ => none
  | room + 1, text => do
    let (part, rest) ← readKeyPart (skipSpaces text)
    match skipSpaces rest with
    | '.' :: rest =>
      let (parts, rest) ← readKeyParts room rest
      return (part :: parts, rest)
    | rest => return ([part], rest)

/-- A key, with dots between its parts. -/
def readKey (text : List Char) : Option (List String × List Char) :=
  readKeyParts nestingLimit text

/-! ### Numbers, truth values and dates -/

/-- Characters of a value that is neither a string nor a list nor a table. -/
def isScalarChar (c : Char) : Bool :=
  c.isAlphanum || c == '+' || c == '-' || c == '_' || c == '.' || c == ':'

/-- Digits with single underscores between them, the underscores dropped. -/
def digitRun? (isDigit : Char → Bool) (text : List Char) : Option (List Char) :=
  let groups := text.splitOn '_'
  if groups.all fun group => !group.isEmpty && group.all isDigit then some groups.flatten
  else none

/-- A whole number in a base, if its digits are right and it fits. -/
def wordIn? (base : Nat) (text : List Char) : Option Data := do
  let digits ← digitRun? (fun c => match hexValue? c with | some v => v < base | none => false) text
  let value : Int := digitsValue base (← digits.mapM hexValue?)
  if isWord value then some (.integer value) else none

/-- A number with a point or an exponent, its sign being read.  Only without a
minus sign it can be too great. -/
def fractionOf? (negative : Bool) (text : List Char) : Option Data := do
  let split := fun (stop : Char → Bool) (text : List Char) => match cutAt stop text with
    | some (before, after) => (before, some after)
    | none => (text, none)
  let (number, exponent) := split (fun c => c == 'e' || c == 'E') text
  let (whole, fraction) := split (· == '.') number
  if exponent.isNone && fraction.isNone then none
  let whole ← digitRun? isDigit whole
  if whole.head? == some '0' && whole.length > 1 then none
  let fraction ← match fraction with
    | some digits => digitRun? isDigit digits
    | none => some []
  let exponent : Int ← match exponent with
    | some ('-' :: digits) => (digitRun? isDigit digits).map fun d => -(decimalValue d : Int)
    | some ('+' :: digits) => (digitRun? isDigit digits).map fun d => (decimalValue d : Int)
    | some digits => (digitRun? isDigit digits).map fun d => (decimalValue d : Int)
    | none => some 0
  let number := Binary.ofDecimal (decimalValue (whole ++ fraction)) (exponent - fraction.length)
  if number == .infinite false && !negative then none
  else return .real (number.withSign negative)

/-- A number, its sign being read. -/
def numberOf? (negative : Bool) (text : List Char) : Option Data :=
  if text == "inf".toList then some (.real (.infinite negative))
  else if text == "nan".toList then some (.real .nan)
  else match digitRun? isDigit text with
    | some digits => do
      if digits.head? == some '0' && digits.length > 1 then none
      let magnitude : Int := decimalValue digits
      let value := if negative then -magnitude else magnitude
      if isWord value then some (.integer value) else none
    | none => fractionOf? negative text

/-! ### Dates and times -/

/-- Two digits whose value lies between two bounds. -/
def isTwoDigits (least greatest : Nat) (text : List Char) : Bool :=
  text.length == 2 && text.all isDigit &&
    least ≤ decimalValue text && decimalValue text ≤ greatest

/-- Whether a year has a 29th of February. -/
def isLeapYear (year : Nat) : Bool :=
  year % 4 == 0 && (year % 100 != 0 || year % 400 == 0)

/-- How many days a month has. -/
def daysIn (year month : Nat) : Nat :=
  if month == 2 then (if isLeapYear year then 29 else 28)
  else if [4, 6, 9, 11].contains month then 30
  else 31

/-- A date `year-month-day`. -/
def isDate (text : List Char) : Bool :=
  match text.splitOn '-' with
  | [year, month, day] =>
    year.length == 4 && year.all isDigit && isTwoDigits 1 12 month &&
      isTwoDigits 1 (daysIn (decimalValue year) (decimalValue month)) day
  | _ => false

/-- A time `hour:minute:second` in its usual form: of a fraction of a second
nine digits count, and zeros at its end do not. -/
def timeOf? (text : List Char) : Option (List Char) :=
  match text.splitOn ':' with
  | [hour, minute, second] =>
    let whole := second.takeWhile (· != '.')
    let fraction := second.drop whole.length
    let digits := fraction.drop 1
    if isTwoDigits 0 23 hour && isTwoDigits 0 59 minute && isTwoDigits 0 60 whole &&
        (fraction.isEmpty || (!digits.isEmpty && digits.all isDigit)) then
      let kept := ((digits.take 9).reverse.dropWhile (· == '0')).reverse
      some ([':'].intercalate [hour, minute, whole] ++ if kept.isEmpty then [] else '.' :: kept)
    else none
  | _ => none

/-- The distance from universal time after its sign, in its usual form: none
at all counts as one forward. -/
def zoneOf? (sign : Char) (text : List Char) : Option (List Char) :=
  match text.splitOn ':' with
  | [hour, minute] =>
    if isTwoDigits 0 23 hour && isTwoDigits 0 59 minute then
      let isNone := decimalValue hour == 0 && decimalValue minute == 0
      some ((if isNone then '+' else sign) :: hour ++ ':' :: minute)
    else none
  | _ => none

/-- A time that may be followed by its distance from universal time. -/
def zonedTimeOf? (text : List Char) : Option (List Char) :=
  let time := text.takeWhile fun c => c != '+' && c != '-' && c != 'Z' && c != 'z'
  match text.drop time.length with
  | [] => timeOf? time
  | sign :: zone =>
    if sign == 'Z' || sign == 'z' then
      if zone.isEmpty then (timeOf? time).map (· ++ ['Z']) else none
    else do return (← timeOf? time) ++ (← zoneOf? sign zone)

/-- A date, a time, or both with a `T` between them. -/
def momentOf? (text : List Char) : Option (List Char) :=
  if isDate text then some text
  else (timeOf? text).or
    (if isDate (text.take 10) then match text.drop 10 with
      | c :: rest =>
        if c == 'T' || c == 't' || c == ' ' then
          (zonedTimeOf? rest).map (text.take 10 ++ 'T' :: ·)
        else none
      | [] => none
    else none)

/-- The value that a run of characters stands for. -/
def scalarOf? (text : List Char) : Option Data :=
  if text == "true".toList then some (.bool true)
  else if text == "false".toList then some (.bool false)
  else match momentOf? text with
    | some moment => some (.text (String.ofList moment))
    | none => match text with
      | '0' :: 'x' :: digits => wordIn? 16 digits
      | '0' :: 'o' :: digits => wordIn? 8 digits
      | '0' :: 'b' :: digits => wordIn? 2 digits
      | '-' :: rest => numberOf? true rest
      | '+' :: rest => numberOf? false rest
      | rest => numberOf? false rest

/-- A value without brackets or quotes; a date may be divided from its time
by a space. -/
def readScalar (text : List Char) : Option (Data × List Char) :=
  let run := text.takeWhile isScalarChar
  let rest := text.dropWhile isScalarChar
  let (run, rest) := match isDate run, rest with
    | true, ' ' :: more =>
      let time := more.takeWhile isScalarChar
      if (zonedTimeOf? time).isSome then (run ++ ' ' :: time, more.dropWhile isScalarChar)
      else (run, rest)
    | _, _ => (run, rest)
  (scalarOf? run).map (·, rest)

/-! ### Tables -/

/-- How a table came about. -/
inductive Origin where
  /-- As a part of a longer header. -/
  | implied
  /-- By a header of its own. -/
  | header
  /-- As a part of a dotted key. -/
  | dotted
  deriving DecidableEq, Repr

/-- A document as it is being read. -/
inductive Item where
  | value (data : Data)
  | table (origin : Origin) (fields : List (String × Item))
  /-- A list of tables with a header for each. -/
  | tables (items : List (List (String × Item)))

/-- Puts an item under a name, instead of what was there. -/
def setItem (fields : List (String × Item)) (name : String) (item : Item) :
    List (String × Item) :=
  if fields.any (·.1 = name) then fields.map fun f => if f.1 = name then (name, item) else f
  else fields ++ [(name, item)]

/-- The item under a name. -/
def getItem? (fields : List (String × Item)) (name : String) : Option Item :=
  (fields.find? (·.1 = name)).map (·.2)

/-- Defines a value under a key.  `fits` tells whether the table at hand may
get it, which counts when the key has no further parts. -/
def defineIn (data : Data) (fits : Bool) :
    List String → List (String × Item) → Option (List (String × Item))
  | [], _ => none
  | [name], fields =>
    match fits, getItem? fields name with
    | true, none => some (fields ++ [(name, .value data)])
    | _, _ => none
  | name :: more, fields =>
    match getItem? fields name with
    | none => (defineIn data true more []).map fun inner =>
        fields ++ [(name, .table .dotted inner)]
    | some (.table origin inner) =>
      if origin = .header then none
      else (defineIn data (origin = .dotted) more inner).map fun inner =>
        setItem fields name (.table origin inner)
    | some (.tables items) => do
      let last ← defineIn data false more (← items.getLast?)
      return setItem fields name (.tables (items.dropLast ++ [last]))
    | some (.value _) => none

/-- Defines a value in a table. -/
def define (data : Data) (key : List String) (fields : List (String × Item)) :
    Option (List (String × Item)) :=
  defineIn data true key fields

/-- Changes the table that a header names, making the tables on the way to
it. -/
def enter (change : Option Item → Option Item) :
    List String → List (String × Item) → Option (List (String × Item))
  | [], _ => none
  | [name], fields => (change (getItem? fields name)).map (setItem fields name)
  | name :: more, fields =>
    match getItem? fields name with
    | none => (enter change more []).map fun inner =>
        fields ++ [(name, .table .implied inner)]
    | some (.table origin inner) =>
      (enter change more inner).map fun inner => setItem fields name (.table origin inner)
    | some (.tables items) =>
      match items.getLast? with
      | some last => (enter change more last).map fun last =>
          setItem fields name (.tables (items.dropLast ++ [last]))
      | none => none
    | some (.value _) => none

/-- The table of a header `[key]`. -/
def openTable : Option Item → Option Item
  | none => some (.table .header [])
  | some (.table .implied fields) => some (.table .header fields)
  | some _ => none

/-- A further table of a header `[[key]]`. -/
def openTables : Option Item → Option Item
  | none => some (.tables [[]])
  | some (.tables items) => some (.tables (items ++ [[]]))
  | some _ => none

/-- Changes the fields of the table that the last header opened. -/
def inOpened (change : List (String × Item) → Option (List (String × Item))) :
    Option Item → Option Item
  | some (.table origin fields) => (change fields).map (.table origin)
  | some (.tables items) => do
    let last ← items.getLast?
    return .tables (items.dropLast ++ [← change last])
  | _ => none

mutual

/-- The data of an item. -/
def Item.data : Item → Data
  | .value data => data
  | .table _ fields => .table (fieldsData fields)
  | .tables items => .list (itemsData items)

/-- The data of named items. -/
def fieldsData : List (String × Item) → List (String × Data)
  | [] => []
  | (name, item) :: more => (name, item.data) :: fieldsData more

/-- The data of a list of tables. -/
def itemsData : List (List (String × Item)) → List Data
  | [] => []
  | fields :: more => .table (fieldsData fields) :: itemsData more

end

/-! ### Values -/

mutual

/-- One value, in which lists and tables may be nested `room` deep. -/
def readValue : Nat → Nat → List Char → Option (Data × List Char)
  | 0, _, _ => none
  | fuel + 1, room, text => match text, room with
    | '"' :: _, _ => (readQuoted true text).map fun (s, rest) => (.text s, rest)
    | '\x27' :: _, _ => (readQuoted true text).map fun (s, rest) => (.text s, rest)
    | '[' :: rest, room + 1 =>
      (readItems fuel room rest).map fun (items, rest) => (.list items, rest)
    | '{' :: rest, room + 1 => match skipSpaces rest with
      | '}' :: rest => some (.table [], rest)
      | rest => (readFields fuel room [] rest).map fun (fields, rest) =>
          (.table (fieldsData fields), rest)
    | text, _ => readScalar text

/-- The items of a list up to its closing bracket. -/
def readItems : Nat → Nat → List Char → Option (List Data × List Char)
  | 0, _, _ => none
  | fuel + 1, room, text => do
    match ← skipLines text.length text with
    | ']' :: rest => return ([], rest)
    | text =>
      let (item, rest) ← readValue fuel room text
      match ← skipLines rest.length rest with
      | ',' :: rest =>
        let (items, rest) ← readItems fuel room rest
        return (item :: items, rest)
      | ']' :: rest => return ([item], rest)
      | _ => none

/-- The fields of a table in braces, which stands on one line. -/
def readFields : Nat → Nat → List (String × Item) → List Char →
    Option (List (String × Item) × List Char)
  | 0, _, _, _ => none
  | fuel + 1, room, fields, text => do
    let (key, rest) ← readKey text
    match rest with
    | '=' :: rest =>
      let (value, rest) ← readValue fuel room (skipSpaces rest)
      let fields ← define value key fields
      match skipSpaces rest with
      | ',' :: rest => readFields fuel room fields rest
      | '}' :: rest => return (fields, rest)
      | _ => none
    | _ => none

end

/-! ### Documents -/

/-- A document up to some line: what is defined, and the header that the next
lines belong to. -/
structure Reading where
  fields : List (String × Item)
  header : List String

/-- Defines a value in the table of the current header. -/
def Reading.define (r : Reading) (key : List String) (data : Data) : Option Reading :=
  if r.header.isEmpty then (Toml.define data key r.fields).map (⟨·, []⟩)
  else (enter (inOpened (Toml.define data key)) r.header r.fields).map (⟨·, r.header⟩)

/-- Reads a header. -/
def readHeader (r : Reading) (text : List Char) : Option (Reading × List Char) := do
  let isList := text.head? == some '['
  let (key, rest) ← readKey (if isList then text.drop 1 else text)
  let rest ← match isList, rest with
    | true, ']' :: ']' :: rest => some rest
    | false, ']' :: rest => some rest
    | _, _ => none
  let fields ← enter (if isList then openTables else openTable) key r.fields
  return (⟨fields, key⟩, ← endLine rest)

/-- Reads a line `key = value`. -/
def readPair (r : Reading) (text : List Char) : Option (Reading × List Char) := do
  let (key, rest) ← readKey text
  match rest with
  | '=' :: rest =>
    let rest := skipSpaces rest
    let (value, rest) ← readValue (2 * rest.length + 2) nestingLimit rest
    return (← r.define key value, ← endLine rest)
  | _ => none

/-- Reads lines until the text ends. -/
def readLines : Nat → Reading → List Char → Option Reading
  | 0, _, _ => none
  | fuel + 1, r, text => do
    match ← skipLines text.length text with
    | [] => some r
    | '[' :: rest =>
      let (r, rest) ← readHeader r rest
      readLines fuel r rest
    | text =>
      let (r, rest) ← readPair r text
      readLines fuel r rest

/-- The text without a byte order mark at its beginning. -/
def dropMark : List Char → List Char
  | c :: rest => if c.toNat == 0xFEFF then rest else c :: rest
  | [] => []

/-- The data that a text is the TOML of. -/
def read? (text : List Char) : Option Data :=
  (readLines (text.length + 1) ⟨[], []⟩ (dropMark text)).map fun r => .table (fieldsData r.fields)

end LatexIndex.Toml
