/-
LatexIndex/Server/Uri.lean

URIs, by which editors name files.

A URI of any scheme names a file when it has a path that begins with a slash
and no host but this machine.  The well-known schemes always have a host, and
take a backslash for a slash.  In a URI of the scheme `file` a drive letter
may stand where a host would, and a path that begins with one has no host.

Dot segments are resolved before percent escapes are decoded, so an escaped
slash takes no part in that, while an escaped dot does.  Two dots do not lead
out of a drive.  The other way, a path is written with an escape for every
byte that is not plain.
-/
import LatexIndex.Path.Basic
import LatexIndex.Server.Uri.Host
import LatexIndex.Text.Utf8

namespace LatexIndex

/-- A URI, as far as it names a file. -/
structure Uri where
  host : Option Uri.Host
  /-- The segments of the path, with their escapes; none where there is no
  path that begins with a slash. -/
  segments : Option (List (List Char))
  deriving DecidableEq, Repr

namespace Uri

open Text

/-! ### Schemes -/

/-- The text without line ends and tabs, and without control characters and
spaces around it. -/
def clean (text : List Char) : List Char :=
  let isOuter := fun (c : Char) => c.toNat ≤ 0x20
  let trimmed := ((text.dropWhile isOuter).reverse.dropWhile isOuter).reverse
  trimmed.filter fun c => !(c == '\t' || c == '\n' || c == '\r')

/-- Characters of a scheme. -/
def isSchemeChar (c : Char) : Bool :=
  c.isAlphanum || c == '+' || c == '-' || c == '.'

/-- The scheme, in lower case, and what follows its colon. -/
def splitScheme? (text : List Char) : Option (String × List Char) := do
  let (scheme, rest) ← cutAt (· == ':') text
  match scheme with
  | c :: _ =>
    if c.isAlpha && scheme.all isSchemeChar then
      some (String.ofList (asciiLower scheme), rest)
    else none
  | [] => none

/-- The well-known schemes besides `file`. -/
def wellKnown : List String :=
  ["http", "https", "ws", "wss", "ftp"]

/-! ### Paths -/

/-- A slash of either kind. -/
def isSlash (c : Char) : Bool :=
  c == '/' || c == '\\'

/-- Characters that end the path. -/
def endsPath (c : Char) : Bool :=
  c == '?' || c == '#'

/-- A letter with a colon or a bar. -/
def isDrive : List Char → Bool
  | [letter, mark] => letter.isAlpha && (mark == ':' || mark == '|')
  | _ => false

/-- Whether two dots do not lead out of a segment. -/
def isRoot : List Char → Bool
  | letter :: mark :: '\\' :: _ => isDrive [letter, mark]
  | segment => isDrive segment

/-- The segment with its escaped dots written plainly, if it holds nothing
but dots. -/
def dots (segment : List Char) : List Char :=
  match segment with
  | '%' :: '2' :: c :: rest => if c == 'e' || c == 'E' then '.' :: dots rest else segment
  | '.' :: rest => '.' :: dots rest
  | _ => segment

/-- Leaves the last segment, if it can be left. -/
def leave : List (List Char) → List (List Char)
  | [] => []
  | segment :: before => if isRoot segment then segment :: before else before

/-- A segment after those in `before`.  A drive at the beginning of the path
of a file is written with a colon. -/
def settle (ofFile : Bool) (before : List (List Char)) (segment : List Char) : List Char :=
  match segment with
  | letter :: _ =>
    if ofFile && before.isEmpty && isDrive segment then [letter, ':'] else segment
  | [] => []

/-- Resolves dot segments; `before` are the segments so far, last first. -/
def resolveDots (ofFile : Bool) (before : List (List Char)) :
    List (List Char) → List (List Char)
  | [] => before.reverse
  | segment :: more =>
    let atEnd := fun (before : List (List Char)) => if more.isEmpty then [] :: before else before
    if dots segment == ['.', '.'] then resolveDots ofFile (atEnd (leave before)) more
    else if dots segment == ['.'] then resolveDots ofFile (atEnd before) more
    else resolveDots ofFile (settle ofFile before segment :: before) more

/-- The segments without the empty ones at the beginning. -/
def dropEmpty : List (List Char) → List (List Char)
  | [] :: segment :: more => dropEmpty (segment :: more)
  | segments => segments

/-- The segments of a path after its first slash. -/
def segmentsOf (ofFile bothSlashes : Bool) (text : List Char) : List (List Char) :=
  let path := text.takeWhile (!endsPath ·)
  let path := if bothSlashes then path.map fun c => if isSlash c then '/' else c else path
  resolveDots ofFile [] (path.splitOn '/')

/-! ### Hosts -/

/-- What stands before and after the last `@`. -/
def splitUser (text : List Char) : Option (List Char) × List Char :=
  match cutAt (· == '@') text.reverse with
  | some (after, before) => (some before.reverse, after.reverse)
  | none => (none, text)

/-- The host before a colon that is not in brackets, and the rest, which is
a number that belongs to the host. -/
def splitNumber (inBrackets : Bool) : List Char → List Char × List Char
  | [] => ([], [])
  | c :: rest =>
    if c == ':' && !inBrackets then ([], c :: rest)
    else
      let (host, number) := splitNumber (c == '[' || (inBrackets && c != ']')) rest
      (c :: host, number)

/-- Skips the number of a host with its colon: one of 16 bits or nothing, and
then the end or a backslash. -/
def skipNumber (text : List Char) : Except Fault (List Char) :=
  match text with
  | ':' :: text =>
    let digits := text.takeWhile Json.isDigit
    let rest := text.dropWhile Json.isDigit
    if 65535 < Json.decimalValue digits || !(rest.isEmpty || rest.head? == some '\\') then
      .error .hostNumber
    else .ok rest
  | _ => .ok text

/-- The host after two slashes, none for an empty one, and the text from its
path on. -/
def readAuthority (isWellKnown : Bool) (text : List Char) :
    Except Fault (Option Host × List Char) := do
  let endsHost := fun c => c == '/' || endsPath c || (isWellKnown && c == '\\')
  let whole := text.takeWhile (!endsHost ·)
  let after := text.dropWhile (!endsHost ·)
  let (user, place) := splitUser whole
  if user == some [] && place.isEmpty && !after.isEmpty then throw .emptyHost
  let (hostText, number) := splitNumber false place
  if hostText.isEmpty && (isWellKnown || !number.isEmpty) then throw .emptyHost
  let host ← if hostText.isEmpty then pure none
    else some <$> (if isWellKnown then readHost hostText else readPlainHost hostText)
  let rest ← skipNumber number
  if host.isNone && !(user.getD []).isEmpty && user != some [':'] then throw .emptyHost
  return (host, rest ++ after)

/-! ### Reading -/

/-- The text after its first character, where that is a slash. -/
def afterSlash : List Char → List Char
  | c :: rest => if isSlash c then rest else c :: rest
  | [] => []

/-- The URI of the scheme `file` with a host and a path.  A path that begins
with a drive has no host. -/
def ofFile (host : Option Host) (path : List Char) : Uri :=
  let segments := segmentsOf true true path
  ⟨if segments.head?.any isDrive then none else host, some (dropEmpty segments)⟩

/-- What follows `file:`. -/
def readFile (text : List Char) : Except Fault Uri := do
  match text with
  | a :: b :: rest =>
    if isSlash a && isSlash b then
      let endsHost := fun c => isSlash c || endsPath c
      let hostText := rest.takeWhile (!endsHost ·)
      if isDrive hostText then return ofFile none rest
      else
        let host ← if hostText.isEmpty then pure none else some <$> readHost hostText
        return ofFile host (afterSlash (rest.dropWhile (!endsHost ·)))
    else return ofFile none (afterSlash text)
  | _ => return ofFile none (afterSlash text)

/-- What follows another scheme that is not well known. -/
def readOther (text : List Char) : Except Fault Uri := do
  match text with
  | '/' :: '/' :: rest =>
    let (host, path) ← readAuthority false rest
    let segments := match path with
      | '/' :: path => some (segmentsOf false false path)
      | c :: path => if endsPath c then none else some (segmentsOf false false (c :: path))
      | [] => none
    return ⟨host, segments⟩
  | '/' :: path => return ⟨none, some (segmentsOf false false path)⟩
  | _ => return ⟨none, none⟩

/-- The URI that a text is. -/
def read (text : String) : Except Fault Uri :=
  match splitScheme? (clean text.toList) with
  | none => .error .relative
  | some (scheme, rest) =>
    if scheme = "file" then readFile rest
    else if scheme ∈ wellKnown then do
      let (host, path) ← readAuthority true (rest.dropWhile isSlash)
      return ⟨host, some (segmentsOf false true (afterSlash path))⟩
    else readOther rest

/-! ### Files -/

/-- The path of segments.  One that ends with a drive gets a slash. -/
def pathOf (segments : List (List Char)) : Path :=
  let text := segments.flatMap fun segment => '/' :: decode (decodedBytes segment)
  let endsWithDrive := 2 < text.length && isDrive (text.drop (text.length - 2))
  ⟨String.ofList (if endsWithDrive then text ++ ['/'] else text)⟩

/-- The file that a URI names. -/
def path? (uri : Uri) : Option Path :=
  match uri.host, uri.segments with
  | none, some segments => some (pathOf segments)
  | some (.name "localhost"), some segments => some (pathOf segments)
  | _, _ => none

/-- The file that a text names. -/
def file? (text : String) : Option Path :=
  (read text).toOption.bind path?

/-! ### Writing -/

/-- Bytes that stand for themselves in a segment. -/
def isPlain (byte : UInt8) : Bool :=
  let n := byte.toNat
  0x20 < n && n < 0x7F && !("\"<>`#?\x7b\x7d/%\\".toList.contains (Char.ofNat n))

/-- A digit of an escape. -/
def escapeDigit (n : Nat) : Char :=
  if n < 10 then Char.ofNat ('0'.toNat + n) else Char.ofNat ('A'.toNat + (n - 10))

/-- A byte in a segment. -/
def encodeByte (byte : UInt8) : List Char :=
  if isPlain byte then [Char.ofNat byte.toNat]
  else ['%', escapeDigit (byte.toNat / 16), escapeDigit (byte.toNat % 16)]

/-- A name in a segment. -/
def encodeName (name : String) : List Char :=
  name.toUTF8.toList.flatMap encodeByte

/-- The URI of the file at an absolute path. -/
def ofPath (path : Path) : String :=
  let names := (path.parts.drop 1).map Part.text
  String.ofList ("file://".toList ++
    if names.isEmpty then ['/'] else names.flatMap fun name => '/' :: encodeName name)

end Uri

end LatexIndex
