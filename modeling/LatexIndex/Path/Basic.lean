/-
LatexIndex/Path/Basic.lean

Paths as they are written, and the parts they stand for.

A path keeps the text it was given, because that text is what messages and
answers show.  What it means is the list of its *parts*: repeated slashes, a
trailing slash and every `.` that does not begin the text are not parts, so
`/p//b`, `/p/./b` and `/p/b/` have the same parts as `/p/b`.  Two paths are
the same (`Path.same`) when their parts are; `..` is a part like any other,
so `/p/../p/b` is a different path.
-/
import LatexIndex.Text.Split

namespace LatexIndex

open Text

/-- A path, as written. -/
structure Path where
  text : String
  deriving DecidableEq, Repr

/-- One part of a path. -/
inductive Part where
  /-- The slash an absolute path begins with. -/
  | root
  /-- A `.` at the very beginning. -/
  | here
  /-- `..` -/
  | up
  | name (text : String)
  deriving DecidableEq, Repr

/-- How a part is written. -/
def Part.text : Part → String
  | root => ""
  | here => "."
  | up => ".."
  | name text => text

namespace Path

/-- The text between the slashes; an absolute path begins with an empty
segment, and so does the empty path. -/
def segments (p : Path) : List String :=
  (p.text.toList.splitOn '/').map String.ofList

/-- Whether the path starts at the root. -/
def isAbsolute (p : Path) : Bool :=
  p.text.toList.head? == some '/'

/-- Segments that stand for no part unless they begin a path. -/
def isIdle (segment : String) : Bool :=
  segment == "" || segment == "."

/-- The part of a segment that does not begin a path. -/
def partOf? (segment : String) : Option Part :=
  if isIdle segment then none
  else if segment = ".." then some .up
  else some (.name segment)

/-- What the path means. -/
def parts (p : Path) : List Part :=
  match p.segments with
  | first :: more =>
    if p.isAbsolute then .root :: more.filterMap partOf?
    else if first = "." then .here :: more.filterMap partOf?
    else (first :: more).filterMap partOf?
  | [] => []

/-- Whether two paths have the same parts. -/
def same (p q : Path) : Bool :=
  p.parts == q.parts

/-- The plain way to write a list of parts. -/
def ofParts : List Part → Path
  | .root :: more => ⟨String.ofList ('/' :: ['/'].intercalate (more.map (·.text.toList)))⟩
  | parts => ⟨String.ofList (['/'].intercalate (parts.map (·.text.toList)))⟩

/-! ### Going down -/

/-- `name` seen from the directory `p`; an absolute name stands alone. -/
def join (p : Path) (name : String) : Path :=
  if name.toList.head? == some '/' then ⟨name⟩
  else if p.text = "" || p.text.toList.getLast? == some '/' then ⟨p.text ++ name⟩
  else ⟨p.text ++ "/" ++ name⟩

/-! ### Going up -/

/-- The segments that belong to the beginning of the path rather than to its
body: the empty one of an absolute path, or a leading `.`. -/
def headLength (p : Path) : Nat :=
  if p.isAbsolute || p.segments.head? == some "." then 1 else 0

/-- The body without idle segments at its end. -/
def trimIdle (segments : List String) : List String :=
  (segments.reverse.dropWhile isIdle).reverse

/-- The segments after the beginning, up to the last that is a part. -/
def body (p : Path) : List String :=
  trimIdle (p.segments.drop p.headLength)

/-- The beginning of `p` followed by another body. -/
def withBody (p : Path) (body : List String) : Path :=
  if p.isAbsolute && body.isEmpty then ⟨"/"⟩
  else ⟨String.ofList (['/'].intercalate
    ((p.segments.take p.headLength ++ body).map String.toList))⟩

/-- The path without its last part; the root and the empty path have none. -/
def parent? (p : Path) : Option Path :=
  if p.body.isEmpty then
    if p.isAbsolute || p.headLength = 0 then none else some ⟨""⟩
  else some (p.withBody (trimIdle p.body.dropLast))

/-- The directory a file is in; `/` for a path that has no parent. -/
def directory (p : Path) : Path :=
  p.parent?.getD ⟨"/"⟩

/-- `p` and everything above it, at most `fuel` steps up. -/
def ancestorsUpTo : Nat → Path → List Path
  | 0, p => [p]
  | fuel + 1, p => p :: match p.parent? with
    | some parent => ancestorsUpTo fuel parent
    | none => []

/-- `p`, its parent, the parent of that, and so on.  A path has no more
parents than segments. -/
def ancestors (p : Path) : List Path :=
  ancestorsUpTo p.segments.length p

/-! ### Names -/

/-- The last part, if it is a name. -/
def fileName? (p : Path) : Option String :=
  match p.parts.getLast? with
  | some (.name text) => some text
  | _ => none

/-- A file name cut at its last dot; a dot at the very beginning does not
count. -/
def splitExtension (name : String) : String × Option String :=
  match cutAt (· == '.') name.toList.reverse with
  | some (after, before) =>
    if before.isEmpty then (name, none)
    else (String.ofList before.reverse, some (String.ofList after.reverse))
  | none => (name, none)

/-- What follows the last dot of the file name. -/
def extension? (p : Path) : Option String := do
  (splitExtension (← p.fileName?)).2

/-- The path with another extension, none when `extension` is empty.  There
is no such path when the extension holds a slash. -/
def withExtension? (p : Path) (extension : String) : Option Path :=
  if extension.toList.contains '/' then none
  else match p.fileName? with
    | none => some p
    | some name =>
      let stem := (splitExtension name).1
      let renamed := if extension = "" then stem else stem ++ "." ++ extension
      some (p.withBody (p.body.dropLast ++ [renamed]))

/-! ### One path inside another -/

/-- Whether `p` is `base` or lies below it. -/
def startsWith (p base : Path) : Bool :=
  base.parts.isPrefixOf p.parts

/-- How many parts `p` lies below `base`. -/
def depthBelow? (p base : Path) : Option Nat :=
  if p.startsWith base then some (p.parts.length - base.parts.length) else none

end Path

end LatexIndex
