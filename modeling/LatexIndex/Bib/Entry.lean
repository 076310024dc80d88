/-
LatexIndex/Bib/Entry.lean

The entries of a bibliography file.

Blocks of the types `string`, `preamble` and `comment` are no entries.  Of
any other block the key is what stands before its first comma, trimmed.  An
entry needs a key, and of several entries with one key the first counts;
the others, like blocks that are never closed, are warned about.
-/
import LatexIndex.Bib.Block
import LatexIndex.Bib.Field
import LatexIndex.Problem

namespace LatexIndex.Bib

open Text

/-- One entry of a bibliography. -/
structure Entry where
  key : String
  /-- The type in lower case, `bibitem` for an item written in a document. -/
  entryType : String
  path : Path
  line : Nat
  title : Option String
  author : Option String
  deriving DecidableEq, Repr

/-- What is wrong with a block. -/
inductive Fault where
  | unbalanced (entryType : String)
  | keyless (entryType : String)
  | duplicate (key : String)
  deriving DecidableEq, Repr

namespace Fault

/-- The kind of warning a fault is told as. -/
def kind : Fault → WarningKind
  | duplicate _ => .duplicateBibKey
  | _ => .malformedInput

/-- The wording of a fault. -/
def message : Fault → String
  | unbalanced entryType => s!"unbalanced braces in @{entryType} entry"
  | keyless entryType => s!"@{entryType} entry without a key"
  | duplicate key => s!"duplicate bibliography key `{key}`"

/-- The fault as a warning. -/
def warning (path : Path) (line : Nat) (fault : Fault) : Warning :=
  ⟨fault.kind, path, some line, fault.message⟩

end Fault

/-- Types of blocks that carry no key. -/
def isKeylessType (entryType : String) : Bool :=
  entryType ∈ ["string", "preamble", "comment"]

/-- The key of a body, and the fields after it. -/
def splitKey (body : List Char) : String × List Char :=
  match cutAt (· == ',') body with
  | some (key, fields) => (String.ofList (trim key), fields)
  | none => (String.ofList (trim body), [])

/-- The entry of a body with a key. -/
def entryOf (path : Path) (line : Nat) (entryType key : String) (fieldText : List Char) :
    Entry :=
  let found := fields fieldText
  { key, entryType, path, line
    title := lastValue? "title" found
    author := lastValue? "author" found }

/-- What a block comes to, when the keys in `seen` have been used. -/
def Block.read (path : Path) (seen : List String) (block : Block) :
    Option (Except Fault Entry) :=
  match block.content with
  | .unbalanced => some (.error (.unbalanced block.entryType))
  | .body text =>
    if isKeylessType block.entryType then none
    else
      let (key, fieldText) := splitKey text
      if key = "" then some (.error (.keyless block.entryType))
      else if key ∈ seen then some (.error (.duplicate key))
      else some (.ok (entryOf path block.line block.entryType key fieldText))

/-- The entries of a run of blocks and the warnings about it, when the keys
in `seen` have been used. -/
def entriesFrom (path : Path) (seen : List String) : List Block → List Entry × List Warning
  | [] => ([], [])
  | block :: more =>
    match block.read path seen with
    | none => entriesFrom path seen more
    | some (.ok entry) =>
      let (entries, warnings) := entriesFrom path (entry.key :: seen) more
      (entry :: entries, warnings)
    | some (.error fault) =>
      let (entries, warnings) := entriesFrom path seen more
      (entries, fault.warning path block.line :: warnings)

/-- The entries of a bibliography text, and the warnings about it.  The path
is only recorded. -/
def read (text : String) (path : Path) : List Entry × List Warning :=
  entriesFrom path [] (blocks text.toList)

end LatexIndex.Bib
