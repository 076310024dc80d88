/-
LatexIndex/Project/Master.lean

Finding the master of the project a document belongs to.

In order: the master the settings name; the document itself if it declares a
document class; the master that a modeline near either end of the document
names; and otherwise the last document met by *climbing*, from a document to
one that includes it.

Each step of a climb looks at the documents below a search root, which is a
number of directories above the current document: as many as the settings
say, or as many as it takes to get to a directory that directly holds a
document with a document class, if that is more.  Of several documents that
include the current one the smallest path counts.  The climb ends at a
document with a document class, at one that nothing includes, or, when it
comes back to a document it has passed, at the smallest path of that cycle.

A document that was read once is kept for the rest of the climb.
-/
import LatexIndex.Path.Order
import LatexIndex.Project.Explore
import LatexIndex.Settings

namespace LatexIndex

open Markup

namespace Sources

/-! ### Candidates -/

/-- Whether a path has the extension `tex`. -/
def isTex (path : Path) : Bool :=
  path.extension? == some "tex"

/-- The documents at most `depth` levels below a directory, files and
buffers, smallest path first. -/
def candidates (sources : Sources) (root : Path) (depth : Nat) : List Path :=
  let onDisk := ((sources.disk.filesUnder root depth).filter isTex).map Path.normalize
  let buffered := (sources.buffers.map (·.1)).filter fun path =>
    isTex path && match path.depthBelow? root with
      | some below => below ≤ depth
      | none => false
  Path.sorted (onDisk ++ buffered)

/-- Whether the document at a path can be read and declares a document
class. -/
def declaresRoot (sources : Sources) (path : Path) : Bool :=
  match sources.load path with
  | .ok document => document.scan.declaresRoot
  | .error _ => false

/-- Whether a directory directly holds a document with a document class. -/
def holdsRoot (sources : Sources) (directory : Path) : Bool :=
  (sources.candidates directory 1).any sources.declaresRoot

/-- The directories an inclusion of a document may be seen from while its
master is not known: its own and those above it, up to `root`. -/
def climbBases (candidate root : Path) : List Path :=
  candidate.directory.ancestors.takeWhile (·.startsWith root)

/-- Whether one of a document's inclusions names `target`. -/
def includesPath (sources : Sources) (candidate : Document) (target root : Path) : Bool :=
  candidate.scan.inclusions.any fun inclusion =>
    match sources.resolve? inclusion.target (climbBases candidate.path root) ".tex" with
    | some resolved => resolved.same target
    | none => false

/-! ### Climbing -/

/-- How many directories, the document's own included, may hold the top of
its project. -/
def rootSearchLimit : Nat := 8

/-- How far up among the `above` directories above a document its includer is
looked for, if the first of them that holds a document with a document class
is number `withRoot`. -/
def searchLevel (settings : Settings) (above : Nat) (withRoot : Option Nat) : Nat :=
  let configured := min settings.masterSearchDepth (above - 1)
  match withRoot with
  | some withRoot => max withRoot configured
  | none => configured

/-- The directory that a document's includer is looked for below, and how
many levels above the document it is. -/
def searchRoot? (sources : Sources) (settings : Settings) (current : Path) :
    Option (Path × Nat) :=
  let ancestors := current.directory.ancestors.take rootSearchLimit
  let level := searchLevel settings ancestors.length (ancestors.findIdx? sources.holdsRoot)
  ancestors[level]?.map (·, level)

/-- The document at a path, among those that were read. -/
def loadedAt? (loaded : List Document) (path : Path) : Option Document :=
  loaded.find? (·.path.same path)

/-- Reads the documents at those paths that were not read yet, as far as they
can be read. -/
def loadMissing (sources : Sources) (paths : List Path) (loaded : List Document) :
    List Document :=
  let missing := paths.filter fun path => (loadedAt? loaded path).isNone
  loaded ++ missing.filterMap fun path => (sources.load path).toOption

/-- Whether a directory directly holds a document with a document class, and
what has been read then. -/
def seekRoot (sources : Sources) (directory : Path) (loaded : List Document) :
    Bool × List Document :=
  let paths := sources.candidates directory 1
  let loaded := sources.loadMissing paths loaded
  (paths.any fun path => (loadedAt? loaded path).any (·.scan.declaresRoot), loaded)

/-- Which of some directories is the first that holds one. -/
def seekRootLevel (sources : Sources) : List Path → List Document → Option Nat × List Document
  | [], loaded => (none, loaded)
  | directory :: above, loaded =>
    match sources.seekRoot directory loaded with
    | (true, loaded) => (some 0, loaded)
    | (false, loaded) =>
      let (level, loaded) := seekRootLevel sources above loaded
      (level.map (· + 1), loaded)

/-- The smallest document at most `depth` levels below a directory that
includes the current one. -/
def seekIncluder (sources : Sources) (current root : Path) (depth : Nat)
    (loaded : List Document) : Option Path × List Document :=
  let paths := sources.candidates root depth
  let loaded := sources.loadMissing paths loaded
  let includes := fun candidate => !candidate.same current &&
    (loadedAt? loaded candidate).any (sources.includesPath · current root)
  (paths.find? includes, loaded)

/-- The document that a climb goes to from the current one. -/
def seekContainer (sources : Sources) (settings : Settings) (current : Path)
    (loaded : List Document) : Option Path × List Document :=
  let ancestors := current.directory.ancestors.take rootSearchLimit
  let (withRoot, loaded) := sources.seekRootLevel ancestors loaded
  let level := searchLevel settings ancestors.length withRoot
  match ancestors[level]? with
  | some root => sources.seekIncluder current root (level + 3) loaded
  | none => (none, loaded)

/-- The documents of `chain`, newest first, from the newest back to the one
at `path`. -/
def cycleTo (path : Path) : List Path → List Path
  | [] => []
  | p :: older => if p.same path then [p] else p :: cycleTo path older

/-- Climbs at most `fuel` steps from the current document; `passed` are those
before it, newest first. -/
def climbFrom (sources : Sources) (settings : Settings) :
    Nat → Path → List Path → List Document → Path
  | 0, current, _, _ => current
  | fuel + 1, current, passed, loaded =>
    match sources.seekContainer settings current loaded with
    | (none, _) => current
    | (some container, loaded) =>
      let chain := current :: passed
      if chain.any (·.same container) then
        (Path.minimum? (cycleTo container chain)).getD current
      else if (loadedAt? loaded container).any (·.scan.declaresRoot) then container
      else climbFrom sources settings fuel container chain loaded

/-- Where a climb from a document ends.  It passes no document twice, so it
takes no more steps than there are paths to documents. -/
def climb (sources : Sources) (settings : Settings) (start : Path) : Path :=
  sources.climbFrom settings (sources.knownPaths.length + 1) start [] []

/-! ### The master -/

/-- The master named by the first modeline among the first and last `lines`
lines. -/
def modelineMaster? (scan : Scan) (lines : Nat) : Option String :=
  (scan.modelines.find? fun modeline =>
    modeline.line < lines || scan.lineCount - lines ≤ modeline.line).map (·.key)

/-- The path, if there is something to read there. -/
def require (sources : Sources) (path : Path) (otherwise : String) : Except Failure Path :=
  if sources.has path then .ok path else .error (.notFound otherwise)

/-- The master of the project that `start` belongs to. -/
def master (sources : Sources) (settings : Settings) (start : Path) : Except Failure Path :=
  match settings.master with
  | some name =>
    let path := (start.directory.join name).normalize
    sources.require path s!"configured master `{path.text}`"
  | none =>
    match sources.load start with
    | .error failure => .error (.notFound s!"master of {start.text}: {failure.message}")
    | .ok document =>
      if document.scan.declaresRoot then .ok start
      else match modelineMaster? document.scan settings.modelineLines with
        | some name =>
          sources.require (start.directory.join name).normalize s!"mainfile `{name}`"
        | none => .ok (sources.climb settings start)

end Sources

end LatexIndex
