/-
LatexIndex/CommandLine/Reach.lean

Which part of a machine's files a command looks at.

How far that is depends on what the files say, so it is found in rounds:
`wants` tells what to look at as far as the files at hand show it, and once a
round brings nothing new, the files at hand are all that matter.
-/
import LatexIndex.CommandLine.Run

namespace LatexIndex.CommandLine

/-- A file, or a directory with so many levels below it. -/
structure Want where
  path : Path
  depth : Nat
  deriving DecidableEq, Repr

/-- The directories that settings and masters are looked for in. -/
def wantsAbove (disk : Disk) (file : Path) : List Want :=
  let start := (disk.canonical? file).getD file.normalize
  ⟨file, 0⟩ :: ⟨file.directory, 1⟩ :: ⟨Path.join ⟨disk.home⟩ ".config/texseven", 1⟩ ::
    (start.directory.ancestors.take Sources.rootSearchLimit).map (⟨·, 1⟩)

/-- The directory that the includer of a document is looked for below. -/
def wantsAround (sources : Sources) (settings : Settings) (path : Path) : List Want :=
  ((sources.searchRoot? settings path).map fun (root, level) => ⟨root, level + 3⟩).toList

/-- The masters that the settings and a document's modelines name. -/
def wantsNamed (sources : Sources) (settings : Settings) (path : Path) : List Want :=
  let modelines := match sources.load path with
    | .ok document => document.scan.modelines.map (·.key)
    | .error _ => []
  (settings.master.toList ++ modelines).map fun name =>
    ⟨(path.directory.join name).normalize, 0⟩

/-- The files that the documents of a graph refer to. -/
def wantsOf (sources : Sources) (settings : Settings) (masterDirectory : Path) (g : Graph) :
    List Want :=
  let included := g.records.flatMap fun r =>
    Path.candidates r.inclusion.target [masterDirectory, r.source.directory] ".tex"
  let bibliographies := g.mentions.flatMap fun m =>
    Path.candidates m.occurrence.key (masterDirectory :: m.document.directory ::
      sources.searchPaths settings masterDirectory) ".bib"
  (included ++ bibliographies).map (⟨·, 0⟩)

/-- What a session looks at. -/
def wantsIn (disk : Disk) (session : Session) : List Want :=
  let sources : Sources := ⟨disk, session.buffers⟩
  let directory := session.master.directory
  ⟨directory, max Completion.includeSearchDepth Completion.graphicsSearchDepth⟩ ::
    wantsNamed sources session.settings session.start ++
    wantsAround sources session.settings session.start ++
    wantsAround sources session.settings session.master ++
    match sources.graph session.master with
    | .ok graph => wantsOf sources session.settings directory graph
    | .error _ => []

/-- What a command about a file looks at. -/
def wants (disk : Disk) (file : Path) : List Want :=
  wantsAbove disk file ++ match startSession disk file with
    | .ok session => wantsIn disk session
    | .error _ => []

/-- The file that a command is about. -/
def Command.file? : Command → Option Path
  | .serve => none
  | .reindex file _ => some file
  | .complete file _ _ => some file
  | .definition file _ _ => some file
  | .environment file _ _ => some file
  | .watch file => some file

end LatexIndex.CommandLine
