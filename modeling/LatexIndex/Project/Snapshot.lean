/-
LatexIndex/Project/Snapshot.lean

Everything known about a project at one moment.  A snapshot is built in one
go from what can be read and is never changed afterwards.
-/
import LatexIndex.Project.Bibliography
import LatexIndex.Project.Explore
import LatexIndex.Project.Labels

namespace LatexIndex

/-- The index of a project. -/
structure Snapshot where
  master : Path
  /-- None before the first build and when the master could not be read. -/
  graph : Option Graph
  labels : LabelIndex
  bibs : Bib.Index
  /-- The bibliography files that could be read; `bibs` also holds the items
  that documents define themselves. -/
  bibFiles : List Path
  warnings : List Warning
  deriving DecidableEq, Repr

/-- What a build used and what it complained about. -/
structure Report where
  master : Path
  bibFiles : List Path
  /-- Every document except the master. -/
  includeFiles : List Path
  warnings : List Warning
  deriving DecidableEq, Repr

namespace Snapshot

/-- The snapshot of a project that nothing is known about. -/
def empty (master : Path) : Snapshot :=
  ⟨master, none, ⟨.empty⟩, ⟨[]⟩, [], []⟩

/-- Whether there is a graph. -/
def isBuilt (s : Snapshot) : Bool :=
  s.graph.isSome

/-- The directory of the master. -/
def masterDirectory (s : Snapshot) : Path :=
  s.master.directory

/-- The documents, the master first. -/
def documents (s : Snapshot) : List Document :=
  (s.graph.map (·.documents)).getD []

/-- The documents except the master. -/
def includedDocuments (s : Snapshot) : List Document :=
  s.documents.drop 1

/-- Whether there is a document at a path. -/
def contains (s : Snapshot) (path : Path) : Bool :=
  s.documents.any (·.path.same path)

/-- How many documents were reached before the one at a path. -/
def index? (s : Snapshot) (path : Path) : Option Nat :=
  s.graph.bind (·.index? path)

/-- What is told about a snapshot. -/
def report (s : Snapshot) : Report :=
  ⟨s.master, s.bibFiles, s.includedDocuments.map (·.path), s.warnings⟩

end Snapshot

/-- The faults of a document as warnings. -/
def Document.warnings (d : Document) : List Warning :=
  d.scan.faults.map fun f => (Failure.malformed d.path f.line f.fault.message).toWarning

/-- A bibliography file that was read, or the warning that it could not be. -/
def Sources.bibSource (sources : Sources) (path : Path) :
    Except Warning (Bib.File × List Warning) :=
  match sources.readBibliography path with
  | .ok (entries, warnings) => .ok (⟨path, entries⟩, warnings)
  | .error failure => .error failure.toWarning

/-- The index of the project with this master and graph. -/
def Sources.snapshotOf (sources : Sources) (settings : Settings) (master : Path) (g : Graph) :
    Snapshot :=
  let (labels, labelWarnings) := LabelIndex.ofGraph g
  let directory := master.directory
  let files := (sources.bibliographies settings directory g).map sources.bibSource
  let items := g.documents.filterMap Document.bibitems?
  let read := files.filterMap fun | .ok (file, _) => some file | .error _ => none
  { master
    graph := some g
    labels
    bibs := ⟨read ++ items.map (·.1)⟩
    bibFiles := read.map (·.path)
    warnings := g.warnings ++ g.documents.flatMap Document.warnings ++ labelWarnings ++
      sources.bibliographyWarnings settings directory g ++
      (files.flatMap fun | .ok (_, warnings) => warnings | .error warning => [warning]) ++
      items.flatMap (·.2) }

/-- Indexes the project with this master.  An unreadable master gives an
empty snapshot with the warning about it. -/
def Sources.snapshot (sources : Sources) (settings : Settings) (master : Path) : Snapshot :=
  match sources.graph master with
  | .ok g => sources.snapshotOf settings master g
  | .error failure => { Snapshot.empty master with warnings := [failure.toWarning] }

end LatexIndex
