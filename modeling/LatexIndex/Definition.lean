/-
LatexIndex/Definition.lean

Going to the definition of what the cursor points at.
-/
import LatexIndex.Cursor.Key
import LatexIndex.Project.Snapshot

namespace LatexIndex

open Cursor

namespace Snapshot

/-- Where a label is defined. -/
def labelLocation? (s : Snapshot) (key : String) : Option Location :=
  (s.labels.lookup? key).map (·.location)

/-- The file that an inclusion of the document at a path names: the one that
the graph found for it, and otherwise the one on disk. -/
def includedFile? (s : Snapshot) (disk : Disk) (source : Path) (name : String) : Option Path :=
  let edge := (s.graph.bind fun g =>
    (g.inclusionsOf source).find? (·.inclusion.target = name)).map (·.target)
  edge.or (Sources.resolve? ⟨disk, []⟩ name [s.masterDirectory, source.directory] ".tex")

/-- The definitions of a target that stands in the document at a path. -/
def definitions (s : Snapshot) (disk : Disk) (source : Path) : Target → List Location
  | .label key => (s.labelLocation? key).toList
  | .citation key => (s.bibs.resolve key []).locations
  | .inclusion name => (s.includedFile? disk source name).toList.map (⟨·, 0⟩)

/-- The definitions of what the cursor points at in a line of the document at
a path; none at all when it points at nothing. -/
def definitionsAt? (s : Snapshot) (disk : Disk) (source : Path) (line : List Char)
    (position : Nat) : Option (List Location) :=
  (targetAt? line position).map (s.definitions disk source)

end Snapshot

end LatexIndex
