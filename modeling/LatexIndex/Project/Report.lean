/-
LatexIndex/Project/Report.lean

How a report is told: as lines of text, and as structured data.
-/
import LatexIndex.Data.Basic
import LatexIndex.Project.Snapshot

namespace LatexIndex

/-- A warning as data. -/
def Warning.data (w : Warning) : Data :=
  .table [
    ("kind", .text w.kind.name),
    ("path", .text w.path.text),
    ("line", .ofOption (w.line.map .ofNat)),
    ("message", .text w.message)]

namespace Report

/-- A heading with the number of items, and an indented line for each. -/
def listing (heading : String) (items : List String) : String :=
  s!"{heading}: {items.length}\n" ++ String.join (items.map fun item => s!"  {item}\n")

/-- The report as lines of text. -/
def render (r : Report) : String :=
  s!"master: {r.master.text}\n" ++
    listing "include files" (r.includeFiles.map (·.text)) ++
    listing "bibliographies" (r.bibFiles.map (·.text)) ++
    listing "warnings" (r.warnings.map (·.render))

/-- The report as data. -/
def data (r : Report) : Data :=
  let paths := fun (paths : List Path) => Data.list (paths.map fun p => .text p.text)
  .table [
    ("master", .text r.master.text),
    ("bib_files_used", paths r.bibFiles),
    ("include_files_used", paths r.includeFiles),
    ("warnings", .list (r.warnings.map Warning.data))]

end Report

end LatexIndex
