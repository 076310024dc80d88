/-
LatexIndex/Project/Labels.lean

The labels of a project.  Of several definitions of one key the first counts,
documents in the order in which they were reached and each from its top; the
later ones are warned about.
-/
import LatexIndex.Catalog
import LatexIndex.Project.Graph

namespace LatexIndex

/-- Where a label is defined. -/
structure Label where
  key : String
  location : Location
  deriving DecidableEq, Repr

/-- The definitions that count, in order and by their keys. -/
structure LabelIndex where
  catalog : Catalog Label.key
  deriving DecidableEq, Repr

/-- The label definitions of a document. -/
def Document.labels (d : Document) : List Label :=
  d.scan.labels.map fun label => ⟨label.key, ⟨d.path, label.line⟩⟩

/-- All label definitions of the documents of a graph. -/
def Graph.labels (g : Graph) : List Label :=
  g.documents.flatMap Document.labels

namespace LabelIndex

/-- The definitions that count, in order. -/
def labels (index : LabelIndex) : List Label :=
  index.catalog.items

/-- The definition of a key. -/
def lookup? (index : LabelIndex) (key : String) : Option Label :=
  index.catalog.find? key

/-- The warning about a further definition of a key. -/
def duplicateWarning (label first : Label) : Warning :=
  ⟨.duplicateLabel, label.location.path, some label.location.line,
    s!"duplicate label `{label.key}`, first defined in " ++
      s!"{first.location.path.text}:{first.location.line + 1}"⟩

/-- Adds definitions one after another; a key that is known gives a warning
instead. -/
def extend (index : LabelIndex) : List Label → LabelIndex × List Warning
  | [] => (index, [])
  | label :: more =>
    match index.lookup? label.key with
    | some first =>
      let (index, warnings) := index.extend more
      (index, duplicateWarning label first :: warnings)
    | none => extend ⟨index.catalog.push label⟩ more

/-- The labels of a graph, and the warnings about them. -/
def ofGraph (g : Graph) : LabelIndex × List Warning :=
  extend ⟨.empty⟩ g.labels

end LabelIndex

end LatexIndex
