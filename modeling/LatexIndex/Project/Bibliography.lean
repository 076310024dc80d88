/-
LatexIndex/Project/Bibliography.lean

The bibliographies of a project.

A bibliography named by a document is looked for in the master's directory,
in the document's own and then in the search paths of the settings.  Each
file is read once, in the order of first mention; what does not resolve or
cannot be read is warned about.  The items a document defines itself count
as a source of their own, after all files.
-/
import LatexIndex.Bib.Index
import LatexIndex.Project.Graph
import LatexIndex.Settings

namespace LatexIndex

open Markup

/-- A bibliography as a document names it. -/
structure Mention where
  document : Path
  occurrence : Occurrence
  deriving DecidableEq, Repr

/-- The bibliographies named in a graph, in order. -/
def Graph.mentions (g : Graph) : List Mention :=
  g.documents.flatMap fun d => d.scan.bibliographies.map (⟨d.path, ·⟩)

/-- The warning about a bibliography that is nowhere to be found. -/
def Mention.warning (m : Mention) : Warning :=
  ⟨.unreadable, m.document, some m.occurrence.line,
    s!"bibliography `{m.occurrence.key}` not found"⟩

namespace Sources

/-- The search paths of the settings, seen from the master's directory. -/
def searchPaths (sources : Sources) (settings : Settings) (masterDirectory : Path) : List Path :=
  settings.bibSearchPaths.map fun path =>
    (masterDirectory.join (sources.disk.expandHome path)).normalize

/-- The file a mention stands for. -/
def bibliography? (sources : Sources) (settings : Settings) (masterDirectory : Path)
    (m : Mention) : Option Path :=
  sources.resolve? m.occurrence.key
    (masterDirectory :: m.document.directory :: sources.searchPaths settings masterDirectory) ".bib"

/-- The bibliography files of a graph, each once in the order of first
mention. -/
def bibliographies (sources : Sources) (settings : Settings) (masterDirectory : Path)
    (g : Graph) : List Path :=
  Listing.distinct Path.same
    (g.mentions.filterMap (sources.bibliography? settings masterDirectory))

/-- The warnings about mentions that do not resolve. -/
def bibliographyWarnings (sources : Sources) (settings : Settings) (masterDirectory : Path)
    (g : Graph) : List Warning :=
  (g.mentions.filter fun m =>
    (sources.bibliography? settings masterDirectory m).isNone).map Mention.warning

/-- The entries of a bibliography file and the warnings about it. -/
def readBibliography (sources : Sources) (path : Path) :
    Except Failure (List Bib.Entry × List Warning) :=
  match sources.read path with
  | .ok (text, _) => .ok (Bib.read text path)
  | .error reason => .error (.unreadable path reason)

end Sources

/-- The items a document defines, keys seen before left out, with a warning
for each of those. -/
def bibitemsFrom (path : Path) (seen : List String) :
    List Occurrence → List Bib.Entry × List Warning
  | [] => ([], [])
  | item :: more =>
    if item.key ∈ seen then
      let (entries, warnings) := bibitemsFrom path seen more
      (entries, ⟨.duplicateBibKey, path, some item.line,
        s!"duplicate \\bibitem `{item.key}`"⟩ :: warnings)
    else
      let (entries, warnings) := bibitemsFrom path (item.key :: seen) more
      (⟨item.key, "bibitem", path, item.line, none, none⟩ :: entries, warnings)

/-- The items a document defines as a source of entries, with the warnings
about them; a document without items is no source. -/
def Document.bibitems? (d : Document) : Option (Bib.File × List Warning) :=
  if d.scan.bibitems.isEmpty then none
  else
    let (entries, warnings) := bibitemsFrom d.path [] d.scan.bibitems
    some (⟨d.path, entries⟩, warnings)

end LatexIndex
