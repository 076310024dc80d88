/-
LatexIndex/Completion/Files.lean

Completing the names of files.  Names are relative to the master's
directory, because an inclusion is seen from there first.  Documents of the
project come first, in the order in which they were reached, and after them
the documents on disk that nothing includes yet.
-/
import LatexIndex.Completion.Candidate
import LatexIndex.Path.Relative
import LatexIndex.Project.Snapshot

namespace LatexIndex.Completion

open Text

/-- How many levels below the master's directory documents are looked for. -/
def includeSearchDepth : Nat := 4

/-- How many levels below the master's directory pictures are looked for. -/
def graphicsSearchDepth : Nat := 2

/-- Whether a path has one of the extensions, in any mixture of cases. -/
def hasExtension (extensions : List String) (path : Path) : Bool :=
  match path.extension? with
  | some extension => extensions.any fun wanted =>
      asciiLower wanted.toList == asciiLower extension.toList
  | none => false

/-- The name of a document without `.tex`. -/
def includeWord (name : String) : String :=
  match withoutEnding? ".tex".toList name.toList with
  | some stem => String.ofList stem
  | none => name

/-- The candidate for the document at a path. -/
def inclusion? (snapshot : Snapshot) (path : Path) : Option Candidate :=
  (path.relativeTo? snapshot.masterDirectory).map fun name =>
    ⟨includeWord name, if snapshot.contains path then some "included" else none, .includePath, false⟩

/-- The documents on disk that the project does not include. -/
def freeDocuments (disk : Disk) (snapshot : Snapshot) : List Path :=
  (disk.filesUnder snapshot.masterDirectory includeSearchDepth).filter fun path =>
    !path.same snapshot.master && hasExtension ["tex"] path && !snapshot.contains path

/-- The documents that can be included. -/
def inclusions (disk : Disk) (snapshot : Snapshot) : List Candidate :=
  (snapshot.includedDocuments.map (·.path) ++ freeDocuments disk snapshot).filterMap
    (inclusion? snapshot)

/-- The pictures below the master's directory. -/
def graphics (disk : Disk) (extensions : List String) (snapshot : Snapshot) : List Candidate :=
  ((disk.filesUnder snapshot.masterDirectory graphicsSearchDepth).filter
    (hasExtension extensions)).filterMap fun path =>
      (path.relativeTo? snapshot.masterDirectory).map (⟨·, none, .graphic, false⟩)

end LatexIndex.Completion
