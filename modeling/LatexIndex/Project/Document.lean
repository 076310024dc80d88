/-
LatexIndex/Project/Document.lean

A document of a project: a file or buffer that was read and scanned.
-/
import LatexIndex.Files.Sources
import LatexIndex.Markup.Scan
import LatexIndex.Problem

namespace LatexIndex

open Markup

/-- A scanned document. -/
structure Document where
  path : Path
  /-- The revision of the buffer it was read from, none for a file. -/
  revision : Option Int
  scan : Scan
  deriving DecidableEq, Repr

/-- Reads and scans the document at a path. -/
def Sources.load (sources : Sources) (path : Path) : Except Failure Document :=
  match sources.read path with
  | .ok (text, revision) => .ok ⟨path, revision, scan text⟩
  | .error reason => .error (.unreadable path reason)

end LatexIndex
