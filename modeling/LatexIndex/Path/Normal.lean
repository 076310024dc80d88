/-
LatexIndex/Path/Normal.lean

Removing `.` and `..` from a path by its text alone.

A `..` takes away the part before it.  Where there is none to take away, at
the beginning or directly after the root, it stays; a `..` that stayed is
taken away by the next one like any other part.
-/
import LatexIndex.Path.Basic

namespace LatexIndex.Path

/-- Adds a part to the normal parts read so far, last part first. -/
def normalStep (done : List Part) : Part → List Part
  | .here => done
  | .up => match done with
    | [] => [.up]
    | [.root] => [.up, .root]
    | _ :: before => before
  | part => part :: done

/-- The parts of a path without `.`, each `..` having taken away the part
before it. -/
def normalParts (parts : List Part) : List Part :=
  (parts.foldl normalStep []).reverse

/-- The path with `.` and `..` removed, plainly written. -/
def normalize (p : Path) : Path :=
  ofParts (normalParts p.parts)

end LatexIndex.Path
