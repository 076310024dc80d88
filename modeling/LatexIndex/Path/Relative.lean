/-
LatexIndex/Path/Relative.lean

The way from a directory to a file, written relative to the directory.
-/
import LatexIndex.Path.Basic

namespace LatexIndex.Path

/-- The parts that lead from `base` to `path`, nothing they begin with in
common being left: up through all of `base`, then down through `path`. -/
def relativeParts : List Part → List Part → Option (List Part)
  | path, [] => some path
  | [], _ :: base => (relativeParts [] base).map (.up :: ·)
  | part :: path, .here :: base => (relativeParts path base).map (part :: ·)
  | _, .up :: _ => none
  | path, _ :: base => some (.up :: (base.map fun _ => .up) ++ path)

/-- Drops the parts that two lists begin with in common. -/
def dropCommon : List Part → List Part → List Part × List Part
  | a :: as, b :: bs => if a = b then dropCommon as bs else (a :: as, b :: bs)
  | as, bs => (as, bs)

/-- The parts of the way from `base` to `path`.  When only `path` is absolute
it is its own way; when only `base` is, or `base` goes up where `path` does
not, there is none. -/
def wayParts? (path base : Path) : Option (List Part) :=
  if path.isAbsolute then
    if base.isAbsolute then
      let (path, base) := dropCommon path.parts base.parts
      relativeParts path base
    else some path.parts
  else if base.isAbsolute then none
  else
    let (path, base) := dropCommon path.parts base.parts
    relativeParts path base

/-- How a part is shown in a way: the root as its slash. -/
def wayText : Part → String
  | .root => "/"
  | part => part.text

/-- The way from `base` to `path`, with slashes between its parts.  A `.` is
shown only where it begins the way. -/
def relativeTo? (path base : Path) : Option String :=
  (wayParts? path base).map fun parts =>
    let shown : List Part := match parts with
      | first :: more => first :: more.filter (· ≠ Part.here)
      | [] => []
    String.ofList (['/'].intercalate (shown.map (wayText · |>.toList)))

end LatexIndex.Path
