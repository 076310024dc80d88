/-
LatexIndex/Path/Order.lean

The order of paths: part by part, the root before `.` before `..` before
names, names by their bytes.  For UTF-8 that is the order of the characters,
so `a/m.tex` comes before `a b.tex`, `a-b/m.tex` and `a.tex`.
-/
import LatexIndex.Listing
import LatexIndex.Path.Basic

namespace LatexIndex

/-- Whether one part comes before another. -/
def Part.lt : Part → Part → Bool
  | .root, .root => false
  | .root, _ => true
  | .here, .root => false
  | .here, .here => false
  | .here, _ => true
  | .up, .name _ => true
  | .up, _ => false
  | .name a, .name b => a < b
  | .name _, _ => false

/-- Whether one list of parts comes before another or equals it. -/
def Part.listLe : List Part → List Part → Bool
  | [], _ => true
  | _ :: _, [] => false
  | a :: as, b :: bs => if a = b then Part.listLe as bs else a.lt b

namespace Path

/-- Whether `p` comes before `q` or is the same path. -/
def le (p q : Path) : Bool :=
  Part.listLe p.parts q.parts

/-- The first of the smallest paths of a list. -/
def minimum? : List Path → Option Path
  | [] => none
  | p :: more => match minimum? more with
    | none => some p
    | some q => some (if p.le q then p else q)

/-- The paths in order, each once; of paths that are the same the first
stays. -/
def sorted (paths : List Path) : List Path :=
  Listing.dropRepeats same (paths.mergeSort le)

end Path

end LatexIndex
