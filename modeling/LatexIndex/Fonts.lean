/-
LatexIndex/Fonts.lean

The font families of a machine, read off the listing of its font service:
one font a line, its names before the first colon divided by commas.
-/
import LatexIndex.Listing
import LatexIndex.Text.Blank
import LatexIndex.Text.Lines

namespace LatexIndex.Fonts

open Text

/-- The first name on a line of the listing. -/
def family (line : List Char) : String :=
  String.ofList (trim (line.takeWhile fun c => !(c == ':' || c == ',')))

/-- The first name of each line, in order and each once. -/
def families (listing : String) : List String :=
  let named := ((sourceLines listing.toList).map family).filter (· ≠ "")
  Listing.dropRepeats (· == ·) (named.mergeSort fun a b => !(b < a))

end LatexIndex.Fonts
