/-
LatexIndex/Completion/Complete.lean

Completing a word in a context, answered from one snapshot of the project.
-/
import LatexIndex.Completion.Citation
import LatexIndex.Completion.Files
import LatexIndex.Cursor.Context
import LatexIndex.Fonts

namespace LatexIndex.Completion

open Cursor

/-- What a completion is answered from. -/
structure Knowledge where
  disk : Disk
  /-- The listing of the machine's fonts. -/
  fontListing : String
  settings : Settings
  snapshot : Snapshot

/-- The labels of a project, each with the file it is in. -/
def labels (snapshot : Snapshot) : List Candidate :=
  snapshot.labels.labels.map fun label =>
    ⟨label.key, label.location.path.fileName?, .label, false⟩

/-- Every candidate in a context, in source order. -/
def candidates (known : Knowledge) : Context → List Candidate
  | .labelReference => labels known.snapshot
  | .citation => citations known.settings.bibInfoLength known.snapshot.bibs
  | .includePath => inclusions known.disk known.snapshot
  | .graphics => graphics known.disk known.settings.graphicsExtensions known.snapshot
  | .font => (Fonts.families known.fontListing).map (⟨·, none, .font, false⟩)

/-- The candidates for what was typed in a context. -/
def complete (known : Knowledge) (context : Context) (typed : String) : List Candidate :=
  upTo known.settings.completionLimit (offer typed (candidates known context))

end LatexIndex.Completion
