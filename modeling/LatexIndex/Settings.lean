/-
LatexIndex/Settings.lean

What a user can choose about a project.
-/

namespace LatexIndex

/-- When the index is rebuilt without being asked for. -/
inductive Policy where
  /-- Only for a query that finds nothing built yet. -/
  | onDemand
  /-- Also whenever a file of the project is saved. -/
  | onSave
  /-- Never. -/
  | never
  deriving DecidableEq, Repr

/-- The choices for a project. -/
structure Settings where
  /-- The master, seen from the directory of the file a session starts at. -/
  master : Option String := none
  reindex : Policy := .onSave
  /-- How long a burst of requests has to be quiet before it becomes one
  rebuild, in milliseconds. -/
  debounce : Nat := 300
  /-- How many lines at either end of a file may hold a modeline. -/
  modelineLines : Nat := 3
  /-- How many directories above a file a document that includes it is looked
  for. -/
  masterSearchDepth : Nat := 1
  /-- From which length on titles are cut; zero cuts none. -/
  bibInfoLength : Nat := 40
  /-- Further directories to look for bibliographies in. -/
  bibSearchPaths : List String := []
  graphicsExtensions : List String := ["pdf", "png", "jpg", "jpeg", "eps"]
  /-- The extension of what a compiler makes of the master. -/
  outputFormat : String := "pdf"
  /-- How many candidates are offered at most; zero sets no limit. -/
  completionLimit : Nat := 0
  deriving DecidableEq, Repr

end LatexIndex
