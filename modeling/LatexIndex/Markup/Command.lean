/-
LatexIndex/Markup/Command.lean

The commands the index knows, by what their argument means.
-/
import LatexIndex.Text.Blank
import LatexIndex.Text.Split

namespace LatexIndex.Markup

open Text

/-- How another file is pulled in. -/
inductive IncludeKind where
  | includeFile
  | inputFile
  | subfile
  deriving DecidableEq, Repr

/-- What the argument of a known command is. -/
inductive Role where
  /-- The name of a file to pull in. -/
  | inclusion (kind : IncludeKind)
  /-- The key of a label. -/
  | label
  /-- The key of an item of a hand-written bibliography. -/
  | bibitem
  /-- The class of the document, which only a master has. -/
  | documentClass
  /-- Names of bibliography files. -/
  | bibliography
  /-- Keys of labels. -/
  | reference
  /-- Keys of bibliography entries. -/
  | citation
  /-- The name of the environment that begins. -/
  | opening
  /-- The name of the environment that ends. -/
  | closing
  deriving DecidableEq, Repr

/-- The kind of inclusion a command stands for. -/
def IncludeKind.ofName? : String → Option IncludeKind
  | "include" => some .includeFile
  | "input" => some .inputFile
  | "subfile" => some .subfile
  | _ => none

/-- Commands whose argument names labels. -/
def isReference (name : String) : Bool :=
  name ∈ ["ref", "eqref", "pageref", "autoref", "cref", "Cref", "nameref", "vref"]

/-- Commands whose argument names bibliography files. -/
def isBibliography (name : String) : Bool :=
  name ∈ ["bibliography", "addbibresource"]

/-- Commands with `cite` in their name, in any mixture of cases. -/
def isCitation (name : String) : Bool :=
  contains "cite".toList (asciiLower name.toList)

/-- Environments whose body is not markup. -/
def isVerbatim (environment : String) : Bool :=
  environment ∈ ["verbatim", "verbatim*", "lstlisting", "minted", "comment"]

/-- The role of a command, given by its name without `*`. -/
def Role.ofName? (name : String) : Option Role :=
  match IncludeKind.ofName? name with
  | some kind => some (.inclusion kind)
  | none =>
    if name = "label" then some .label
    else if name = "bibitem" then some .bibitem
    else if name = "documentclass" then some .documentClass
    else if isBibliography name then some .bibliography
    else if isReference name then some .reference
    else if isCitation name then some .citation
    else if name = "begin" then some .opening
    else if name = "end" then some .closing
    else none

/-- The keys of a comma-separated argument: the parts that are not blank,
trimmed. -/
def splitKeys (argument : List Char) : List String :=
  ((argument.splitOn ',').map fun part => String.ofList (trim part)).filter (· ≠ "")

end LatexIndex.Markup
