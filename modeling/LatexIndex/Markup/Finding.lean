/-
LatexIndex/Markup/Finding.lean

What one line of a document contributes to the index.

A line is read in one of two modes.  In *markup* mode its comment is cut off
and each of its directives contributes what its role says.  In *verbatim*
mode, between the lines that open and close an environment whose body is not
markup, only the closing delimiter is looked for.  A verbatim environment
ends the reading of the line it opens on and of the line it closes on.

`lineFindings` says what a line contributes and in which mode the next line
is read; it knows neither the line's number nor the environments that are
open around it.
-/
import LatexIndex.Markup.Command
import LatexIndex.Markup.Comment
import LatexIndex.Markup.Directive

namespace LatexIndex.Markup

open Text

/-- One thing found on a line. -/
inductive Finding where
  /-- A comment that names the master of the project. -/
  | modeline (target : String)
  /-- A file to pull in, as written. -/
  | inclusion (kind : IncludeKind) (target : String)
  | label (key : String)
  | bibitem (key : String)
  /-- A document class is declared. -/
  | documentClass
  /-- A bibliography file, as written. -/
  | bibliography (name : String)
  | reference (key : String)
  | citation (key : String)
  /-- An environment begins at a byte column. -/
  | opening (name : String) (column : Nat)
  /-- An environment ends at a byte column. -/
  | closing (name : String) (column : Nat)
  /-- The argument of a command runs off the line. -/
  | unterminated (command : String)
  deriving DecidableEq, Repr

/-- How a line is read. -/
inductive Mode where
  | markup
  /-- Inside the verbatim-like environment of this name. -/
  | verbatim (environment : String)
  deriving DecidableEq, Repr

/-! ### Modelines -/

/-- The rest of a text after blanks and then `word`. -/
def afterWord? (word : List Char) (text : List Char) : Option (List Char) :=
  let text := trimStart text
  if word.isPrefixOf text then some (text.drop word.length) else none

/-- The file named by a line of the form `% mainfile: name`.  The name ends
at the first blank. -/
def modeline? (line : List Char) : Option String := do
  let rest ← afterWord? ['%'] line
  let rest ← afterWord? "mainfile:".toList rest
  let target := (trimStart rest).takeWhile (!isBlank ·)
  if target.isEmpty then none else some (String.ofList target)

/-! ### Directives -/

/-- The delimiter that ends a verbatim-like environment. -/
def closingDelimiter (environment : String) : List Char :=
  "\\end\x7b".toList ++ environment.toList ++ "\x7d".toList

/-- What a directive of the given role with a closed argument contributes;
`column` is the byte column of its backslash. -/
def Role.findings (column : Nat) (argument : List Char) : Role → List Finding
  | .inclusion kind =>
    let target := String.ofList (trim argument)
    if target = "" then [] else [.inclusion kind target]
  | .label => ((splitKeys argument).take 1).map .label
  | .bibitem => ((splitKeys argument).take 1).map .bibitem
  | .documentClass => [.documentClass]
  | .bibliography => (splitKeys argument).map .bibliography
  | .reference => (splitKeys argument).map .reference
  | .citation => (splitKeys argument).map .citation
  | .opening => [.opening (String.ofList (trim argument)) column]
  | .closing => [.closing (String.ofList (trim argument)) column]

/-- What a directive of `line` contributes. -/
def Directive.findings (line : List Char) (d : Directive) : List Finding :=
  match d.argument with
  | .absent => []
  | .unclosed _ => [.unterminated d.command]
  | .closed _ argument =>
    match Role.ofName? d.name with
    | some role => role.findings (byteColumn line d.start) argument
    | none => []

/-- The verbatim-like environment that a directive begins, with the position
of the brace that closes its argument. -/
def Directive.opensVerbatim? (d : Directive) : Option (String × Nat) :=
  match d.argument with
  | .closed start argument =>
    let environment := String.ofList (trim argument)
    if d.name = "begin" && isVerbatim environment then
      some (environment, start + argument.length)
    else none
  | _ => none

/-! ### Lines -/

/-- The position from `start` on where the delimiter of an environment
closes it. -/
def closingPosition? (environment : String) (start : Nat) (line : List Char) : Option Nat :=
  (find? (closingDelimiter environment) (line.drop start)).map (start + ·)

/-- What a run of directives of `line` contributes, up to the first that
begins a verbatim-like environment. -/
def directiveFindings (line : List Char) : List Directive → List Finding × Mode
  | [] => ([], .markup)
  | d :: more =>
    match d.opensVerbatim? with
    | some (environment, stop) =>
      let opening := d.findings line
      match closingPosition? environment stop line with
      | some pos => (opening ++ [.closing environment (byteColumn line pos)], .markup)
      | none => (opening, .verbatim environment)
    | none =>
      let (findings, mode) := directiveFindings line more
      (d.findings line ++ findings, mode)

/-- What a line read in a mode contributes apart from its modeline, and the
mode of the next line. -/
def bodyFindings (line : List Char) : Mode → List Finding × Mode
  | .markup => directiveFindings line (directives (stripComment line))
  | .verbatim environment =>
    match closingPosition? environment 0 line with
    | some pos => ([.closing environment (byteColumn line pos)], .markup)
    | none => ([], .verbatim environment)

/-- What a line contributes, and the mode of the next line.  Modelines are
seen in both modes. -/
def lineFindings (mode : Mode) (line : List Char) : List Finding × Mode :=
  let (findings, next) := bodyFindings line mode
  ((modeline? line).toList.map .modeline ++ findings, next)

end LatexIndex.Markup
