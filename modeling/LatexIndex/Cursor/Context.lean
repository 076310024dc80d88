/-
LatexIndex/Cursor/Context.lean

What is being typed at the cursor.

Only the text left of the cursor counts.  If its last directive has an
argument that is still open there, the command says what can be completed,
and the word being typed starts after the last comma of the argument, or at
its beginning where the argument is a single name that may hold commas.
Nothing is completed inside a comment.
-/
import LatexIndex.Markup.Command
import LatexIndex.Markup.Comment
import LatexIndex.Markup.Directive

namespace LatexIndex.Cursor

open Text Markup

/-- What can be completed. -/
inductive Context where
  | labelReference
  | citation
  | includePath
  | graphics
  | font
  deriving DecidableEq, Repr

/-- A context with the word typed so far. -/
structure Typing where
  context : Context
  word : String
  /-- Position in the line where the word starts, in characters. -/
  start : Nat
  deriving DecidableEq, Repr

/-- Commands with `cite` or `Cite` in their name. -/
def citesKeys (name : String) : Bool :=
  contains "cite".toList name.toList || contains "Cite".toList name.toList

/-- Commands that choose a font. -/
def choosesFont (name : String) : Bool :=
  contains "font".toList name.toList || "setmath".toList.isPrefixOf name.toList

/-- What can be completed in the argument of a command. -/
def Context.ofName? (name : String) : Option Context :=
  if name = "includegraphics" then some .graphics
  else if name = "includeonly" then some .includePath
  else if (IncludeKind.ofName? name).isSome then some .includePath
  else if citesKeys name then some .citation
  else if isReference name then some .labelReference
  else if choosesFont name then some .font
  else none

/-- Whether the argument of a command is a list between commas. -/
def takesList (name : String) (context : Context) : Bool :=
  name = "includeonly" || context = .citation || context = .labelReference

/-- The text after the last comma. -/
def afterLastComma (text : List Char) : List Char :=
  (text.reverse.takeWhile (· != ',')).reverse

/-- What is being typed at the end of `before`, the text left of the
cursor. -/
def typingAfter? (before : List Char) : Option Typing := do
  if stripComment before ≠ before then none
  let directive ← (directives before).getLast?
  match directive.argument with
  | .unclosed start =>
    let context ← Context.ofName? directive.name
    let argument := before.drop start
    let word := trimStart
      (if takesList directive.name context then afterLastComma argument else argument)
    return ⟨context, String.ofList word, before.length - word.length⟩
  | _ => none

/-- What is being typed in a line at a position, or at its end when the
position lies beyond it. -/
def typingAt? (line : List Char) (position : Nat) : Option Typing :=
  typingAfter? (line.take position)

end LatexIndex.Cursor
