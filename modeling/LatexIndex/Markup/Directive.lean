/-
LatexIndex/Markup/Directive.lean

Directives on one line.

A directive is a backslash directly followed by ASCII letters, at most one
`*`, any number of blanks and `[...]` option groups, and an argument in
braces.  An option group ends at the first `]`.  The argument ends at the
brace that brings the depth back to zero, a backslash taking the character
after it along.  Nothing may run past the end of the line: an option group
that does leaves the directive without an argument, and an argument that
does leaves it open.

Every backslash followed by a letter starts a directive, also inside the
argument of another one.  Positions are counted in characters from the start
of the line.
-/
import LatexIndex.Text.Blank
import LatexIndex.Text.Width

namespace LatexIndex.Markup

open Text

/-- What follows a command. -/
inductive Argument where
  /-- No brace where an argument would start. -/
  | absent
  /-- A brace that is never closed; `start` is the position after it. -/
  | unclosed (start : Nat)
  /-- The text between the braces, starting at `start`. -/
  | closed (start : Nat) (text : List Char)
  deriving DecidableEq, Repr

/-- One command on a line with what follows it. -/
structure Directive where
  /-- Position of the backslash. -/
  start : Nat
  /-- The letters, and the `*` if there is one. -/
  command : String
  argument : Argument
  deriving DecidableEq, Repr

namespace Argument

/-- Position after the opening brace. -/
def start? : Argument → Option Nat
  | absent => none
  | unclosed start => some start
  | closed start _ => some start

/-- Position of the closing brace. -/
def stop? : Argument → Option Nat
  | closed start text => some (start + text.length)
  | _ => none

/-- The text between the braces. -/
def text? : Argument → Option (List Char)
  | closed _ text => some text
  | _ => none

end Argument

/-! ### Reading one directive -/

/-- ASCII letters. -/
def isLetter (c : Char) : Bool :=
  ('a' ≤ c && c ≤ 'z') || ('A' ≤ c && c ≤ 'Z')

/-- Splits off the command that a backslash before `text` would start. -/
def takeCommand (text : List Char) : List Char × List Char :=
  match text.dropWhile isLetter with
  | '*' :: rest => (text.takeWhile isLetter ++ ['*'], rest)
  | rest => (text.takeWhile isLetter, rest)

/-- What is left after blanks and option groups, `none` when a group is not
closed.  `inside` says that the text starts within a group. -/
def afterOptions (inside : Bool) : List Char → Option (List Char)
  | [] => if inside then none else some []
  | c :: rest =>
    if inside then afterOptions (c != ']') rest
    else if isAsciiBlank c then afterOptions false rest
    else if c == '[' then afterOptions true rest
    else some (c :: rest)

/-- The text before the brace that closes the argument, when `depth` further
braces are open inside it. -/
def braceBody (depth : Nat) : List Char → Option (List Char)
  | [] => none
  | '\\' :: c :: rest => (braceBody depth rest).map ('\\' :: c :: ·)
  | '{' :: rest => (braceBody (depth + 1) rest).map ('{' :: ·)
  | '}' :: rest => match depth with
    | 0 => some []
    | depth + 1 => (braceBody depth rest).map ('}' :: ·)
  | c :: rest => (braceBody depth rest).map (c :: ·)

/-- The argument that starts somewhere in `text`, the position of `text`
being `pos`. -/
def readArgument (pos : Nat) (text : List Char) : Argument :=
  match afterOptions false text with
  | some ('{' :: rest) =>
    let start := pos + (text.length - rest.length)
    match braceBody 0 rest with
    | some body => .closed start body
    | none => .unclosed start
  | _ => .absent

/-- The directive whose backslash, at position `pos`, stands directly before
`text`. -/
def directiveAt? (pos : Nat) (text : List Char) : Option Directive :=
  match text with
  | c :: _ =>
    if isLetter c then
      let (command, rest) := takeCommand text
      some {
        start := pos
        command := String.ofList command
        argument := readArgument (pos + 1 + command.length) rest }
    else none
  | [] => none

/-! ### Reading a line -/

/-- The directives of a text whose position is `pos`. -/
def directivesFrom (pos : Nat) : List Char → List Directive
  | [] => []
  | c :: rest =>
    let here := if c == '\\' then (directiveAt? pos rest).toList else []
    here ++ directivesFrom (pos + 1) rest

/-- Every directive of a line, left to right. -/
def directives (line : List Char) : List Directive :=
  directivesFrom 0 line

namespace Directive

/-- The command without its `*`. -/
def name (d : Directive) : String :=
  String.ofList (d.command.toList.takeWhile isLetter)

/-- Whether the argument is there and closed. -/
def isTerminated (d : Directive) : Bool :=
  d.argument.stop?.isSome

end Directive

end LatexIndex.Markup
