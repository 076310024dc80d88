/-
LatexIndex/Bib/Block.lean

The blocks of a bibliography file.

A block is `@`, a type (ASCII letters, digits and `_`), perhaps blanks, and
a body in braces or in parentheses.  A backslash takes the character after
it along; braces nest, and the delimiter that ends the body counts only
where no brace is open.  Any other `@` is part of the free text between the
blocks.

A block whose body is never closed costs only itself: reading goes on at the
next line that begins, after spaces and tabs, with an `@`.

`blocksFrom` walks over the text one character at a time and passes over
what a block has already used up, so the line of a block is the number of
line feeds that were walked over before its `@`.
-/
import LatexIndex.Text.Blank
import LatexIndex.Text.Split

namespace LatexIndex.Bib

open Text

/-- What a block holds. -/
inductive Content where
  /-- The body is never closed. -/
  | unbalanced
  /-- The text between the delimiters. -/
  | body (text : List Char)
  deriving DecidableEq, Repr

/-- One block and where it stands. -/
structure Block where
  /-- The line of the `@`, counted from zero. -/
  line : Nat
  /-- The position of the `@` in the text. -/
  start : Nat
  /-- The type, in lower case. -/
  entryType : String
  content : Content
  deriving DecidableEq, Repr

/-! ### One block -/

/-- Characters of a block's type. -/
def isTypeChar (c : Char) : Bool :=
  c.isAlphanum || c == '_'

/-- The text before the delimiter that closes a body, when `depth` braces are
open inside it. -/
def closedBody? (closer : Char) (depth : Nat) : List Char → Option (List Char)
  | [] => none
  | '\\' :: c :: rest => (closedBody? closer depth rest).map ('\\' :: c :: ·)
  | c :: rest =>
    if c == '{' then (closedBody? closer (depth + 1) rest).map (c :: ·)
    else if c == '}' && depth > 0 then (closedBody? closer (depth - 1) rest).map (c :: ·)
    else if c == closer && depth == 0 then some []
    else (closedBody? closer depth rest).map (c :: ·)

/-- The delimiter that closes a body opened by the given character. -/
def closerOf? : Char → Option Char
  | '{' => some '}'
  | '(' => some ')'
  | _ => none

/-- What directly follows an `@`, if it makes a block: the type, the number
of characters up to the body, and the body with all that follows it. -/
def opening? (text : List Char) : Option (String × Char × Nat × List Char) :=
  let entryType := text.takeWhile isTypeChar
  let afterType := text.dropWhile isTypeChar
  match afterType.dropWhile isAsciiBlank with
  | opener :: rest =>
    match closerOf? opener with
    | some closer =>
      if entryType.isEmpty then none
      else some (String.ofList (asciiLower entryType), closer, text.length - rest.length, rest)
    | none => none
  | [] => none

/-- Whether a line begins, after spaces and tabs, with an `@`. -/
def beginsBlock (line : List Char) : Bool :=
  (line.dropWhile fun c => c == ' ' || c == '\t').head? == some '@'

/-- How many characters stand before the next line that begins with an `@`. -/
def untilNextBlock? : List Char → Option Nat
  | [] => none
  | c :: rest =>
    if c == '\n' && beginsBlock rest then some 1 else (untilNextBlock? rest).map (· + 1)

/-! ### All blocks -/

/-- The blocks of a text.  The first `pass` characters are walked over
without being read; `line` and `start` tell where the text stands. -/
def blocksFrom (pass line start : Nat) : List Char → List Block
  | [] => []
  | c :: rest =>
    let line' := if c == '\n' then line + 1 else line
    match pass with
    | pass + 1 => blocksFrom pass line' (start + 1) rest
    | 0 =>
      if c == '@' then
        match opening? rest with
        | none => blocksFrom 0 line' (start + 1) rest
        | some (entryType, closer, skipped, inside) =>
          match closedBody? closer 0 inside with
          | some body =>
            ⟨line, start, entryType, .body body⟩ ::
              blocksFrom (skipped + body.length + 1) line' (start + 1) rest
          | none =>
            ⟨line, start, entryType, .unbalanced⟩ ::
              match untilNextBlock? rest with
              | some skipped => blocksFrom skipped line' (start + 1) rest
              | none => []
      else blocksFrom 0 line' (start + 1) rest

/-- The blocks of a bibliography file, in order. -/
def blocks (text : List Char) : List Block :=
  blocksFrom 0 0 0 text

end LatexIndex.Bib
