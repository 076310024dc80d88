/-
LatexIndex/Cursor/Key.lean

What the cursor points at.

The directive under the cursor is the first of the line that reaches from
its backslash over the cursor to the brace that closes its argument.  Among
several cited keys the one under the cursor is meant, and the first one when
the cursor is on none of them.
-/
import LatexIndex.Cursor.Context

namespace LatexIndex.Cursor

open Text Markup

/-- A key or file name that has a definition to go to. -/
inductive Target where
  | label (key : String)
  | citation (key : String)
  | inclusion (name : String)
  deriving DecidableEq, Repr

/-- One part of a comma-separated argument with the positions it lies
between. -/
structure KeyPart where
  start : Nat
  stop : Nat
  key : String
  deriving DecidableEq, Repr

/-- The parts of an argument that starts at a position. -/
def keyPartsFrom (start : Nat) : List (List Char) → List KeyPart
  | [] => []
  | part :: more =>
    ⟨start, start + part.length, String.ofList (trim part)⟩ ::
      keyPartsFrom (start + part.length + 1) more

/-- The key of a citation that the cursor means. -/
def citedKey? (start : Nat) (argument : List Char) (cursor : Nat) : Option String :=
  let parts := (keyPartsFrom start (argument.splitOn ',')).filter (·.key ≠ "")
  let under := parts.find? fun part => part.start ≤ cursor && cursor ≤ part.stop
  (under.or parts.head?).map (·.key)

/-- Whether a directive reaches over a position. -/
def covers (cursor : Nat) (d : Directive) : Bool :=
  match d.argument.stop? with
  | some stop => d.start ≤ cursor && cursor ≤ stop
  | none => false

/-- What a directive with a closed argument points at. -/
def targetOf? (name : String) (start : Nat) (argument : List Char) (cursor : Nat) :
    Option Target :=
  let key := String.ofList (trim argument)
  if (IncludeKind.ofName? name).isSome then some (.inclusion key)
  else if citesKeys name then (citedKey? start argument cursor).map .citation
  else if isReference name && key ≠ "" then some (.label key)
  else none

/-- What the cursor points at in a line, its position counted in characters
and cut off at the end of the line. -/
def targetAt? (line : List Char) (position : Nat) : Option Target := do
  let cursor := min position line.length
  let directive ← (directives (stripComment line)).find? (covers cursor)
  match directive.argument with
  | .closed start argument => targetOf? directive.name start argument cursor
  | _ => none

end LatexIndex.Cursor
