/-
LatexIndex/Data/Basic.lean

Structured data, as configuration files hold it and as messages to and from
an editor do.
-/
import LatexIndex.Number.Binary

namespace LatexIndex

/-- A piece of structured data. -/
inductive Data where
  | null
  | bool (value : Bool)
  | integer (value : Int)
  /-- A number written with a point or an exponent, or too great for a whole
  one. -/
  | real (value : Binary)
  | text (value : String)
  | list (items : List Data)
  /-- Named values, in order. -/
  | table (fields : List (String × Data))
  deriving Inhabited

namespace Data

/-- The value of a field; none where there is no such field or no table. -/
def field? (name : String) : Data → Option Data
  | table fields => (fields.reverse.find? (·.1 = name)).map (·.2)
  | _ => none

/-- The text of a piece of text. -/
def text? : Data → Option String
  | text value => some value
  | _ => none

/-- The items of a list. -/
def list? : Data → Option (List Data)
  | list items => some items
  | _ => none

/-- The value of a whole number that is not negative and fits into 64 bits. -/
def natural? : Data → Option Nat
  | integer value => if 0 ≤ value && value < Int.pow 2 64 then some value.toNat else none
  | _ => none

/-- The number as data. -/
def ofNat (n : Nat) : Data :=
  .integer n

/-- Data that may be missing. -/
def ofOption : Option Data → Data
  | some data => data
  | none => .null

end Data

end LatexIndex
