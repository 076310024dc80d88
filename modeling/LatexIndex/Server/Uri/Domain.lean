/-
LatexIndex/Server/Uri/Domain.lean

Names of hosts.

A name is compared in one form: wide letters and dots become plain ones,
letters become small ones, and characters that are not seen are left out.  A
name with a character that names cannot have is refused, and so is a label
that claims to be the Punycode of other characters and is not.
-/
import LatexIndex.Text.Split

namespace LatexIndex.Uri

open Text

/-! ### Characters -/

/-- Characters that a name loses. -/
def isUnseen (c : Char) : Bool :=
  let n := c.toNat
  n == 0xAD || n == 0x34F || (0x180B ≤ n && n ≤ 0x180D) || n == 0x200B || n == 0x2060 ||
    n == 0x2064 || (0xFE00 ≤ n && n ≤ 0xFE0F) || n == 0xFEFF || (0xE0100 ≤ n && n ≤ 0xE01EF)

/-- The plain character for a wide one, and a dot for every kind of dot. -/
def plainChar (c : Char) : Char :=
  let n := c.toNat
  if 0xFF01 ≤ n && n ≤ 0xFF5E then Char.ofNat (n - 0xFF01 + 0x21)
  else if n == 0x3002 || n == 0xFF61 then '.'
  else if n == 0x212A then 'k'
  else if n == 0x17F then 's'
  else c

/-- ASCII characters that names cannot have. -/
def isDeniedAscii (c : Char) : Bool :=
  c.toNat ≤ 0x20 || c.toNat == 0x7F || "%#/:<>?@[\\]^|".toList.contains c

/-- Other characters that names cannot have: controls, blanks, marks of
direction, joiners, and code points that are no characters. -/
def isDeniedWide (c : Char) : Bool :=
  let n := c.toNat
  (0x80 ≤ n && n ≤ 0xA0) || (0x2000 ≤ n && n ≤ 0x200A) || (0x200C ≤ n && n ≤ 0x200F) ||
    (0x2028 ≤ n && n ≤ 0x202F) || n == 0x205F || (0x2061 ≤ n && n ≤ 0x2063) ||
    (0x2065 ≤ n && n ≤ 0x206F) || n == 0x3000 || (0xE000 ≤ n && n ≤ 0xF8FF) ||
    (0xFDD0 ≤ n && n ≤ 0xFDEF) || (0xFFF9 ≤ n && n ≤ 0xFFFF) || 0xE0000 ≤ n

/-- Whether names cannot have a character. -/
def isDenied (c : Char) : Bool :=
  isDeniedAscii c || isDeniedWide c

/-! ### Punycode -/

namespace Punycode

/-- The value of a digit: letters first, then ASCII digits. -/
def digit? (c : Char) : Option Nat :=
  if 'a' ≤ c && c ≤ 'z' then some (c.toNat - 'a'.toNat)
  else if '0' ≤ c && c ≤ '9' then some (c.toNat - '0'.toNat + 26)
  else none

/-- Below which value a digit is the last one of a number. -/
def threshold (place bias : Nat) : Nat :=
  if place ≤ bias then 1 else if bias + 26 ≤ place then 26 else place - bias

/-- Divides a step until it is small, counting the places. -/
def shrink (step places : Nat) : Nat × Nat :=
  if 455 < step then shrink (step / 35) (places + 36) else (step, places)
termination_by step
decreasing_by omega

/-- The bias after a step, with as many characters as there are now. -/
def adapt (step count : Nat) (isFirst : Bool) : Nat :=
  let step := if isFirst then step / 700 else step / 2
  let (step, places) := shrink (step + step / count) 0
  places + 36 * step / (step + 38)

/-- One number of several digits, the lowest first, and what follows it. -/
def readStep (bias : Nat) : Nat → Nat → Nat → List Char → Option (Nat × List Char)
  | _, _, _, [] => none
  | place, weight, step, c :: rest => do
    let digit ← digit? c
    let step := step + digit * weight
    let limit := threshold place bias
    if digit < limit then some (step, rest)
    else readStep bias (place + 36) (weight * (36 - limit)) step rest

/-- The code points that are put between `count` characters, the first of
them at `place`; each is at least `code`. -/
def codePoints : Nat → Nat → Nat → Nat → Nat → List Char → Option (List Nat)
  | _, _, _, _, _, [] => some []
  | 0, _, _, _, _, _ => none
  | fuel + 1, code, place, bias, count, text => do
    let (step, rest) ← readStep bias 36 1 0 text
    let count := count + 1
    let code := code + (place + step) / count
    let bias := adapt step count (place == 0)
    return code :: (← codePoints fuel code ((place + step) % count + 1) bias count rest)

/-- Splits at the last hyphen, which stands after the plain characters, if
there are any. -/
def splitPlain (text : List Char) : List Char × List Char :=
  match cutAt (· == '-') text.reverse with
  | some (steps, c :: plain) => ((c :: plain).reverse, steps.reverse)
  | _ => ([], text)

/-- The code points that a text has besides its plain characters. -/
def read? (text : List Char) : Option (List Nat) :=
  let (plain, steps) := splitPlain text
  if plain.any (·.toNat ≥ 0x80) then none
  else codePoints (steps.length + 1) 128 0 72 plain.length steps

end Punycode

/-! ### Names -/

/-- Whether a code point is a character that stands for itself in a name. -/
def isOwnChar (code : Nat) : Bool :=
  let c := Char.ofNat code
  decide (Nat.isValidChar code) && 0x80 ≤ code && !isDenied c && !isUnseen c && plainChar c == c

/-- Whether a label is right.  One that begins like Punycode has to be the
Punycode of at least one character that is not plain. -/
def isLabel (label : List Char) : Bool :=
  match label with
  | 'x' :: 'n' :: '-' :: '-' :: text => match Punycode.read? text with
    | some codes => !codes.isEmpty && codes.all isOwnChar
    | none => false
  | _ => true

/-- The one form of a name, if it is right. -/
def domain? (text : List Char) : Option (List Char) :=
  let name := asciiLower ((text.filter (!isUnseen ·)).map plainChar)
  if name.any isDenied || !(name.splitOn '.').all isLabel then none else some name

end LatexIndex.Uri
