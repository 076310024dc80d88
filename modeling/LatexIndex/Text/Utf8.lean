/-
LatexIndex/Text/Utf8.lean

Reading bytes as UTF-8 where they need not be UTF-8.  Each longest beginning
of a character that is not completed, and each byte that begins no character,
becomes one U+FFFD.
-/

namespace LatexIndex.Text

/-- The character for bytes that are none. -/
def replacement : Char := Char.ofNat 0xFFFD

/-- How many bytes follow the first byte of a character, and the range of the
next one; none when the byte begins no character. -/
def following? (first : Nat) : Option (Nat × Nat × Nat) :=
  if 0xC2 ≤ first && first ≤ 0xDF then some (1, 0x80, 0xBF)
  else if first = 0xE0 then some (2, 0xA0, 0xBF)
  else if first = 0xED then some (2, 0x80, 0x9F)
  else if 0xE1 ≤ first && first ≤ 0xEF then some (2, 0x80, 0xBF)
  else if first = 0xF0 then some (3, 0x90, 0xBF)
  else if 0xF1 ≤ first && first ≤ 0xF3 then some (3, 0x80, 0xBF)
  else if first = 0xF4 then some (3, 0x80, 0x8F)
  else none

/-- The value that the first byte of a character of several bytes carries. -/
def leadValue (first : Nat) (more : Nat) : Nat :=
  first % (if more = 1 then 0x20 else if more = 2 then 0x10 else 0x08)

/-- A character that has been begun: how many bytes are missing, the range of
the next one, and the value so far. -/
structure Begun where
  missing : Nat
  least : Nat
  greatest : Nat
  value : Nat
  deriving DecidableEq, Repr

/-- What a byte that begins a character gives: a finished character, or one
that has been begun. -/
def beginCharacter (byte : Nat) : List Char × Option Begun :=
  if byte < 0x80 then ([Char.ofNat byte], none)
  else match following? byte with
    | some (more, least, greatest) => ([], some ⟨more, least, greatest, leadValue byte more⟩)
    | none => ([replacement], none)

/-- Reads bytes after a character that may have been begun. -/
def decodeFrom (begun : Option Begun) : List UInt8 → List Char
  | [] => if begun.isSome then [replacement] else []
  | byte :: rest =>
    let n := byte.toNat
    match begun with
    | none =>
      let (chars, begun) := beginCharacter n
      chars ++ decodeFrom begun rest
    | some b =>
      if b.least ≤ n && n ≤ b.greatest then
        let value := b.value * 0x40 + n % 0x40
        if b.missing = 1 then Char.ofNat value :: decodeFrom none rest
        else decodeFrom (some ⟨b.missing - 1, 0x80, 0xBF, value⟩) rest
      else
        let (chars, begun) := beginCharacter n
        replacement :: chars ++ decodeFrom begun rest

/-- The text of some bytes, whatever they are. -/
def decode (bytes : List UInt8) : List Char :=
  decodeFrom none bytes

end LatexIndex.Text
