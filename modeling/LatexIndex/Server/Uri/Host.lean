/-
LatexIndex/Server/Uri/Host.lean

The hosts that a URI may have: names and addresses.

Of an address only its form matters.  A host of a well-known scheme is a name
in its one form, or an address of four or of eight groups; a host of any
other scheme is taken as it is written.
-/
import LatexIndex.Data.Json
import LatexIndex.Server.Uri.Domain

namespace LatexIndex.Uri

/-- Why a text is no URI. -/
inductive Fault where
  /-- There is no scheme. -/
  | relative
  | emptyHost
  /-- The host is a name that no host has. -/
  | domainName
  /-- The host has a character that no host has. -/
  | domainCharacter
  /-- The host is an address of four groups that is none. -/
  | fourGroups
  /-- The host is an address of eight groups that is none. -/
  | eightGroups
  /-- The number after the host is none. -/
  | hostNumber
  deriving DecidableEq, Repr

/-- The wording of a fault. -/
def Fault.message : Fault → String
  | relative => "relative URL without a base"
  | emptyHost => "empty host"
  | domainName => "invalid international domain name"
  | domainCharacter => "invalid domain character"
  | fourGroups => "invalid IPv4 address"
  | eightGroups => "invalid IPv6 address"
  | hostNumber => "invalid port number"

/-- A host. -/
inductive Host where
  | name (text : String)
  | address
  deriving DecidableEq, Repr

/-! ### Addresses of eight groups -/

/-- Four numbers below 256 with dots between them, without leading zeros. -/
def isDotted (text : List Char) : Bool :=
  let parts := text.splitOn '.'
  parts.length == 4 && parts.all fun part =>
    !part.isEmpty && part.length ≤ 3 && part.all Json.isDigit && Json.decimalValue part ≤ 255 &&
      (part.length == 1 || part.head? != some '0')

/-- At most four hexadecimal digits. -/
def isGroup (text : List Char) : Bool :=
  text.length ≤ 4 && text.all fun c => (Json.hexValue? c).isSome

/-- The groups with one empty group where there are two at the beginning.  A
single one is wrong there. -/
def mergeFirst? : List (List Char) → Option (List (List Char))
  | [] :: [] :: more => some ([] :: more)
  | [] :: _ => none
  | groups => some groups

/-- Whether a text is an address of eight groups.  One empty group stands for
the groups that are missing, and the last two may be written as four
numbers. -/
def isEightGroups (text : List Char) : Bool :=
  match (mergeFirst? (text.splitOn ':')).bind fun groups => mergeFirst? groups.reverse with
  | some (last :: before) =>
    let gaps := ((last :: before).filter (·.isEmpty)).length
    let last := if isDotted last then [['0'], ['0']] else [last]
    let groups := last ++ before
    let count := (groups.filter (!·.isEmpty)).length
    groups.all isGroup && (if gaps == 0 then count == 8 else gaps == 1 && count ≤ 7)
  | _ => false

/-! ### Addresses of four groups -/

/-- A number of an address: hexadecimal after `0x`, octal after another zero,
and decimal otherwise. -/
def groupValue? (text : List Char) : Option Nat :=
  let valueIn := fun (base : Nat) (digits : List Char) => do
    let values ← digits.mapM Json.hexValue?
    if values.all (· < base) then some (Json.digitsValue base values) else none
  match text with
  | [] => none
  | '0' :: 'x' :: digits => valueIn 16 digits
  | '0' :: c :: digits => valueIn 8 (c :: digits)
  | digits => valueIn 10 digits

/-- The labels of a name, without an empty one at the end. -/
def labels (name : List Char) : List (List Char) :=
  match (name.splitOn '.').reverse with
  | [] :: before => before.reverse
  | labels => labels.reverse

/-- Whether the last label of a name is a number, so that all of it has to be
an address. -/
def endsInNumber (name : List Char) : Bool :=
  match (labels name).getLast? with
  | some last => !last.isEmpty && (last.all Json.isDigit || (groupValue? last).isSome)
  | none => false

/-- Whether a name is an address of at most four groups; the last one takes
the place of those that are missing. -/
def isFourGroups (name : List Char) : Bool :=
  let groups := labels name
  match groups.mapM groupValue? with
  | some values => groups.length ≤ 4 && values.dropLast.all (· ≤ 255) &&
      values.getLast?.any (· < Nat.pow 256 (5 - groups.length))
  | none => false

/-! ### Hosts -/

/-- Decodes percent escapes; what is none stays as it is. -/
def decodeEscapes : List UInt8 → List UInt8
  | [] => []
  | byte :: rest =>
    let plain := byte :: decodeEscapes rest
    if byte == 0x25 then match rest with
      | high :: low :: more =>
        match Json.hexValue? (Char.ofNat high.toNat), Json.hexValue? (Char.ofNat low.toNat) with
        | some h, some l => UInt8.ofNat (h * 16 + l) :: decodeEscapes more
        | _, _ => plain
      | _ => plain
    else plain

/-- The bytes of a text after its escapes are decoded. -/
def decodedBytes (text : List Char) : List UInt8 :=
  decodeEscapes (String.ofList text).toUTF8.toList

/-- A host in brackets, if it begins like one. -/
def bracketed? (text : List Char) : Option (Except Fault Host) :=
  match text with
  | '[' :: rest => match rest.reverse with
    | ']' :: inner => some (if isEightGroups inner.reverse then .ok .address else .error .eightGroups)
    | _ => some (.error .eightGroups)
  | _ => none

/-- The host of a well-known scheme. -/
def readHost (text : List Char) : Except Fault Host :=
  (bracketed? text).getD <|
    match (String.fromUTF8? ⟨(decodedBytes text).toArray⟩).bind fun s => domain? s.toList with
    | none => .error .domainName
    | some [] => .error .emptyHost
    | some name =>
      if !endsInNumber name then .ok (.name (String.ofList name))
      else if isFourGroups name then .ok .address
      else .error .fourGroups

/-- The host of another scheme. -/
def readPlainHost (text : List Char) : Except Fault Host :=
  (bracketed? text).getD <|
    if text.any fun c => c == '\x00' || " #/:<>?@[\\]^|".toList.contains c then
      .error .domainCharacter
    else .ok (.name (String.ofList text))

end LatexIndex.Uri
