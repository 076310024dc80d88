/-
LatexIndex/Number/Binary.lean

Numbers of 64 bits with a binary exponent.

A finite one is `± mantissa * 2 ^ exponent`, where the mantissa has at most 53
bits and the exponent is as small as that allows, down to -1074.  Every
operation is carried out exactly on quotients of natural numbers and then
rounded once by `nearest`, so nothing here depends on how a machine
calculates.
-/

namespace LatexIndex

/-- A number of 64 bits. -/
inductive Binary where
  | nan
  | infinite (negative : Bool)
  /-- The number `mantissa * 2 ^ exponent`, with a sign. -/
  | finite (negative : Bool) (mantissa : Nat) (exponent : Int)
  deriving DecidableEq, Repr, Inhabited

namespace Binary

/-- The least exponent. -/
def leastExponent : Int := -1074

/-- The greatest exponent. -/
def greatestExponent : Int := 971

/-- Zero, which has a sign. -/
def zero (negative : Bool) : Binary :=
  .finite negative 0 leastExponent

/-- The number with another sign. -/
def withSign (negative : Bool) : Binary → Binary
  | nan => nan
  | infinite _ => infinite negative
  | finite _ mantissa exponent => finite negative mantissa exponent

/-! ### Rounding -/

/-- The quotient rounded to a whole number, a half to the even neighbour. -/
def divideToEven (numerator denominator : Nat) : Nat :=
  let quotient := numerator / denominator
  let twice := 2 * (numerator % denominator)
  if denominator < twice || (twice = denominator && quotient % 2 = 1) then quotient + 1
  else quotient

/-- The quotient in units of `2 ^ exponent`, as a quotient again. -/
def inUnits (numerator denominator : Nat) (exponent : Int) : Nat × Nat :=
  (numerator * Nat.pow 2 (-exponent).toNat, denominator * Nat.pow 2 exponent.toNat)

/-- The exponent at which a positive quotient has a mantissa of 53 bits.  The
lengths of numerator and denominator give it up to one. -/
def exponentOf (numerator denominator : Nat) : Int :=
  let guess : Int := (numerator.log2 : Int) - denominator.log2 - 52
  let (n, d) := inUnits numerator denominator guess
  max leastExponent (if n < d * Nat.pow 2 52 then guess - 1 else guess)

/-- The number nearest to a quotient that is not negative. -/
def nearest (numerator denominator : Nat) : Binary :=
  if numerator = 0 then zero false
  else
    let exponent := exponentOf numerator denominator
    let (n, d) := inUnits numerator denominator exponent
    let mantissa := divideToEven n d
    let (mantissa, exponent) :=
      if mantissa = Nat.pow 2 53 then (Nat.pow 2 52, exponent + 1) else (mantissa, exponent)
    if greatestExponent < exponent then .infinite false
    else .finite false mantissa exponent

/-- The value of a finite number without its sign, as a quotient. -/
def quotient (mantissa : Nat) (exponent : Int) : Nat × Nat :=
  (mantissa * Nat.pow 2 exponent.toNat, Nat.pow 2 (-exponent).toNat)

/-! ### Decimals -/

/-- The number nearest to `digits * 10 ^ exponent`.  Exponents so far out that
the result is zero or infinite whatever the digits are need no powers. -/
def ofDecimal (digits : Nat) (exponent : Int) : Binary :=
  let size : Int := (toString digits).length
  if digits = 0 || exponent + size < -400 then zero false
  else if 400 < exponent + size then .infinite false
  else nearest (digits * Nat.pow 10 exponent.toNat) (Nat.pow 10 (-exponent).toNat)

/-- Scales a number by a power of ten, itself rounded first, and rounds the
result.  A power with an exponent below -308 is taken in several steps; one
above 308 gives none, and so does a result that is infinite. -/
def scale? : Nat → Binary → Int → Option Binary
  | 0, _, _ => none
  | fuel + 1, number, exponent =>
    match number, nearest (Nat.pow 10 (min exponent.natAbs 308)) 1 with
    | .finite _ 0 _, _ => some number
    | .finite _ mantissa e, .finite _ power p =>
      let (n, d) := quotient mantissa e
      let (pn, pd) := quotient power p
      if 308 < exponent then none
      else if 0 ≤ exponent then match nearest (n * pn) (d * pd) with
        | .infinite _ => none
        | product => some product
      else
        let shrunk := nearest (n * pd) (d * pn)
        if exponent < -308 then scale? fuel shrunk (exponent + 308) else some shrunk
    | _, _ => none

/-- The whole number nearest to a number, a half away from zero, kept between
zero and the greatest of 64 bits. -/
def toNatural : Binary → Nat
  | nan => 0
  | infinite negative => if negative then 0 else Nat.pow 2 64 - 1
  | finite negative mantissa exponent =>
    let (n, d) := quotient mantissa exponent
    if negative then 0 else min ((2 * n + d) / (2 * d)) (Nat.pow 2 64 - 1)

/-! ### The fewest digits -/

/-- How many digits a positive quotient has before the point; zero or less for
one below a tenth. -/
def digitsBefore (numerator denominator : Nat) : Int :=
  if denominator ≤ numerator then (toString (numerator / denominator)).length
  else
    let zeros : Int := (List.range 400).findIdx fun k => denominator ≤ numerator * Nat.pow 10 (k + 1)
    0 - zeros

/-- The better of the two neighbours of a quotient among the decimals with
`count` digits that read back as the number; of two equally good ones the
greater. -/
def decimalOf? (number : Binary) (numerator denominator : Nat) (before : Int) (count : Nat) :
    Option (Nat × Int) :=
  let exponent := before - count
  let n := numerator * Nat.pow 10 (-exponent).toNat
  let d := denominator * Nat.pow 10 exponent.toNat
  let low := n / d
  let fits := fun digits => ofDecimal digits exponent == number
  let upper := 2 * low + 1
  if fits low && (!fits (low + 1) || 2 * n < upper * d) then some (low, exponent)
  else if fits (low + 1) then some (low + 1, exponent)
  else none

/-- The decimal with the fewest digits that reads back as a positive finite
number. -/
def shortest (mantissa : Nat) (exponent : Int) : Nat × Int :=
  let (n, d) := quotient mantissa exponent
  let before := digitsBefore n d
  ((List.range 17).findSome? fun count =>
    decimalOf? (.finite false mantissa exponent) n d before (count + 1)).getD (mantissa, 0)

/-- Moves zeros at the end of the digits into the exponent. -/
def dropZeros : Nat → Nat × Int → Nat × Int
  | 0, decimal => decimal
  | fuel + 1, (digits, exponent) =>
    if digits ≠ 0 && digits % 10 = 0 then dropZeros fuel (digits / 10, exponent + 1)
    else (digits, exponent)

/-- The digits and the exponent of a finite number. -/
def decimal (mantissa : Nat) (exponent : Int) : List Char × Int :=
  if mantissa = 0 then (['0'], 0)
  else
    let (digits, exponent) := dropZeros 20 (shortest mantissa exponent)
    ((toString digits).toList, exponent)

/-! ### Text -/

/-- Digits with the power of ten they are to be multiplied by, written out. -/
def writeOut (digits : List Char) (exponent : Int) : List Char :=
  let before : Int := digits.length + exponent
  if 0 ≤ exponent then digits ++ List.replicate exponent.toNat '0'
  else if 0 < before then digits.take before.toNat ++ '.' :: digits.drop before.toNat
  else '0' :: '.' :: List.replicate (-before).toNat '0' ++ digits

/-- The sign of a number. -/
def signText (negative : Bool) : List Char :=
  if negative then ['-'] else []

/-- A number with as few digits as it takes, never with an exponent. -/
def plain : Binary → String
  | nan => "NaN"
  | infinite negative => String.ofList (signText negative ++ "inf".toList)
  | finite negative mantissa exponent =>
    let (digits, exponent) := decimal mantissa exponent
    String.ofList (signText negative ++ writeOut digits exponent)

/-- A finite number with as few digits as it takes, always with a point or an
exponent; the exponent is used outside of `10 ^ -5` to `10 ^ 16`. -/
def pointed : Binary → String
  | finite negative mantissa exponent =>
    let (digits, exponent) := decimal mantissa exponent
    let before : Int := digits.length + exponent
    let body :=
      if 0 ≤ exponent && before ≤ 16 then writeOut digits exponent ++ ['.', '0']
      else if -5 < before && before ≤ 16 then writeOut digits exponent
      else
        let fraction := if digits.length = 1 then [] else '.' :: digits.drop 1
        digits.take 1 ++ fraction ++ 'e' :: (toString (before - 1)).toList
    String.ofList (signText negative ++ body)
  | number => number.plain

end Binary

end LatexIndex
