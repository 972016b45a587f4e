import RouteContract.Decimal.Reading
import RouteContract.Decimal.Style

/-!
# Canonical numerals

The canonical text of a number in a script: separators dropped, hexadecimal, octal and binary
numbers turned into decimal, a whole number below nine quadrillion without a fraction, any other
number positionally with the fewest digits. A text that is no number stays as it is.
-/

namespace RouteContract

namespace Binary64

/-- The number nearest to the sum of a number and one. -/
def plusOne (x : Binary64) : Binary64 :=
  if x.isFinite then
    let up : Nat := twoTo x.exponent.toNat
    let den : Nat := twoTo (-x.exponent).toNat
    let magnitude : Int := x.significand * up
    let sum : Int := (if x.negative then -magnitude else magnitude) + den
    if sum < 0 then (ofRatio sum.natAbs den).neg else ofRatio sum.natAbs den
  else x

end Binary64

namespace Types

/-- The text of a number: whole and below nine quadrillion as such, else positionally. -/
def numeralText (x : Binary64) : String :=
  match x.whole? with
  | some n =>
    if n.natAbs < 9000000000000000 then Text.integerText n else Decimal.plain.render x
  | none =>
    if x.isFinite then Decimal.plain.render x
    else if x.isNaN then "NaN"
    else if x.negative then "-inf"
    else "inf"

/-- The digits behind a radix mark, and the radix. -/
def radix? : List Char → Option (Nat × List Char)
  | '0' :: 'x' :: digits => some (16, digits)
  | '0' :: 'X' :: digits => some (16, digits)
  | '0' :: 'b' :: digits => some (2, digits)
  | '0' :: 'B' :: digits => some (2, digits)
  | '0' :: 'o' :: digits => some (8, digits)
  | '0' :: 'O' :: digits => some (8, digits)
  | _ => none

/-- Drop the marks of a big integer at the back. -/
def dropBigMarks (cs : List Char) : List Char := (cs.reverse.dropWhile (· = 'n')).reverse

/-- The number that a numeral without separators denotes. -/
def numeralValue? (cs : List Char) : Option Binary64 :=
  match radix? cs with
  | some (radix, digits) => (Text.signed64? radix digits).map Binary64.ofInt
  | none => Decimal.number? (dropBigMarks cs)

/-- The canonical text of a numeral. -/
def canonicalNumeral (text : String) : String :=
  let cleaned := text.toList.filter (· ≠ '_')
  match numeralValue? cleaned with
  | some x => numeralText x
  | none => String.ofList cleaned

end Types

end RouteContract
