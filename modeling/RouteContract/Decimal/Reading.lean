import RouteContract.Decimal.Binary64
import RouteContract.Text.Integer

/-!
# Reading decimal text

A decimal is digits with at most one point and at least one digit, followed by an optional
exponent. It denotes the nearest binary number. Exponents far outside the range of binary numbers
are cut before any power is computed: the value is then an infinity or zero in any case.
-/

namespace RouteContract.Decimal

/-- The decimal `coefficient · 10 ^ exponent`, with the number of digits of the coefficient. -/
structure Written where
  coefficient : Nat
  places : Nat
  exponent : Int
deriving DecidableEq, Repr, Inhabited

/-- Whether a character is a digit from `0` to `9`. -/
def isDigit (c : Char) : Bool := (Text.digit? 10 c).isSome

/-- The value of a row of digits, zero when there is none. -/
def digitsValue (cs : List Char) : Nat := (Text.natural? 10 cs).getD 0

/-- An exponent mark with its digits; the exponent is zero when nothing is there. -/
def readExponent? : List Char → Option Int
  | [] => some 0
  | mark :: rest =>
    if mark = 'e' ∨ mark = 'E' then
      match rest with
      | '-' :: ds => (Text.natural? 10 ds).map fun n => -(n : Int)
      | '+' :: ds => (Text.natural? 10 ds).map fun n => (n : Int)
      | ds => (Text.natural? 10 ds).map fun n => (n : Int)
    else none

/-- Read an unsigned decimal that makes up the whole text. -/
def read? (cs : List Char) : Option Written :=
  let whole := cs.takeWhile isDigit
  let rest := cs.dropWhile isDigit
  let (fraction, rest) := match rest with
    | '.' :: more => (more.takeWhile isDigit, more.dropWhile isDigit)
    | _ => ([], rest)
  let ds := whole ++ fraction
  if ds.isEmpty then none
  else (readExponent? rest).map fun e =>
    { coefficient := digitsValue ds, places := ds.length, exponent := e - fraction.length }

/-- The binary number nearest to a decimal. -/
def Written.toBinary64 (d : Written) : Binary64 :=
  if d.coefficient = 0 then ⟨0⟩
  else if 400 < d.exponent then Binary64.infinity
  else if d.exponent + d.places < -400 then ⟨0⟩
  else Binary64.ofRatio (d.coefficient * tenTo d.exponent.toNat) (tenTo (-d.exponent).toNat)

/-- Read an unsigned number: a decimal, `inf`, `infinity` or `nan` in any case. -/
def magnitude? (cs : List Char) : Option Binary64 :=
  let word := Text.lowerAscii (String.ofList cs)
  if word = "inf" ∨ word = "infinity" then some Binary64.infinity
  else if word = "nan" then some Binary64.nan
  else (read? cs).map Written.toBinary64

/-- Read a number with an optional sign. -/
def number? : List Char → Option Binary64
  | '-' :: cs => (magnitude? cs).map Binary64.neg
  | '+' :: cs => magnitude? cs
  | cs => magnitude? cs

end RouteContract.Decimal
