import RouteContract.Decimal.Shortest

/-!
# Written forms of numbers

A `Style` holds the decisions of one output format: which decimal exponents are written
positionally, whether a whole value keeps a fraction digit, and how an exponent is signed.
-/

namespace RouteContract.Decimal

/-- The decisions of an output format for floating point numbers. -/
structure Style where
  /-- Whether a number whose first digit has this decimal exponent is written positionally. -/
  positional : Int → Bool
  /-- Whether a whole value is written with the fraction `.0`. -/
  keepFraction : Bool
  /-- Whether a positive exponent has a sign. -/
  signedExponent : Bool

/-- A row of zeros. -/
def zeros (n : Nat) : List Char := List.replicate n '0'

/-- Digits written positionally, the first one having the decimal exponent `e`. -/
def positionalChars (keepFraction : Bool) (ds : List Char) (e : Int) : List Char :=
  if e < 0 then '0' :: '.' :: (zeros (-e - 1).toNat ++ ds)
  else
    let whole := ds.take (e.toNat + 1) ++ zeros (e.toNat + 1 - ds.length)
    let fraction := ds.drop (e.toNat + 1)
    if fraction.isEmpty then (if keepFraction then whole ++ ['.', '0'] else whole)
    else whole ++ '.' :: fraction

/-- Digits written with an exponent. -/
def scientificChars (signed : Bool) (ds : List Char) (e : Int) : List Char :=
  let mantissa := match ds with
    | [] => ['0']
    | [d] => [d]
    | d :: more => d :: '.' :: more
  let sign := if e < 0 then ['-'] else if signed then ['+'] else []
  mantissa ++ 'e' :: (sign ++ Text.decimalChars e.natAbs)

/-- The text of a finite number. -/
def Style.render (style : Style) (x : Binary64) : String :=
  let d := shortest x
  let ds := Text.decimalChars d.digits
  let e := d.exponent + ds.length - 1
  let body := if style.positional e then positionalChars style.keepFraction ds e
    else scientificChars style.signedExponent ds e
  String.ofList (if x.negative then '-' :: body else body)

/-- Always positional, whole values without a fraction. -/
def plain : Style where
  positional _ := true
  keepFraction := false
  signedExponent := false

end RouteContract.Decimal
