import RouteContract.Decimal.Power

/-!
# Binary floating point numbers of 64 bits

A number is held as its bits, so equality of numbers is equality of bits. A finite number is
`± m · 2 ^ q` for its significand `m` and its exponent `q`. `ofRatio` rounds a quotient of natural
numbers to the nearest number, a tie going to the even significand.
-/

namespace RouteContract

/-- A binary floating point number, held as its 64 bits. -/
structure Binary64 where
  bits : UInt64
deriving DecidableEq, Repr, Inhabited

namespace Binary64

/-- The bits as a natural number. -/
def code (x : Binary64) : Nat := x.bits.toNat

/-- Whether the sign bit is set. -/
def negative (x : Binary64) : Bool := twoTo 63 ≤ x.code

/-- The biased exponent. -/
def exponentField (x : Binary64) : Nat := x.code / twoTo 52 % twoTo 11

/-- The stored part of the significand. -/
def fractionField (x : Binary64) : Nat := x.code % twoTo 52

/-- Neither an infinity nor a NaN. -/
def isFinite (x : Binary64) : Bool := x.exponentField ≠ 2047

/-- A NaN. -/
def isNaN (x : Binary64) : Bool := x.exponentField = 2047 ∧ x.fractionField ≠ 0

/-- Positive or negative zero. -/
def isZero (x : Binary64) : Bool := x.exponentField = 0 ∧ x.fractionField = 0

/-- The significand `m` of a finite number `± m · 2 ^ q`. -/
def significand (x : Binary64) : Nat :=
  if x.exponentField = 0 then x.fractionField else twoTo 52 + x.fractionField

/-- The exponent `q` of a finite number `± m · 2 ^ q`. -/
def exponent (x : Binary64) : Int :=
  if x.exponentField = 0 then -1074 else (x.exponentField : Int) - 1075

/-- The number with the opposite sign. -/
def neg (x : Binary64) : Binary64 := ⟨x.bits ^^^ 0x8000000000000000⟩

/-- Positive infinity. -/
def infinity : Binary64 := ⟨0x7ff0000000000000⟩

/-- The canonical NaN. -/
def nan : Binary64 := ⟨0x7ff8000000000000⟩

/-- The quotient rounded to the nearest whole number, a tie going to the even one. -/
def roundDiv (num den : Nat) : Nat :=
  let quotient := num / den
  let rest := 2 * (num % den)
  if rest < den then quotient
  else if rest = den ∧ quotient % 2 = 0 then quotient
  else quotient + 1

/-- The largest `e` with `2 ^ e ≤ num / den`, for positive `num` and `den`. -/
def ratioLog2 (num den : Nat) : Int :=
  let e : Int := (num.log2 : Int) - den.log2
  if den * twoTo e.toNat ≤ num * twoTo (-e).toNat then e else e - 1

/-- The number nearest to a quotient, an infinity when the quotient is too large. -/
def ofRatio (num den : Nat) : Binary64 :=
  if num = 0 ∨ den = 0 then ⟨0⟩
  else
    let q : Int := max (ratioLog2 num den - 52) (-1074)
    let m := roundDiv (num * twoTo (-q).toNat) (den * twoTo q.toNat)
    ⟨(min ((q + 1074).toNat * twoTo 52 + m) (2047 * twoTo 52)).toUInt64⟩

/-- The number nearest to a whole number. -/
def ofInt : Int → Binary64
  | .ofNat n => ofRatio n 1
  | .negSucc n => (ofRatio (n + 1) 1).neg

/-- The magnitude as a whole number, if it is one. -/
def wholeMagnitude? (x : Binary64) : Option Nat :=
  if x.isFinite then
    let q := x.exponent
    if 0 ≤ q then some (x.significand * twoTo q.toNat)
    else
      let den := twoTo (-q).toNat
      if x.significand % den = 0 then some (x.significand / den) else none
  else none

/-- The value as a whole number, if it is one. -/
def whole? (x : Binary64) : Option Int :=
  x.wholeMagnitude?.map fun n => if x.negative then -(n : Int) else n

end Binary64

end RouteContract
