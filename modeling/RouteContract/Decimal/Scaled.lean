import RouteContract.Decimal.Reading

/-!
# Decimals in binary arithmetic

A decimal computed rather than rounded: its leading digits are gathered into a significand of at
most 64 bits, which is rounded to a binary number and then multiplied or divided by powers of ten,
each step rounding again. The result may differ from the nearest binary number in its last place;
it is none when a step overflows.
-/

namespace RouteContract

namespace Binary64

/-- The magnitude of a finite number as a quotient. -/
def ratio (x : Binary64) : Nat × Nat :=
  (x.significand * twoTo x.exponent.toNat, twoTo (-x.exponent).toNat)

/-- The rounded product of two magnitudes. -/
def product (x y : Binary64) : Binary64 := ofRatio (x.ratio.1 * y.ratio.1) (x.ratio.2 * y.ratio.2)

/-- The rounded quotient of two magnitudes. -/
def quotient (x y : Binary64) : Binary64 := ofRatio (x.ratio.1 * y.ratio.2) (x.ratio.2 * y.ratio.1)

end Binary64

namespace Decimal

/-- The rounded power of ten. -/
def power (n : Nat) : Binary64 := .ofRatio (tenTo n) 1

/-- The largest exponent of a power of ten that is a binary number. -/
def largestPower : Nat := 308

/-- Divide by a power of ten, the largest ones first. -/
def shrunk (x : Binary64) (n : Nat) : Binary64 :=
  if n ≤ largestPower then x.quotient (power n)
  else if x.isZero then x
  else shrunk (x.quotient (power largestPower)) (n - largestPower)
termination_by n
decreasing_by simp only [largestPower] at *; omega

/-- The significand times a power of ten. -/
def scaled? (significand : Nat) (exponent : Int) : Option Binary64 :=
  let x := Binary64.ofRatio significand 1
  if exponent < 0 then some (shrunk x (-exponent).toNat)
  else if x.isZero then some x
  else if exponent ≤ largestPower then
    some (x.product (power exponent.toNat)) |>.filter Binary64.isFinite
  else none

/-- One more digit, when the significand still has 64 bits with it. -/
def gather? (significand : Nat) (digit : Char) : Option Nat :=
  let more := significand * 10 + digitsValue [digit]
  if more < Text.bits64 then some more else none

/-- Gather the digits before the point; of those that do not fit only the number counts. -/
def gatherWhole (significand : Nat) : List Char → Nat × Nat
  | [] => (significand, 0)
  | d :: ds =>
    match gather? significand d with
    | some more => gatherWhole more ds
    | none => (significand, ds.length + 1)

/-- Gather the digits after the point, counting those that fit. -/
def gatherFraction (significand : Nat) : List Char → Nat × Nat
  | [] => (significand, 0)
  | d :: ds =>
    match gather? significand d with
    | some more =>
      let (significand, places) := gatherFraction more ds
      (significand, places + 1)
    | none => (significand, 0)

end Decimal

end RouteContract
