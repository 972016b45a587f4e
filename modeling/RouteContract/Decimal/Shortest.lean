import RouteContract.Decimal.Binary64
import RouteContract.Text.Integer

/-!
# The shortest decimal of a binary number

`shortest` gives the decimal with the fewest digits that rounds back to the number, and of those
the nearest to it. A finite number `m · 2 ^ q` is the rounding of every real of an interval around
it; the ends belong to the interval exactly when `m` is even. For one digit, two digits and so on
the two neighbours of the number on the decimal grid of that many digits are tested.

All comparisons are between natural numbers: a real is a numerator over a common denominator.
-/

namespace RouteContract.Decimal

/-- The decimal `digits · 10 ^ exponent`. -/
structure Digits where
  digits : Nat
  exponent : Int
deriving DecidableEq, Repr, Inhabited

/-- The number of decimal digits of a natural number; one for zero. -/
def width (n : Nat) : Nat := (Text.decimalChars n).length

/-- A real interval around a value, with a common denominator. -/
structure Interval where
  low : Nat
  value : Nat
  high : Nat
  den : Nat
  closed : Bool

/-- The reals that round to a finite number, in quarters of its last place. -/
def Interval.of (x : Binary64) : Interval :=
  let m := x.significand
  let q := x.exponent - 2
  let scale := twoTo q.toNat
  let gap := if x.fractionField = 0 ∧ 1 < x.exponentField then 1 else 2
  { low := (4 * m - gap) * scale
    value := 4 * m * scale
    high := (4 * m + 2) * scale
    den := twoTo (-q).toNat
    closed := m % 2 = 0 }

/-- Whether `c · 10 ^ k` lies in the interval. -/
def Interval.holds (i : Interval) (c : Nat) (k : Int) : Bool :=
  let point := c * tenTo k.toNat * i.den
  let scale := tenTo (-k).toNat
  if i.closed then i.low * scale ≤ point && point ≤ i.high * scale
  else i.low * scale < point && point < i.high * scale

/-- Twice the place of the value within its cell of the grid of step `10 ^ k`, and the step. -/
def Interval.cell (i : Interval) (k : Int) : Nat × Nat × Nat :=
  let num := i.value * tenTo (-k).toNat
  let den := i.den * tenTo k.toNat
  (num / den, 2 * (num % den), den)

/-- The better of the two neighbours of the value on a grid, if one rounds back to it. -/
def Interval.neighbour? (i : Interval) (k : Int) : Option Nat :=
  let (c, twice, den) := i.cell k
  match i.holds c k, i.holds (c + 1) k with
  | true, true => if twice < den ∨ (twice = den ∧ c % 2 = 0) then some c else some (c + 1)
  | true, false => some c
  | false, true => some (c + 1)
  | false, false => none

/-- The decimal exponent of the first digit of the value. -/
def Interval.magnitude (i : Interval) : Int :=
  (width (i.value * tenTo 400 / i.den) : Int) - 401

/-- Try the grids of `n`, `n + 1`, … digits. -/
def Interval.search (i : Interval) (magnitude : Int) : Nat → Nat → Digits
  | 0, n => ⟨(i.cell (magnitude - n + 1)).1, magnitude - n + 1⟩
  | tries + 1, n =>
    let k := magnitude - n + 1
    match i.neighbour? k with
    | some c => ⟨c, k⟩
    | none => i.search magnitude tries (n + 1)

/-- Move the trailing zeros of the digits into the exponent. -/
def Digits.strip : Nat → Digits → Digits
  | 0, d => d
  | fuel + 1, d =>
    if d.digits ≠ 0 ∧ d.digits % 10 = 0 then strip fuel ⟨d.digits / 10, d.exponent + 1⟩ else d

/-- The shortest decimal that rounds to the magnitude of a finite number. -/
def shortest (x : Binary64) : Digits :=
  if x.isZero then ⟨0, 0⟩
  else
    let i := Interval.of x
    Digits.strip 20 (i.search i.magnitude 17 1)

end RouteContract.Decimal
