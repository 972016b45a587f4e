import RouteContract.Text.Basic

/-!
# Whole numbers in text

Digits in a radix up to 36, read strictly: at least one digit, nothing but digits, and a bound
on the value. An unsigned number may begin with `+`, a signed one with `+` or `-`.
-/

namespace RouteContract.Text

/-- The number of values of 16 bits. -/
abbrev bits16 : Nat := 65536

/-- The number of values of 32 bits. -/
abbrev bits32 : Nat := 4294967296

/-- The number of values of 63 bits. -/
abbrev bits63 : Nat := 9223372036854775808

/-- The number of values of 64 bits. -/
abbrev bits64 : Nat := 18446744073709551616

/-- The value of a digit in a radix. -/
def digit? (radix : Nat) (c : Char) : Option Nat :=
  let n := c.toNat
  let value :=
    if '0'.toNat ≤ n ∧ n ≤ '9'.toNat then some (n - '0'.toNat)
    else if 'a'.toNat ≤ n ∧ n ≤ 'z'.toNat then some (n - 'a'.toNat + 10)
    else if 'A'.toNat ≤ n ∧ n ≤ 'Z'.toNat then some (n - 'A'.toNat + 10)
    else none
  value.filter (· < radix)

/-- Read digits onto a value that is already there. -/
def digitsFrom? (radix : Nat) : Nat → List Char → Option Nat
  | acc, [] => some acc
  | acc, c :: cs =>
    match digit? radix c with
    | some d => digitsFrom? radix (acc * radix + d) cs
    | none => none

/-- The value of a non-empty row of digits. -/
def natural? (radix : Nat) : List Char → Option Nat
  | [] => none
  | cs => digitsFrom? radix 0 cs

/-- An unsigned number below a bound, with an optional `+`. -/
def unsigned? (radix bound : Nat) (cs : List Char) : Option Nat :=
  let digits := match cs with
    | '+' :: rest => rest
    | _ => cs
  (natural? radix digits).filter (· < bound)

/-- A signed 64-bit number, with an optional sign. -/
def signed64? (radix : Nat) (cs : List Char) : Option Int :=
  match cs with
  | '+' :: rest => ((natural? radix rest).filter (· < bits63)).map Int.ofNat
  | '-' :: rest => ((natural? radix rest).filter (· ≤ bits63)).map fun n => -Int.ofNat n
  | _ => ((natural? radix cs).filter (· < bits63)).map Int.ofNat

/-- A scalar value, which excludes the surrogates. -/
def scalar? (n : Nat) : Option Char :=
  if n < 0xd800 ∨ (0xdfff < n ∧ n < 0x110000) then some (Char.ofNat n) else none

/-- The lower case hexadecimal digit of a number below 16. -/
def hexDigit (n : Nat) : Char :=
  if n < 10 then Char.ofNat ('0'.toNat + n) else Char.ofNat ('a'.toNat + (n - 10))

/-- A number in hexadecimal, in a fixed number of lower case digits. -/
def hexFixed : Nat → Nat → List Char
  | 0, _ => []
  | width + 1, n => hexFixed width (n / 16) ++ [hexDigit (n % 16)]

/-- A whole number in decimal digits. -/
def decimalChars (n : Nat) : List Char := Nat.toDigits 10 n

/-- A whole number in decimal digits, with a sign when negative. -/
def integerText : Int → String
  | .ofNat n => String.ofList (decimalChars n)
  | .negSucc n => String.ofList ('-' :: decimalChars (n + 1))

end RouteContract.Text
