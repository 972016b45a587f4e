import RouteContract.Decimal.Reading
import RouteContract.Text.Basic

/-!
# Plain scalars

What an unquoted scalar denotes: null, a boolean, a whole number, a floating point number, or else
its own text. A row of digits with leading zeros is a text, and a decimal counts as a floating
point number only when it is finite.
-/

namespace RouteContract.Yaml

/-- What an unquoted scalar denotes. -/
inductive Plain where
  | null
  | bool (value : Bool)
  | int (value : Int)
  | float (value : Binary64)
  | text
deriving DecidableEq, Repr

/-- Drop one sign in front. -/
def dropSign : List Char → List Char
  | '-' :: rest => rest
  | '+' :: rest => rest
  | cs => cs

/-- Drop one plus in front. -/
def dropPlus : List Char → List Char
  | '+' :: rest => rest
  | cs => cs

/-- Whether a text starts with a sign. -/
def signed : List Char → Bool
  | '-' :: _ => true
  | '+' :: _ => true
  | _ => false

/-- Digits with leading zeros, after an optional sign. -/
def leadingZeros (cs : List Char) : Bool :=
  match dropSign cs with
  | '0' :: c :: rest => (c :: rest).all Decimal.isDigit
  | _ => false

/-- Whole numbers have at most 128 bits. -/
def wholeBound : Nat := twoTo 128

/-- The least whole number has a magnitude of 127 bits and one. -/
def negativeBound : Nat := twoTo 127 + 1

/-- The digits after a radix mark. -/
def radixDigits? (mark : Char) (radix bound : Nat) : List Char → Option Nat
  | '0' :: m :: digits =>
    if m = mark then (Text.natural? radix digits).filter (· < bound) else none
  | _ => none

/-- A whole number without a minus: decimal, hexadecimal, octal or binary. -/
def unsignedWhole? (bound : Nat) (cs : List Char) : Option Nat :=
  (radixDigits? 'x' 16 bound cs).or <| (radixDigits? 'o' 8 bound cs).or <|
    (radixDigits? 'b' 2 bound cs).or <|
      if leadingZeros cs then none else (Text.natural? 10 cs).filter (· < bound)

/-- A whole number. -/
def whole? (cs : List Char) : Option Int :=
  match cs with
  | '-' :: rest => (unsignedWhole? negativeBound rest).map fun n => -(n : Int)
  | _ => (unsignedWhole? wholeBound (dropPlus cs)).map Int.ofNat

/-- A floating point number. -/
def float? (cs : List Char) : Option Binary64 :=
  let body := dropPlus cs
  if cs.head? = some '+' ∧ signed body then none
  else if String.ofList body ∈ [".inf", ".Inf", ".INF"] then some Binary64.infinity
  else if String.ofList cs ∈ ["-.inf", "-.Inf", "-.INF"] then some Binary64.infinity.neg
  else if String.ofList cs ∈ [".nan", ".NaN", ".NAN"] then some Binary64.nan
  else (Decimal.number? body).filter Binary64.isFinite

/-- The value of an unquoted scalar. -/
def plain (s : String) : Plain :=
  if s ∈ ["", "null", "Null", "NULL", "~"] then .null
  else if s ∈ ["true", "True", "TRUE"] then .bool true
  else if s ∈ ["false", "False", "FALSE"] then .bool false
  else match whole? s.toList with
    | some n => .int n
    | none =>
      if leadingZeros s.toList then .text
      else match float? s.toList with
        | some x => .float x
        | none => .text

end RouteContract.Yaml
