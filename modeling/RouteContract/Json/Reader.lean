import RouteContract.Decimal.Scaled
import RouteContract.Json.Shape

/-!
# Reading JSON text

Strict JSON: no comments, no trailing commas, nothing after the value, and at most `nestingLimit`
arrays and objects inside one another. A whole number that fits 64 bits is kept as such; any other
number, and a negative zero, is a binary floating point number. The fields of an object are kept as
they are written, a repeated name included.

A value that no one looks at, because the record around it does not know its name, only has to be
well formed: it may be nested deeper, its numbers may be out of range and its codes may be halves of
a pair. The readers take the expected shape, and none for such a value.
-/

namespace RouteContract.Json

/-- The largest number of arrays and objects inside one another. -/
def nestingLimit : Nat := 127

/-- Skip blanks, tabs and line ends. -/
def skipSpace (cs : List Char) : List Char :=
  cs.dropWhile fun c => c = ' ' || c = '\t' || c = '\n' || c = '\r'

/-- The code of four hexadecimal digits, and the text after them. -/
def codeUnit? : List Char → Option (Nat × List Char)
  | a :: b :: c :: d :: rest => (Text.natural? 16 [a, b, c, d]).map fun n => (n, rest)
  | _ => none

/-- The character of a code, or of a pair of codes. Where no one looks, any code will do. -/
def codePoint? (looked : Bool) (cs : List Char) : Option (Char × List Char) := do
  let (high, rest) ← codeUnit? cs
  if !looked then some (Char.ofNat high, rest)
  else if 0xd800 ≤ high ∧ high < 0xdc00 then
    match rest with
    | '\\' :: 'u' :: rest =>
      let (low, rest) ← codeUnit? rest
      if 0xdc00 ≤ low ∧ low < 0xe000 then
        let c ← Text.scalar? (0x10000 + (high - 0xd800) * 0x400 + (low - 0xdc00))
        return (c, rest)
      else none
    | _ => none
  else
    let c ← Text.scalar? high
    return (c, rest)

/-- The character that the letter after a backslash stands for. -/
def escaped? : Char → Option Char
  | '"' => some '"'
  | '\\' => some '\\'
  | '/' => some '/'
  | 'b' => some '\x08'
  | 'f' => some '\x0c'
  | 'n' => some '\n'
  | 'r' => some '\r'
  | 't' => some '\t'
  | _ => none

/-- The characters of a string up to its closing quote. The fuel bounds their number. -/
def stringBody? (looked : Bool) : Nat → List Char → Option (List Char × List Char)
  | 0, _ => none
  | fuel + 1, cs =>
    match cs with
    | [] => none
    | '"' :: rest => some ([], rest)
    | '\\' :: 'u' :: rest => do
      let (c, rest) ← codePoint? looked rest
      let (body, rest) ← stringBody? looked fuel rest
      return (c :: body, rest)
    | '\\' :: letter :: rest => do
      let c ← escaped? letter
      let (body, rest) ← stringBody? looked fuel rest
      return (c :: body, rest)
    | c :: rest =>
      if c.toNat < 0x20 ∨ c = '\\' then none
      else do
        let (body, rest) ← stringBody? looked fuel rest
        return (c :: body, rest)

/-- A string after its opening quote. -/
def string? (looked : Bool) (cs : List Char) : Option (String × List Char) :=
  (stringBody? looked (cs.length + 1) cs).map fun (body, rest) => (String.ofList body, rest)

/-- A row of digits that is not empty, and the text after it. -/
def digits? (cs : List Char) : Option (List Char × List Char) :=
  match cs.takeWhile Decimal.isDigit with
  | [] => none
  | ds => some (ds, cs.dropWhile Decimal.isDigit)

/-- The digits before the point: a zero only on its own. -/
def wholeDigits? (cs : List Char) : Option (List Char × List Char) := do
  let (ds, rest) ← digits? cs
  if ds.head? = some '0' ∧ 1 < ds.length then none else some (ds, rest)

/-- The digits after the point, if there is one. -/
def fractionDigits? : List Char → Option (Option (List Char) × List Char)
  | '.' :: rest => (digits? rest).map fun (ds, rest) => (some ds, rest)
  | rest => some (none, rest)

/-- The exponent, if there is one. -/
def exponent? : List Char → Option (Option Int × List Char)
  | [] => some (none, [])
  | mark :: rest =>
    if mark = 'e' ∨ mark = 'E' then
      match rest with
      | '-' :: rest =>
        (digits? rest).map fun (ds, rest) => (some (-(Decimal.digitsValue ds : Int)), rest)
      | '+' :: rest =>
        (digits? rest).map fun (ds, rest) => (some (Decimal.digitsValue ds : Int), rest)
      | rest =>
        (digits? rest).map fun (ds, rest) => (some (Decimal.digitsValue ds : Int), rest)
    else some (none, mark :: rest)

/-- The number that the parts of its text denote. -/
def numberValue? (negative : Bool) (whole : List Char) (fraction : Option (List Char))
    (exponent : Option Int) : Option Number :=
  let (significand, dropped) := Decimal.gatherWhole 0 whole
  let float (significand : Nat) (e : Int) : Option Number :=
    (Decimal.scaled? significand e).map fun x => .float (if negative then x.neg else x)
  if fraction.isNone ∧ exponent.isNone ∧ dropped = 0 then
    if !negative then some (.int significand)
    else if 0 < significand ∧ significand ≤ Text.bits63 then some (.int (-(significand : Int)))
    else float significand 0
  else
    let (significand, places) := Decimal.gatherFraction significand (fraction.getD [])
    float significand ((dropped : Int) - places + exponent.getD 0)

/-- A number. Where no one looks, it may be out of range and is left out. -/
def number? (looked : Bool) (cs : List Char) : Option (Json × List Char) := do
  let (negative, rest) := match cs with
    | '-' :: rest => (true, rest)
    | rest => (false, rest)
  let (whole, rest) ← wholeDigits? rest
  let (fraction, rest) ← fractionDigits? rest
  let (exponent, rest) ← exponent? rest
  if looked then
    let n ← numberValue? negative whole fraction exponent
    return (.num n, rest)
  else return (.null, rest)

/-- The nesting that is left inside an array or object; it counts only where someone looks. -/
def inside? (looked : Bool) (depth : Nat) : Option Nat :=
  if looked then if depth = 0 then none else some (depth - 1) else some depth

/-- What is expected of an item of an array; an array may stand for a record, as the row of its
values. -/
def itemShape (shape : Option Shape) (index : Nat) : Option Shape :=
  shape.map fun shape =>
    match shape.present with
    | .record fields => ((fields.map Prod.snd)[index]?).getD .any
    | shape => shape.item?.getD .any

/-- What is expected of a field of an object. -/
def fieldShape (shape : Option Shape) (name : String) : Option Shape :=
  shape.bind fun shape => (shape.present.entry? name).getD (some .any)

mutual

/-- A value, with at most so many arrays and objects inside one another. -/
def value? : Nat → Nat → Option Shape → List Char → Option (Json × List Char)
  | 0, _, _, _ => none
  | fuel + 1, depth, shape, cs =>
    match skipSpace cs with
    | 'n' :: 'u' :: 'l' :: 'l' :: rest => some (.null, rest)
    | 't' :: 'r' :: 'u' :: 'e' :: rest => some (.bool true, rest)
    | 'f' :: 'a' :: 'l' :: 's' :: 'e' :: rest => some (.bool false, rest)
    | '"' :: rest => (string? shape.isSome rest).map fun (s, rest) => (.str s, rest)
    | '[' :: rest => do
      let depth ← inside? shape.isSome depth
      match skipSpace rest with
      | ']' :: rest => some (.arr [], rest)
      | rest => (items? fuel depth shape 0 rest).map fun (items, rest) => (.arr items, rest)
    | '{' :: rest => do
      let depth ← inside? shape.isSome depth
      match skipSpace rest with
      | '}' :: rest => some (.obj [], rest)
      | rest => (fields? fuel depth shape rest).map fun (fields, rest) => (.obj fields, rest)
    | cs => number? shape.isSome cs

/-- The items of an array from an index on, up to its closing bracket. -/
def items? : Nat → Nat → Option Shape → Nat → List Char → Option (List Json × List Char)
  | 0, _, _, _, _ => none
  | fuel + 1, depth, shape, index, cs => do
    let (item, rest) ← value? fuel depth (itemShape shape index) cs
    match skipSpace rest with
    | ',' :: rest =>
      let (more, rest) ← items? fuel depth shape (index + 1) rest
      return (item :: more, rest)
    | ']' :: rest => return ([item], rest)
    | _ => none

/-- The fields of an object up to its closing brace. -/
def fields? : Nat → Nat → Option Shape → List Char → Option (List (String × Json) × List Char)
  | 0, _, _, _ => none
  | fuel + 1, depth, shape, cs =>
    match skipSpace cs with
    | '"' :: rest => do
      let (name, rest) ← string? shape.isSome rest
      match skipSpace rest with
      | ':' :: rest =>
        let (item, rest) ← value? fuel depth (fieldShape shape name) rest
        match skipSpace rest with
        | ',' :: rest =>
          let (more, rest) ← fields? fuel depth shape rest
          return ((name, item) :: more, rest)
        | '}' :: rest => return ([(name, item)], rest)
        | _ => none
      | _ => none
    | _ => none

end

/-- Read a text that is one JSON value of an expected shape. The shape says only what is not looked
at; whether the value fits is for its reader to say. -/
def parse? (shape : Shape) (text : String) : Option Json := do
  let cs := text.toList
  let (v, rest) ← value? (2 * cs.length + 2) nestingLimit (some shape) cs
  if (skipSpace rest).isEmpty then some v else none

end RouteContract.Json
