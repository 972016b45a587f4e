import RouteContract.Json.Printer
import RouteContract.Decimal.Reading
import RouteContract.Literal.Escape

/-!
# Data literals

The literals of a script that are pure data: quoted strings in three quote styles, signed decimal
and hexadecimal numbers, the words `true`, `false`, `null` and `undefined`, arrays, and objects
whose keys are strings, names or numbers. White space and comments may stand between tokens, a
trailing comma and one final semicolon are allowed, and whatever would have to be evaluated is
refused.

Reading a piece of the grammar gives its value and the text after it. A failure holds the text
that was left when it was met, from which its offset is computed.
-/

namespace RouteContract.Literal

/-- Why a text is no data literal. -/
inductive Fault where
  | unterminatedComment
  | unterminatedString
  | unterminatedArray
  | unterminatedObject
  | lineBreakInString
  | substitution
  | badHexadecimal
  | badNumber (text : String)
  | notData (word : String)
  | unexpectedCharacter
  | unexpectedEnd
  | missingKey
  | missingColon
  | missingComma
  | missingFieldComma
  | trailingInput
deriving DecidableEq, Repr

/-- The wording of a fault. -/
def Fault.message : Fault → String
  | .unterminatedComment => "unterminated comment"
  | .unterminatedString => "unterminated string"
  | .unterminatedArray => "unterminated array"
  | .unterminatedObject => "unterminated object"
  | .lineBreakInString => "newline in string literal"
  | .substitution => "template substitutions are not literals"
  | .badHexadecimal => "invalid hexadecimal number"
  | .badNumber text => "invalid number `" ++ text ++ "`"
  | .notData word => "identifier `" ++ word ++ "` is not a literal"
  | .unexpectedCharacter => "unexpected character"
  | .unexpectedEnd => "unexpected end of input"
  | .missingKey => "expected object key"
  | .missingColon => "expected `:` after object key"
  | .missingComma => "expected `,` or `]` in array"
  | .missingFieldComma => "expected `,` or `\x7d` in object"
  | .trailingInput => "unexpected trailing input"

/-- A fault and the text left where it was met. -/
structure Failure where
  fault : Fault
  left : List Char
deriving DecidableEq, Repr

/-- A fault and its offset in bytes. -/
structure Error where
  fault : Fault
  position : Nat
deriving DecidableEq, Repr

/-- The wording of an error. -/
def Error.message (e : Error) : String :=
  e.fault.message ++ " (at offset " ++ String.ofList (Text.decimalChars e.position) ++ ")"

/-- The outcome of a reading; most give a value with the text after it. -/
abbrev Outcome := Except Failure

/-- The three quotes. -/
def isQuote (c : Char) : Bool := c = '"' || c = '\x27' || c = '\x60'

/-- The first character of a name. -/
def isNameStart (c : Char) : Bool := Text.isLetter c || c = '_' || c = '$'

/-- A further character of a name. -/
def isNamePart (c : Char) : Bool := Text.isLetterOrNumeral c || c = '_' || c = '$'

/-- The text after the end of a block comment. -/
def closeComment? : List Char → Option (List Char)
  | [] => none
  | '*' :: '/' :: rest => some rest
  | _ :: rest => closeComment? rest

/-- The text after a comment is shorter than the comment. -/
theorem closeComment?_length {cs rest : List Char} (h : closeComment? cs = some rest) :
    rest.length < cs.length := by
  fun_induction closeComment? cs with
  | case1 => simp at h
  | case2 tail =>
    simp only [Option.some.injEq] at h
    subst h
    simp only [List.length_cons]
    omega
  | case3 c tail _ ih =>
    have := ih h
    simp only [List.length_cons]
    omega

/-- Skip white space and comments. -/
def skipTrivia : List Char → Outcome (List Char)
  | [] => .ok []
  | c :: cs =>
    if Text.isBlank c then skipTrivia cs
    else if c = '/' then
      match cs with
      | '/' :: comment => skipTrivia (comment.dropWhile (· ≠ '\n'))
      | '*' :: comment =>
        match _h : closeComment? comment with
        | some rest => skipTrivia rest
        | none => .error ⟨.unterminatedComment, []⟩
      | _ => .ok (c :: cs)
    else .ok (c :: cs)
termination_by cs => cs.length
decreasing_by
  · simp
  · have := (List.dropWhile_sublist (fun c => decide (c ≠ '\n')) (l := comment)).length_le
    simp only [List.length_cons]
    omega
  · have := closeComment?_length _h
    simp only [List.length_cons]
    omega

/-- The body of a quoted string, escapes unresolved, up to its closing quote. -/
def quotedBody (quote : Char) (start : List Char) : List Char → Outcome (List Char × List Char)
  | [] => .error ⟨.unterminatedString, start⟩
  | ['\\'] => .error ⟨.unterminatedString, start⟩
  | '\\' :: c :: cs => do
    let (body, rest) ← quotedBody quote start cs
    return ('\\' :: c :: body, rest)
  | c :: cs =>
    if quote = '\x60' ∧ c = '$' ∧ cs.head? = some '{' then .error ⟨.substitution, c :: cs⟩
    else if c = '\n' ∧ quote ≠ '\x60' then .error ⟨.lineBreakInString, c :: cs⟩
    else if c = quote then .ok ([], cs)
    else do
      let (body, rest) ← quotedBody quote start cs
      return (c :: body, rest)

/-- A quoted string, given its opening quote and the text after it. -/
def quoted (quote : Char) (cs : List Char) : Outcome (String × List Char) := do
  let (body, rest) ← quotedBody quote (quote :: cs) cs
  return (String.ofList (unescapeChars body), rest)

/-- The characters of a decimal number without separators; a sign only after an exponent mark. -/
def decimalRun (afterMark : Bool) : List Char → List Char × List Char
  | [] => ([], [])
  | c :: cs =>
    if c = '_' then decimalRun afterMark cs
    else if Decimal.isDigit c ∨ c = '.' ∨ c = 'e' ∨ c = 'E' ∨ ((c = '-' ∨ c = '+') ∧ afterMark) then
      let (text, rest) := decimalRun (c = 'e' || c = 'E') cs
      (c :: text, rest)
    else ([], c :: cs)

/-- The digits of a hexadecimal number without separators. -/
def hexRun : List Char → List Char × List Char
  | [] => ([], [])
  | c :: cs =>
    if c = '_' then hexRun cs
    else if (Text.digit? 16 c).isSome then
      let (text, rest) := hexRun cs
      (c :: text, rest)
    else ([], c :: cs)

/-- A value with the sign that was read before it. -/
def signed (negative : Bool) (n : Nat) : Number := .int (if negative then -(n : Int) else n)

/-- The number that the characters of a decimal denote. -/
def decimalValue? (negative : Bool) (text : List Char) : Option Number :=
  match (Text.natural? 10 text).filter (· < Text.bits63) with
  | some n => some (signed negative n)
  | none =>
    match (Decimal.read? text).map Decimal.Written.toBinary64 with
    | some x => if x.isFinite then some (.float (if negative then x.neg else x)) else none
    | none => none

/-- A number after its sign; failures are reported at `start`. -/
def unsignedNumber (start : List Char) (negative : Bool) (cs : List Char) :
    Outcome (Number × List Char) :=
  let hexadecimal (digits : List Char) : Outcome (Number × List Char) :=
    let (text, rest) := hexRun digits
    match (Text.natural? 16 text).filter (· < Text.bits63) with
    | some n => .ok (signed negative n, rest)
    | none => .error ⟨.badHexadecimal, start⟩
  match cs with
  | '0' :: 'x' :: digits => hexadecimal digits
  | '0' :: 'X' :: digits => hexadecimal digits
  | _ =>
    let (text, rest) := decimalRun false cs
    match decimalValue? negative text with
    | some n => .ok (n, rest)
    | none => .error ⟨.badNumber (String.ofList text), start⟩

/-- A number with an optional sign. -/
def number (cs : List Char) : Outcome (Number × List Char) :=
  match cs with
  | '-' :: rest => unsignedNumber cs true rest
  | '+' :: rest => unsignedNumber cs false rest
  | _ => unsignedNumber cs false cs

/-- A name. -/
def name (cs : List Char) : String × List Char :=
  (String.ofList (cs.takeWhile isNamePart), cs.dropWhile isNamePart)

/-- The value of a word. -/
def word? : String → Option Json
  | "true" => some (.bool true)
  | "false" => some (.bool false)
  | "null" => some .null
  | "undefined" => some .null
  | _ => none

/-- The key of a field: a string, a name, or a number for its written form. -/
def key (cs : List Char) : Outcome (String × List Char) :=
  match cs with
  | [] => .error ⟨.missingKey, cs⟩
  | c :: rest =>
    if isQuote c then quoted c rest
    else if isNameStart c then .ok (name cs)
    else if Decimal.isDigit c then (number cs).map fun (n, rest) => (n.text, rest)
    else .error ⟨.missingKey, cs⟩

/-- The colon after a key. -/
def colon (cs : List Char) : Outcome (List Char) := do
  match ← skipTrivia cs with
  | ':' :: rest => .ok rest
  | left => .error ⟨.missingColon, left⟩

/-- A comma, or nothing before the closing character. -/
def separator (close : Char) (fault : Fault) (cs : List Char) : Outcome (List Char) := do
  match ← skipTrivia cs with
  | [] => .error ⟨fault, []⟩
  | c :: rest =>
    if c = ',' then .ok rest
    else if c = close then .ok (c :: rest)
    else .error ⟨fault, c :: rest⟩

mutual

/-- A value with the white space before it. The fuel bounds the number of nested readings. -/
def value : Nat → List Char → Outcome (Json × List Char)
  | 0, cs => .error ⟨.unexpectedEnd, cs⟩
  | fuel + 1, cs => do
    let cs ← skipTrivia cs
    match cs with
    | [] => .error ⟨.unexpectedEnd, []⟩
    | c :: rest =>
      if c = '{' then
        let (entries, rest) ← fields fuel [] rest
        return (.obj entries, rest)
      else if c = '[' then
        let (list, rest) ← items fuel rest
        return (.arr list, rest)
      else if isQuote c then
        let (s, rest) ← quoted c rest
        return (.str s, rest)
      else if Decimal.isDigit c ∨ c = '-' ∨ c = '+' ∨ c = '.' then
        let (n, rest) ← number cs
        return (.num n, rest)
      else if isNameStart c then
        let (word, rest) := name cs
        match word? word with
        | some v => .ok (v, rest)
        | none => .error ⟨.notData word, rest⟩
      else .error ⟨.unexpectedCharacter, cs⟩

/-- The items of an array up to its closing bracket. -/
def items : Nat → List Char → Outcome (List Json × List Char)
  | 0, cs => .error ⟨.unexpectedEnd, cs⟩
  | fuel + 1, cs => do
    match ← skipTrivia cs with
    | [] => .error ⟨.unterminatedArray, []⟩
    | ']' :: rest => .ok ([], rest)
    | cs =>
      let (item, rest) ← value fuel cs
      let rest ← separator ']' .missingComma rest
      let (more, rest) ← items fuel rest
      return (item :: more, rest)

/-- The fields of an object up to its closing brace, put after the fields already read. -/
def fields : Nat → List (String × Json) → List Char → Outcome (List (String × Json) × List Char)
  | 0, _, cs => .error ⟨.unexpectedEnd, cs⟩
  | fuel + 1, entries, cs => do
    match ← skipTrivia cs with
    | [] => .error ⟨.unterminatedObject, []⟩
    | '}' :: rest => .ok (entries, rest)
    | cs =>
      let (k, rest) ← key cs
      let rest ← colon rest
      let (v, rest) ← value fuel rest
      let rest ← separator '}' .missingFieldComma rest
      fields fuel (Entries.put k v entries) rest

end

/-- More nested readings than a text of this length can need. -/
def enough (cs : List Char) : Nat := 2 * cs.length + 2

/-- A whole text: a value and at most one semicolon. -/
def whole (cs : List Char) : Outcome Json := do
  let (v, rest) ← value (enough cs) cs
  let rest ← skipTrivia rest
  let rest ← match rest with
    | ';' :: more => skipTrivia more
    | _ => .ok rest
  if rest.isEmpty then .ok v else .error ⟨.trailingInput, rest⟩

/-- Read a text that is one data literal. -/
def parse (text : String) : Except Error Json :=
  match whole text.toList with
  | .ok v => .ok v
  | .error f =>
    .error ⟨f.fault, Text.byteSize text.toList - Text.byteSize f.left⟩

end RouteContract.Literal
