import RouteContract.Text.Integer

/-!
# Escapes in quoted text

The body of a quoted string is read from the left. A backslash starts an escape: a control
character by its letter, a character by its hexadecimal code (`\xHH`, `\uHHHH` or `\u` with the
code in braces), nothing for an escaped line feed, and any other character for itself. A code that
is no number, or no character, stands for its own digits.
-/

namespace RouteContract.Literal

/-- The character with a hexadecimal code, or the code itself when there is none. -/
def codeChar (code : List Char) : List Char :=
  match (Text.unsigned? 16 Text.bits32 code).bind Text.scalar? with
  | some c => [c]
  | none => code

/-- What an escape stands for and what follows it, given the text after the backslash. -/
def escape : List Char → List Char × List Char
  | [] => (['\\'], [])
  | 'n' :: rest => (['\n'], rest)
  | 't' :: rest => (['\t'], rest)
  | 'r' :: rest => (['\r'], rest)
  | 'b' :: rest => (['\x08'], rest)
  | 'f' :: rest => (['\x0c'], rest)
  | 'v' :: rest => (['\x0b'], rest)
  | '0' :: rest => (['\x00'], rest)
  | 'x' :: rest => (codeChar (rest.take 2), rest.drop 2)
  | 'u' :: '{' :: rest =>
    (codeChar (rest.takeWhile (· ≠ '}')), (rest.dropWhile (· ≠ '}')).drop 1)
  | 'u' :: rest => (codeChar (rest.take 4), rest.drop 4)
  | '\n' :: rest => ([], rest)
  | c :: rest => ([c], rest)

/-- An escape leaves no more text than it was given. -/
theorem escape_length (cs : List Char) : (escape cs).2.length ≤ cs.length := by
  unfold escape
  split <;> simp <;> try omega
  rename_i rest
  have := (List.dropWhile_sublist (fun c => decide (c ≠ '}')) (l := rest)).length_le
  simp at this
  omega

/-- Resolve the escapes of the body of a string. -/
def unescapeChars : List Char → List Char
  | [] => []
  | c :: cs =>
    if c = '\\' then (escape cs).1 ++ unescapeChars (escape cs).2 else c :: unescapeChars cs
termination_by cs => cs.length
decreasing_by
  · have := escape_length cs
    simp only [List.length_cons]
    omega
  · simp

/-- Resolve the escapes of the body of a string. -/
def unescape (body : String) : String := String.ofList (unescapeChars body.toList)

end RouteContract.Literal
