import RouteContract.Literal.Reader

/-!
# Directives in comments

A directive `#marker.key = value` in a comment assigns a data literal to a dotted key. Its value
ends with the line, or, when that much is no literal, with the first later line up to which the
text is one. A directive whose value cannot be read is reported and skipped with its line.
-/

namespace RouteContract

/-- An assignment of a value to a dotted key. -/
structure Directive where
  key : String
  value : Json
deriving Repr, Inhabited, BEq

namespace Directive

/-- The markers that are recognized when none are configured. -/
def defaultMarkers : List String := ["swagger", "directive"]

/-- A character of a key. -/
def isKeyChar (c : Char) : Bool :=
  Text.isLetterOrNumeral c || c = '_' || c = '.' || c = '$' || c = '-'

/-- Drop the dots at the back. -/
def dropDots (cs : List Char) : List Char := (cs.reverse.dropWhile (· = '.')).reverse

/-- A directive whose value is still to be read. -/
structure Opening where
  /-- The text from the marker to the equals sign. -/
  head : List Char
  key : List Char
  /-- The text after the equals sign. -/
  rest : List Char

/-- A directive with one of the markers at the front of a text. -/
def opening? (cs : List Char) : List String → Option Opening
  | [] => none
  | marker :: more =>
    let lead := '#' :: (marker.toList ++ ['.'])
    match Text.afterPrefix? lead cs with
    | none => opening? cs more
    | some body =>
      let written := body.takeWhile isKeyChar
      let after := body.dropWhile isKeyChar
      let gap := after.takeWhile fun c => c = ' ' || c = '\t'
      let key := dropDots written
      match after.dropWhile (fun c => c = ' ' || c = '\t'), key.isEmpty with
      | '=' :: rest, false => some ⟨lead ++ written ++ gap ++ ['='], key, rest⟩
      | _, _ => opening? cs more

/-- The first directive of a text. -/
def find? (markers : List String) : List Char → Option Opening
  | [] => none
  | c :: cs =>
    if c = '#' then
      match opening? (c :: cs) markers with
      | some found => some found
      | none => find? markers cs
    else find? markers cs

/-- The text of the line, and the text from its end on. -/
def lineOf (cs : List Char) : List Char × List Char :=
  (cs.takeWhile (· ≠ '\n'), cs.dropWhile (· ≠ '\n'))

/-- The value at the first end of a line up to which the text is a literal, with the text from there
on. The text before comes first, its last character in front. -/
def valueAt? (before : List Char) : List Char → Option (Json × List Char)
  | [] =>
    match Literal.parse (String.ofList before.reverse) with
    | .ok v => some (v, [])
    | .error _ => none
  | c :: cs =>
    if c = '\n' then
      match Literal.parse (String.ofList before.reverse) with
      | .ok v => some (v, c :: cs)
      | .error _ => valueAt? (c :: before) cs
    else valueAt? (c :: before) cs

/-- The error of a value that was read up to the end of its line. -/
def lineError (cs : List Char) : Option Literal.Error :=
  match Literal.parse (String.ofList (lineOf cs).1) with
  | .ok _ => none
  | .error e => some e

/-- A directive whose value is no literal: its text up to the end of the line, and the error. -/
structure Unreadable where
  source : String
  error : Option Literal.Error
deriving DecidableEq, Repr

/-- The outcome of one directive and the text after it. -/
def Opening.finish (o : Opening) : Except Unreadable Directive × List Char :=
  match valueAt? [] o.rest with
  | some (value, after) => (.ok ⟨String.ofList o.key, value⟩, after)
  | none =>
    let (line, after) := lineOf o.rest
    (.error ⟨Text.trim (String.ofList (o.head ++ line)), lineError o.rest⟩, after)

/-- The text between the delimiters of a comment; a block loses the star in front of each line. -/
def content (comment : List Char) : List Char :=
  let comment := Text.trimChars comment
  match Text.afterPrefix? ['/', '/'] comment with
  | some line => Text.trimChars line
  | none =>
    let inner :=
      ((Text.afterPrefix? ['/', '*'] comment).bind (Text.beforeSuffix? ['*', '/'])).getD comment
    let lineContent (line : List Char) : List Char :=
      match Text.trimChars line with
      | '*' :: rest => Text.trimChars rest
      | line => line
    Text.trimChars (List.intercalate ['\n'] ((Text.lineChars inner).map lineContent))

/-- The directives of a text, in order. The fuel bounds their number. -/
def scan (markers : List String) : Nat → List Char → List (Except Unreadable Directive)
  | 0, _ => []
  | fuel + 1, cs =>
    match find? markers cs with
    | none => []
    | some o =>
      let (outcome, after) := o.finish
      outcome :: scan markers fuel after

/-- The directives of a comment, in order, those that cannot be read among them. -/
def parse (markers : List String) (comment : String) : List (Except Unreadable Directive) :=
  let text := content comment.toList
  scan markers text.length text

end Directive

end RouteContract
