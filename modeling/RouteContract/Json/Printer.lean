import RouteContract.Json.Basic
import RouteContract.Decimal.Style

/-!
# JSON text

Compact text has no space; indented text has one item a line, two spaces a level, and writes an
empty array or object as a pair of brackets. In a string only the quote, the backslash and the
characters below the space are escaped.
-/

namespace RouteContract

/-- Floats are positional from `0.00001` up to sixteen digits and keep a fraction digit. -/
def Json.floatStyle : Decimal.Style where
  positional e := -5 ≤ e ∧ e ≤ 15
  keepFraction := true
  signedExponent := true

/-- The text of a number. -/
def Number.text : Number → String
  | .int n => Text.integerText n
  | .float x => Json.floatStyle.render x

namespace Json

/-- The escaped form of a character in a string. -/
def escapeChar (c : Char) : List Char :=
  if c = '"' then ['\\', '"']
  else if c = '\\' then ['\\', '\\']
  else if c = '\x08' then ['\\', 'b']
  else if c = '\x0c' then ['\\', 'f']
  else if c = '\n' then ['\\', 'n']
  else if c = '\r' then ['\\', 'r']
  else if c = '\t' then ['\\', 't']
  else if c.toNat < 0x20 then '\\' :: 'u' :: Text.hexFixed 4 c.toNat
  else [c]

/-- A quoted string. -/
def quote (s : String) : String :=
  String.ofList ('"' :: (s.toList.flatMap escapeChar ++ ['"']))

mutual

/-- Text without spaces. -/
def compact : Json → String
  | .null => "null"
  | .bool true => "true"
  | .bool false => "false"
  | .num n => n.text
  | .str s => quote s
  | .arr items => "[" ++ compactItems items ++ "]"
  | .obj fields => "\x7b" ++ compactFields fields ++ "\x7d"

/-- The items of an array, divided by commas. -/
def compactItems : List Json → String
  | [] => ""
  | [item] => compact item
  | item :: rest => compact item ++ "," ++ compactItems rest

/-- The fields of an object, divided by commas. -/
def compactFields : List (String × Json) → String
  | [] => ""
  | [(name, value)] => quote name ++ ":" ++ compact value
  | (name, value) :: rest => quote name ++ ":" ++ compact value ++ "," ++ compactFields rest

end

/-- The blanks before a line of a level. -/
def indentation (level : Nat) : String := String.ofList (List.replicate (2 * level) ' ')

mutual

/-- Text with one item a line, at a level. -/
def indentedAt (level : Nat) : Json → String
  | .null => "null"
  | .bool true => "true"
  | .bool false => "false"
  | .num n => n.text
  | .str s => quote s
  | .arr [] => "[]"
  | .arr items =>
    "[\n" ++ indentedItems (level + 1) items ++ "\n" ++ indentation level ++ "]"
  | .obj [] => "\x7b\x7d"
  | .obj fields =>
    "\x7b\n" ++ indentedFields (level + 1) fields ++ "\n" ++ indentation level ++ "\x7d"

/-- The items of an array, one a line. -/
def indentedItems (level : Nat) : List Json → String
  | [] => ""
  | [item] => indentation level ++ indentedAt level item
  | item :: rest =>
    indentation level ++ indentedAt level item ++ ",\n" ++ indentedItems level rest

/-- The fields of an object, one a line. -/
def indentedFields (level : Nat) : List (String × Json) → String
  | [] => ""
  | [(name, value)] => indentation level ++ quote name ++ ": " ++ indentedAt level value
  | (name, value) :: rest =>
    indentation level ++ quote name ++ ": " ++ indentedAt level value ++ ",\n"
      ++ indentedFields level rest

end

/-- Text with one item a line. -/
def indented (value : Json) : String := indentedAt 0 value

end Json

end RouteContract
