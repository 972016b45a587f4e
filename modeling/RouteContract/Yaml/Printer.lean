import RouteContract.Json.Printer
import RouteContract.Yaml.Scalar

/-!
# YAML text

Block style, two spaces a level; a sequence below a key is not indented. A text is written plain
when it then reads back as itself, else in single quotes; with characters that are not printable in
double quotes; with line feeds as a literal block, where a block can hold it. A key that spans lines
or is longer than 128 bytes is written behind a question mark, its value behind a colon.
-/

namespace RouteContract.Yaml

/-- Floats as in JSON text, except that a positive exponent has no sign. -/
def floatStyle : Decimal.Style := { Json.floatStyle with signedExponent := false }

/-- A line break: a line feed, a carriage return, or one of three other separators. -/
def isBreak (c : Char) : Bool :=
  c = '\n' || c = '\r' || c = '\x85' || c = '\u2028' || c = '\u2029'

/-- A character that may stand outside double quotes. -/
def isPrintable (c : Char) : Bool :=
  let n := c.toNat
  n = 0x0a || (0x20 ≤ n && n ≤ 0x7e)
    || (0xa0 ≤ n && n ≠ 0xfeff && n ≠ 0xfffe && n ≠ 0xffff)

/-- A blank, a tab, a line break or a null. -/
def isGap (c : Char) : Bool := c = ' ' || c = '\t' || c = '\x00' || isBreak c

/-- Whether the text is at its end or a gap follows. -/
def gapNext : List Char → Bool
  | [] => true
  | c :: _ => isGap c

/-- The characters that cannot start a plain scalar. -/
def indicators : List Char :=
  ['#', ',', '[', ']', '{', '}', '&', '*', '!', '|', '>', '\x27', '"', '%', '@', '\x60']

/-- Whether the first character starts something else than a plain scalar. -/
def indicatorFirst : List Char → Bool
  | [] => false
  | c :: rest =>
    indicators.contains c || ((c = '?' || c = ':' || c = '-') && gapNext rest)

/-- Whether a later character ends a plain scalar. -/
def indicatorInside (afterGap : Bool) : List Char → Bool
  | [] => false
  | c :: rest =>
    (c = ':' && gapNext rest) || (c = '#' && afterGap) || indicatorInside (isGap c) rest

/-- Whether a text starts with the mark of a document. -/
def documentMark : List Char → Bool
  | '-' :: '-' :: '-' :: _ => true
  | '.' :: '.' :: '.' :: _ => true
  | _ => false

/-- Whether a pair of adjacent characters satisfies a condition. -/
def adjacent (p : Char → Char → Bool) : List Char → Bool
  | [] => false
  | [_] => false
  | a :: b :: rest => p a b || adjacent p (b :: rest)

/-- Whether a text has characters for double quotes only. -/
def special (cs : List Char) : Bool :=
  cs.any (fun c => !isPrintable c) || adjacent (fun a b => a = ' ' && isBreak b) cs

/-- Whether a text starts or ends with a blank or a line break. -/
def looseEnds (cs : List Char) : Bool :=
  let loose (c : Option Char) : Bool := c.any fun c => c = ' ' || isBreak c
  loose cs.head? || loose cs.getLast?

/-- Whether a text may be written plain. -/
def plainAllowed (cs : List Char) : Bool :=
  !(special cs || cs.any isBreak || looseEnds cs || documentMark cs || indicatorFirst cs
    || indicatorInside (gapNext cs && !cs.isEmpty) (cs.drop 1))

/-- Whether a text may be written in single quotes. -/
def singleAllowed (cs : List Char) : Bool :=
  !(special cs || adjacent (fun a b => isBreak a && b = ' ') cs)

/-- Whether a text may be written as a literal block. -/
def blockAllowed (cs : List Char) : Bool := !(special cs || cs.getLast? = some ' ')

/-- A number in hexadecimal, in a fixed number of upper case digits. -/
def upperHex (width n : Nat) : List Char := (Text.hexFixed width n).map Char.toUpper

/-- The form of a character in double quotes. -/
def escapeChar (c : Char) : List Char :=
  match c with
  | '\x00' => ['\\', '0']
  | '\x07' => ['\\', 'a']
  | '\x08' => ['\\', 'b']
  | '\t' => ['\\', 't']
  | '\n' => ['\\', 'n']
  | '\x0b' => ['\\', 'v']
  | '\x0c' => ['\\', 'f']
  | '\r' => ['\\', 'r']
  | '\x1b' => ['\\', 'e']
  | '"' => ['\\', '"']
  | '\\' => ['\\', '\\']
  | '\x85' => ['\\', 'N']
  | '\u2028' => ['\\', 'L']
  | '\u2029' => ['\\', 'P']
  | c =>
    if isPrintable c then [c]
    else if c.toNat ≤ 0xff then '\\' :: 'x' :: upperHex 2 c.toNat
    else if c.toNat ≤ 0xffff then '\\' :: 'u' :: upperHex 4 c.toNat
    else '\\' :: 'U' :: upperHex 8 c.toNat

/-- A text in double quotes. -/
def doubleQuoted (cs : List Char) : String :=
  String.ofList ('"' :: (cs.flatMap escapeChar ++ ['"']))

/-- Blanks before a line. -/
def blanks (indent : Nat) : List Char := List.replicate indent ' '

/-- The body of a text in single quotes; after line breaks the line is indented. -/
def singleBody (indent : Nat) (afterBreak : Bool) : List Char → List Char
  | [] => if afterBreak then blanks indent else []
  | c :: rest =>
    if isBreak c then c :: singleBody indent true rest
    else
      let body := if c = '\x27' then ['\x27', '\x27'] else [c]
      (if afterBreak then blanks indent else []) ++ body ++ singleBody indent false rest

/-- A text in single quotes. -/
def singleQuoted (indent : Nat) (cs : List Char) : String :=
  String.ofList ('\x27' :: (singleBody indent false cs ++ ['\x27']))

/-- The mark that says how a literal block ends. -/
def chomping (cs : List Char) : List Char :=
  match cs.reverse with
  | [] => ['-']
  | [c] => if isBreak c then ['+'] else ['-']
  | c :: d :: _ => if !isBreak c then ['-'] else if isBreak d then ['+'] else []

/-- The lines of a literal block; an empty line has no blanks. -/
def blockBody (indent : Nat) (afterBreak : Bool) : List Char → List Char
  | [] => if afterBreak then [] else ['\n']
  | c :: rest =>
    if isBreak c then c :: blockBody indent true rest
    else (if afterBreak then blanks indent else []) ++ c :: blockBody indent false rest

/-- A text as a literal block. -/
def block (indent : Nat) (cs : List Char) : String :=
  let hint := match cs with
    | c :: _ => if c = ' ' || isBreak c then ['2'] else []
    | [] => []
  String.ofList ('|' :: (hint ++ chomping cs ++ '\n' :: blockBody indent true cs))

/-- A text on one line. -/
def inlineText (indent : Nat) (s : String) : String :=
  let cs := s.toList
  if plain s = .text && !leadingZeros cs && plainAllowed cs then s
  else if singleAllowed cs then singleQuoted indent cs
  else doubleQuoted cs

/-- A text with the end of its line; the lines of a block are indented. -/
def textLines (indent : Nat) (s : String) : String :=
  let cs := s.toList
  if cs.contains '\n' then
    if blockAllowed cs then block indent cs else doubleQuoted cs ++ "\n"
  else inlineText indent s ++ "\n"

/-- Whether a key stands on one line before its colon. -/
def simpleKey (s : String) : Bool := !(s.toList.any isBreak) && Text.byteSize s.toList ≤ 128

/-- The text of a number. -/
def numberText : Number → String
  | .int n => Text.integerText n
  | .float x => floatStyle.render x

/-- A value that is no collection, with the end of its line. -/
def scalarLines (indent : Nat) : Json → String
  | .null => "null\n"
  | .bool true => "true\n"
  | .bool false => "false\n"
  | .num n => numberText n ++ "\n"
  | .str s => textLines indent s
  | .arr _ => "[]\n"
  | .obj _ => "\x7b\x7d\n"

/-- The blanks before a line. -/
def margin (indent : Nat) : String := String.ofList (blanks indent)

mutual

/-- A value behind a dash, or behind the colon of a long key. -/
def nested (indent : Nat) : Json → String
  | .obj (field :: fields) => mapping (indent + 2) "" (field :: fields)
  | .arr (item :: items) => sequence (indent + 2) "" (item :: items)
  | v => scalarLines (indent + 2) v

/-- A value behind the colon of a simple key. -/
def below (indent : Nat) : Json → String
  | .obj (field :: fields) =>
    "\n" ++ mapping (indent + 2) (margin (indent + 2)) (field :: fields)
  | .arr (item :: items) => "\n" ++ sequence indent (margin indent) (item :: items)
  | v => " " ++ scalarLines (indent + 2) v

/-- The entries of a mapping; the first line starts after `lead`. -/
def mapping (indent : Nat) (lead : String) : List (String × Json) → String
  | [] => ""
  | (key, value) :: rest =>
    (if simpleKey key then lead ++ inlineText (indent + 2) key ++ ":" ++ below indent value
      else lead ++ "? " ++ textLines (indent + 2) key ++ margin indent ++ ": " ++
        nested indent value)
      ++ mapping indent (margin indent) rest

/-- The items of a sequence; the first line starts after `lead`. -/
def sequence (indent : Nat) (lead : String) : List Json → String
  | [] => ""
  | item :: rest => lead ++ "- " ++ nested indent item ++ sequence indent (margin indent) rest

end

/-- The text of a value. -/
def render : Json → String
  | .obj (field :: fields) => mapping 0 "" (field :: fields)
  | .arr (item :: items) => sequence 0 "" (item :: items)
  | v => scalarLines 2 v

end RouteContract.Yaml
