import Mathlib
import RouteContract.Literal.Reader

/-!
# The grammar of data literals

A literal is trivia, a value, trivia, and at most one `;` with trivia after it. The rules are stated
over texts, without the reader: `Value w v` says that the text `w` is a value that denotes `v`.

* trivia: white space and comments; a line comment goes up to a line feed, and only the last one of
  a text may lack it;
* a string: a body between two equal quotes; `Unescaped` gives what its escapes denote;
* a number: digits with separators, hexadecimal or decimal, with an optional sign;
* a word, an array or an object; of fields of one name the last value counts, at the first place.
-/

namespace RouteContract.Literal

/-! ### Trivia -/

/-- White space and closed comments. -/
inductive Trivia : List Char → Prop
  | nil : Trivia []
  | blank {c : Char} {cs : List Char} (hc : Text.isBlank c = true) (h : Trivia cs) :
    Trivia (c :: cs)
  | line {comment cs : List Char} (hcomment : '\n' ∉ comment) (h : Trivia cs) :
    Trivia ('/' :: '/' :: (comment ++ '\n' :: cs))
  | block {comment cs : List Char} (hcomment : ¬ ['*', '/'] <:+: comment) (h : Trivia cs) :
    Trivia ('/' :: '*' :: (comment ++ '*' :: '/' :: cs))

/-- Trivia at the end of a text, where a line comment needs no line feed. -/
inductive LastTrivia : List Char → Prop
  | closed {cs : List Char} (h : Trivia cs) : LastTrivia cs
  | line {cs comment : List Char} (h : Trivia cs) (hcomment : '\n' ∉ comment) :
    LastTrivia (cs ++ '/' :: '/' :: comment)

/-! ### Strings -/

/-- The body of a string with a quote: a backslash hides the character after it, a line feed stands
between backticks only, and there no `$` stands in front of an opening brace. -/
inductive Body (quote : Char) : List Char → Prop
  | nil : Body quote []
  | escape (c : Char) {cs : List Char} (h : Body quote cs) : Body quote ('\\' :: c :: cs)
  | plain {c : Char} {cs : List Char} (hescape : c ≠ '\\') (hquote : c ≠ quote)
    (hline : c = '\n' → quote = '\x60')
    (hdollar : quote = '\x60' → c = '$' → cs.head? ≠ some '{') (h : Body quote cs) :
    Body quote (c :: cs)

/-- The escapes of one letter, and what they denote. -/
def letterEscapes : List (Char × Char) :=
  [('n', '\n'), ('t', '\t'), ('r', '\r'), ('b', '\x08'), ('f', '\x0c'), ('v', '\x0b'),
    ('0', '\x00')]

/-- The letters after a backslash that do not stand for themselves. -/
def escapeLetters : List Char := ['n', 't', 'r', 'b', 'f', 'v', '0', 'x', 'u', '\n']

/-- What a hexadecimal code denotes: its character, or the code itself where there is none. -/
inductive CodeDenotes (code : List Char) : List Char → Prop
  | character {n : Nat} {c : Char} (hn : Text.unsigned? 16 Text.bits32 code = some n)
    (hc : Text.scalar? n = some c) : CodeDenotes code [c]
  | itself (h : ∀ n, Text.unsigned? 16 Text.bits32 code = some n → Text.scalar? n = none) :
    CodeDenotes code code

/-- The body of a string and the text it denotes. A code takes the next characters of the body,
whatever they are: two after `x`, four after `u`, or those up to the closing brace. -/
inductive Unescaped : List Char → List Char → Prop
  | nil : Unescaped [] []
  | plain {c : Char} {cs out : List Char} (hc : c ≠ '\\') (h : Unescaped cs out) :
    Unescaped (c :: cs) (c :: out)
  | last : Unescaped ['\\'] ['\\']
  | letter {c d : Char} {cs out : List Char} (hc : (c, d) ∈ letterEscapes) (h : Unescaped cs out) :
    Unescaped ('\\' :: c :: cs) (d :: out)
  | continued {cs out : List Char} (h : Unescaped cs out) : Unescaped ('\\' :: '\n' :: cs) out
  | code2 {code cs denoted out : List Char}
    (hcode : code.length = 2 ∨ code.length < 2 ∧ cs = []) (hd : CodeDenotes code denoted)
    (h : Unescaped cs out) : Unescaped ('\\' :: 'x' :: (code ++ cs)) (denoted ++ out)
  | code4 {code cs denoted out : List Char}
    (hcode : code.length = 4 ∨ code.length < 4 ∧ cs = []) (hbrace : (code ++ cs).head? ≠ some '{')
    (hd : CodeDenotes code denoted) (h : Unescaped cs out) :
    Unescaped ('\\' :: 'u' :: (code ++ cs)) (denoted ++ out)
  | braced {code cs denoted out : List Char} (hcode : '}' ∉ code) (hd : CodeDenotes code denoted)
    (h : Unescaped cs out) :
    Unescaped ('\\' :: 'u' :: '{' :: (code ++ '}' :: cs)) (denoted ++ out)
  | unbraced {code denoted : List Char} (hcode : '}' ∉ code) (hd : CodeDenotes code denoted) :
    Unescaped ('\\' :: 'u' :: '{' :: code) denoted
  | other {c : Char} {cs out : List Char} (hc : c ∉ escapeLetters) (h : Unescaped cs out) :
    Unescaped ('\\' :: c :: cs) (c :: out)

/-- A quoted string and the text it denotes. -/
inductive Quoted : List Char → String → Prop
  | mk {quote : Char} {body out : List Char} (hquote : isQuote quote = true)
    (hbody : Body quote body) (hout : Unescaped body out) :
    Quoted (quote :: (body ++ [quote])) (String.ofList out)

/-! ### Numbers -/

/-- A text without its separators. -/
def withoutSeparators (cs : List Char) : List Char := cs.filter (· ≠ '_')

/-- The exponent of a decimal, or nothing. -/
inductive Exponent : List Char → Int → Prop
  | none : Exponent [] 0
  | unsigned {mark : Char} {ds : List Char} {n : Nat} (hmark : mark = 'e' ∨ mark = 'E')
    (hn : Text.natural? 10 ds = some n) : Exponent (mark :: ds) n
  | plus {mark : Char} {ds : List Char} {n : Nat} (hmark : mark = 'e' ∨ mark = 'E')
    (hn : Text.natural? 10 ds = some n) : Exponent (mark :: '+' :: ds) n
  | minus {mark : Char} {ds : List Char} {n : Nat} (hmark : mark = 'e' ∨ mark = 'E')
    (hn : Text.natural? 10 ds = some n) : Exponent (mark :: '-' :: ds) (-(n : Int))

/-- A decimal: digits with at most one point, at least one digit, and an exponent. -/
inductive IsDecimal : List Char → Decimal.Written → Prop
  | whole {ds ex : List Char} {n : Nat} {e : Int} (hn : Text.natural? 10 ds = some n)
    (he : Exponent ex e) : IsDecimal (ds ++ ex) ⟨n, ds.length, e⟩
  | point {whole fraction ex : List Char} {n : Nat} {e : Int}
    (hwhole : ∀ c ∈ whole, Decimal.isDigit c = true)
    (hn : Text.natural? 10 (whole ++ fraction) = some n) (he : Exponent ex e) :
    IsDecimal (whole ++ '.' :: (fraction ++ ex))
      ⟨n, (whole ++ fraction).length, e - fraction.length⟩

/-- A number after its sign. A whole number that does not fit 63 bits, and every other decimal, is
the nearest binary number, which must be finite. -/
inductive Magnitude (negative : Bool) : List Char → Number → Prop
  | hexadecimal {mark : Char} {ds : List Char} {n : Nat} (hmark : mark = 'x' ∨ mark = 'X')
    (hn : Text.natural? 16 (withoutSeparators ds) = some n) (hsize : n < Text.bits63) :
    Magnitude negative ('0' :: mark :: ds) (signed negative n)
  | integer {cs : List Char} {n : Nat} (hn : Text.natural? 10 (withoutSeparators cs) = some n)
    (hsize : n < Text.bits63) : Magnitude negative cs (signed negative n)
  | float {cs : List Char} {d : Decimal.Written} (hd : IsDecimal (withoutSeparators cs) d)
    (hsize : ∀ n, Text.natural? 10 (withoutSeparators cs) = some n → Text.bits63 ≤ n)
    (hfinite : d.toBinary64.isFinite = true) :
    Magnitude negative cs (.float (if negative then d.toBinary64.neg else d.toBinary64))

/-- A number; without a sign it starts with a digit or a point. -/
inductive Numeral : List Char → Number → Prop
  | unsigned {c : Char} {cs : List Char} {n : Number} (hc : Decimal.isDigit c = true ∨ c = '.')
    (h : Magnitude false (c :: cs) n) : Numeral (c :: cs) n
  | plus {cs : List Char} {n : Number} (h : Magnitude false cs n) : Numeral ('+' :: cs) n
  | minus {cs : List Char} {n : Number} (h : Magnitude true cs n) : Numeral ('-' :: cs) n

/-! ### Values -/

/-- The words and what they denote. -/
inductive Word : List Char → Json → Prop
  | true : Word ['t', 'r', 'u', 'e'] (.bool true)
  | false : Word ['f', 'a', 'l', 's', 'e'] (.bool false)
  | null : Word ['n', 'u', 'l', 'l'] .null
  | undefined : Word ['u', 'n', 'd', 'e', 'f', 'i', 'n', 'e', 'd'] .null

/-- The key of a field: a string, a name, or a number that starts with a digit, for its text. -/
inductive Key : List Char → String → Prop
  | string {cs : List Char} {s : String} (h : Quoted cs s) : Key cs s
  | name {c : Char} {cs : List Char} (hc : isNameStart c = true)
    (hcs : ∀ d ∈ cs, isNamePart d = true) : Key (c :: cs) (String.ofList (c :: cs))
  | number {c : Char} {cs : List Char} {n : Number} (hc : Decimal.isDigit c = true)
    (h : Magnitude false (c :: cs) n) : Key (c :: cs) n.text

mutual

/-- A value and what it denotes. -/
inductive Value : List Char → Json → Prop
  | word {w : List Char} {v : Json} (h : Word w v) : Value w v
  | string {w : List Char} {s : String} (h : Quoted w s) : Value w (.str s)
  | number {w : List Char} {n : Number} (h : Numeral w n) : Value w (.num n)
  | array {w : List Char} {vs : List Json} (h : Items w vs) : Value ('[' :: (w ++ [']'])) (.arr vs)
  | object {w : List Char} {entries : List (String × Json)} (h : Fields w entries) :
    Value ('{' :: (w ++ ['}'])) (.obj (Entries.putAll [] entries))

/-- A value with trivia around it. -/
inductive Item : List Char → Json → Prop
  | mk {t w t' : List Char} {v : Json} (ht : Trivia t) (hv : Value w v) (ht' : Trivia t') :
    Item (t ++ (w ++ t')) v

/-- What stands between the brackets of an array; a comma may come last. -/
inductive Items : List Char → List Json → Prop
  | none {t : List Char} (ht : Trivia t) : Items t []
  | last {w : List Char} {v : Json} (h : Item w v) : Items w [v]
  | more {w ws : List Char} {v : Json} {vs : List Json} (h : Item w v) (hs : Items ws vs) :
    Items (w ++ ',' :: ws) (v :: vs)

/-- A key, a colon and a value, with trivia around them. -/
inductive Field : List Char → String × Json → Prop
  | mk {t key t' w : List Char} {name : String} {v : Json} (ht : Trivia t) (hkey : Key key name)
    (ht' : Trivia t') (h : Item w v) : Field (t ++ (key ++ (t' ++ ':' :: w))) (name, v)

/-- What stands between the braces of an object; a comma may come last. -/
inductive Fields : List Char → List (String × Json) → Prop
  | none {t : List Char} (ht : Trivia t) : Fields t []
  | last {w : List Char} {entry : String × Json} (h : Field w entry) : Fields w [entry]
  | more {w ws : List Char} {entry : String × Json} {entries : List (String × Json)}
    (h : Field w entry) (hs : Fields ws entries) : Fields (w ++ ',' :: ws) (entry :: entries)

end

/-- A whole text that is one data literal. -/
inductive Whole : List Char → Json → Prop
  | plain {t w t' : List Char} {v : Json} (ht : Trivia t) (hv : Value w v) (ht' : LastTrivia t') :
    Whole (t ++ (w ++ t')) v
  | semicolon {w t : List Char} {v : Json} (h : Item w v) (ht : LastTrivia t) :
    Whole (w ++ ';' :: t) v

end RouteContract.Literal
