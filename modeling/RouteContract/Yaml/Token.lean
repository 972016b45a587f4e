import RouteContract.Text.Integer

/-!
# Tokens of block text

The text of a YAML document as a row of tokens. Blocks have no closing marks of their own: a block
starts where a mark stands further to the right than the block around it, and ends before the first
token that stands further to the left, so the tokens `mapStart`, `seqStart` and `blockEnd` are put
in from the columns. A key is recognised only by the colon after it: the place of a possible key is
remembered, and `key` is put in there when the colon comes on the same line.

Plain and quoted scalars may go over several lines; a line end inside is a blank, and each further
one a line feed. Anchors, aliases, tags, directives and block scalars are not read.
-/

namespace RouteContract.Yaml

/-- A token. -/
inductive Token where
  | mapStart | seqStart | blockEnd
  | item | key | value
  | flowSeqStart | flowSeqEnd | flowMapStart | flowMapEnd | comma
  | documentStart | documentEnd
  | scalar (text : String) (plain : Bool)
deriving DecidableEq, Repr, Inhabited

/-- A character and where it stands. -/
structure Glyph where
  char : Char
  line : Nat
  column : Nat
  offset : Nat
deriving DecidableEq, Repr, Inhabited

/-- Whether a character ends a line. -/
def endsLine (c : Char) : Bool := c = '\n' || c = '\u2028' || c = '\u2029'

/-- Whether a character is a space or a tab. -/
def isSpacing (c : Char) : Bool := c = ' ' || c = '\t'

/-- Whether a character may stand in a document. -/
def isAllowed (c : Char) : Bool :=
  let n := c.toNat
  n = 0x9 || n = 0xa || n = 0xd || (0x20 ≤ n && n ≤ 0x7e) || n = 0x85
    || (0xa0 ≤ n && n ≤ 0xfffd) || 0x10000 ≤ n

/-- One line feed for each carriage return, with or without a line feed, and each next-line mark. -/
def unifyBreaks : List Char → List Char
  | [] => []
  | '\r' :: '\n' :: rest => '\n' :: unifyBreaks rest
  | c :: rest => (if c = '\r' ∨ c = '\u0085' then '\n' else c) :: unifyBreaks rest

/-- The characters with their places. -/
def glyphs (line column offset : Nat) : List Char → List Glyph
  | [] => []
  | c :: rest =>
    ⟨c, line, column, offset⟩ ::
      (if endsLine c then glyphs (line + 1) 0 (offset + 1) rest
       else glyphs line (column + 1) (offset + 1) rest)

/-- Whether the text is at its end, or at a blank or a line end. -/
def atGap : List Glyph → Bool
  | [] => true
  | g :: _ => isSpacing g.char || endsLine g.char

/-- Whether the text starts with a given character. -/
def startsWith (c : Char) (gs : List Glyph) : Bool := (gs.head?.map Glyph.char) = some c

/-- Whether a row of three equal marks at the front of a line divides documents. -/
def dividesDocuments (mark : Char) : List Glyph → Bool
  | a :: b :: c :: rest => a.column = 0 && [a, b, c].all (·.char = mark) && atGap rest
  | _ => false

/-- Whether a document ends or starts here. -/
def atDivision (gs : List Glyph) : Bool := dividesDocuments '-' gs || dividesDocuments '.' gs

/-- A gap inside a scalar as text: a first line end is a blank unless others follow. -/
def foldGap (gap : List Glyph) : List Char :=
  let text := gap.map Glyph.char
  match text.filter endsLine with
  | [] => text
  | ['\n'] => [' ']
  | '\n' :: more => more
  | breaks => breaks

/-- The characters of a gap. -/
def inGap (g : Glyph) : Bool := isSpacing g.char || endsLine g.char

/-! ### Plain scalars -/

/-- The characters of a plain scalar up to a gap or a mark that ends it. -/
def plainChunk? (inFlow : Bool) : List Glyph → Option (List Char × List Glyph)
  | [] => some ([], [])
  | g :: rest =>
    if inGap g then some ([], g :: rest)
    else if g.char = ':' ∧ inFlow ∧ [',', '?', '[', ']', '{', '}'].any (startsWith · rest) then none
    else if g.char = ':' ∧ atGap rest then some ([], g :: rest)
    else if inFlow ∧ [',', '[', ']', '{', '}'].contains g.char then some ([], g :: rest)
    else (plainChunk? inFlow rest).map fun (chunk, rest) => (g.char :: chunk, rest)

/-- Whether a tab after a line end stands where the indentation of the block would be. -/
def tabInIndent (indent : Int) (gap : List Glyph) : Bool :=
  (gap.dropWhile fun g => !endsLine g.char).any fun g => g.char = '\t' && g.column < indent

/-- A plain scalar: its text, whether a line end follows it, and the text after it. -/
def plainScalar? (inFlow : Bool) (indent : Int) :
    Nat → List Glyph → Option (List Char × Bool × List Glyph)
  | 0, _ => none
  | fuel + 1, gs => do
    let (chunk, rest) ← plainChunk? inFlow gs
    let gap := rest.takeWhile inGap
    let after := rest.dropWhile inGap
    if tabInIndent indent gap then none
    else
      let broken := gap.any fun g => endsLine g.char
      let outside := match after with
        | [] => true
        | g :: _ => (!inFlow && g.column < indent) || g.char = '#' || atDivision after
      let next ← if outside then some [] else (plainChunk? inFlow after).map Prod.fst
      if gap.isEmpty || next.isEmpty then some (chunk, broken, after)
      else do
        let (more, broken, rest) ← plainScalar? inFlow indent fuel after
        return (chunk ++ foldGap gap ++ more, broken, rest)

/-! ### Quoted scalars -/

/-- The character of an escape of one letter. -/
def escapeLetter? : Char → Option Char
  | '0' => some '\x00'
  | 'a' => some '\x07'
  | 'b' => some '\x08'
  | 't' => some '\t'
  | '\t' => some '\t'
  | 'n' => some '\n'
  | 'v' => some '\x0b'
  | 'f' => some '\x0c'
  | 'r' => some '\r'
  | 'e' => some '\x1b'
  | ' ' => some ' '
  | '"' => some '"'
  | '/' => some '/'
  | '\\' => some '\\'
  | 'N' => some '\u0085'
  | '_' => some '\u00a0'
  | 'L' => some '\u2028'
  | 'P' => some '\u2029'
  | _ => none

/-- The number of digits of an escape by code. -/
def escapeWidth? : Char → Option Nat
  | 'x' => some 2
  | 'u' => some 4
  | 'U' => some 8
  | _ => none

/-- The character of an escape after its backslash, and the text after it. -/
def escape? : List Glyph → Option (Char × List Glyph)
  | [] => none
  | g :: rest =>
    match escapeWidth? g.char with
    | some width => do
      let digits := (rest.take width).map Glyph.char
      if digits.length < width then none
      else
        let c ← (Text.natural? 16 digits).bind Text.scalar?
        return (c, rest.drop width)
    | none => (escapeLetter? g.char).map fun c => (c, rest)

/-- The characters of a quoted scalar up to a gap or its closing quote, and whether they end with an
escaped line end. -/
def quotedChunk? (single : Bool) : Nat → List Glyph → Option (List Char × Bool × List Glyph)
  | 0, _ => none
  | fuel + 1, gs =>
    match gs with
    | [] => some ([], false, [])
    | g :: rest =>
      if inGap g then some ([], false, gs)
      else if single && g.char = '\x27' then
        if startsWith '\x27' rest then do
          let (chunk, ends, rest) ← quotedChunk? single fuel (rest.drop 1)
          return ('\x27' :: chunk, ends, rest)
        else some ([], false, gs)
      else if !single && g.char = '"' then some ([], false, gs)
      else if !single && g.char = '\\' then
        match rest with
        | [] => none
        | b :: more =>
          if endsLine b.char then some ([], true, more)
          else do
            let (c, rest) ← escape? rest
            let (chunk, ends, rest) ← quotedChunk? single fuel rest
            return (c :: chunk, ends, rest)
      else do
        let (chunk, ends, rest) ← quotedChunk? single fuel rest
        return (g.char :: chunk, ends, rest)

/-- A quoted scalar after its opening quote. -/
def quotedScalar? (single : Bool) : Nat → List Glyph → Option (List Char × List Glyph)
  | 0, _ => none
  | fuel + 1, gs =>
    if gs.isEmpty || atDivision gs then none
    else do
      let (chunk, escapedBreak, rest) ← quotedChunk? single (gs.length + 1) gs
      if startsWith (if single then '\x27' else '"') rest then some (chunk, rest.drop 1)
      else do
        let gap := rest.takeWhile inGap
        let blank := if escapedBreak then (gap.map Glyph.char).filter endsLine else foldGap gap
        let (more, rest) ← quotedScalar? single fuel (rest.dropWhile inGap)
        return (chunk ++ blank ++ more, rest)

/-! ### The row of tokens -/

/-- A place where a key may have started. -/
structure KeyPlace where
  /-- The number of tokens before it. -/
  position : Nat
  /-- Whether nothing but a key can stand there. -/
  required : Bool
  glyph : Glyph
deriving Repr, Inhabited

/-- The tokens so far, and what decides about the next ones. -/
structure Scan where
  tokens : List Token := []
  /-- The column of the block, and those of the blocks around it. -/
  indent : Int := -1
  indents : List Int := []
  /-- Whether a key may start here. -/
  keyAllowed : Bool := true
  /-- The possible key of the block, and of each open bracket, the innermost first. -/
  keys : List (Option KeyPlace) := [none]
deriving Inhabited

namespace Scan

variable (s : Scan)

/-- Whether brackets are open. -/
def inFlow : Bool := 1 < s.keys.length

/-- Add a token. -/
def add (t : Token) : Scan := { s with tokens := s.tokens ++ [t] }

/-- Put a token in at a position. -/
def insert (position : Nat) (t : Token) : Scan :=
  { s with tokens := s.tokens.take position ++ t :: s.tokens.drop position }

/-- End the blocks that stand further to the right than a column. -/
def unroll (column : Int) : Scan :=
  if s.inFlow then s
  else
    let ended := (s.indent :: s.indents).takeWhile (column < ·)
    let around := (s.indent :: s.indents).dropWhile (column < ·)
    { s with
      tokens := s.tokens ++ ended.map fun _ => .blockEnd
      indent := around.headD (-1)
      indents := around.tail }

/-- Start a block at a column, unless it stands no further to the right than the one around it. -/
def roll (column position : Nat) (start : Token) : Scan :=
  if s.inFlow ∨ (column : Int) ≤ s.indent then s
  else { s.insert position start with indent := column, indents := s.indent :: s.indents }

/-- Forget the possible key; a required one fails. -/
def dropKey? : Option Scan :=
  match s.keys with
  | some k :: rest => if k.required then none else some { s with keys := none :: rest }
  | _ => some s

/-- Remember the place of a possible key. -/
def saveKey? (g : Glyph) : Option Scan :=
  if s.keyAllowed then do
    let required := !s.inFlow && s.indent = (g.column : Int)
    let s ← s.dropKey?
    return { s with keys := some ⟨s.tokens.length, required, g⟩ :: s.keys.tail }
  else some s

/-- Forget the keys that the place of a glyph has left behind: they end on their line. -/
def dropStaleKeys? (g : Glyph) : Option Scan := do
  let keys ← s.keys.mapM fun k =>
    match k with
    | none => some none
    | some k =>
      if k.glyph.line < g.line ∨ k.glyph.offset + 1024 < g.offset then
        if k.required then none else some none
      else some (some k)
  return { s with keys }

/-- An opening bracket. -/
def openFlow? (g : Glyph) (t : Token) : Option Scan := do
  let s ← s.saveKey? g
  return { s.add t with keys := none :: s.keys, keyAllowed := true }

/-- A closing bracket. -/
def closeFlow? (t : Token) : Option Scan := do
  let s ← s.dropKey?
  return { s.add t with keys := if s.inFlow then s.keys.tail else s.keys, keyAllowed := false }

/-- A comma. -/
def comma? : Option Scan := do
  let s ← s.dropKey?
  return { s.add .comma with keyAllowed := true }

/-- The mark of an item of a block sequence. -/
def item? (g : Glyph) : Option Scan := do
  if !s.inFlow && !s.keyAllowed then none
  else
    let s ← (s.roll g.column s.tokens.length .seqStart).dropKey?
    return { s.add .item with keyAllowed := true }

/-- The mark of a key. -/
def key? (g : Glyph) : Option Scan := do
  if !s.inFlow && !s.keyAllowed then none
  else
    let s ← (s.roll g.column s.tokens.length .mapStart).dropKey?
    return { s.add .key with keyAllowed := !s.inFlow }

/-- The mark of a value, after a key if one is possible. -/
def value? (g : Glyph) : Option Scan :=
  match s.keys with
  | some k :: rest =>
    let s := ({ s with keys := none :: rest }.insert k.position .key).roll
      k.glyph.column k.position .mapStart
    some { s.add .value with keyAllowed := false }
  | _ =>
    if !s.inFlow && !s.keyAllowed then none
    else
      let s := s.roll g.column s.tokens.length .mapStart
      some { s.add .value with keyAllowed := !s.inFlow }

/-- A mark between documents. -/
def divide? (t : Token) : Option Scan := do
  let s ← (s.unroll (-1)).dropKey?
  return { s.add t with keyAllowed := false }

/-- A quoted scalar. -/
def quoted? (g : Glyph) (rest : List Glyph) : Option (Scan × List Glyph) := do
  let s ← s.saveKey? g
  let (text, rest) ← quotedScalar? (g.char = '\x27') (rest.length + 1) rest
  return ({ s.add (.scalar (String.ofList text) false) with keyAllowed := false }, rest)

/-- A plain scalar. -/
def plain? (g : Glyph) (gs : List Glyph) : Option (Scan × List Glyph) := do
  let s ← s.saveKey? g
  let (text, broken, rest) ← plainScalar? s.inFlow (s.indent + 1) (gs.length + 1) gs
  return ({ s.add (.scalar (String.ofList text) true) with keyAllowed := broken }, rest)

/-- Whether a plain scalar may start here. -/
def startsPlain (g : Glyph) (rest : List Glyph) : Bool :=
  if inGap g then false
  else if g.char = '-' then !(rest.head?.any fun n => isSpacing n.char)
  else if g.char = '?' ∨ g.char = ':' then !s.inFlow && !atGap rest
  else !",[]\x7b\x7d#&*!|>'\"%@\x60".toList.contains g.char

/-- Read one token at a glyph. -/
def token? (g : Glyph) (rest : List Glyph) : Option (Scan × List Glyph) :=
  let one (s : Option Scan) : Option (Scan × List Glyph) := s.map fun s => (s, rest)
  if g.column = 0 ∧ g.char = '%' then none
  else if dividesDocuments '-' (g :: rest) then
    (s.divide? .documentStart).map fun s => (s, rest.drop 2)
  else if dividesDocuments '.' (g :: rest) then
    (s.divide? .documentEnd).map fun s => (s, rest.drop 2)
  else if g.char = '[' then one (s.openFlow? g .flowSeqStart)
  else if g.char = '{' then one (s.openFlow? g .flowMapStart)
  else if g.char = ']' then one (s.closeFlow? .flowSeqEnd)
  else if g.char = '}' then one (s.closeFlow? .flowMapEnd)
  else if g.char = ',' then one s.comma?
  else if g.char = '-' ∧ atGap rest then one (s.item? g)
  else if g.char = '?' ∧ (s.inFlow ∨ atGap rest) then one (s.key? g)
  else if g.char = ':' ∧ (s.inFlow ∨ atGap rest) then one (s.value? g)
  else if g.char = '\x27' ∨ g.char = '"' then s.quoted? g rest
  else if s.startsPlain g rest then s.plain? g (g :: rest)
  else none

/-- The mark that shows the order of bytes. -/
def byteOrderMark : Char := '\ufeff'

/-- Skip blanks, comments and line ends. A key may start on a new line outside brackets; a tab is no
blank where a key may start. A byte order mark at the front of a line is skipped, but what follows
it stands one column further to the right. -/
def skip (s : Scan) : List Glyph → Bool → Scan × List Glyph
  | [], _ => (s, [])
  | g :: rest, inComment =>
    if endsLine g.char then skip { s with keyAllowed := s.keyAllowed || !s.inFlow } rest false
    else if inComment || g.char = ' ' || (g.char = '\t' && (s.inFlow || !s.keyAllowed))
        || (g.char = byteOrderMark && g.column = 0) then
      skip s rest inComment
    else if g.char = '#' then skip s rest true
    else (s, g :: rest)

/-- End all blocks. -/
def finish? : Option Scan := (s.unroll (-1)).dropKey?

/-- Read tokens to the end of the text. -/
def run? : Nat → Scan → List Glyph → Option (List Token)
  | 0, _, _ => none
  | fuel + 1, s, gs =>
    let (s, gs) := s.skip gs false
    match gs with
    | [] => s.finish?.map Scan.tokens
    | g :: rest => do
      let s ← s.dropStaleKeys? g
      let (s, rest) ← (s.unroll g.column).token? g rest
      run? fuel s rest

end Scan

/-- The tokens of a text. -/
def tokens? (text : String) : Option (List Token) :=
  let cs := text.toList
  if cs.all isAllowed then
    let gs := glyphs 0 0 0 (unifyBreaks cs)
    Scan.run? (gs.length + 1) {} gs
  else none

end RouteContract.Yaml
