import Mathlib
import RouteContract.Literal.Reader
import RouteContract.Proofs.Text.Bytes

/-!
# Reading data literals with a cursor

A reader of a text may keep a cursor, the number of characters before it, instead of the text that
is left. `Cursor.parse` is the reader of data literals in this form. Its moves and its arithmetic
are checked: it halts when the cursor would go behind the last character, when a whole number does
not fit into 64 bits, and when more steps are inside each other than were allowed.

A cursor stands before the text that is left (`At`). To show that the reader halts for none of these
reasons, it is held to the reader of the text left, reading by reading (`Tracks`): a fault is met
where that reader meets it, so its offset is that of a character of the text, or of its end.
-/

namespace RouteContract.Literal.Cursor

/-- Why a reading halts. -/
inductive Halt where
  /-- The text is no literal: the error that is reported. -/
  | fault (e : Error)
  /-- The cursor would be moved behind the last character. -/
  | beyond
  /-- A whole number does not fit into 64 bits. -/
  | overflow
  /-- More steps are inside each other than were allowed. -/
  | exhausted
deriving DecidableEq, Repr

/-- The outcome of a reading with a cursor; most give a value with the next position. -/
abbrev Run := Except Halt

section Readers

variable (text : List Char)

/-- The offset of the character under the cursor; without one it is the length of the text. -/
def offset (pos : ℕ) : ℕ :=
  ((Text.charIndices 0 text)[pos]?.map Prod.fst).getD (Text.byteSize text)

/-- Report a fault at a position. -/
def fail {α : Type} (fault : Fault) (pos : ℕ) : Run α := .error (.fault ⟨fault, offset text pos⟩)

/-- Move the cursor on by a number of characters. -/
def advance (n pos : ℕ) : Run ℕ :=
  if pos + n ≤ text.length then .ok (pos + n) else .error .beyond

/-- Whole numbers of 64 bits. -/
def checked64 (i : ℤ) : Run ℤ :=
  if -(Text.bits63 : ℤ) ≤ i ∧ i < Text.bits63 then .ok i else .error .overflow

/-- Move on while characters are accepted after those that were taken; some of them are taken. -/
def gather (accepts : List Char → Char → Bool) (takes : Char → Bool) :
    ℕ → List Char → ℕ → Run (List Char × ℕ)
  | 0, _, _ => .error .exhausted
  | fuel + 1, taken, pos =>
    match text[pos]? with
    | none => .ok (taken, pos)
    | some c =>
      if accepts taken c then do
        let pos ← advance text 1 pos
        gather accepts takes fuel (if takes c then taken ++ [c] else taken) pos
      else .ok (taken, pos)

/-- Move behind the end of a block comment. -/
def closeBlock : ℕ → ℕ → Run ℕ
  | 0, _ => .error .exhausted
  | fuel + 1, pos =>
    match text[pos]? with
    | none => fail text .unterminatedComment pos
    | some c =>
      if c = '*' ∧ text[pos + 1]? = some '/' then advance text 2 pos
      else do
        let pos ← advance text 1 pos
        closeBlock fuel pos

/-- Skip white space and comments. -/
def skipTrivia : ℕ → ℕ → Run ℕ
  | 0, _ => .error .exhausted
  | fuel + 1, pos =>
    match text[pos]? with
    | none => .ok pos
    | some c =>
      if Text.isBlank c then do
        let pos ← advance text 1 pos
        skipTrivia fuel pos
      else if c = '/' ∧ text[pos + 1]? = some '/' then do
        let (_, pos) ← gather text (fun _ c => c ≠ '\n') (fun _ => false) fuel [] pos
        skipTrivia fuel pos
      else if c = '/' ∧ text[pos + 1]? = some '*' then do
        let pos ← advance text 2 pos
        let pos ← closeBlock text fuel pos
        skipTrivia fuel pos
      else .ok pos

/-- The body of a quoted string; without an end it is the fault of its beginning. -/
def quotedBody (quote : Char) (start : ℕ) : ℕ → List Char → ℕ → Run (List Char × ℕ)
  | 0, _, _ => .error .exhausted
  | fuel + 1, body, pos =>
    match text[pos]? with
    | none => fail text .unterminatedString start
    | some c =>
      if c = '\\' then do
        let pos ← advance text 1 pos
        match text[pos]? with
        | none => quotedBody quote start fuel (body ++ ['\\']) pos
        | some d => do
          let pos ← advance text 1 pos
          quotedBody quote start fuel (body ++ ['\\', d]) pos
      else if quote = '\x60' ∧ c = '$' ∧ text[pos + 1]? = some '{' then
        fail text .substitution pos
      else if c = '\n' ∧ quote ≠ '\x60' then fail text .lineBreakInString pos
      else if c = quote then do
        let pos ← advance text 1 pos
        return (body, pos)
      else do
        let pos ← advance text 1 pos
        quotedBody quote start fuel (body ++ [c]) pos

/-- A quoted string from its opening quote on. -/
def quoted (fuel : ℕ) (quote : Char) (start : ℕ) : Run (String × ℕ) := do
  let pos ← advance text 1 start
  let (body, pos) ← quotedBody text quote start fuel [] pos
  return (String.ofList (unescapeChars body), pos)

/-- A whole number of 64 bits, its sign changed if there was a minus before it. -/
def signed (negative : Bool) (i : ℤ) : Run Number := do
  let i ← checked64 i
  let i ← if negative then checked64 (-i) else pure i
  return .int i

/-- The marks of a number with a point or an exponent. -/
def isMark (c : Char) : Bool := c = '.' || c = 'e' || c = 'E'

/-- A character of a decimal number; a sign follows the mark of an exponent only. -/
def isDecimalPart (taken : List Char) (c : Char) : Bool :=
  Decimal.isDigit c || isMark c || c = '_' ||
    ((c = '-' || c = '+') && (taken.getLast? = some 'e' || taken.getLast? = some 'E'))

/-- The value of the digits of a hexadecimal number. -/
def hexadecimalValue (start : ℕ) (negative : Bool) (digits : List Char) (pos : ℕ) :
    Run (Number × ℕ) :=
  match Text.signed64? 16 digits with
  | none => fail text .badHexadecimal start
  | some i => do return (← signed negative i, pos)

/-- A hexadecimal number behind its mark. -/
def hexadecimal (fuel start : ℕ) (negative : Bool) (pos : ℕ) : Run (Number × ℕ) := do
  let (digits, pos) ← gather text (fun _ c => (Text.digit? 16 c).isSome || c = '_') (· ≠ '_')
    fuel [] pos
  hexadecimalValue text start negative digits pos

/-- The value of the characters of a decimal number. -/
def decimalValue (start : ℕ) (negative : Bool) (digits : List Char) (pos : ℕ) : Run (Number × ℕ) :=
  if digits = [] then fail text (.badNumber (String.ofList digits)) start
  else match if digits.any isMark then none else Text.signed64? 10 digits with
    | some i => do return (← signed negative i, pos)
    | none =>
      match (Decimal.read? digits).map Decimal.Written.toBinary64 with
      | none => fail text (.badNumber (String.ofList digits)) start
      | some x =>
        if x.isFinite then .ok (.float (if negative then x.neg else x), pos)
        else fail text (.badNumber (String.ofList digits)) start

/-- A decimal number behind its sign. -/
def decimal (fuel start : ℕ) (negative : Bool) (pos : ℕ) : Run (Number × ℕ) := do
  let (digits, pos) ← gather text isDecimalPart (· ≠ '_') fuel [] pos
  decimalValue text start negative digits pos

/-- A number behind its sign. -/
def unsignedNumber (fuel start : ℕ) (negative : Bool) (pos : ℕ) : Run (Number × ℕ) :=
  if text[pos]? = some '0' ∧ (text[pos + 1]? = some 'x' ∨ text[pos + 1]? = some 'X') then do
    let pos ← advance text 2 pos
    hexadecimal text fuel start negative pos
  else decimal text fuel start negative pos

/-- A number with an optional sign. -/
def number (fuel start : ℕ) : Run (Number × ℕ) :=
  if text[start]? = some '-' then do
    let pos ← advance text 1 start
    unsignedNumber text fuel start true pos
  else if text[start]? = some '+' then do
    let pos ← advance text 1 start
    unsignedNumber text fuel start false pos
  else unsignedNumber text fuel start false start

/-- A name. -/
def name (fuel pos : ℕ) : Run (String × ℕ) := do
  let (word, pos) ← gather text (fun _ c => isNamePart c) (fun _ => true) fuel [] pos
  return (String.ofList word, pos)

/-- The key of a field. -/
def key (fuel pos : ℕ) : Run (String × ℕ) :=
  match text[pos]? with
  | none => fail text .missingKey pos
  | some c =>
    if isQuote c then quoted text fuel c pos
    else if isNameStart c then name text fuel pos
    else if Decimal.isDigit c then do
      let (n, pos) ← number text fuel pos
      return (n.text, pos)
    else fail text .missingKey pos

/-- The colon after a key. -/
def colon (fuel pos : ℕ) : Run ℕ := do
  let pos ← skipTrivia text fuel pos
  if text[pos]? = some ':' then advance text 1 pos else fail text .missingColon pos

/-- A comma, or nothing before the closing character. -/
def separator (close : Char) (fault : Fault) (fuel pos : ℕ) : Run ℕ := do
  let pos ← skipTrivia text fuel pos
  if text[pos]? = some ',' then advance text 1 pos
  else if text[pos]? = some close then return pos
  else fail text fault pos

mutual

/-- A value with the white space before it. -/
def value : ℕ → ℕ → Run (Json × ℕ)
  | 0, _ => .error .exhausted
  | fuel + 1, pos => do
    let pos ← skipTrivia text fuel pos
    match text[pos]? with
    | none => fail text .unexpectedEnd pos
    | some c =>
      if c = '{' then
        let pos ← advance text 1 pos
        let (entries, pos) ← fields fuel [] pos
        return (.obj entries, pos)
      else if c = '[' then
        let pos ← advance text 1 pos
        let (list, pos) ← items fuel [] pos
        return (.arr list, pos)
      else if isQuote c then
        let (s, pos) ← quoted text fuel c pos
        return (.str s, pos)
      else if Decimal.isDigit c ∨ c = '-' ∨ c = '+' ∨ c = '.' then
        let (n, pos) ← number text fuel pos
        return (.num n, pos)
      else if isNameStart c then
        let (word, pos) ← name text fuel pos
        match word? word with
        | some v => return (v, pos)
        | none => fail text (.notData word) pos
      else fail text .unexpectedCharacter pos

/-- The items of an array up to its closing bracket, put after those already read. -/
def items : ℕ → List Json → ℕ → Run (List Json × ℕ)
  | 0, _, _ => .error .exhausted
  | fuel + 1, list, pos => do
    let pos ← skipTrivia text fuel pos
    match text[pos]? with
    | none => fail text .unterminatedArray pos
    | some c =>
      if c = ']' then
        let pos ← advance text 1 pos
        return (list, pos)
      else
        let (item, pos) ← value fuel pos
        let pos ← separator text ']' .missingComma fuel pos
        items fuel (list ++ [item]) pos

/-- The fields of an object up to its closing brace, put after those already read. -/
def fields : ℕ → List (String × Json) → ℕ → Run (List (String × Json) × ℕ)
  | 0, _, _ => .error .exhausted
  | fuel + 1, entries, pos => do
    let pos ← skipTrivia text fuel pos
    match text[pos]? with
    | none => fail text .unterminatedObject pos
    | some c =>
      if c = '}' then
        let pos ← advance text 1 pos
        return (entries, pos)
      else
        let (k, pos) ← key text fuel pos
        let pos ← colon text fuel pos
        let (v, pos) ← value fuel pos
        let pos ← separator text '}' .missingFieldComma fuel pos
        fields fuel (Entries.put k v entries) pos

end

/-- A semicolon, or nothing, with the white space and comments behind it. -/
def semicolon (fuel pos : ℕ) : Run ℕ :=
  if text[pos]? = some ';' then do
    let pos ← advance text 1 pos
    skipTrivia text fuel pos
  else .ok pos

/-- A whole text: a value and at most one semicolon. -/
def parse (fuel : ℕ) : Run Json := do
  let (v, pos) ← value text fuel 0
  let pos ← skipTrivia text fuel pos
  let pos ← semicolon text fuel pos
  if pos < text.length then fail text .trailingInput pos else return v

end Readers

/-! ### Positions -/

section Positions

variable {text rest : List Char} {pos : ℕ}

/-- A cursor stands before a text that is left. -/
structure At (text : List Char) (pos : ℕ) (rest : List Char) : Prop where
  le_length : pos ≤ text.length
  drop_eq : text.drop pos = rest

theorem at_zero (text : List Char) : At text 0 text := ⟨Nat.zero_le _, rfl⟩

/-- What is left are the characters from the cursor on. -/
theorem At.getElem?_add (h : At text pos rest) (k : ℕ) : text[pos + k]? = rest[k]? := by
  rw [← h.drop_eq, List.getElem?_drop]

theorem At.head? (h : At text pos rest) : text[pos]? = rest.head? :=
  (h.getElem?_add 0).trans List.head?_eq_getElem?.symm

theorem At.getElem?_end (h : At text pos []) : text[pos]? = none := h.getElem?_add 0

theorem At.getElem? {c : Char} (h : At text pos (c :: rest)) : text[pos]? = some c :=
  h.getElem?_add 0

theorem At.getElem?_next {c : Char} (h : At text pos (c :: rest)) :
    text[pos + 1]? = rest.head? := by
  rw [h.getElem?_add, List.getElem?_cons_succ, List.head?_eq_getElem?]

theorem At.length (h : At text pos rest) : pos + rest.length = text.length := by
  have := h.le_length
  rw [← h.drop_eq, List.length_drop]
  omega

theorem At.next {c : Char} (h : At text pos (c :: rest)) : At text (pos + 1) rest := by
  have hlength := h.length
  rw [List.length_cons] at hlength
  refine ⟨by omega, ?_⟩
  rw [← List.drop_drop, h.drop_eq, List.drop_one, List.tail_cons]

/-- A character that is there may be passed. -/
theorem At.advance_one {c : Char} (h : At text pos (c :: rest)) :
    Cursor.advance text 1 pos = .ok (pos + 1) :=
  if_pos h.next.le_length

theorem At.advance_two {c d : Char} (h : At text pos (c :: d :: rest)) :
    Cursor.advance text 2 pos = .ok (pos + 2) :=
  if_pos h.next.next.le_length

/-- The offset of a position is the size of the text before it. -/
theorem offset_eq (h : pos ≤ text.length) :
    offset text pos = Text.byteSize (text.take pos) := by
  rw [offset, Text.charIndices_getElem?]
  split
  · rw [Option.getD_some, Nat.zero_add]
  · rw [Option.getD_none, List.take_of_length_le (by omega)]

theorem At.offset (h : At text pos rest) :
    Cursor.offset text pos = Text.byteSize text - Text.byteSize rest := by
  have hsize := congrArg Text.byteSize (List.take_append_drop pos text)
  rw [Text.byteSize_append, h.drop_eq] at hsize
  rw [offset_eq h.le_length]
  omega

end Positions

/-! ### Keeping up with the text left -/

/-- A reading with a cursor does what a reading of the text left does: it halts only for the fault
that is met, under the cursor that stands before the text left then. -/
inductive Tracks (text : List Char) {α β : Type} (Q : α → β → Prop) : Run α → Outcome β → Prop where
  | ok {a : α} {b : β} (h : Q a b) : Tracks text Q (.ok a) (.ok b)
  | fault {pos : ℕ} {f : Failure} (h : At text pos f.left) :
    Tracks text Q (fail text f.fault pos) (.error f)

/-- The same value, with the cursor before the text left. -/
def Stands (text : List Char) {α : Type} (a : α × ℕ) (b : α × List Char) : Prop :=
  a.1 = b.1 ∧ At text a.2 b.2

section Tracks

variable {text : List Char} {α β γ δ : Type} {Q : α → β → Prop} {R : γ → δ → Prop}
  {m : Run α} {r : Outcome β}

theorem Tracks.bind {f : α → Run γ} {g : β → Outcome δ} (h : Tracks text Q m r)
    (hf : ∀ a b, Q a b → r = .ok b → Tracks text R (f a) (g b)) :
    Tracks text R (m >>= f) (r >>= g) := by
  cases h with
  | ok h => exact hf _ _ h rfl
  | fault h => exact .fault h

/-- What is read next starts where the first reading ended. -/
theorem Tracks.next {v : Type} {m : Run (v × ℕ)} {r : Outcome (v × List Char)} {f : v × ℕ → Run γ}
    {g : v × List Char → Outcome δ} (h : Tracks text (Stands text) m r)
    (hf : ∀ a pos rest, At text pos rest → r = .ok (a, rest) →
      Tracks text R (f (a, pos)) (g (a, rest))) :
    Tracks text R (m >>= f) (r >>= g) := by
  refine h.bind ?_
  rintro ⟨a, pos⟩ ⟨-, rest⟩ ⟨rfl, hat⟩ hr
  exact hf a pos rest hat hr

theorem Tracks.map {f : α → γ} {g : β → δ} (h : Tracks text Q m r)
    (hf : ∀ a b, Q a b → R (f a) (g b)) :
    Tracks text R (m >>= fun a => return f a) (r.map g) := by
  cases h with
  | ok h => exact .ok (hf _ _ h)
  | fault h => exact .fault h

/-- A reading that gives a value is followed by one that does. -/
theorem Tracks.exists_ok {b : β} (h : Tracks text Q m (.ok b)) : ∃ a, m = .ok a ∧ Q a b := by
  cases h with
  | ok h => exact ⟨_, rfl, h⟩

/-- The value may be changed in the reading of the text left. -/
theorem Tracks.map_right {S : α → δ → Prop} {g : β → δ} (h : Tracks text Q m r)
    (hg : ∀ a b, Q a b → S a (g b)) : Tracks text S m (r.map g) := by
  cases h with
  | ok h => exact .ok (hg _ _ h)
  | fault h => exact .fault h

end Tracks

end RouteContract.Literal.Cursor
