import Mathlib
import RouteContract.Proofs.Json.Entries
import RouteContract.Proofs.Literal.Acceptance

/-!
# Reading what was printed

`Rendered v w` says that the text `w` is a way to write the JSON value `v`: whole numbers in
decimal, each string and key in any of the three quotes, trivia between tokens, and a comma after
the last item where wanted. A rendering is a derivation of the grammar (`Rendered.value`), so that
reading it gives the value back, with its fields in their order (`parse_rendering`). The compact
text of a value is one of its renderings.

A string is spelled character by character. The scanner of bodies and the reader of escapes agree
on every spelling, because a spelling is a body and denotes its text at once (`Spelled.body`,
`Spelled.unescaped`).
-/

namespace RouteContract.Literal

/-! ### Spellings of a string -/

/-- The escapes of control characters by a letter. -/
def controlLetters : List (Char × Char) :=
  [('n', '\n'), ('t', '\t'), ('r', '\r'), ('b', '\x08'), ('f', '\x0c')]

/-- A text and a way to write it between two quotes. The backslash, the quote, the line feed and,
between backticks, the dollar are escaped; a character below 256 may be written as its code. -/
inductive Spelled (quote : Char) : List Char → List Char → Prop
  | nil : Spelled quote [] []
  | raw {c : Char} {text body : List Char} (hescape : c ≠ '\\') (hquote : c ≠ quote)
    (hline : c ≠ '\n') (hdollar : quote = '\x60' → c ≠ '$') (h : Spelled quote text body) :
    Spelled quote (c :: text) (c :: body)
  | escaped {c : Char} {text body : List Char}
    (hc : c = '\\' ∨ c = quote ∨ quote = '\x60' ∧ c = '$') (h : Spelled quote text body) :
    Spelled quote (c :: text) ('\\' :: c :: body)
  | letter {c d : Char} {text body : List Char} (hc : (c, d) ∈ controlLetters)
    (h : Spelled quote text body) : Spelled quote (d :: text) ('\\' :: c :: body)
  | code {c high low : Char} {text body : List Char}
    (hc : Text.natural? 16 [high, low] = some c.toNat) (h : Spelled quote text body) :
    Spelled quote (c :: text) ('\\' :: 'u' :: '0' :: '0' :: high :: low :: body)

/-- A string in quotes. -/
inductive Quotation : String → List Char → Prop
  | mk {quote : Char} {s : String} {body : List Char} (hquote : isQuote quote = true)
    (h : Spelled quote s.toList body) : Quotation s (quote :: (body ++ [quote]))

theorem isQuote_not_digit {c d : Char} (hquote : isQuote c = true)
    (hdigit : (Text.digit? 16 d).isSome = true) : d ≠ '\\' ∧ d ≠ c ∧ d ≠ '\n' ∧ d ≠ '$' := by
  refine ⟨?_, ?_, ?_, ?_⟩
  · rintro rfl
    exact absurd hdigit (by decide)
  · rintro rfl
    rcases isQuote_cases hquote with rfl | rfl | rfl <;> exact absurd hdigit (by decide)
  all_goals
    rintro rfl
    exact absurd hdigit (by decide)

/-- The four digits of a code in a body. -/
theorem Body.digits {quote : Char} (hquote : isQuote quote = true) {ds body : List Char}
    (hds : ∀ d ∈ ds, (Text.digit? 16 d).isSome = true) (h : Body quote body) :
    Body quote (ds ++ body) := by
  induction ds with
  | nil => exact h
  | cons d ds ih =>
    rw [List.forall_mem_cons] at hds
    obtain ⟨hescape, hend, hline, hdollar⟩ := isQuote_not_digit hquote hds.1
    exact .plain hescape hend (fun e => absurd e hline) (fun _ e => absurd e hdollar) (ih hds.2)

/-- The scanner takes a spelling up to its closing quote. -/
theorem Spelled.body {quote : Char} (hquote : isQuote quote = true) {text body : List Char}
    (h : Spelled quote text body) : Body quote body := by
  induction h with
  | nil => exact .nil
  | raw hescape hend hline hdollar _ ih =>
    exact .plain hescape hend (fun e => absurd e hline) (fun hq e => absurd e (hdollar hq)) ih
  | escaped _ _ ih => exact .escape _ ih
  | letter _ _ ih => exact .escape _ ih
  | @code c high low _ _ hc _ ih =>
    have hdigits : ∀ d ∈ ['0', '0', high, low], (Text.digit? 16 d).isSome = true := by
      rw [List.forall_mem_cons, List.forall_mem_cons]
      exact ⟨by decide, by decide, (digits_of_natural? hc).2⟩
    exact .escape 'u' (ih.digits hquote hdigits)

theorem codeDenotes_of_natural? {c high low : Char}
    (hc : Text.natural? 16 [high, low] = some c.toNat) :
    CodeDenotes ['0', '0', high, low] [c] := by
  have hvalid : c.toNat < 0xd800 ∨ 0xdfff < c.toNat ∧ c.toNat < 0x110000 := c.valid
  have hn : Text.unsigned? 16 Text.bits32 ['0', '0', high, low] = some c.toNat :=
    filter_lt_eq_some.2 ⟨hc, by unfold Text.bits32; omega⟩
  refine .character hn ?_
  rw [Text.scalar?, if_pos hvalid, Char.ofNat_toNat]

/-- The reader of escapes gives the text that was spelled. -/
theorem Spelled.unescaped {quote : Char} (hquote : isQuote quote = true) {text body : List Char}
    (h : Spelled quote text body) : Unescaped body text := by
  induction h with
  | nil => exact .nil
  | raw hescape _ _ _ _ ih => exact .plain hescape ih
  | escaped hc _ ih =>
    refine .other ?_ ih
    rcases hc with rfl | rfl | ⟨-, rfl⟩
    · decide
    · rcases isQuote_cases hquote with rfl | rfl | rfl <;> decide
    · decide
  | letter hc _ ih =>
    refine .letter ?_ ih
    fin_cases hc <;> decide
  | code hc _ ih =>
    exact Unescaped.code4 (.inl rfl) (by simp) (codeDenotes_of_natural? hc) ih

theorem Quotation.quoted {s : String} {w : List Char} (h : Quotation s w) : Quoted w s := by
  obtain @⟨quote, s, body, hquote, h⟩ := h
  have := Quoted.mk hquote (h.body hquote) (h.unescaped hquote)
  rwa [String.ofList_toList] at this

/-! ### Whole numbers in decimal -/

theorem digit?_of_isDigit {c : Char} (h : c.isDigit = true) :
    Text.digit? 10 c = some (c.toNat - '0'.toNat) := by
  have hbounds : 48 ≤ c.toNat ∧ c.toNat ≤ 57 := by
    simpa [Char.isDigit, UInt32.le_iff_toNat_le] using h
  simp only [Text.digit?, Char.reduceToNat]
  rw [if_pos hbounds, Option.filter_some, if_pos (by simpa using by omega)]

/-- Digits are read onto a value as the library reads them. -/
theorem digitsFrom?_eq {cs : List Char} (h : ∀ c ∈ cs, c.isDigit = true) (acc : Nat) :
    Text.digitsFrom? 10 acc cs = some (Nat.ofDigitChars 10 cs acc) := by
  induction cs generalizing acc with
  | nil => rfl
  | cons c cs ih =>
    rw [List.forall_mem_cons] at h
    rw [Text.digitsFrom?, digit?_of_isDigit h.1]
    simp only
    rw [ih h.2, Nat.ofDigitChars, Nat.ofDigitChars, List.foldl_cons, Nat.mul_comm]

theorem isDigit_of_mem_decimalChars {n : Nat} {c : Char} (h : c ∈ Text.decimalChars n) :
    c.isDigit = true :=
  Nat.isDigit_of_mem_toDigits (by decide) (by decide) h

/-- A number is read back from its decimal digits. -/
theorem natural?_decimalChars (n : Nat) : Text.natural? 10 (Text.decimalChars n) = some n := by
  have hread := digitsFrom?_eq (fun c hc => isDigit_of_mem_decimalChars (n := n) hc) 0
  have hn : Nat.ofDigitChars 10 (Text.decimalChars n) 0 = n :=
    Nat.ofDigitChars_toDigits (by decide) (by decide)
  rw [hn] at hread
  rw [← hread]
  unfold Text.natural?
  split
  next h => exact absurd h Nat.toDigits_ne_nil
  next => rfl

theorem magnitude_decimalChars (negative : Bool) {n : Nat} (hn : n < Text.bits63) :
    Magnitude negative (Text.decimalChars n) (signed negative n) := by
  have hplain : withoutSeparators (Text.decimalChars n) = Text.decimalChars n := by
    refine List.filter_eq_self.2 fun c hc => ?_
    have hne : c ≠ '_' := by
      rintro rfl
      exact absurd (isDigit_of_mem_decimalChars hc) (by decide)
    simpa using hne
  exact .integer (hplain.symm ▸ natural?_decimalChars n) hn

/-- The decimal text of a whole number is a number. -/
theorem numeral_integerText {n : Int} (hlow : -(Text.bits63 : Int) < n)
    (hhigh : n < (Text.bits63 : Int)) : Numeral (Text.integerText n).toList (.int n) := by
  cases n with
  | ofNat n =>
    have hmagnitude := magnitude_decimalChars false (Int.ofNat_lt.1 hhigh)
    have hdigit : ∀ c ∈ Text.decimalChars n, Decimal.isDigit c = true :=
      (digits_of_natural? (natural?_decimalChars n)).2
    rw [Text.integerText, String.toList_ofList]
    cases hchars : Text.decimalChars n with
    | nil => exact absurd hchars Nat.toDigits_ne_nil
    | cons c cs =>
      rw [hchars] at hmagnitude hdigit
      exact .unsigned (.inl (hdigit c (.head _))) hmagnitude
  | negSucc n =>
    have hsize : n + 1 < Text.bits63 := by omega
    rw [Text.integerText, String.toList_ofList]
    exact .minus (magnitude_decimalChars true hsize)

/-! ### Renderings of a value -/

mutual

/-- A value and a way to write it. -/
inductive Rendered : Json → List Char → Prop
  | null : Rendered .null ['n', 'u', 'l', 'l']
  | true : Rendered (.bool true) ['t', 'r', 'u', 'e']
  | false : Rendered (.bool false) ['f', 'a', 'l', 's', 'e']
  | int (n : Int) : Rendered (.num (.int n)) (Text.integerText n).toList
  | string {s : String} {w : List Char} (h : Quotation s w) : Rendered (.str s) w
  | array {vs : List Json} {w : List Char} (h : RenderedItems vs w) :
    Rendered (.arr vs) ('[' :: (w ++ [']']))
  | object {entries : List (String × Json)} {w : List Char} (h : RenderedFields entries w) :
    Rendered (.obj entries) ('{' :: (w ++ ['}']))

/-- The items of an array between the brackets; a comma may come last. -/
inductive RenderedItems : List Json → List Char → Prop
  | none {t : List Char} (ht : Trivia t) : RenderedItems [] t
  | last {v : Json} {t w t' : List Char} (ht : Trivia t) (h : Rendered v w) (ht' : Trivia t') :
    RenderedItems [v] (t ++ (w ++ t'))
  | more {v : Json} {vs : List Json} {t w t' ws : List Char} (ht : Trivia t) (h : Rendered v w)
    (ht' : Trivia t') (hs : RenderedItems vs ws) :
    RenderedItems (v :: vs) (t ++ (w ++ t') ++ ',' :: ws)

/-- The fields of an object between the braces; a comma may come last. -/
inductive RenderedFields : List (String × Json) → List Char → Prop
  | none {t : List Char} (ht : Trivia t) : RenderedFields [] t
  | last {name : String} {v : Json} {key w t₁ t₂ t₃ t₄ : List Char} (ht₁ : Trivia t₁)
    (hkey : Quotation name key) (ht₂ : Trivia t₂) (ht₃ : Trivia t₃) (h : Rendered v w)
    (ht₄ : Trivia t₄) :
    RenderedFields [(name, v)] (t₁ ++ (key ++ (t₂ ++ ':' :: (t₃ ++ (w ++ t₄)))))
  | more {name : String} {v : Json} {entries : List (String × Json)}
    {key w t₁ t₂ t₃ t₄ ws : List Char} (ht₁ : Trivia t₁) (hkey : Quotation name key)
    (ht₂ : Trivia t₂) (ht₃ : Trivia t₃) (h : Rendered v w) (ht₄ : Trivia t₄)
    (hs : RenderedFields entries ws) :
    RenderedFields ((name, v) :: entries)
      (t₁ ++ (key ++ (t₂ ++ ':' :: (t₃ ++ (w ++ t₄)))) ++ ',' :: ws)

end

/-- A whole text that is a rendering, with at most one semicolon after it. -/
inductive WholeRendering (v : Json) : List Char → Prop
  | plain {t w t' : List Char} (ht : Trivia t) (h : Rendered v w) (ht' : LastTrivia t') :
    WholeRendering v (t ++ (w ++ t'))
  | semicolon {t w t' t'' : List Char} (ht : Trivia t) (h : Rendered v w) (ht' : Trivia t')
    (ht'' : LastTrivia t'') : WholeRendering v (t ++ (w ++ t') ++ ';' :: t'')

mutual

/-- A value without floating point numbers, whose whole numbers fit 63 bits and a sign and whose
objects have distinct names. -/
def Plain : Json → Prop
  | .null => True
  | .bool _ => True
  | .num (.int n) => -(Text.bits63 : Int) < n ∧ n < (Text.bits63 : Int)
  | .num (.float _) => False
  | .str _ => True
  | .arr items => PlainItems items
  | .obj entries => (Entries.names entries).Nodup ∧ PlainFields entries

/-- Every item is plain. -/
def PlainItems : List Json → Prop
  | [] => True
  | item :: rest => Plain item ∧ PlainItems rest

/-- The value of every field is plain. -/
def PlainFields : List (String × Json) → Prop
  | [] => True
  | (_, value) :: rest => Plain value ∧ PlainFields rest

end

/-! ### Renderings are literals -/

mutual

theorem Rendered.value {v : Json} {w : List Char} : Rendered v w → Plain v → Value w v
  | .null, _ => .word .null
  | .true, _ => .word .true
  | .false, _ => .word .false
  | .int _, ⟨hlow, hhigh⟩ => .number (numeral_integerText hlow hhigh)
  | .string h, _ => .string h.quoted
  | .array h, hv => .array (h.items hv)
  | .object h, ⟨hnames, hv⟩ => by
    have := Value.object (h.fields hv)
    rwa [Entries.putAll_nil_eq_self.2 hnames] at this

theorem RenderedItems.items {vs : List Json} {w : List Char} :
    RenderedItems vs w → PlainItems vs → Items w vs
  | .none ht, _ => .none ht
  | .last ht h ht', ⟨hv, _⟩ => .last (.mk ht (h.value hv) ht')
  | .more ht h ht' hs, ⟨hv, hvs⟩ => .more (.mk ht (h.value hv) ht') (hs.items hvs)

theorem RenderedFields.fields {entries : List (String × Json)} {w : List Char} :
    RenderedFields entries w → PlainFields entries → Fields w entries
  | .none ht, _ => .none ht
  | .last ht₁ hkey ht₂ ht₃ h ht₄, ⟨hv, _⟩ =>
    .last (.mk ht₁ (.string hkey.quoted) ht₂ (.mk ht₃ (h.value hv) ht₄))
  | .more ht₁ hkey ht₂ ht₃ h ht₄ hs, ⟨hv, hvs⟩ =>
    .more (.mk ht₁ (.string hkey.quoted) ht₂ (.mk ht₃ (h.value hv) ht₄)) (hs.fields hvs)

end

theorem WholeRendering.whole {v : Json} {cs : List Char} (h : WholeRendering v cs) (hv : Plain v) :
    Whole cs v := by
  cases h with
  | plain ht h ht' => exact .plain ht (h.value hv) ht'
  | semicolon ht h ht' ht'' => exact .semicolon (.mk ht (h.value hv) ht') ht''

/-! ### Compact text -/

/-- The four digits of the code of a control character. -/
theorem hexFixed_control : ∀ n < 32, ∃ high low, Text.hexFixed 4 n = ['0', '0', high, low] ∧
    Text.natural? 16 [high, low] = some n := by
  intro n hn
  refine ⟨Text.hexDigit (n / 16 % 16), Text.hexDigit (n % 16), ?_⟩
  interval_cases n <;> exact ⟨rfl, rfl⟩

/-- The escaped form of a character spells it between double quotes. -/
theorem spelled_escapeChar (c : Char) {text body : List Char} (h : Spelled '"' text body) :
    Spelled '"' (c :: text) (Json.escapeChar c ++ body) := by
  unfold Json.escapeChar
  split
  next hc =>
    subst hc
    exact .escaped (.inr (.inl rfl)) h
  split
  next hc =>
    subst hc
    exact .escaped (.inl rfl) h
  iterate 5
    split
    next hc =>
      subst hc
      exact .letter (by decide) h
  next hquote hescape _ _ hline _ _ =>
    split
    next hcontrol =>
      obtain ⟨high, low, hcode, hn⟩ := hexFixed_control c.toNat hcontrol
      rw [hcode]
      exact .code hn h
    next => exact .raw hescape hquote hline (fun hq => absurd hq (by decide)) h

theorem quotation_quote (s : String) : Quotation s (Json.quote s).toList := by
  have hspelled : ∀ cs : List Char, Spelled '"' cs (cs.flatMap Json.escapeChar) := by
    intro cs
    induction cs with
    | nil => exact .nil
    | cons c cs ih =>
      rw [List.flatMap_cons]
      exact spelled_escapeChar c ih
  rw [Json.quote, String.toList_ofList]
  exact .mk (by decide) (hspelled s.toList)

mutual

theorem rendered_compact : (v : Json) → Plain v → Rendered v v.compact.toList
  | .null, _ => .null
  | .bool true, _ => .true
  | .bool false, _ => .false
  | .num (.int n), _ => .int n
  | .str s, _ => .string (quotation_quote s)
  | .arr items, hv => by
    have := Rendered.array (renderedItems_compact items hv)
    simpa [Json.compact] using this
  | .obj entries, ⟨_, hv⟩ => by
    have := Rendered.object (renderedFields_compact entries hv)
    simpa [Json.compact] using this

theorem renderedItems_compact : (items : List Json) → PlainItems items →
    RenderedItems items (Json.compactItems items).toList
  | [], _ => .none .nil
  | [item], ⟨h, _⟩ => by
    have := RenderedItems.last .nil (rendered_compact item h) .nil
    simpa [Json.compactItems] using this
  | item :: second :: rest, ⟨h, hs⟩ => by
    have := RenderedItems.more .nil (rendered_compact item h) .nil
      (renderedItems_compact (second :: rest) hs)
    simpa [Json.compactItems] using this

theorem renderedFields_compact : (entries : List (String × Json)) → PlainFields entries →
    RenderedFields entries (Json.compactFields entries).toList
  | [], _ => .none .nil
  | [(name, v)], ⟨h, _⟩ => by
    have := RenderedFields.last .nil (quotation_quote name) .nil .nil (rendered_compact v h) .nil
    simpa [Json.compactFields] using this
  | (name, v) :: second :: rest, ⟨h, hs⟩ => by
    have := RenderedFields.more .nil (quotation_quote name) .nil .nil (rendered_compact v h) .nil
      (renderedFields_compact (second :: rest) hs)
    simpa [Json.compactFields] using this

end

/-- Every rendering of a plain value is read as that value, and its compact text is one. -/
theorem parse_rendering (v : Json) (hv : Plain v) :
    (∀ s : String, WholeRendering v s.toList → parse s = .ok v) ∧ parse v.compact = .ok v := by
  have hread : ∀ s : String, WholeRendering v s.toList → parse s = .ok v :=
    fun s hs => parse_eq_ok.2 (hs.whole hv).whole
  have hcompact := WholeRendering.plain .nil (rendered_compact v hv) (.closed .nil)
  rw [List.nil_append, List.append_nil] at hcompact
  exact ⟨hread, hread _ hcompact⟩

theorem parse_rendering_object :
    parse "\x7b\x60\\$\x60: -1,\x7d;" = .ok (.obj [("$", .num (.int (-1)))]) ∧
      parse (Json.obj [("$", .num (.int (-1)))]).compact =
        .ok (.obj [("$", .num (.int (-1)))]) := by
  have hplain : Plain (.obj [("$", .num (.int (-1)))]) := by
    simp [Plain, PlainFields, Entries.names]
  have hquote : isQuote '\x60' = true := by decide
  have hspelled : Spelled '\x60' "$".toList ['\\', '$'] := .escaped (.inr (.inr ⟨rfl, rfl⟩)) .nil
  have hkey : Quotation "$" ['\x60', '\\', '$', '\x60'] := .mk hquote hspelled
  have hfields : RenderedFields [("$", .num (.int (-1)))] "\x60\\$\x60: -1,".toList :=
    .more .nil hkey .nil (.blank (c := ' ') (by decide) .nil) (.int (-1)) .nil (.none .nil)
  obtain ⟨hread, hcompact⟩ := parse_rendering _ hplain
  exact ⟨hread _ (.semicolon .nil (.object hfields) .nil (.closed .nil)), hcompact⟩

end RouteContract.Literal
