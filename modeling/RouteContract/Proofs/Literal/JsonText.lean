import Mathlib
import RouteContract.Proofs.Literal.Rendering

/-!
# JSON texts as literals

`JsonText pairs space v w` says that `w` is a JSON text of the value `v`: strings between double
quotes with the escapes of JSON, whole numbers with their digits, and no comma behind the last item.
What white space may stand between two tokens is a parameter. So is whether a character beyond
`U+FFFF` may be written as a pair of codes: the reader of escapes takes each code of a pair by
itself, and a JSON text without such pairs is a derivation of the grammar (`JsonText.value`).

A value that is a literal does not become one before its end: what is read up to the end of a line
within it is no literal (`Value.not_whole`).
-/

namespace RouteContract.Literal

/-! ### Strings -/

/-- The escapes of JSON by one character, and what they denote. -/
def jsonEscapes : List (Char × Char) :=
  [('"', '"'), ('\\', '\\'), ('/', '/'), ('b', '\x08'), ('f', '\x0c'), ('n', '\n'), ('r', '\r'),
    ('t', '\t')]

/-- A text and a way to write it between the quotes of a JSON string. A code has four digits; two
codes that are surrogates of each other stand for one character. -/
inductive JsonSpelled (pairs : Bool) : List Char → List Char → Prop
  | nil : JsonSpelled pairs [] []
  | raw {c : Char} {text body : List Char} (hquote : c ≠ '"') (hescape : c ≠ '\\')
    (hcontrol : 0x20 ≤ c.toNat) (h : JsonSpelled pairs text body) :
    JsonSpelled pairs (c :: text) (c :: body)
  | escape {c d : Char} {text body : List Char} (hc : (c, d) ∈ jsonEscapes)
    (h : JsonSpelled pairs text body) : JsonSpelled pairs (d :: text) ('\\' :: c :: body)
  | code {c : Char} {digits text body : List Char} (hlength : digits.length = 4)
    (hc : Text.natural? 16 digits = some c.toNat) (h : JsonSpelled pairs text body) :
    JsonSpelled pairs (c :: text) ('\\' :: 'u' :: (digits ++ body))
  | pair {c : Char} {high low : Nat} {digits digits' text body : List Char} (hpairs : pairs = true)
    (hlength : digits.length = 4) (hlength' : digits'.length = 4)
    (hdigits : Text.natural? 16 digits = some (0xd800 + high)) (hhigh : high < 0x400)
    (hdigits' : Text.natural? 16 digits' = some (0xdc00 + low)) (hlow : low < 0x400)
    (hc : c.toNat = 0x10000 + 0x400 * high + low) (h : JsonSpelled pairs text body) :
    JsonSpelled pairs (c :: text) ('\\' :: 'u' :: (digits ++ '\\' :: 'u' :: (digits' ++ body)))

/-- The scanner takes a JSON string up to its closing quote. -/
theorem JsonSpelled.body {pairs : Bool} {text body : List Char} (h : JsonSpelled pairs text body) :
    Body '"' body := by
  induction h with
  | nil => exact .nil
  | raw hquote hescape hcontrol _ ih =>
    refine .plain hescape hquote (fun hline => ?_) (fun hq => absurd hq (by decide)) ih
    subst hline
    exact absurd hcontrol (by decide)
  | escape _ _ ih => exact .escape _ ih
  | code _ hc _ ih => exact .escape 'u' (ih.digits (by decide) (digits_of_natural? hc).2)
  | pair _ _ _ hdigits _ hdigits' _ _ _ ih =>
    exact .escape 'u' (.digits (by decide) (digits_of_natural? hdigits).2
      (.escape 'u' (ih.digits (by decide) (digits_of_natural? hdigits').2)))

theorem unsigned?_of_natural? {bound n : Nat} {cs : List Char}
    (h : Text.natural? 16 cs = some n) (hn : n < bound) : Text.unsigned? 16 bound cs = some n := by
  have hplus : ∀ rest, cs ≠ '+' :: rest := by
    rintro rest rfl
    exact absurd ((digits_of_natural? h).2 '+' (.head _)) (by decide)
  unfold Text.unsigned?
  split
  next rest => exact absurd rfl (hplus rest)
  next => exact filter_lt_eq_some.2 ⟨h, hn⟩

/-- The code of a character denotes it. -/
theorem codeDenotes_toNat {c : Char} {digits : List Char}
    (hc : Text.natural? 16 digits = some c.toNat) : CodeDenotes digits [c] := by
  have hvalid : c.toNat < 0xd800 ∨ 0xdfff < c.toNat ∧ c.toNat < 0x110000 := c.valid
  refine .character (unsigned?_of_natural? hc (by unfold Text.bits32; omega)) ?_
  rw [Text.scalar?, if_pos hvalid, Char.ofNat_toNat]

/-- The reader of escapes gives the text of a JSON string without pairs of codes. -/
theorem JsonSpelled.unescaped {text body : List Char} (h : JsonSpelled false text body) :
    Unescaped body text := by
  induction h with
  | nil => exact .nil
  | raw _ hescape _ _ ih => exact .plain hescape ih
  | @escape c d _ _ hc _ ih =>
    have hcases : (c, d) ∈ letterEscapes ∨ c = d ∧ c ∉ escapeLetters := by
      fin_cases hc <;> decide
    obtain hletter | ⟨rfl, hother⟩ := hcases
    · exact .letter hletter ih
    · exact .other hother ih
  | @code c digits _ body hlength hc _ ih =>
    have hbrace : (digits ++ body).head? ≠ some '{' := by
      obtain ⟨hne, hdigits⟩ := digits_of_natural? hc
      obtain ⟨d, ds, rfl⟩ := List.exists_cons_of_ne_nil hne
      rintro hd
      cases hd
      exact absurd (hdigits '{' (.head _)) (by decide)
    exact Unescaped.code4 (.inl hlength) hbrace (codeDenotes_toNat hc) ih
  | pair hpairs => cases hpairs

/-! ### Values -/

mutual

/-- A value and a JSON text of it. -/
inductive JsonText (pairs : Bool) (space : List Char → Prop) : Json → List Char → Prop
  | null : JsonText pairs space .null ['n', 'u', 'l', 'l']
  | true : JsonText pairs space (.bool true) ['t', 'r', 'u', 'e']
  | false : JsonText pairs space (.bool false) ['f', 'a', 'l', 's', 'e']
  | natural (n : Nat) : JsonText pairs space (.num (.int n)) (Text.decimalChars n)
  | negative (n : Nat) : JsonText pairs space (.num (.int (-n))) ('-' :: Text.decimalChars n)
  | string {s : String} {body : List Char} (h : JsonSpelled pairs s.toList body) :
    JsonText pairs space (.str s) ('"' :: (body ++ ['"']))
  | emptyArray {t : List Char} (ht : space t) :
    JsonText pairs space (.arr []) ('[' :: (t ++ [']']))
  | array {vs : List Json} {w : List Char} (h : JsonItems pairs space vs w) :
    JsonText pairs space (.arr vs) ('[' :: (w ++ [']']))
  | emptyObject {t : List Char} (ht : space t) :
    JsonText pairs space (.obj []) ('{' :: (t ++ ['}']))
  | object {entries : List (String × Json)} {w : List Char} (h : JsonFields pairs space entries w) :
    JsonText pairs space (.obj entries) ('{' :: (w ++ ['}']))

/-- A value with white space around it. -/
inductive JsonItem (pairs : Bool) (space : List Char → Prop) : Json → List Char → Prop
  | mk {v : Json} {t w t' : List Char} (ht : space t) (h : JsonText pairs space v w)
    (ht' : space t') : JsonItem pairs space v (t ++ (w ++ t'))

/-- The items of an array that has some. -/
inductive JsonItems (pairs : Bool) (space : List Char → Prop) : List Json → List Char → Prop
  | last {v : Json} {w : List Char} (h : JsonItem pairs space v w) : JsonItems pairs space [v] w
  | more {v : Json} {vs : List Json} {w ws : List Char} (h : JsonItem pairs space v w)
    (hs : JsonItems pairs space vs ws) : JsonItems pairs space (v :: vs) (w ++ ',' :: ws)

/-- A name, a colon and a value, with white space around them. -/
inductive JsonField (pairs : Bool) (space : List Char → Prop) : String × Json → List Char → Prop
  | mk {name : String} {v : Json} {t body t' w : List Char} (ht : space t)
    (hname : JsonSpelled pairs name.toList body) (ht' : space t') (h : JsonItem pairs space v w) :
    JsonField pairs space (name, v) (t ++ (('"' :: (body ++ ['"'])) ++ (t' ++ ':' :: w)))

/-- The fields of an object that has some. -/
inductive JsonFields (pairs : Bool) (space : List Char → Prop) :
    List (String × Json) → List Char → Prop
  | last {entry : String × Json} {w : List Char} (h : JsonField pairs space entry w) :
    JsonFields pairs space [entry] w
  | more {entry : String × Json} {entries : List (String × Json)} {w ws : List Char}
    (h : JsonField pairs space entry w) (hs : JsonFields pairs space entries ws) :
    JsonFields pairs space (entry :: entries) (w ++ ',' :: ws)

end

theorem JsonSpelled.quoted {s : String} {body : List Char} (h : JsonSpelled false s.toList body) :
    Quoted ('"' :: (body ++ ['"'])) s := by
  have := Quoted.mk (by decide) h.body h.unescaped
  rwa [String.ofList_toList] at this

/-- The digits of a number, for a number that fits. -/
theorem numeral_decimalChars {n : Nat} (hn : n < Text.bits63) :
    Numeral (Text.decimalChars n) (.int n) := by
  have hread : Numeral (Text.integerText (.ofNat n)).toList (.int n) :=
    numeral_integerText (n := (n : Int)) (by omega) (by omega)
  rwa [Text.integerText, String.toList_ofList] at hread

mutual

/-- A JSON text of a value denotes it, when its white space is trivia. -/
theorem JsonText.value {space : List Char → Prop} (hspace : ∀ t, space t → Trivia t) {v : Json}
    {w : List Char} : JsonText false space v w → Plain v → Value w v
  | .null, _ => .word .null
  | .true, _ => .word .true
  | .false, _ => .word .false
  | .natural n, ⟨_, hhigh⟩ => .number (numeral_decimalChars (Int.ofNat_lt.1 hhigh))
  | .negative n, ⟨hlow, _⟩ => .number (.minus (magnitude_decimalChars true (by omega)))
  | .string h, _ => .string h.quoted
  | .emptyArray ht, _ => .array (.none (hspace _ ht))
  | .array h, hv => .array (h.items hspace hv)
  | .emptyObject ht, _ => .object (.none (hspace _ ht))
  | .object h, ⟨hnames, hv⟩ => by
    have := Value.object (h.fields hspace hv)
    rwa [Entries.putAll_nil_eq_self.2 hnames] at this

theorem JsonItem.item {space : List Char → Prop} (hspace : ∀ t, space t → Trivia t) {v : Json}
    {w : List Char} : JsonItem false space v w → Plain v → Item w v
  | .mk ht h ht', hv => .mk (hspace _ ht) (h.value hspace hv) (hspace _ ht')

theorem JsonItems.items {space : List Char → Prop} (hspace : ∀ t, space t → Trivia t)
    {vs : List Json} {w : List Char} : JsonItems false space vs w → PlainItems vs → Items w vs
  | .last h, ⟨hv, _⟩ => .last (h.item hspace hv)
  | .more h hs, ⟨hv, hvs⟩ => .more (h.item hspace hv) (hs.items hspace hvs)

theorem JsonField.field {space : List Char → Prop} (hspace : ∀ t, space t → Trivia t)
    {entry : String × Json} {w : List Char} :
    JsonField false space entry w → Plain entry.2 → Field w entry
  | .mk ht hname ht' h, hv =>
    .mk (hspace _ ht) (.string hname.quoted) (hspace _ ht') (h.item hspace hv)

theorem JsonFields.fields {space : List Char → Prop} (hspace : ∀ t, space t → Trivia t)
    {entries : List (String × Json)} {w : List Char} :
    JsonFields false space entries w → PlainFields entries → Fields w entries
  | .last h, ⟨hv, _⟩ => .last (h.field hspace hv)
  | .more h hs, ⟨hv, hvs⟩ => .more (h.field hspace hv) (hs.fields hspace hvs)

end

/-! ### No beginning of a value -/

theorem Ends.append {cs rest : List Char} (h : Ends cs) (hrest : Ends rest) :
    Ends (cs ++ rest) := by
  cases cs with
  | nil => exact hrest
  | cons c cs => exact h

/-- In front of other text, a literal is read as its value, and what is left of it is no value. -/
theorem Whole.reads {cs : List Char} {v : Json} (h : Whole cs v) : ∃ left, ∀ rest fuel,
    2 * cs.length + 1 ≤ fuel → Ends rest → value fuel (cs ++ rest) = .ok (v, left ++ rest) := by
  cases h with
  | @plain t w t' _ ht hv ht' =>
    refine ⟨t', fun rest fuel hfuel hends => ?_⟩
    obtain ⟨fuel, rfl⟩ : ∃ n, fuel = n + 1 := ⟨fuel - 1, by omega⟩
    rw [List.append_assoc, List.append_assoc, value_trivia _ ht (hv.opens.append _)]
    refine hv.reads _ _ ?_ ((Ends.lastTrivia ht').append hends)
    simp only [List.length_append] at hfuel
    omega
  | @semicolon w t _ h ht =>
    obtain @⟨t₁, x, t₂, _, ht₁, hv, ht₂⟩ := h
    refine ⟨t₂ ++ ';' :: t, fun rest fuel hfuel hends => ?_⟩
    obtain ⟨fuel, rfl⟩ : ∃ n, fuel = n + 1 := ⟨fuel - 1, by omega⟩
    simp only [List.append_assoc, List.cons_append]
    rw [value_trivia _ ht₁ (hv.opens.append _)]
    refine hv.reads _ _ ?_ ((ends_mark (by decide) _).trivia ht₂)
    simp only [List.length_append, List.length_cons] at hfuel
    omega

theorem ends_lineFeed (rest : List Char) : Ends ('\n' :: rest) := by
  rintro c hc
  cases hc
  decide

/-- Up to the end of a line in the middle of it, a value is no literal: both would be read from the
same text, and the value would leave that line feed. -/
theorem Value.not_whole {t w r a b : List Char} {v : Json} (ht : Trivia t) (hv : Value w v)
    (hr : Ends r) (hline : '\n' ∉ r) (hcut : t ++ (w ++ r) = a ++ '\n' :: b) (v' : Json) :
    ¬ Whole a v' := by
  intro h
  obtain ⟨left, hread⟩ := h.reads
  have hshort := hread ('\n' :: b) (2 * (t ++ (w ++ r)).length + 1)
    (by rw [hcut, List.length_append]; omega) (ends_lineFeed b)
  rw [← hcut, value_trivia _ ht (hv.opens.append _),
    hv.reads r _ (by simp only [List.length_append]; omega) hr] at hshort
  have hleft : r = left ++ '\n' :: b := (Prod.mk.inj (Except.ok.inj hshort)).2
  exact hline (by simp [hleft])

end RouteContract.Literal
