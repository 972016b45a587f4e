import Mathlib
import RouteContract.Proofs.Literal.Numbers

/-!
# Reading data literals

The reader accepts exactly the texts of the grammar, and gives the value that a text denotes. One
direction follows the reader: what a reading with any fuel takes off a text satisfies the rule. The
other follows the rules: with fuel for two readings per character, a text that satisfies a rule is
taken off.
-/

namespace RouteContract.Literal

/-! ### Where tokens begin and end -/

theorem mem_of_inRanges {c : Nat} {ranges : List (Nat × Nat)} (h : Text.inRanges c ranges = true) :
    c ∈ ranges.flatMap fun r => List.range' r.1 (r.2 + 1 - r.1) := by
  fun_induction Text.inRanges c ranges with
  | case1 => cases h
  | case2 => cases h
  | case3 lo hi rest hlow hhigh =>
    refine List.mem_flatMap.2 ⟨(lo, hi), .head _, List.mem_range'_1.2 ?_⟩
    omega
  | case4 lo hi rest hlow hhigh ih =>
    rw [List.flatMap_cons]
    exact List.mem_append_right _ (ih h)

/-- White space is no part of a name. -/
theorem isNamePart_of_isBlank {c : Char} (h : Text.isBlank c = true) : isNamePart c = false := by
  have hblank : ∀ n ∈ Text.blankRanges.flatMap fun r => List.range' r.1 (r.2 + 1 - r.1),
      (Text.inRanges n Text.letterRanges || Text.inRanges n Text.numeralRanges) = false ∧
        n ≠ 95 ∧ n ≠ 36 := by decide +kernel
  obtain ⟨htables, hline, hdollar⟩ := hblank c.toNat (mem_of_inRanges h)
  have hne : c ≠ '_' ∧ c ≠ '$' := ⟨fun e => hline (e ▸ rfl), fun e => hdollar (e ▸ rfl)⟩
  simp [isNamePart, Text.isLetterOrNumeral, htables, hne]

/-- The characters after which a token has ended. -/
theorem ends_mark {c : Char} (hc : c ∈ [',', ':', ';', ']', '}', '/']) (rest : List Char) :
    Ends (c :: rest) := by
  rintro d hd
  cases hd
  fin_cases hc <;> exact ⟨by decide, by decide, by decide, by decide⟩

theorem Ends.trivia {t rest : List Char} (ht : Trivia t) (h : Ends rest) : Ends (t ++ rest) := by
  cases ht with
  | nil => exact h
  | @blank c cs hc _ =>
    rintro d hd
    cases hd
    refine ⟨isNamePart_of_isBlank hc, ?_, ?_, ?_⟩ <;> rintro rfl <;> exact absurd hc (by decide)
  | line _ _ => exact ends_mark (by decide) _
  | block _ _ => exact ends_mark (by decide) _

theorem Ends.lastTrivia {t : List Char} (ht : LastTrivia t) : Ends t := by
  cases ht with
  | closed h => simpa using Ends.trivia h ends_nil
  | line h _ => exact Ends.trivia h (ends_mark (by decide) _)

/-- Text that starts with neither trivia nor a closing character. -/
def Opens (w : List Char) : Prop :=
  ∃ c cs, w = c :: cs ∧ Text.isBlank c = false ∧ c ≠ '/' ∧ c ≠ ']' ∧ c ≠ '}'

theorem opens_of_mem {c : Char} (hc : c ∈ ['[', '{', '+', '-', '.', '"', '\x27', '\x60'])
    (cs : List Char) : Opens (c :: cs) :=
  ⟨c, cs, rfl, by fin_cases hc <;> decide⟩

theorem opens_of_isNamePart {c : Char} (hc : isNamePart c = true) (cs : List Char) :
    Opens (c :: cs) := by
  refine ⟨c, cs, rfl, ?_, ?_, ?_, ?_⟩
  · by_contra hblank
    rw [isNamePart_of_isBlank (Bool.not_eq_false _ ▸ hblank)] at hc
    cases hc
  all_goals
    rintro rfl
    exact absurd hc (by decide)

theorem Quoted.opens {w : List Char} {s : String} (h : Quoted w s) : Opens w := by
  obtain @⟨quote, body, out, hquote, -, -⟩ := h
  rcases isQuote_cases hquote with rfl | rfl | rfl <;> exact opens_of_mem (by decide) _

theorem Key.opens {w : List Char} {s : String} (h : Key w s) : Opens w := by
  cases h with
  | string h => exact h.opens
  | name hc _ => exact opens_of_isNamePart (isNamePart_of_isNameStart hc) _
  | number hc _ => exact opens_of_isNamePart (isNamePart_of_isDigit hc) _

theorem Numeral.opens {w : List Char} {n : Number} (h : Numeral w n) : Opens w := by
  cases h with
  | unsigned hc _ =>
    rcases hc with hc | rfl
    · exact opens_of_isNamePart (isNamePart_of_isDigit hc) _
    · exact opens_of_mem (by decide) _
  | plus _ | minus _ => exact opens_of_mem (by decide) _

theorem Value.opens {w : List Char} {v : Json} (h : Value w v) : Opens w := by
  cases h with
  | word h => cases h <;> exact opens_of_isNamePart (by decide) _
  | string h => exact h.opens
  | number h => exact h.opens
  | array _ | object _ => exact opens_of_mem (by decide) _

theorem Opens.append {w : List Char} (h : Opens w) (rest : List Char) : Opens (w ++ rest) := by
  obtain ⟨c, cs, rfl, hc⟩ := h
  exact ⟨c, cs ++ rest, rfl, hc⟩

theorem Opens.skipTrivia {w : List Char} (h : Opens w) : skipTrivia w = .ok w := by
  obtain ⟨c, cs, rfl, hblank, hslash, -⟩ := h
  exact skipTrivia_cons hblank hslash cs

theorem skipTrivia_trivia_opens {t w : List Char} (ht : Trivia t) (hw : Opens w) :
    Literal.skipTrivia (t ++ w) = .ok w := by
  rw [skipTrivia_append ht, hw.skipTrivia]

/-! ### One reading -/

/-- Where the first character of a value leads. -/
theorem value_cons (fuel : Nat) {cs : List Char} {c : Char} {rest : List Char}
    (h : skipTrivia cs = .ok (c :: rest)) :
    value (fuel + 1) cs =
      if c = '{' then (fields fuel [] rest).map fun (entries, rest) => (.obj entries, rest)
      else if c = '[' then (items fuel rest).map fun (list, rest) => (.arr list, rest)
      else if isQuote c then (quoted c rest).map fun (s, rest) => (.str s, rest)
      else if Decimal.isDigit c ∨ c = '-' ∨ c = '+' ∨ c = '.' then
        (number (c :: rest)).map fun (n, rest) => (.num n, rest)
      else if isNameStart c then
        match word? (name (c :: rest)).1 with
        | some v => .ok (v, (name (c :: rest)).2)
        | none => .error ⟨.notData (name (c :: rest)).1, (name (c :: rest)).2⟩
      else .error ⟨.unexpectedCharacter, c :: rest⟩ := by
  rw [value, h]
  rfl

theorem value_trivia (fuel : Nat) {t w : List Char} (ht : Trivia t) (hw : Opens w) :
    value (fuel + 1) (t ++ w) = value (fuel + 1) w := by
  rw [value, value, skipTrivia_trivia_opens ht hw, hw.skipTrivia]

theorem skipTrivia_mark {c : Char} (hc : c ∈ [',', ':', ';', ']', '}']) (cs : List Char) :
    skipTrivia (c :: cs) = .ok (c :: cs) := by
  fin_cases hc <;> exact skipTrivia_cons (by decide) (by decide) cs

/-- Where the first character of the items of an array leads. -/
theorem items_cons (fuel : Nat) {cs : List Char} {c : Char} {rest : List Char}
    (h : skipTrivia cs = .ok (c :: rest)) :
    items (fuel + 1) cs =
      if c = ']' then .ok ([], rest)
      else (do
        let (item, rest) ← value fuel (c :: rest)
        let rest ← separator ']' .missingComma rest
        let (more, rest) ← items fuel rest
        return (item :: more, rest)) := by
  rw [items, h]
  split <;> simp_all [bind, Except.bind]

/-- Where the first character of the fields of an object leads. -/
theorem fields_cons (fuel : Nat) (entries : List (String × Json)) {cs : List Char} {c : Char}
    {rest : List Char} (h : skipTrivia cs = .ok (c :: rest)) :
    fields (fuel + 1) entries cs =
      if c = '}' then .ok (entries, rest)
      else (do
        let (k, rest) ← key (c :: rest)
        let rest ← colon rest
        let (v, rest) ← value fuel rest
        let rest ← separator '}' .missingFieldComma rest
        fields fuel (Entries.put k v entries) rest) := by
  rw [fields, h]
  split <;> simp_all [bind, Except.bind]

theorem items_opens (fuel : Nat) {t w : List Char} (ht : Trivia t) (hw : Opens w) :
    items (fuel + 1) (t ++ w) = (do
      let (item, rest) ← value fuel w
      let rest ← separator ']' .missingComma rest
      let (more, rest) ← items fuel rest
      return (item :: more, rest)) := by
  have hskip := skipTrivia_trivia_opens ht hw
  obtain ⟨c, cs, rfl, -, -, hc, -⟩ := hw
  rw [items_cons fuel hskip, if_neg hc]

theorem fields_opens (fuel : Nat) (entries : List (String × Json)) {t w : List Char}
    (ht : Trivia t) (hw : Opens w) :
    fields (fuel + 1) entries (t ++ w) = (do
      let (k, rest) ← key w
      let rest ← colon rest
      let (v, rest) ← value fuel rest
      let rest ← separator '}' .missingFieldComma rest
      fields fuel (Entries.put k v entries) rest) := by
  have hskip := skipTrivia_trivia_opens ht hw
  obtain ⟨c, cs, rfl, -, -, -, hc⟩ := hw
  rw [fields_cons fuel entries hskip, if_neg hc]

theorem items_close (fuel : Nat) {t : List Char} (ht : Trivia t) (rest : List Char) :
    items (fuel + 1) (t ++ ']' :: rest) = .ok ([], rest) := by
  rw [items_cons fuel ((skipTrivia_append ht _).trans (skipTrivia_mark (by decide) rest)),
    if_pos rfl]

theorem fields_close (fuel : Nat) (entries : List (String × Json)) {t : List Char} (ht : Trivia t)
    (rest : List Char) : fields (fuel + 1) entries (t ++ '}' :: rest) = .ok (entries, rest) := by
  rw [fields_cons fuel entries ((skipTrivia_append ht _).trans (skipTrivia_mark (by decide) rest)),
    if_pos rfl]

theorem colon_trivia {t : List Char} (ht : Trivia t) (rest : List Char) :
    colon (t ++ ':' :: rest) = .ok rest := by
  rw [colon, skipTrivia_append ht, skipTrivia_mark (by decide)]
  rfl

theorem separator_trivia (close : Char) (fault : Fault) {t : List Char} (ht : Trivia t)
    (rest : List Char) : separator close fault (t ++ rest) = separator close fault rest := by
  rw [separator, separator, skipTrivia_append ht]

theorem separator_comma (close : Char) (fault : Fault) (rest : List Char) :
    separator close fault (',' :: rest) = .ok rest := by
  rw [separator, skipTrivia_mark (by decide)]
  rfl

theorem separator_close {close : Char} (hclose : close ∈ [']', '}']) (fault : Fault)
    (rest : List Char) : separator close fault (close :: rest) = .ok (close :: rest) := by
  rw [separator]
  fin_cases hclose <;> rw [skipTrivia_mark (by decide)] <;> rfl

/-! ### What a derivation denotes is read -/

/-- A value in front of other text is read with fuel for two readings per character. -/
def ReadsValue (w : List Char) (v : Json) : Prop :=
  ∀ rest fuel, 2 * w.length ≤ fuel → Ends rest → value fuel (w ++ rest) = .ok (v, rest)

/-- The items of an array are read up to the closing bracket. -/
def ReadsItems (w : List Char) (vs : List Json) : Prop :=
  ∀ rest fuel, 2 * w.length + 1 ≤ fuel → items fuel (w ++ ']' :: rest) = .ok (vs, rest)

/-- The fields of an object are read up to the closing brace. -/
def ReadsFields (w : List Char) (entries : List (String × Json)) : Prop :=
  ∀ before rest fuel, 2 * w.length + 1 ≤ fuel →
    fields fuel before (w ++ '}' :: rest) = .ok (Entries.putAll before entries, rest)

theorem exists_fuel {w : List Char} {fuel : Nat} (hw : Opens w) (h : 2 * w.length ≤ fuel) :
    ∃ n, fuel = n + 2 := by
  obtain ⟨c, cs, rfl, -⟩ := hw
  simp only [List.length_cons] at h
  exact ⟨fuel - 2, by omega⟩

theorem Word.lower {w : List Char} {v : Json} (h : Word w v) :
    ∀ c ∈ w, 97 ≤ c.toNat ∧ c.toNat ≤ 122 := by
  intro c hc
  cases h <;> fin_cases hc <;> decide

theorem readsValue_word {w : List Char} {v : Json} (h : Word w v) : ReadsValue w v := by
  intro rest fuel hfuel hrest
  obtain ⟨fuel, rfl⟩ := exists_fuel (Value.word h).opens hfuel
  have hname : name (w ++ rest) = (String.ofList w, rest) :=
    name_append (fun c hc => isNamePart_of_isNameStart (isNameStart_of_lower (h.lower c hc))) hrest
  have hopens := (Value.word h).opens.append rest
  have hword := word?_of_word h
  have hlower := h.lower
  cases w with
  | nil => cases h
  | cons c cs =>
    have hstart := isNameStart_of_lower (hlower c (.head _))
    have hbrace : c ≠ '{' := by rintro rfl; exact absurd hstart (by decide)
    have hbracket : c ≠ '[' := by rintro rfl; exact absurd hstart (by decide)
    have hnumber : ¬ (Decimal.isDigit c = true ∨ c = '-' ∨ c = '+' ∨ c = '.') := by
      rintro (hc | rfl | rfl | rfl)
      · rw [isNameStart_not_digit hstart] at hc
        cases hc
      all_goals exact absurd hstart (by decide)
    rw [List.cons_append] at hname hopens ⊢
    rw [value_cons _ hopens.skipTrivia, if_neg hbrace, if_neg hbracket,
      isNameStart_not_quote hstart, if_neg hnumber, hstart, hname, hword]
    rfl

theorem readsValue_string {w : List Char} {s : String} (h : Quoted w s) :
    ReadsValue w (.str s) := by
  intro rest fuel hfuel hrest
  obtain ⟨fuel, rfl⟩ := exists_fuel h.opens hfuel
  have hopens := h.opens.append rest
  obtain @⟨quote, body, out, hquote, hbody, hout⟩ := h
  have hread := quoted_append (.mk hquote hbody hout) rest
  have hbrace : quote ≠ '{' := by rintro rfl; exact absurd hquote (by decide)
  have hbracket : quote ≠ '[' := by rintro rfl; exact absurd hquote (by decide)
  rw [List.cons_append] at hopens ⊢
  rw [value_cons _ hopens.skipTrivia, if_neg hbrace, if_neg hbracket, if_pos hquote, hread]
  rfl

/-- A number starts with one of its own characters. -/
theorem Numeral.exists_cons {w : List Char} {n : Number} (h : Numeral w n) :
    ∃ c cs, w = c :: cs ∧ (Decimal.isDigit c = true ∨ c = '-' ∨ c = '+' ∨ c = '.') := by
  cases h with
  | unsigned hc _ => exact ⟨_, _, rfl, by tauto⟩
  | plus _ | minus _ => exact ⟨_, _, rfl, by tauto⟩

theorem readsValue_number {w : List Char} {n : Number} (h : Numeral w n) :
    ReadsValue w (.num n) := by
  intro rest fuel hfuel hrest
  obtain ⟨fuel, rfl⟩ := exists_fuel h.opens hfuel
  have hopens := h.opens.append rest
  have hread := number_append h hrest
  obtain ⟨c, cs, rfl, hc⟩ := h.exists_cons
  have hbrace : c ≠ '{' := by rintro rfl; exact absurd hc (by decide)
  have hbracket : c ≠ '[' := by rintro rfl; exact absurd hc (by decide)
  have hquote : ¬ isQuote c = true := by
    intro hquote
    rcases isQuote_cases hquote with rfl | rfl | rfl <;> exact absurd hc (by decide)
  rw [List.cons_append] at hopens hread ⊢
  rw [value_cons _ hopens.skipTrivia, if_neg hbrace, if_neg hbracket, if_neg hquote, if_pos hc,
    hread]
  rfl

theorem readsValue_array {w : List Char} {vs : List Json} (h : ReadsItems w vs) :
    ReadsValue ('[' :: (w ++ [']'])) (.arr vs) := by
  intro rest fuel hfuel hrest
  simp only [List.length_cons, List.length_append, List.length_nil] at hfuel
  obtain ⟨fuel, rfl⟩ : ∃ n, fuel = n + 1 := ⟨fuel - 1, by omega⟩
  rw [List.cons_append, List.append_assoc, value_cons _ (opens_of_mem (by decide) _).skipTrivia,
    if_neg (by decide), if_pos rfl, List.singleton_append, h rest fuel (by omega)]
  rfl

theorem readsValue_object {w : List Char} {entries : List (String × Json)}
    (h : ReadsFields w entries) :
    ReadsValue ('{' :: (w ++ ['}'])) (.obj (Entries.putAll [] entries)) := by
  intro rest fuel hfuel hrest
  simp only [List.length_cons, List.length_append, List.length_nil] at hfuel
  obtain ⟨fuel, rfl⟩ : ∃ n, fuel = n + 1 := ⟨fuel - 1, by omega⟩
  rw [List.cons_append, List.append_assoc, value_cons _ (opens_of_mem (by decide) _).skipTrivia,
    if_pos rfl, List.singleton_append, h [] rest fuel (by omega)]
  rfl

/-- What an item is read as: a value with trivia around it. -/
def ReadsItem (w : List Char) (v : Json) : Prop :=
  ∃ t x t', w = t ++ (x ++ t') ∧ Trivia t ∧ Opens x ∧ ReadsValue x v ∧ Trivia t'

/-- An item is read first, then a comma or the end of the array, then the other items. -/
theorem items_item {w : List Char} {v : Json} (h : ReadsItem w v) {rest : List Char}
    (hrest : Ends rest) {fuel : Nat} (hfuel : 2 * w.length < fuel) :
    items fuel (w ++ rest) =
      (separator ']' .missingComma rest).bind fun rest =>
        (items (fuel - 1) rest).map fun (more, rest) => (v :: more, rest) := by
  obtain ⟨t, x, t', rfl, ht, hx, hv, ht'⟩ := h
  simp only [List.length_append] at hfuel
  obtain ⟨fuel, rfl⟩ : ∃ n, fuel = n + 1 := ⟨fuel - 1, by omega⟩
  have hvalue := hv (t' ++ rest) fuel (by omega) (hrest.trivia ht')
  simp only [List.append_assoc]
  rw [items_opens fuel ht (hx.append _), hvalue, Nat.add_sub_cancel,
    ← separator_trivia ']' .missingComma ht' rest]
  rfl

theorem readsItems_none {t : List Char} (ht : Trivia t) : ReadsItems t [] := by
  intro rest fuel hfuel
  obtain ⟨fuel, rfl⟩ : ∃ n, fuel = n + 1 := ⟨fuel - 1, by omega⟩
  exact items_close fuel ht rest

theorem ReadsItem.length_pos {w : List Char} {v : Json} (h : ReadsItem w v) : 0 < w.length := by
  obtain ⟨t, x, t', rfl, -, ⟨c, cs, rfl, -⟩, -⟩ := h
  simp

theorem readsItems_last {w : List Char} {v : Json} (h : ReadsItem w v) : ReadsItems w [v] := by
  intro rest fuel hfuel
  have hpos := h.length_pos
  obtain ⟨n, hn⟩ : ∃ n, fuel - 1 = n + 1 := ⟨fuel - 2, by omega⟩
  rw [items_item h (ends_mark (by decide) _) (by omega), separator_close (by decide), hn]
  exact congrArg (Except.map _) (items_close n .nil rest)

theorem readsItems_more {w ws : List Char} {v : Json} {vs : List Json} (h : ReadsItem w v)
    (hs : ReadsItems ws vs) : ReadsItems (w ++ ',' :: ws) (v :: vs) := by
  intro rest fuel hfuel
  simp only [List.length_append, List.length_cons] at hfuel
  have hmore := hs rest (fuel - 1) (by omega)
  rw [List.append_assoc, List.cons_append,
    items_item h (ends_mark (by decide) _) (by omega), separator_comma]
  exact congrArg (Except.map _) hmore

/-- What a field is read as: a key, a colon and an item, with trivia around the key. -/
def ReadsField (w : List Char) (entry : String × Json) : Prop :=
  ∃ t k t' x, w = t ++ (k ++ (t' ++ ':' :: x)) ∧ Trivia t ∧ Key k entry.1 ∧ Trivia t' ∧
    ReadsItem x entry.2

/-- A field is read first, then a comma or the end of the object, then the other fields. -/
theorem fields_field {w : List Char} {entry : String × Json} (h : ReadsField w entry)
    {rest : List Char} (hrest : Ends rest) {fuel : Nat} (hfuel : 2 * w.length < fuel)
    (before : List (String × Json)) :
    fields fuel before (w ++ rest) =
      (separator '}' .missingFieldComma rest).bind fun rest =>
        fields (fuel - 1) (Entries.put entry.1 entry.2 before) rest := by
  obtain ⟨t, k, t', _, rfl, ht, hkey, ht', t₁, x, t₂, rfl, ht₁, hx, hv, ht₂⟩ := h
  simp only [List.length_append, List.length_cons] at hfuel
  obtain ⟨fuel, rfl⟩ : ∃ n, fuel = n + 2 := ⟨fuel - 2, by omega⟩
  have hends : Ends (':' :: (t₁ ++ (x ++ (t₂ ++ rest)))) := ends_mark (by decide) _
  have hname := key_append hkey (hends.trivia ht')
  have hcolon := colon_trivia ht' (t₁ ++ (x ++ (t₂ ++ rest)))
  have hvalue : value (fuel + 1) (t₁ ++ (x ++ (t₂ ++ rest))) = .ok (entry.2, t₂ ++ rest) := by
    rw [value_trivia fuel ht₁ (hx.append _)]
    exact hv _ _ (by omega) (hrest.trivia ht₂)
  simp only [List.append_assoc, List.cons_append]
  rw [fields_opens (fuel + 1) before ht (hkey.opens.append _), hname,
    ← separator_trivia '}' .missingFieldComma ht₂ rest]
  simp only [bind, Except.bind, hcolon, hvalue]
  rfl

theorem readsFields_none {t : List Char} (ht : Trivia t) : ReadsFields t [] := by
  intro before rest fuel hfuel
  obtain ⟨fuel, rfl⟩ : ∃ n, fuel = n + 1 := ⟨fuel - 1, by omega⟩
  exact fields_close fuel before ht rest

theorem readsFields_last {w : List Char} {entry : String × Json} (h : ReadsField w entry) :
    ReadsFields w [entry] := by
  intro before rest fuel hfuel
  have hpos : 0 < w.length := by
    obtain ⟨t, k, t', x, rfl, -⟩ := h
    simp only [List.length_append, List.length_cons]
    omega
  obtain ⟨n, hn⟩ : ∃ n, fuel - 1 = n + 1 := ⟨fuel - 2, by omega⟩
  rw [fields_field h (ends_mark (by decide) _) (by omega), separator_close (by decide), hn]
  exact fields_close n _ .nil rest

theorem readsFields_more {w ws : List Char} {entry : String × Json}
    {entries : List (String × Json)} (h : ReadsField w entry) (hs : ReadsFields ws entries) :
    ReadsFields (w ++ ',' :: ws) (entry :: entries) := by
  intro before rest fuel hfuel
  simp only [List.length_append, List.length_cons] at hfuel
  rw [List.append_assoc, List.cons_append, fields_field h (ends_mark (by decide) _) (by omega),
    separator_comma]
  exact hs _ rest (fuel - 1) (by omega)

mutual

/-- A text that satisfies a rule is read as what it denotes. -/
theorem Value.reads {w : List Char} {v : Json} : Value w v → ReadsValue w v
  | .word h => readsValue_word h
  | .string h => readsValue_string h
  | .number h => readsValue_number h
  | .array h => readsValue_array h.reads
  | .object h => readsValue_object h.reads

theorem Item.reads {w : List Char} {v : Json} : Item w v → ReadsItem w v
  | .mk ht hv ht' => ⟨_, _, _, rfl, ht, hv.opens, hv.reads, ht'⟩

theorem Items.reads {w : List Char} {vs : List Json} : Items w vs → ReadsItems w vs
  | .none ht => readsItems_none ht
  | .last h => readsItems_last h.reads
  | .more h hs => readsItems_more h.reads hs.reads

theorem Field.reads {w : List Char} {entry : String × Json} : Field w entry → ReadsField w entry
  | .mk ht hkey ht' h => ⟨_, _, _, _, rfl, ht, hkey, ht', h.reads⟩

theorem Fields.reads {w : List Char} {entries : List (String × Json)} :
    Fields w entries → ReadsFields w entries
  | .none ht => readsFields_none ht
  | .last h => readsFields_last h.reads
  | .more h hs => readsFields_more h.reads hs.reads

end

/-! ### What is read has a derivation -/

theorem bind_eq_ok {α β : Type} {x : Outcome α} {f : α → Outcome β} {b : β} :
    x >>= f = .ok b ↔ ∃ a, x = .ok a ∧ f a = .ok b := by
  cases x <;> simp [bind, Except.bind]

theorem map_eq_ok {α β : Type} {x : Outcome α} {f : α → β} {b : β} :
    x.map f = .ok b ↔ ∃ a, x = .ok a ∧ f a = b := by
  cases x <;> simp [Except.map]

/-- What is left in front of a character comes after trivia. -/
theorem trivia_of_skipTrivia {cs rest : List Char} {c : Char}
    (h : skipTrivia cs = .ok (c :: rest)) : ∃ t, Trivia t ∧ cs = t ++ c :: rest := by
  obtain ⟨hnil, -⟩ | ht := skipped_of_skipTrivia h
  · cases hnil
  · exact ht

/-- Nothing more is read in front of the closing bracket. -/
theorem items_of_close {fuel : Nat} {more rest : List Char} {vs : List Json}
    (h : items fuel (']' :: more) = .ok (vs, rest)) : vs = [] ∧ rest = more := by
  cases fuel with
  | zero => cases h
  | succ fuel =>
    have hclose := items_close fuel .nil more
    rw [List.nil_append, h] at hclose
    cases hclose
    exact ⟨rfl, rfl⟩

theorem fields_of_close {fuel : Nat} {before after : List (String × Json)} {more rest : List Char}
    (h : fields fuel before ('}' :: more) = .ok (after, rest)) : after = before ∧ rest = more := by
  cases fuel with
  | zero => cases h
  | succ fuel =>
    have hclose := fields_close fuel before .nil more
    rw [List.nil_append, h] at hclose
    cases hclose
    exact ⟨rfl, rfl⟩

/-- What a reading takes off a text is a value, after trivia. -/
def FindsValue (fuel : Nat) : Prop :=
  ∀ {cs rest : List Char} {v : Json}, value fuel cs = .ok (v, rest) →
    ∃ t w, Trivia t ∧ Value w v ∧ cs = t ++ (w ++ rest)

/-- What a reading takes off a text are the items of an array and its closing bracket. -/
def FindsItems (fuel : Nat) : Prop :=
  ∀ {cs rest : List Char} {vs : List Json}, items fuel cs = .ok (vs, rest) →
    ∃ w, Items w vs ∧ cs = w ++ ']' :: rest

/-- What a reading takes off a text are the fields of an object and its closing brace. -/
def FindsFields (fuel : Nat) : Prop :=
  ∀ {before after : List (String × Json)} {cs rest : List Char},
    fields fuel before cs = .ok (after, rest) →
      ∃ w entries, Fields w entries ∧ after = Entries.putAll before entries ∧
        cs = w ++ '}' :: rest

theorem colon_cases {cs rest : List Char} (h : colon cs = .ok rest) :
    ∃ t, Trivia t ∧ cs = t ++ ':' :: rest := by
  obtain ⟨left, hskip, hleft⟩ := bind_eq_ok.1 h
  split at hleft
  · cases hleft
    exact trivia_of_skipTrivia hskip
  · cases hleft

/-- A separator is a comma or stands in front of the closing character, which is left. -/
theorem separator_cases {close : Char} {fault : Fault} {cs rest : List Char}
    (h : separator close fault cs = .ok rest) :
    ∃ t, Trivia t ∧ (cs = t ++ ',' :: rest ∨ ∃ more, cs = t ++ rest ∧ rest = close :: more) := by
  obtain ⟨left, hskip, hleft⟩ := bind_eq_ok.1 h
  split at hleft
  next => cases hleft
  next c more =>
    obtain ⟨t, ht, rfl⟩ := trivia_of_skipTrivia hskip
    by_cases hcomma : c = ','
    · rw [if_pos hcomma] at hleft
      cases hleft
      exact ⟨t, ht, .inl (by rw [hcomma])⟩
    · rw [if_neg hcomma] at hleft
      split at hleft
      next hc =>
        cases hleft
        exact ⟨t, ht, .inr ⟨more, rfl, by rw [hc]⟩⟩
      next => cases hleft

/-- A value starts with a character after trivia. -/
theorem skipTrivia_of_value {fuel : Nat} {cs : List Char} {r : Json × List Char}
    (h : value (fuel + 1) cs = .ok r) : ∃ c more, skipTrivia cs = .ok (c :: more) := by
  rw [value] at h
  obtain ⟨left, hskip, hleft⟩ := bind_eq_ok.1 h
  cases left with
  | nil => cases hleft
  | cons c more => exact ⟨c, more, hskip⟩

theorem skipTrivia_of_items {fuel : Nat} {cs : List Char} {r : List Json × List Char}
    (h : items (fuel + 1) cs = .ok r) : ∃ c more, skipTrivia cs = .ok (c :: more) := by
  rw [items] at h
  obtain ⟨left, hskip, hleft⟩ := bind_eq_ok.1 h
  cases left with
  | nil => cases hleft
  | cons c more => exact ⟨c, more, hskip⟩

theorem skipTrivia_of_fields {fuel : Nat} {before : List (String × Json)} {cs : List Char}
    {r : List (String × Json) × List Char} (h : fields (fuel + 1) before cs = .ok r) :
    ∃ c more, skipTrivia cs = .ok (c :: more) := by
  rw [fields] at h
  obtain ⟨left, hskip, hleft⟩ := bind_eq_ok.1 h
  cases left with
  | nil => cases hleft
  | cons c more => exact ⟨c, more, hskip⟩

theorem findsValue_succ {fuel : Nat} (hitems : FindsItems fuel) (hfields : FindsFields fuel) :
    FindsValue (fuel + 1) := by
  intro cs rest v h
  obtain ⟨c, more, hskip⟩ := skipTrivia_of_value h
  obtain ⟨t, ht, rfl⟩ := trivia_of_skipTrivia hskip
  rw [value_cons fuel hskip] at h
  suffices hw : ∃ w, Value w v ∧ c :: more = w ++ rest by
    obtain ⟨w, hw, hcs⟩ := hw
    exact ⟨t, w, ht, hw, congrArg _ hcs⟩
  split at h
  next hc =>
    subst hc
    obtain ⟨read, hread, hv⟩ := map_eq_ok.1 h
    cases hv
    obtain ⟨w, entries, hw, hentries, rfl⟩ := hfields hread
    rw [hentries]
    exact ⟨'{' :: (w ++ ['}']), .object hw, by simp⟩
  split at h
  next hc =>
    subst hc
    obtain ⟨read, hread, hv⟩ := map_eq_ok.1 h
    cases hv
    obtain ⟨w, hw, rfl⟩ := hitems hread
    exact ⟨'[' :: (w ++ [']']), .array hw, by simp⟩
  split at h
  next hquote =>
    obtain ⟨read, hread, hv⟩ := map_eq_ok.1 h
    cases hv
    obtain ⟨w, hw, rfl⟩ := quoted_of_quoted hquote hread
    exact ⟨c :: w, .string hw, rfl⟩
  split at h
  next hnumber =>
    obtain ⟨read, hread, hv⟩ := map_eq_ok.1 h
    cases hv
    obtain ⟨w, hw, hcs⟩ := numeral_of_number hnumber hread
    exact ⟨w, .number hw, hcs⟩
  split at h
  next hname =>
    split at h
    next hword =>
      cases h
      have hw := word_of_word? hword
      rw [name, String.toList_ofList] at hw
      exact ⟨_, .word hw, List.takeWhile_append_dropWhile.symm⟩
    next => cases h
  next => cases h

theorem findsItems_succ {fuel : Nat} (hvalue : FindsValue fuel) (hitems : FindsItems fuel) :
    FindsItems (fuel + 1) := by
  intro cs rest vs h
  obtain ⟨c, more, hskip⟩ := skipTrivia_of_items h
  obtain ⟨t, ht, rfl⟩ := trivia_of_skipTrivia hskip
  rw [items_cons fuel hskip] at h
  split at h
  next hc =>
    subst hc
    cases h
    exact ⟨t, .none ht, rfl⟩
  obtain ⟨⟨v, left⟩, hread, h⟩ := bind_eq_ok.1 h
  obtain ⟨left', hseparator, h⟩ := bind_eq_ok.1 h
  obtain ⟨⟨vs', rest'⟩, hmore, h⟩ := bind_eq_ok.1 h
  cases h
  obtain ⟨t₁, w, ht₁, hw, hcs⟩ := hvalue hread
  obtain ⟨t₂, ht₂, rfl | ⟨more, rfl, rfl⟩⟩ := separator_cases hseparator
  · obtain ⟨ws, hws, rfl⟩ := hitems hmore
    have hitem := Item.mk (ht.append ht₁) hw ht₂
    exact ⟨_, .more hitem hws, by rw [hcs]; simp⟩
  · have hitem := Item.mk (ht.append ht₁) hw ht₂
    obtain ⟨rfl, rfl⟩ := items_of_close hmore
    exact ⟨_, .last hitem, by rw [hcs]; simp⟩

theorem findsFields_succ {fuel : Nat} (hvalue : FindsValue fuel) (hfields : FindsFields fuel) :
    FindsFields (fuel + 1) := by
  intro before after cs rest h
  obtain ⟨c, more, hskip⟩ := skipTrivia_of_fields h
  obtain ⟨t, ht, rfl⟩ := trivia_of_skipTrivia hskip
  rw [fields_cons fuel before hskip] at h
  split at h
  next hc =>
    subst hc
    cases h
    exact ⟨t, [], .none ht, rfl, rfl⟩
  obtain ⟨⟨k, left⟩, hname, h⟩ := bind_eq_ok.1 h
  obtain ⟨left', hcolon, h⟩ := bind_eq_ok.1 h
  obtain ⟨⟨v, left''⟩, hread, h⟩ := bind_eq_ok.1 h
  obtain ⟨left₃, hseparator, hmore⟩ := bind_eq_ok.1 h
  obtain ⟨key, hkey, hcs⟩ := key_of_key hname
  obtain ⟨t', ht', rfl⟩ := colon_cases hcolon
  obtain ⟨t₁, w, ht₁, hw, rfl⟩ := hvalue hread
  obtain ⟨t₂, ht₂, rfl | ⟨more, rfl, rfl⟩⟩ := separator_cases hseparator
  · obtain ⟨ws, entries, hws, rfl, rfl⟩ := hfields hmore
    have hfield := Field.mk ht hkey ht' (Item.mk ht₁ hw ht₂)
    exact ⟨_, _, .more hfield hws, rfl, by rw [hcs]; simp⟩
  · have hfield := Field.mk ht hkey ht' (Item.mk ht₁ hw ht₂)
    obtain ⟨rfl, rfl⟩ := fields_of_close hmore
    exact ⟨_, _, .last hfield, rfl, by rw [hcs]; simp⟩

theorem finds (fuel : Nat) : FindsValue fuel ∧ FindsItems fuel ∧ FindsFields fuel := by
  induction fuel with
  | zero => exact ⟨nofun, nofun, nofun⟩
  | succ fuel ih =>
    obtain ⟨hvalue, hitems, hfields⟩ := ih
    exact ⟨findsValue_succ hitems hfields, findsItems_succ hvalue hitems,
      findsFields_succ hvalue hfields⟩

/-! ### Whole texts -/

theorem whole_of_value {cs rest : List Char} {v : Json}
    (h : value (enough cs) cs = .ok (v, rest)) (hrest : LastTrivia rest) : whole cs = .ok v := by
  rw [whole, h]
  simp only [bind, Except.bind, skipTrivia_last hrest]
  rfl

theorem whole_of_value_semicolon {cs t rest : List Char} {v : Json}
    (h : value (enough cs) cs = .ok (v, t ++ ';' :: rest)) (ht : Trivia t)
    (hrest : LastTrivia rest) : whole cs = .ok v := by
  rw [whole, h]
  simp only [bind, Except.bind, skipTrivia_append ht, skipTrivia_mark (c := ';') (by decide),
    skipTrivia_last hrest]
  rfl

/-- A literal is read as what it denotes. -/
theorem Whole.whole {cs : List Char} {v : Json} (h : Whole cs v) : whole cs = .ok v := by
  cases h with
  | @plain t w t' _ ht hv ht' =>
    refine whole_of_value ?_ ht'
    rw [enough, value_trivia _ ht (hv.opens.append _)]
    refine hv.reads _ _ ?_ (Ends.lastTrivia ht')
    simp only [List.length_append]
    omega
  | @semicolon w t _ h ht =>
    obtain @⟨t₁, x, t₂, _, ht₁, hv, ht₂⟩ := h
    refine whole_of_value_semicolon ?_ ht₂ ht
    simp only [List.append_assoc]
    rw [enough, value_trivia _ ht₁ (hv.opens.append _)]
    refine hv.reads _ _ ?_ ((ends_mark (by decide) t).trivia ht₂)
    simp only [List.length_append, List.length_cons]
    omega

theorem lastTrivia_of_skipTrivia {cs : List Char} (h : skipTrivia cs = .ok []) :
    LastTrivia cs := by
  obtain ⟨-, ht⟩ | ⟨t, ht, rfl⟩ := skipped_of_skipTrivia h
  · exact ht
  · rw [List.append_nil]
    exact .closed ht

/-- And nothing else is read. -/
theorem whole_of_whole {cs : List Char} {v : Json} (h : whole cs = .ok v) : Whole cs v := by
  rw [Literal.whole] at h
  obtain ⟨⟨v', rest⟩, hvalue, hrest⟩ := bind_eq_ok.1 h
  obtain ⟨left, hskip, hleft⟩ := bind_eq_ok.1 hrest
  obtain ⟨t, w, ht, hv, rfl⟩ := (finds _).1 hvalue
  dsimp only at hleft
  split at hleft
  next more =>
    obtain ⟨last, hlast, hend⟩ := bind_eq_ok.1 hleft
    split at hend
    next hnil =>
      cases hend
      obtain ⟨t', ht', rfl⟩ := trivia_of_skipTrivia hskip
      have := Whole.semicolon (.mk ht hv ht')
        (lastTrivia_of_skipTrivia (List.isEmpty_iff.1 hnil ▸ hlast))
      simpa using this
    next => cases hend
  next =>
    obtain ⟨last, hlast, hend⟩ := bind_eq_ok.1 hleft
    cases hlast
    split at hend
    next hnil =>
      cases hend
      exact .plain ht hv (lastTrivia_of_skipTrivia (List.isEmpty_iff.1 hnil ▸ hskip))
    next => cases hend

theorem parse_eq_ok {s : String} {v : Json} : parse s = .ok v ↔ whole s.toList = .ok v := by
  unfold parse
  cases whole s.toList <;> simp

end RouteContract.Literal
