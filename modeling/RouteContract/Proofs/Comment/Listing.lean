import Mathlib
import RouteContract.Document.Update
import RouteContract.Proofs.Comment.Tidying
import RouteContract.Proofs.Literal.JsonText

/-!
# Comments that list directives

A block comment lists directives when each stands on lines of its own, as `#marker.key = text` with
a JSON text of its value, which may go on over several lines (`Listing`, `Block`).

Tidying leaves each token as it is, so a tidied listing is a listing of the same directives, with
white space alone between its tokens (`Block.content`). There the reader finds the first
directive, and its value ends where its text does, since no part of it up to an earlier end of a
line is a value (`valueAt?_append`). Then the reader goes on behind it (`scan_listing`). Only pairs
of codes for one character are not read as JSON says (`readable_parse_block`,
`readable_parse_block_pair`).
-/

namespace RouteContract

open Text (Blank)

namespace Directive

/-! ### Listings -/

/-- A key: characters of keys, and no dot at the end. -/
structure IsKey (key : List Char) : Prop where
  ne_nil : key ≠ []
  isKeyChar : ∀ c ∈ key, isKeyChar c = true
  getLast?_ne_dot : key.getLast? ≠ some '.'

/-- A directive and a way to write it: a marker, the key, an equals sign, and a JSON text of the
value, which starts on the line of the key. -/
inductive Written (pairs : Bool) (space : List Char → Prop) (d : Directive) : List Char → Prop
  | mk {marker : String} {gap indent w : List Char}
    (hmarker : marker ∈ defaultMarkers) (hkey : IsKey d.key.toList)
    (hgap : ∀ c ∈ gap, c = ' ' ∨ c = '\t') (hindent : Indent indent)
    (h : Literal.JsonText pairs space d.value w) :
    Written pairs space d
      ('#' :: (marker.toList ++ '.' :: (d.key.toList ++ (gap ++ '=' :: (indent ++ w)))))

/-- Directives one after the other, each on lines of its own. -/
inductive Listing (pairs : Bool) (space : List Char → Prop) : List Directive → List Char → Prop
  | nil : Listing pairs space [] []
  | cons {d : Directive} {ds : List Directive} {w gap text : List Char}
    (hd : Written pairs space d w) (hgap : space gap) (hline : ds ≠ [] → '\n' ∈ gap)
    (h : Listing pairs space ds text) : Listing pairs space (d :: ds) (w ++ (gap ++ text))

/-- A block comment that lists directives and holds nothing else. Its first line has a margin as
every other line. -/
inductive Block (pairs : Bool) : List Directive → List Char → Prop
  | mk {ds : List Directive} {margin gap text : List Char} (hmargin : Margin margin)
    (hgap : Gap gap) (h : Listing pairs Gap ds text) :
    Block pairs ds ('/' :: '*' :: (margin ++ (gap ++ text) ++ ['*', '/']))

/-! ### Tokens of a listing -/

/-- Text that ends with a token. -/
def Ended (w : List Char) : Prop := ∃ front c, w = front ++ [c] ∧ Text.isBlank c = false

theorem Ended.append {w : List Char} (h : Ended w) (front : List Char) : Ended (front ++ w) := by
  obtain ⟨front', c, rfl, hc⟩ := h
  exact ⟨front ++ front', c, (List.append_assoc ..).symm, hc⟩

theorem Ended.cons {w : List Char} (h : Ended w) (c : Char) : Ended (c :: w) := h.append [c]

theorem ended_of_forall {w : List Char} (hne : w ≠ []) (h : ∀ c ∈ w, Text.isBlank c = false) :
    Ended w :=
  ⟨w.dropLast, w.getLast hne, (List.dropLast_concat_getLast hne).symm, h _ (List.getLast_mem hne)⟩

theorem Ended.exists_head {w : List Char} (h : Ended w) (rest : List Char) :
    ∃ c, (w ++ rest).head? = some c := by
  obtain ⟨front, c, rfl, -⟩ := h
  cases front with
  | nil => exact ⟨c, rfl⟩
  | cons d front => exact ⟨d, rfl⟩

/-- Tidying leaves a token as it is. -/
theorem tidy_token {w : List Char} (h : Ended w) (hline : '\n' ∉ w) (rest : List Char) :
    tidy (w ++ rest) = w ++ tidy rest := by
  obtain ⟨front, c, rfl, hc⟩ := h
  rw [List.append_assoc, List.singleton_append, tidy_append_cons hc fun h => hline (by simp [h]),
    List.append_assoc, List.singleton_append]

theorem isBlank_decimalChars {n : Nat} {c : Char} (h : c ∈ Text.decimalChars n) :
    Text.isBlank c = false ∧ c ≠ '*' := by
  have hdigit : Decimal.isDigit c = true :=
    (Literal.digits_of_natural? (Literal.natural?_decimalChars n)).2 c h
  constructor
  · by_contra hblank
    have hpart := Literal.isNamePart_of_isBlank (Bool.not_eq_false _ ▸ hblank)
    rw [Literal.isNamePart_of_isDigit hdigit] at hpart
    cases hpart
  · rintro rfl
    exact absurd hdigit (by decide)

theorem ended_decimalChars (n : Nat) : Ended (Text.decimalChars n) :=
  ended_of_forall Nat.toDigits_ne_nil fun _ hc => (isBlank_decimalChars hc).1

theorem lineFeed_notMem_decimalChars (n : Nat) : '\n' ∉ Text.decimalChars n :=
  fun h => ne_of_isBlank (isBlank_decimalChars h).1 rfl

theorem lineFeed_notMem_digits {digits : List Char} {n : Nat}
    (h : Text.natural? 16 digits = some n) : '\n' ∉ digits :=
  fun hmem => absurd ((Literal.digits_of_natural? h).2 _ hmem) (by decide)

theorem lineFeed_notMem_spelled {pairs : Bool} {text body : List Char}
    (h : Literal.JsonSpelled pairs text body) : '\n' ∉ body := by
  induction h with
  | nil => simp
  | raw _ _ hcontrol _ ih =>
    rw [List.mem_cons, not_or]
    refine ⟨?_, ih⟩
    rintro rfl
    exact absurd hcontrol (by decide)
  | @escape c d _ _ hc _ ih =>
    have hne : '\n' ≠ c := by fin_cases hc <;> decide
    simp [hne, ih]
  | code _ hc _ ih => simp [lineFeed_notMem_digits hc, ih]
  | pair _ _ _ hdigits _ hdigits' _ _ _ ih =>
    simp [lineFeed_notMem_digits hdigits, lineFeed_notMem_digits hdigits', ih]

theorem tidy_spelled {pairs : Bool} {text body : List Char}
    (h : Literal.JsonSpelled pairs text body) (rest : List Char) :
    tidy ('"' :: (body ++ ['"']) ++ rest) = '"' :: (body ++ ['"']) ++ tidy rest :=
  tidy_token ⟨'"' :: body, '"', rfl, by decide⟩ (by simp [lineFeed_notMem_spelled h]) rest

theorem tidy_bracketed {opening closing : Char} (hopening : Text.isBlank opening = false)
    (hclosing : Text.isBlank closing = false) {w w' rest : List Char}
    (h : tidy (w ++ closing :: rest) = w' ++ tidy (closing :: rest)) :
    tidy (opening :: (w ++ [closing]) ++ rest) = opening :: (w' ++ [closing]) ++ tidy rest := by
  simp [tidy_cons hopening, h, tidy_cons hclosing]

theorem tidy_comma {w w' ws ws' rest : List Char}
    (h : tidy (w ++ ',' :: (ws ++ rest)) = w' ++ tidy (',' :: (ws ++ rest)))
    (hs : tidy (ws ++ rest) = ws' ++ tidy rest) :
    tidy (w ++ ',' :: ws ++ rest) = w' ++ ',' :: ws' ++ tidy rest := by
  have hcomma : Text.isBlank ',' = false := by decide
  simp [h, hs, tidy_cons hcomma]

end Directive

namespace Literal

open Directive

variable {pairs : Bool} {space : List Char → Prop}

theorem JsonText.ended {v : Json} {w : List Char} (h : JsonText pairs space v w) : Ended w := by
  cases h with
  | null => exact ⟨['n', 'u', 'l'], 'l', rfl, by decide⟩
  | true => exact ⟨['t', 'r', 'u'], 'e', rfl, by decide⟩
  | false => exact ⟨['f', 'a', 'l', 's'], 'e', rfl, by decide⟩
  | natural n => exact ended_decimalChars n
  | negative n => exact (ended_decimalChars n).cons '-'
  | string _ => exact .cons ⟨_, '"', rfl, by decide⟩ _
  | emptyArray _ | array _ => exact .cons ⟨_, ']', rfl, by decide⟩ _
  | emptyObject _ | object _ => exact .cons ⟨_, '}', rfl, by decide⟩ _

theorem JsonText.halts {v : Json} {w : List Char} (h : JsonText pairs space v w)
    (rest : List Char) : Halts (w ++ rest) := by
  cases h with
  | natural n =>
    obtain ⟨c, cs, hchars⟩ := List.exists_cons_of_ne_nil (Nat.toDigits_ne_nil (b := 10) (n := n))
    have hc := isBlank_decimalChars (n := n) (c := c) (by rw [Text.decimalChars, hchars]; simp)
    rw [Text.decimalChars, hchars]
    exact halts_cons hc.1 hc.2 _
  | _ => exact halts_cons (by decide) (by decide) _

/-! ### Tidied listings -/

mutual

/-- Tidying a JSON text in a comment gives a JSON text of the same value without line margins. -/
theorem JsonText.tidied {v : Json} {w : List Char} : JsonText pairs Gap v w →
    ∀ rest, ∃ w', JsonText pairs Blank v w' ∧ tidy (w ++ rest) = w' ++ tidy rest
  | .null => fun rest =>
    ⟨_, .null, tidy_token ⟨['n', 'u', 'l'], 'l', rfl, by decide⟩ (by decide) rest⟩
  | .true => fun rest =>
    ⟨_, .true, tidy_token ⟨['t', 'r', 'u'], 'e', rfl, by decide⟩ (by decide) rest⟩
  | .false => fun rest =>
    ⟨_, .false, tidy_token ⟨['f', 'a', 'l', 's'], 'e', rfl, by decide⟩ (by decide) rest⟩
  | .natural n => fun rest =>
    ⟨_, .natural n, tidy_token (ended_decimalChars n) (lineFeed_notMem_decimalChars n) rest⟩
  | .negative n => fun rest =>
    ⟨_, .negative n, tidy_token ((ended_decimalChars n).cons '-')
      (by simp [lineFeed_notMem_decimalChars n]) rest⟩
  | .string h => fun rest => ⟨_, .string h, tidy_spelled h rest⟩
  | .emptyArray ht => fun rest => by
    obtain ⟨a, ha, -, heq⟩ := tidy_gap ht (halts_cons (c := ']') (by decide) (by decide) rest)
    exact ⟨_, .emptyArray ha, tidy_bracketed (by decide) (by decide) heq⟩
  | .array h => fun rest => by
    obtain ⟨w', h', heq⟩ := h.tidied _ (halts_cons (c := ']') (by decide) (by decide) rest)
    exact ⟨_, .array h', tidy_bracketed (by decide) (by decide) heq⟩
  | .emptyObject ht => fun rest => by
    obtain ⟨a, ha, -, heq⟩ := tidy_gap ht (halts_cons (c := '}') (by decide) (by decide) rest)
    exact ⟨_, .emptyObject ha, tidy_bracketed (by decide) (by decide) heq⟩
  | .object h => fun rest => by
    obtain ⟨w', h', heq⟩ := h.tidied _ (halts_cons (c := '}') (by decide) (by decide) rest)
    exact ⟨_, .object h', tidy_bracketed (by decide) (by decide) heq⟩

theorem JsonItem.tidied {v : Json} {w : List Char} : JsonItem pairs Gap v w → ∀ rest, Halts rest →
    ∃ w', JsonItem pairs Blank v w' ∧ tidy (w ++ rest) = w' ++ tidy rest
  | @JsonItem.mk _ _ _ _ _ t' ht h ht' => fun rest hrest => by
    obtain ⟨a, ha, -, heq⟩ := tidy_gap ht (h.halts (t' ++ rest))
    obtain ⟨w', h', heq'⟩ := h.tidied (t' ++ rest)
    obtain ⟨a', ha', -, heq''⟩ := tidy_gap ht' hrest
    exact ⟨_, .mk ha h' ha', by simp only [List.append_assoc, heq, heq', heq'']⟩

theorem JsonItems.tidied {vs : List Json} {w : List Char} : JsonItems pairs Gap vs w →
    ∀ rest, Halts rest →
      ∃ w', JsonItems pairs Blank vs w' ∧ tidy (w ++ rest) = w' ++ tidy rest
  | .last h => fun rest hrest => by
    obtain ⟨w', h', heq⟩ := h.tidied rest hrest
    exact ⟨w', .last h', heq⟩
  | .more h hs => fun rest hrest => by
    obtain ⟨w', h', heq⟩ := h.tidied _ (halts_cons (c := ',') (by decide) (by decide) _)
    obtain ⟨ws', hs', heq'⟩ := hs.tidied rest hrest
    exact ⟨_, .more h' hs', tidy_comma heq heq'⟩

theorem JsonField.tidied {entry : String × Json} {w : List Char} : JsonField pairs Gap entry w →
    ∀ rest, Halts rest →
      ∃ w', JsonField pairs Blank entry w' ∧ tidy (w ++ rest) = w' ++ tidy rest
  | @JsonField.mk _ _ _ _ _ body t' w ht hname ht' h => fun rest hrest => by
    have hcolon : Text.isBlank ':' = false := by decide
    obtain ⟨a, ha, -, heq⟩ := tidy_gap ht
      (halts_cons (c := '"') (by decide) (by decide) (body ++ '"' :: (t' ++ ':' :: (w ++ rest))))
    obtain ⟨a', ha', -, heq'⟩ := tidy_gap ht' (halts_cons hcolon (by decide) (w ++ rest))
    obtain ⟨w', h', heq''⟩ := h.tidied rest hrest
    have hquoted := tidy_spelled hname (t' ++ ':' :: (w ++ rest))
    refine ⟨_, .mk ha hname ha' h', ?_⟩
    simp only [List.append_assoc, List.cons_append, List.nil_append] at hquoted ⊢
    rw [heq, hquoted, heq', tidy_cons hcolon, heq'']

theorem JsonFields.tidied {entries : List (String × Json)} {w : List Char} :
    JsonFields pairs Gap entries w → ∀ rest, Halts rest →
      ∃ w', JsonFields pairs Blank entries w' ∧ tidy (w ++ rest) = w' ++ tidy rest
  | .last h => fun rest hrest => by
    obtain ⟨w', h', heq⟩ := h.tidied rest hrest
    exact ⟨w', .last h', heq⟩
  | .more h hs => fun rest hrest => by
    obtain ⟨w', h', heq⟩ := h.tidied _ (halts_cons (c := ',') (by decide) (by decide) _)
    obtain ⟨ws', hs', heq'⟩ := hs.tidied rest hrest
    exact ⟨_, .more h' hs', tidy_comma heq heq'⟩

end

end Literal

namespace Directive

variable {pairs : Bool} {space : List Char → Prop}

theorem IsKey.lineFeed_notMem {key : List Char} (h : IsKey key) : '\n' ∉ key :=
  fun hmem => absurd (h.isKeyChar _ hmem) (by decide)

theorem Written.ended {d : Directive} {w : List Char} (h : Written pairs space d w) : Ended w := by
  obtain @⟨marker, gap, indent, w, -, -, -, -, h⟩ := h
  exact .cons (.append (.cons (.append (.append (.cons (.append h.ended _) _) _) _) _) _) _

theorem Listing.eq_nil_or_cons {ds : List Directive} {text : List Char}
    (h : Listing pairs space ds text) : ds = [] ∧ text = [] ∨ ∃ rest, text = '#' :: rest := by
  cases h with
  | nil => exact .inl ⟨rfl, rfl⟩
  | cons hd _ _ _ =>
    obtain @⟨marker, gap, indent, w, -, -, -, -, -⟩ := hd
    exact .inr ⟨_, rfl⟩

theorem Listing.halts {ds : List Directive} {text : List Char} (h : Listing pairs space ds text) :
    Halts text := by
  obtain ⟨-, rfl⟩ | ⟨rest, rfl⟩ := h.eq_nil_or_cons
  · exact halts_nil
  · exact halts_cons (by decide) (by decide) rest

theorem Written.tidied {d : Directive} {w : List Char} (h : Written pairs Gap d w)
    (rest : List Char) :
    ∃ w', Written pairs Blank d w' ∧ tidy (w ++ rest) = w' ++ tidy rest := by
  obtain @⟨marker, gap, indent, w, hmarker, hkey, hgap, hindent, h⟩ := h
  obtain ⟨w', h', heq⟩ := h.tidied rest
  refine ⟨_, .mk hmarker hkey hgap hindent h', ?_⟩
  have hmarkerLine : '\n' ∉ marker.toList := by
    fin_cases hmarker <;> decide
  have hgapLine : '\n' ∉ gap := by
    intro hmem
    obtain h | h := hgap _ hmem <;> exact absurd h (by decide)
  have hline : '\n' ∉ '#' :: (marker.toList ++ '.' :: (d.key.toList ++ gap)) := by
    simp [hmarkerLine, hkey.lineFeed_notMem, hgapLine]
  have hequals := tidy_append_cons (c := '=') (by decide) hline (indent ++ (w ++ rest))
  obtain ⟨c, hc⟩ := h.ended.exists_head rest
  rw [tidy_indent hindent (h.halts rest) hc, heq] at hequals
  simpa using hequals

theorem Listing.tidied {ds : List Directive} {text : List Char} (h : Listing pairs Gap ds text) :
    Listing pairs Blank ds (tidy text) := by
  induction h with
  | nil => exact .nil
  | cons hd hgap hline hs ih =>
    obtain ⟨w', hd', heq⟩ := hd.tidied _
    obtain ⟨a, ha, hline', heq'⟩ := tidy_gap hgap hs.halts
    rw [heq, heq']
    exact .cons hd' ha (fun hne => hline' (hline hne)) ih

theorem Listing.trimBack {ds : List Directive} {text : List Char}
    (h : Listing pairs Blank ds text) : Listing pairs Blank ds (Text.trimBack text) := by
  induction h with
  | nil => exact .nil
  | @cons d ds w gap text hd hgap hline hs ih =>
    obtain ⟨rfl, rfl⟩ | ⟨rest, rfl⟩ := hs.eq_nil_or_cons
    · have hw : Text.trimBack w = w := by
        obtain ⟨front, c, rfl, hc⟩ := hd.ended
        exact Text.trimBack_append_cons hc front []
      rw [List.append_nil, Text.trimBack_append hgap, hw]
      simpa using Listing.cons hd .nil (fun hne => absurd rfl hne) .nil
    · have hrest := Text.trimBack_append_cons (c := '#') (by decide) [] rest
      rw [← List.append_assoc, Text.trimBack_append_cons (by decide), List.append_assoc]
      rw [List.nil_append, List.nil_append] at hrest
      rw [← hrest]
      exact .cons hd hgap hline ih

theorem Listing.trimChars {ds : List Directive} {text : List Char}
    (h : Listing pairs Blank ds text) : Listing pairs Blank ds (Text.trimChars text) := by
  have hfront : Text.trimChars text = Text.trimBack text := by
    obtain ⟨-, rfl⟩ | ⟨rest, rfl⟩ := h.eq_nil_or_cons
    · rfl
    · rw [Text.trimChars, Text.trimFront_cons (by decide)]
  rw [hfront]
  exact h.trimBack

/-- The content of a block comment lists the directives of the comment, without line margins. -/
theorem Block.content {ds : List Directive} {comment : List Char} (h : Block pairs ds comment) :
    Listing pairs Blank ds (content comment) := by
  obtain ⟨hmargin, hgap, h⟩ := h
  obtain ⟨a, ha, heq⟩ := tidyFrom_margin hgap hmargin h.halts
  rw [content_block, heq, Text.trimChars_append_left ha]
  exact h.tidied.trimChars

/-! ### Reading a listing -/

theorem find?_blank (markers : List String) {a : List Char} (ha : Blank a) (cs : List Char) :
    find? markers (a ++ cs) = find? markers cs := by
  induction a with
  | nil => rfl
  | cons c a ih =>
    rw [Blank, List.forall_mem_cons] at ha
    have hc : c ≠ '#' := by
      rintro rfl
      exact absurd ha.1 (by decide)
    rw [List.cons_append, find?, if_neg hc, ih ha.2]

theorem dropDots_eq_self {key : List Char} (h : key.getLast? ≠ some '.') : dropDots key = key := by
  rw [dropDots]
  cases hrev : key.reverse with
  | nil => simpa using hrev.symm
  | cons c rest =>
    have hc : c ≠ '.' := by
      rintro rfl
      exact h (by rw [← List.head?_reverse, hrev]; rfl)
    rw [List.dropWhile_cons_of_neg (by simpa using hc), ← hrev, List.reverse_reverse]

theorem opening?_cons (marker : String) (more : List String) {key gap : List Char}
    (hkey : IsKey key) (hgap : ∀ c ∈ gap, c = ' ' ∨ c = '\t') (rest : List Char) :
    ∃ head, opening? ('#' :: (marker.toList ++ '.' :: (key ++ (gap ++ '=' :: rest))))
      (marker :: more) = some ⟨head, key, rest⟩ := by
  have hlead : Text.afterPrefix? ('#' :: (marker.toList ++ ['.']))
      ('#' :: (marker.toList ++ '.' :: (key ++ (gap ++ '=' :: rest)))) =
      some (key ++ (gap ++ '=' :: rest)) :=
    Text.afterPrefix?_eq_some_iff.2 (by simp)
  have hstop : ∀ c, (gap ++ '=' :: rest).head? = some c → isKeyChar c = false := by
    intro c hc
    cases gap with
    | nil =>
      cases hc
      decide
    | cons d gap =>
      cases hc
      obtain rfl | rfl := hgap _ (.head _) <;> decide
  obtain ⟨hwritten, hbehind⟩ := Literal.takeWhile_append_of_stop hkey.isKeyChar hstop
  have hblank : ∀ c ∈ gap, (decide (c = ' ') || decide (c = '\t')) = true := by
    simpa using hgap
  have hend : ∀ c, ('=' :: rest).head? = some c →
      (decide (c = ' ') || decide (c = '\t')) = false := by simp
  obtain ⟨-, hequals⟩ := Literal.takeWhile_append_of_stop hblank hend
  have hne : (dropDots key).isEmpty = false := by
    rw [dropDots_eq_self hkey.getLast?_ne_dot]
    simpa using hkey.ne_nil
  rw [opening?]
  simp only [hlead, hwritten, hbehind, hequals, hne]
  exact ⟨_, by rw [dropDots_eq_self hkey.getLast?_ne_dot]⟩

/-- A directive is found with its key and the text behind its equals sign. -/
theorem exists_opening? {marker : String} (hmarker : marker ∈ defaultMarkers) {key gap : List Char}
    (hkey : IsKey key) (hgap : ∀ c ∈ gap, c = ' ' ∨ c = '\t') (rest : List Char) :
    ∃ head, opening? ('#' :: (marker.toList ++ '.' :: (key ++ (gap ++ '=' :: rest))))
      defaultMarkers = some ⟨head, key, rest⟩ := by
  have hcases : marker = "swagger" ∨ marker = "directive" := by
    simpa [defaultMarkers] using hmarker
  obtain rfl | rfl := hcases
  · exact opening?_cons "swagger" _ hkey hgap rest
  · have hother : Text.afterPrefix? ('#' :: ("swagger".toList ++ ['.']))
        ('#' :: ("directive".toList ++ '.' :: (key ++ (gap ++ '=' :: rest)))) = none := rfl
    rw [defaultMarkers, opening?]
    simp only [hother]
    exact opening?_cons "directive" _ hkey hgap rest

/-- The value of a directive ends with the first line up to which its text is a literal. -/
theorem valueAt?_append {before cs after : List Char} {v : Json}
    (hearlier : ∀ a b, cs = a ++ '\n' :: b → ∀ v', ¬ Literal.Whole (before.reverse ++ a) v')
    (hwhole : Literal.Whole (before.reverse ++ cs) v)
    (hafter : after = [] ∨ ∃ rest, after = '\n' :: rest) :
    valueAt? before (cs ++ after) = some (v, after) := by
  induction cs generalizing before with
  | nil =>
    rw [List.append_nil] at hwhole
    have hparse : Literal.parse (String.ofList before.reverse) = .ok v := by
      rw [Literal.parse_eq_ok, String.toList_ofList]
      exact hwhole.whole
    obtain rfl | ⟨rest, rfl⟩ := hafter
    · rw [List.append_nil, valueAt?, hparse]
    · rw [List.nil_append, valueAt?, if_pos rfl, hparse]
  | cons c cs ih =>
    have hnext : valueAt? (c :: before) (cs ++ after) = some (v, after) := by
      refine ih (fun a b hcut v' => ?_) (by simpa using hwhole)
      simpa using hearlier (c :: a) b (by rw [hcut, List.cons_append]) v'
    rw [List.cons_append, valueAt?]
    split
    next hc =>
      split
      next v' hparse =>
        rw [Literal.parse_eq_ok, String.toList_ofList] at hparse
        have hnone := hearlier [] cs (by rw [hc, List.nil_append]) v'
        rw [List.append_nil] at hnone
        exact absurd (Literal.whole_of_whole hparse) hnone
      next => exact hnext
    next => exact hnext

/-- A directive is finished with its value, and leaves white space in front of the next one. -/
theorem exists_finish {w : List Char} {v : Json} (hv : Literal.Value w v) {indent : List Char}
    (hindent : Indent indent) {gap text : List Char} (hgap : Blank gap)
    (hline : text ≠ [] → '\n' ∈ gap) (head key : List Char) :
    ∃ a, Blank a ∧ Opening.finish ⟨head, key, indent ++ (w ++ (gap ++ text))⟩ =
      (.ok ⟨String.ofList key, v⟩, a ++ text) := by
  -- the value is read up to the end of the line on which its text ends
  have hread : ∀ b after : List Char, Blank b → '\n' ∉ b →
      (after = [] ∨ ∃ rest, after = '\n' :: rest) →
      valueAt? [] (indent ++ (w ++ b) ++ after) = some (v, after) := by
    intro b after hb hbline hafter
    have hwhole := Literal.Whole.plain hindent.1.trivia hv (.closed hb.trivia)
    refine valueAt?_append (fun c d hcut v' => ?_) hwhole hafter
    exact hv.not_whole hindent.1.trivia (.lastTrivia (.closed hb.trivia)) hbline hcut v'
  obtain hnone | ⟨b, c, hb, rfl⟩ := Literal.cut_cases '\n' gap
  · obtain rfl : text = [] := by
      by_contra hne
      exact hnone (hline hne)
    have hvalue := hread gap [] hgap hnone (.inl rfl)
    rw [List.append_assoc, List.append_assoc] at hvalue
    refine ⟨[], .nil, ?_⟩
    rw [Opening.finish, hvalue]
    rfl
  · rw [Blank, List.forall_mem_append] at hgap
    have hvalue := hread b ('\n' :: (c ++ text)) hgap.1 hb (.inr ⟨_, rfl⟩)
    rw [List.append_assoc, List.append_assoc] at hvalue
    refine ⟨'\n' :: c, hgap.2, ?_⟩
    rw [Opening.finish, List.append_assoc, List.cons_append, hvalue]

theorem scan_listing {ds : List Directive} (hds : ∀ d ∈ ds, Literal.Plain d.value)
    {text : List Char} (h : Listing false Blank ds text) {a : List Char} (ha : Blank a) {fuel : Nat}
    (hfuel : ds.length ≤ fuel) :
    scan defaultMarkers fuel (a ++ text) = ds.map .ok := by
  induction h generalizing a fuel with
  | nil =>
    cases fuel with
    | zero => rfl
    | succ fuel => rw [scan, find?_blank _ ha]; rfl
  | @cons d ds w gap text hd hgap hline hs ih =>
    rw [List.forall_mem_cons] at hds
    obtain ⟨fuel, rfl⟩ : ∃ n, fuel = n + 1 := ⟨fuel - 1, by rw [List.length_cons] at hfuel; omega⟩
    obtain @⟨marker, gap', indent, w, hmarker, hkey, hgap', hindent, h⟩ := hd
    obtain ⟨head, hopening⟩ :=
      exists_opening? hmarker hkey hgap' (indent ++ (w ++ (gap ++ text)))
    have hfind : find? defaultMarkers (a ++ ('#' :: (marker.toList ++ '.' :: (d.key.toList ++
        (gap' ++ '=' :: (indent ++ w)))) ++ (gap ++ text))) =
        some ⟨head, d.key.toList, indent ++ (w ++ (gap ++ text))⟩ := by
      rw [find?_blank _ ha]
      simp only [List.append_assoc, List.cons_append]
      rw [find?, if_pos rfl, hopening]
    have hnext : text ≠ [] → '\n' ∈ gap := by
      intro hne
      refine hline ?_
      rintro rfl
      cases hs
      exact hne rfl
    obtain ⟨b, hb, hfinish⟩ := exists_finish (h.value (fun _ => Text.Blank.trivia) hds.1) hindent
      hgap hnext head d.key.toList
    rw [scan, hfind]
    simp only [hfinish]
    rw [ih hds.2 hb (by rw [List.length_cons] at hfuel; omega), String.ofList_toList]
    rfl

theorem Listing.length_le {ds : List Directive} {text : List Char}
    (h : Listing pairs space ds text) : ds.length ≤ text.length := by
  induction h with
  | nil => exact Nat.le_refl 0
  | cons hd _ _ _ ih =>
    cases hd
    simp only [List.length_cons, List.length_append]
    omega

/-- From a block comment that lists directives with plain values, these directives are read. -/
theorem Block.parse {ds : List Directive} {comment : String}
    (hds : ∀ d ∈ ds, Literal.Plain d.value) (h : Block false ds comment.toList) :
    parse defaultMarkers comment = ds.map .ok :=
  scan_listing hds h.content .nil h.content.length_le

/-- **Listed directives are read.** A block comment that lists directives with plain values, in JSON
texts without pairs of codes, gives exactly these directives in their order, and no report. -/
theorem readable_parse_block (ds : List Directive) (comment : String)
    (hds : ∀ d ∈ ds, Literal.Plain d.value) (h : Block false ds comment.toList) :
    readable (parse defaultMarkers comment) = ds ∧
      complaints (parse defaultMarkers comment) = [] := by
  rw [h.parse hds]
  constructor
  · simp [readable, List.filterMap_map, Function.comp_def, Except.toOption]
  · simp [complaints, List.filterMap_map]

/-- A star and a hash in a string are part of its value, also where it stands at the front of a
line. -/
theorem readable_parse_block_star :
    Block false [⟨"tags", .arr [.str "* #"]⟩, ⟨"x-a", .num (.int (-1))⟩]
        "/** #swagger.tags = [\n * \"* #\"]\n\n * #directive.x-a = -1 */".toList ∧
      readable (parse defaultMarkers
        "/** #swagger.tags = [\n * \"* #\"]\n\n * #directive.x-a = -1 */") =
        [⟨"tags", .arr [.str "* #"]⟩, ⟨"x-a", .num (.int (-1))⟩] ∧
      complaints (parse defaultMarkers
        "/** #swagger.tags = [\n * \"* #\"]\n\n * #directive.x-a = -1 */") = [] := by
  have hspace : Indent [' '] := by simp [Indent, Blank, show Text.isBlank ' ' = true by decide]
  have hnil : Indent [] := by simp [Indent, Blank]
  have hstring : Literal.JsonText false Gap (.str "* #") ['"', '*', ' ', '#', '"'] :=
    .string (s := "* #") (.raw (by decide) (by decide) (by decide) (.raw (by decide) (by decide)
      (by decide) (.raw (by decide) (by decide) (by decide) .nil)))
  have hbreak : Gap ['\n', ' ', '*', ' '] := .line hnil (.star hspace) (.inline hspace)
  have htags : Written false Gap ⟨"tags", .arr [.str "* #"]⟩
      "#swagger.tags = [\n * \"* #\"]".toList :=
    @Written.mk _ _ _ "swagger" [' '] [' '] _ (by decide)
      ⟨by decide, List.all_eq_true.1 (by decide +kernel), by decide⟩ (by simp) hspace
      (.array (.last (.mk hbreak hstring (.inline hnil))))
  have hrate : Written false Gap ⟨"x-a", .num (.int (-1))⟩ "#directive.x-a = -1".toList :=
    @Written.mk _ _ _ "directive" [' '] [' '] _ (by decide)
      ⟨by decide, List.all_eq_true.1 (by decide +kernel), by decide⟩ (by simp) hspace (.negative 1)
  have hblock : Block false [⟨"tags", .arr [.str "* #"]⟩, ⟨"x-a", .num (.int (-1))⟩]
      "/** #swagger.tags = [\n * \"* #\"]\n\n * #directive.x-a = -1 */".toList :=
    .mk (.star hnil) (.inline hspace)
      (.cons htags (.line hnil .bare hbreak) (fun _ => by decide)
        (.cons hrate (.inline hspace) (fun h => absurd rfl h) .nil))
  have hplain : ∀ d ∈ [⟨"tags", .arr [.str "* #"]⟩, (⟨"x-a", .num (.int (-1))⟩ : Directive)],
      Literal.Plain d.value := by
    simp [Literal.Plain, Literal.PlainItems]
  exact ⟨hblock, readable_parse_block _ _ hplain hblock⟩

/-- A pair of codes is not read as the character that JSON means by it, but as its digits. -/
theorem readable_parse_block_pair :
    Block true [⟨"summary", .str "😀"⟩] "/* #swagger.summary = \"\\ud83d\\ude00\" */".toList ∧
      Literal.Plain (.str "😀") ∧
      readable (parse defaultMarkers "/* #swagger.summary = \"\\ud83d\\ude00\" */") =
        [⟨"summary", .str "d83dde00"⟩] := by
  have hspace : Indent [' '] := by simp [Indent, Blank, show Text.isBlank ' ' = true by decide]
  have hspelled : Literal.JsonSpelled true "😀".toList "\\ud83d\\ude00".toList :=
    @Literal.JsonSpelled.pair _ '😀' 0x3d 0x200 ['d', '8', '3', 'd'] ['d', 'e', '0', '0'] [] [] rfl
      rfl rfl (by decide) (by decide) (by decide) (by decide) (by decide) .nil
  have hwritten : Written true Gap ⟨"summary", .str "😀"⟩
      "#swagger.summary = \"\\ud83d\\ude00\"".toList :=
    @Written.mk _ _ _ "swagger" [' '] [' '] _ (by decide)
      ⟨by decide, List.all_eq_true.1 (by decide +kernel), by decide⟩ (by simp) hspace
      (.string hspelled)
  refine ⟨?_, trivial, by cbv⟩
  exact .mk .bare (.inline hspace)
    (.cons hwritten (.inline hspace) (fun h => absurd rfl h) .nil)

end Directive

end RouteContract
