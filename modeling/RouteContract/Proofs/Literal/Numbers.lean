import Mathlib
import RouteContract.Proofs.Literal.Tokens

/-!
# Reading numbers

A number is gathered first, its separators dropped, and valued afterwards: `decimalRun` and `hexRun`
take the longest text that could go on with the number, so what follows must not (`Ends`).
-/

namespace RouteContract.Literal

/-- Text that goes on with neither a number nor a name. -/
def Ends (rest : List Char) : Prop :=
  ∀ c, rest.head? = some c → isNamePart c = false ∧ c ≠ '.' ∧ c ≠ '+' ∧ c ≠ '-'

theorem ends_nil : Ends [] := fun _ h => by cases h

/-! ### Digits -/

/-- A row of digits is one that has a value. -/
theorem exists_digitsFrom?_iff {radix acc : Nat} (cs : List Char) :
    (∃ n, Text.digitsFrom? radix acc cs = some n) ↔
      ∀ c ∈ cs, (Text.digit? radix c).isSome = true := by
  induction cs generalizing acc with
  | nil => simp [Text.digitsFrom?]
  | cons c cs ih =>
    rw [List.forall_mem_cons, Text.digitsFrom?]
    cases Text.digit? radix c with
    | none => simp
    | some d => simpa using ih

theorem exists_natural?_iff {radix : Nat} {cs : List Char} :
    (∃ n, Text.natural? radix cs = some n) ↔
      cs ≠ [] ∧ ∀ c ∈ cs, (Text.digit? radix c).isSome = true := by
  cases cs with
  | nil => simp [Text.natural?]
  | cons c cs => simpa [Text.natural?] using exists_digitsFrom?_iff (c :: cs)

theorem digits_of_natural? {radix n : Nat} {cs : List Char} (h : Text.natural? radix cs = some n) :
    cs ≠ [] ∧ ∀ c ∈ cs, (Text.digit? radix c).isSome = true :=
  exists_natural?_iff.1 ⟨n, h⟩

/-- The code points of the digits of a radix. -/
theorem digit_bounds {radix : Nat} {c : Char} (h : (Text.digit? radix c).isSome = true) :
    48 ≤ c.toNat ∧ c.toNat ≤ 57 ∨ 97 ≤ c.toNat ∧ c.toNat < 87 + radix ∨
      65 ≤ c.toNat ∧ c.toNat < 55 + radix := by
  simp only [Text.digit?, Char.reduceToNat] at h
  split at h
  · exact .inl ‹_›
  · split at h
    · simp only [Option.isSome_filter, Option.any_some, decide_eq_true_eq] at h
      omega
    · split at h
      · simp only [Option.isSome_filter, Option.any_some, decide_eq_true_eq] at h
        omega
      · cases h

theorem isDigit_bounds {c : Char} (h : Decimal.isDigit c = true) :
    48 ≤ c.toNat ∧ c.toNat ≤ 57 := by
  have := digit_bounds h
  omega

theorem isLetterOrNumeral_of_bounds {c : Char}
    (h : 48 ≤ c.toNat ∧ c.toNat ≤ 57 ∨ 65 ≤ c.toNat ∧ c.toNat ≤ 90 ∨
      97 ≤ c.toNat ∧ c.toNat ≤ 122) : Text.isLetterOrNumeral c = true := by
  have hletters : Text.letterRanges = (65, 90) :: (97, 122) :: Text.letterRanges.drop 2 := rfl
  have hnumerals : Text.numeralRanges = (48, 57) :: Text.numeralRanges.drop 1 := rfl
  rw [Text.isLetterOrNumeral, hletters, hnumerals]
  simp only [Text.inRanges]
  grind

theorem isNamePart_of_digit {c : Char} (h : (Text.digit? 16 c).isSome = true) :
    isNamePart c = true := by
  have hc : Text.isLetterOrNumeral c = true :=
    isLetterOrNumeral_of_bounds (by have := digit_bounds h; omega)
  simp [isNamePart, hc]

theorem isNamePart_of_isDigit {c : Char} (h : Decimal.isDigit c = true) : isNamePart c = true := by
  have hc : Text.isLetterOrNumeral c = true := isLetterOrNumeral_of_bounds (.inl (isDigit_bounds h))
  simp [isNamePart, hc]

/-- What ends a number is none of its characters. -/
theorem Ends.not_digit {c : Char} {rest : List Char} (h : Ends (c :: rest)) :
    (Text.digit? 16 c).isSome = false ∧ Decimal.isDigit c = false ∧
      c ≠ '_' ∧ c ≠ 'e' ∧ c ≠ 'E' := by
  have hname := (h c rfl).1
  refine ⟨?_, ?_, ?_, ?_, ?_⟩
  · by_contra hd
    have hpart := isNamePart_of_digit (Bool.not_eq_false _ ▸ hd)
    rw [hname] at hpart
    cases hpart
  · by_contra hd
    have hpart := isNamePart_of_isDigit (Bool.not_eq_false _ ▸ hd)
    rw [hname] at hpart
    cases hpart
  all_goals
    rintro rfl
    exact absurd hname (by decide)

/-! ### Runs of characters of one kind -/

theorem takeWhile_append_of_stop {p : Char → Bool} {cs rest : List Char}
    (hcs : ∀ c ∈ cs, p c = true) (hrest : ∀ c, rest.head? = some c → p c = false) :
    (cs ++ rest).takeWhile p = cs ∧ (cs ++ rest).dropWhile p = rest := by
  rw [List.takeWhile_append_of_pos hcs, List.dropWhile_append_of_pos hcs]
  cases rest with
  | nil => simp
  | cons c rest => simp [hrest c rfl]

/-! ### Decimals -/

theorem readExponent?_minus {mark : Char} (hmark : mark = 'e' ∨ mark = 'E') (ds : List Char) :
    Decimal.readExponent? (mark :: '-' :: ds) =
      (Text.natural? 10 ds).map fun n : Nat => -(n : Int) := by
  simp only [Decimal.readExponent?, hmark, if_true]
  cases Text.natural? 10 ds <;> rfl

theorem readExponent?_plus {mark : Char} (hmark : mark = 'e' ∨ mark = 'E') (ds : List Char) :
    Decimal.readExponent? (mark :: '+' :: ds) =
      (Text.natural? 10 ds).map fun n : Nat => (n : Int) := by
  simp only [Decimal.readExponent?, hmark, if_true]
  cases Text.natural? 10 ds <;> rfl

theorem readExponent?_unsigned {mark : Char} (hmark : mark = 'e' ∨ mark = 'E') {ds : List Char}
    (hminus : ∀ more, ds ≠ '-' :: more) (hplus : ∀ more, ds ≠ '+' :: more) :
    Decimal.readExponent? (mark :: ds) = (Text.natural? 10 ds).map fun n : Nat => (n : Int) := by
  simp only [Decimal.readExponent?, hmark, if_true]
  cases Text.natural? 10 ds <;> rfl

theorem exponent_of_readExponent? {cs : List Char} {e : Int}
    (h : Decimal.readExponent? cs = some e) : Exponent cs e := by
  fun_cases Decimal.readExponent? cs with
  | case1 => cases h; exact .none
  | case2 mark hmark ds =>
    rw [readExponent?_minus hmark, Option.map_eq_some_iff] at h
    obtain ⟨n, hn, rfl⟩ := h
    exact .minus hmark hn
  | case3 mark hmark ds =>
    rw [readExponent?_plus hmark, Option.map_eq_some_iff] at h
    obtain ⟨n, hn, rfl⟩ := h
    exact .plus hmark hn
  | case4 mark hmark ds hminus hplus =>
    rw [readExponent?_unsigned hmark hminus hplus, Option.map_eq_some_iff] at h
    obtain ⟨n, hn, rfl⟩ := h
    exact .unsigned hmark hn
  | case5 mark ds hmark =>
    simp only [Decimal.readExponent?, if_neg hmark] at h
    cases h

/-- A row of digits starts with none of the other characters. -/
theorem ne_cons_of_natural? {n : Nat} {ds : List Char} (h : Text.natural? 10 ds = some n) {c : Char}
    (hc : Decimal.isDigit c = false) (more : List Char) : ds ≠ c :: more := by
  rintro rfl
  have hdigit : Decimal.isDigit c = true := (digits_of_natural? h).2 c (.head _)
  rw [hc] at hdigit
  cases hdigit

theorem readExponent?_of_exponent {cs : List Char} {e : Int} (h : Exponent cs e) :
    Decimal.readExponent? cs = some e := by
  cases h with
  | none => rfl
  | unsigned hmark hn =>
    rw [readExponent?_unsigned hmark (ne_cons_of_natural? hn (by decide))
      (ne_cons_of_natural? hn (by decide)), hn]
    rfl
  | plus hmark hn => rw [readExponent?_plus hmark, hn]; rfl
  | minus hmark hn => rw [readExponent?_minus hmark, hn]; rfl

/-- An exponent starts with its mark. -/
theorem Exponent.mark_of_head {cs : List Char} {e : Int} (h : Exponent cs e) {c : Char}
    (hc : cs.head? = some c) : c = 'e' ∨ c = 'E' := by
  cases h with
  | none => cases hc
  | unsigned hmark _ | plus hmark _ | minus hmark _ => cases hc; exact hmark

theorem Exponent.not_digit {cs : List Char} {e : Int} (h : Exponent cs e) :
    ∀ c, cs.head? = some c → Decimal.isDigit c = false := by
  intro c hc
  rcases h.mark_of_head hc with rfl | rfl <;> decide

theorem Exponent.ne_point {cs : List Char} {e : Int} (h : Exponent cs e) (more : List Char) :
    cs ≠ '.' :: more := by
  rintro rfl
  rcases h.mark_of_head rfl with h | h <;> exact absurd h (by decide)

theorem digitsValue_of_natural? {n : Nat} {ds : List Char} (h : Text.natural? 10 ds = some n) :
    Decimal.digitsValue ds = n := by
  rw [Decimal.digitsValue, h, Option.getD_some]

/-- Digits with at least one among them have a value. -/
theorem natural?_digitsValue {ds : List Char} (hne : ds.isEmpty = false)
    (hds : ∀ c ∈ ds, Decimal.isDigit c = true) :
    Text.natural? 10 ds = some (Decimal.digitsValue ds) := by
  obtain ⟨n, hn⟩ := exists_natural?_iff.2 ⟨List.isEmpty_eq_false_iff.1 hne, hds⟩
  rw [digitsValue_of_natural? hn, hn]

theorem read?_whole {whole rest : List Char} (hwhole : ∀ c ∈ whole, Decimal.isDigit c = true)
    (hrest : ∀ c, rest.head? = some c → Decimal.isDigit c = false)
    (hpoint : ∀ more, rest ≠ '.' :: more) :
    Decimal.read? (whole ++ rest) =
      if whole.isEmpty then none
      else (Decimal.readExponent? rest).map fun e =>
        ⟨Decimal.digitsValue whole, whole.length, e⟩ := by
  obtain ⟨htake, hdrop⟩ := takeWhile_append_of_stop hwhole hrest
  simp [Decimal.read?, htake, hdrop]

theorem read?_point {whole fraction rest : List Char}
    (hwhole : ∀ c ∈ whole, Decimal.isDigit c = true)
    (hfraction : ∀ c ∈ fraction, Decimal.isDigit c = true)
    (hrest : ∀ c, rest.head? = some c → Decimal.isDigit c = false) :
    Decimal.read? (whole ++ '.' :: (fraction ++ rest)) =
      if (whole ++ fraction).isEmpty then none
      else (Decimal.readExponent? rest).map fun e =>
        ⟨Decimal.digitsValue (whole ++ fraction), (whole ++ fraction).length,
          e - fraction.length⟩ := by
  have hpoint : ∀ c, ('.' :: (fraction ++ rest)).head? = some c → Decimal.isDigit c = false := by
    intro c hc
    cases hc
    decide
  obtain ⟨htake, hdrop⟩ := takeWhile_append_of_stop hwhole hpoint
  obtain ⟨htake', hdrop'⟩ := takeWhile_append_of_stop hfraction hrest
  simp only [Decimal.read?, htake, hdrop, htake', hdrop']

theorem dropWhile_head {p : Char → Bool} {cs : List Char} {c : Char}
    (h : (cs.dropWhile p).head? = some c) : p c = false := by
  have := List.head?_dropWhile_not p cs
  rwa [h] at this

theorem isDecimal_of_read? {cs : List Char} {d : Decimal.Written}
    (h : Decimal.read? cs = some d) : IsDecimal cs d := by
  have hcs := List.takeWhile_append_dropWhile (p := Decimal.isDigit) (l := cs)
  have hwhole : ∀ c ∈ cs.takeWhile Decimal.isDigit, Decimal.isDigit c = true :=
    fun c hc => List.mem_takeWhile_imp hc
  by_cases hpoint : ∃ more, cs.dropWhile Decimal.isDigit = '.' :: more
  · obtain ⟨more, hmore⟩ := hpoint
    have hfraction : ∀ c ∈ more.takeWhile Decimal.isDigit, Decimal.isDigit c = true :=
      fun c hc => List.mem_takeWhile_imp hc
    rw [← hcs, hmore, ← List.takeWhile_append_dropWhile (p := Decimal.isDigit) (l := more),
      read?_point hwhole hfraction fun c => dropWhile_head] at h
    split at h
    · cases h
    next hne =>
    obtain ⟨e, he, rfl⟩ := Option.map_eq_some_iff.1 h
    have hds := natural?_digitsValue (by simpa using hne)
      (List.forall_mem_append.2 ⟨hwhole, hfraction⟩)
    have := IsDecimal.point hwhole hds (exponent_of_readExponent? he)
    rwa [List.takeWhile_append_dropWhile, ← hmore, hcs] at this
  · have hnone : ∀ more, cs.dropWhile Decimal.isDigit ≠ '.' :: more :=
      fun more hmore => hpoint ⟨more, hmore⟩
    rw [← hcs, read?_whole hwhole (fun c => dropWhile_head) hnone] at h
    split at h
    · cases h
    next hne =>
    obtain ⟨e, he, rfl⟩ := Option.map_eq_some_iff.1 h
    have := IsDecimal.whole (natural?_digitsValue (by simpa using hne) hwhole)
      (exponent_of_readExponent? he)
    rwa [hcs] at this

theorem read?_of_isDecimal {cs : List Char} {d : Decimal.Written} (h : IsDecimal cs d) :
    Decimal.read? cs = some d := by
  cases h with
  | @whole ds ex n e hn he =>
    obtain ⟨hne, hds⟩ := digits_of_natural? hn
    rw [read?_whole hds he.not_digit he.ne_point, if_neg (by simpa using hne),
      readExponent?_of_exponent he, digitsValue_of_natural? hn, Option.map_some]
  | @point whole fraction ex n e hwhole hn he =>
    obtain ⟨hne, hds⟩ := digits_of_natural? hn
    rw [read?_point hwhole (List.forall_mem_append.1 hds).2 he.not_digit,
      if_neg (by simpa using hne), readExponent?_of_exponent he, digitsValue_of_natural? hn,
      Option.map_some]

/-! ### Gathering the characters of a number -/

/-- Whether a character goes on with a decimal number. -/
def GoesOn (afterMark : Bool) (c : Char) : Prop :=
  Decimal.isDigit c = true ∨ c = '.' ∨ c = 'e' ∨ c = 'E' ∨ (c = '-' ∨ c = '+') ∧ afterMark = true

theorem decimalRun_separator (afterMark : Bool) (cs : List Char) :
    decimalRun afterMark ('_' :: cs) = decimalRun afterMark cs := by
  rw [decimalRun, if_pos rfl]

theorem decimalRun_cons {afterMark : Bool} {c : Char} (h : GoesOn afterMark c) (cs : List Char) :
    decimalRun afterMark (c :: cs) =
      (c :: (decimalRun (c = 'e' || c = 'E') cs).1, (decimalRun (c = 'e' || c = 'E') cs).2) := by
  have hc : c ≠ '_' := by
    rintro rfl
    exact absurd h (by simp [GoesOn]; decide)
  unfold GoesOn at h
  rw [decimalRun, if_neg hc, if_pos h]

theorem decimalRun_stop {afterMark : Bool} {c : Char} (hc : c ≠ '_') (h : ¬ GoesOn afterMark c)
    (cs : List Char) : decimalRun afterMark (c :: cs) = ([], c :: cs) := by
  unfold GoesOn at h
  rw [decimalRun, if_neg hc, if_neg h]

/-- The gathered text, without separators, and the rest make up the whole text. -/
theorem decimalRun_split (afterMark : Bool) (cs : List Char) :
    ∃ w, cs = w ++ (decimalRun afterMark cs).2 ∧
      withoutSeparators w = (decimalRun afterMark cs).1 := by
  induction cs generalizing afterMark with
  | nil => exact ⟨[], rfl, rfl⟩
  | cons c cs ih =>
    by_cases hc : c = '_'
    · subst hc
      rw [decimalRun_separator]
      obtain ⟨w, hw, ht⟩ := ih afterMark
      exact ⟨'_' :: w, congrArg _ hw, ht⟩
    · by_cases h : GoesOn afterMark c
      · rw [decimalRun_cons h]
        obtain ⟨w, hw, ht⟩ := ih (c = 'e' || c = 'E')
        refine ⟨c :: w, congrArg _ hw, ?_⟩
        rw [← ht, withoutSeparators, List.filter_cons_of_pos (by simpa using hc)]
        rfl
      · rw [decimalRun_stop hc h]
        exact ⟨[], rfl, rfl⟩

/-- A text that is gathered up to its end is gathered in front of what ends a number. -/
theorem decimalRun_append {afterMark : Bool} {cs rest : List Char}
    (h : (decimalRun afterMark cs).2 = []) (hrest : Ends rest) :
    decimalRun afterMark (cs ++ rest) = (withoutSeparators cs, rest) := by
  induction cs generalizing afterMark with
  | nil =>
    cases rest with
    | nil => rfl
    | cons c rest =>
      obtain ⟨-, hdigit, hc, he, hE⟩ := hrest.not_digit
      obtain ⟨-, hpoint, hplus, hminus⟩ := hrest c rfl
      exact decimalRun_stop hc (by simp [GoesOn, *]) rest
  | cons c cs ih =>
    by_cases hc : c = '_'
    · subst hc
      rw [decimalRun_separator] at h
      rw [List.cons_append, decimalRun_separator, ih h]
      rfl
    · by_cases hgo : GoesOn afterMark c
      · rw [decimalRun_cons hgo] at h
        rw [List.cons_append, decimalRun_cons hgo, ih h, withoutSeparators, withoutSeparators,
          List.filter_cons_of_pos (by simpa using hc)]
      · rw [decimalRun_stop hc hgo] at h
        cases h

/-- Separators do not stop the gathering. -/
theorem decimalRun_withoutSeparators (afterMark : Bool) (cs : List Char)
    (h : (decimalRun afterMark (withoutSeparators cs)).2 = []) :
    (decimalRun afterMark cs).2 = [] := by
  induction cs generalizing afterMark with
  | nil => rfl
  | cons c cs ih =>
    by_cases hc : c = '_'
    · subst hc
      rw [decimalRun_separator]
      exact ih afterMark h
    · rw [withoutSeparators, List.filter_cons_of_pos (by simpa using hc)] at h
      by_cases hgo : GoesOn afterMark c
      · rw [decimalRun_cons hgo] at h ⊢
        exact ih _ h
      · rw [decimalRun_stop hc hgo] at h
        cases h

theorem decimalRun_cons_digit (afterMark : Bool) {d : Char} (h : Decimal.isDigit d = true)
    (cs : List Char) : (decimalRun afterMark (d :: cs)).2 = (decimalRun false cs).2 := by
  have hmark : (decide (d = 'e') || decide (d = 'E')) = false := by
    simp only [Bool.or_eq_false_iff, decide_eq_false_iff_not]
    constructor <;> rintro rfl <;> exact absurd h (by decide)
  rw [decimalRun_cons (.inl h), hmark]

theorem decimalRun_digits {ds : List Char} (h : ∀ c ∈ ds, Decimal.isDigit c = true)
    (rest : List Char) : (decimalRun false (ds ++ rest)).2 = (decimalRun false rest).2 := by
  induction ds with
  | nil => rfl
  | cons d ds ih =>
    rw [List.forall_mem_cons] at h
    rw [List.cons_append, decimalRun_cons_digit false h.1, ih h.2]

theorem decimalRun_natural? (afterMark : Bool) {ds : List Char} {n : Nat}
    (h : Text.natural? 10 ds = some n) : (decimalRun afterMark ds).2 = [] := by
  cases ds with
  | nil => rfl
  | cons d ds =>
    have hds := List.forall_mem_cons.1 (digits_of_natural? h).2
    have := decimalRun_digits hds.2 []
    rw [List.append_nil] at this
    rw [decimalRun_cons_digit afterMark hds.1, this]
    rfl

theorem decimalRun_mark {mark : Char} (hmark : mark = 'e' ∨ mark = 'E') (cs : List Char) :
    (decimalRun false (mark :: cs)).2 = (decimalRun true cs).2 := by
  rcases hmark with rfl | rfl <;> rw [decimalRun_cons (by simp [GoesOn])] <;> rfl

theorem decimalRun_sign {sign : Char} (hsign : sign = '-' ∨ sign = '+') (cs : List Char) :
    (decimalRun true (sign :: cs)).2 = (decimalRun false cs).2 := by
  rcases hsign with rfl | rfl <;> rw [decimalRun_cons (by simp [GoesOn])] <;> rfl

theorem decimalRun_exponent {ex : List Char} {e : Int} (h : Exponent ex e) :
    (decimalRun false ex).2 = [] := by
  cases h with
  | none => rfl
  | unsigned hmark hn => rw [decimalRun_mark hmark, decimalRun_natural? true hn]
  | plus hmark hn =>
    rw [decimalRun_mark hmark, decimalRun_sign (.inr rfl), decimalRun_natural? false hn]
  | minus hmark hn =>
    rw [decimalRun_mark hmark, decimalRun_sign (.inl rfl), decimalRun_natural? false hn]

/-- A decimal is gathered up to its end. -/
theorem decimalRun_isDecimal {cs : List Char} {d : Decimal.Written} (h : IsDecimal cs d) :
    (decimalRun false cs).2 = [] := by
  cases h with
  | whole hn he => rw [decimalRun_digits (digits_of_natural? hn).2, decimalRun_exponent he]
  | point hwhole hn he =>
    have hfraction := (List.forall_mem_append.1 (digits_of_natural? hn).2).2
    rw [decimalRun_digits hwhole, decimalRun_cons (.inr (.inl rfl))]
    exact (decimalRun_digits hfraction _).trans (decimalRun_exponent he)

/-- The gathered hexadecimal digits and the rest make up the whole text. -/
theorem hexRun_split (cs : List Char) :
    ∃ w, cs = w ++ (hexRun cs).2 ∧ withoutSeparators w = (hexRun cs).1 := by
  fun_induction hexRun cs with
  | case1 => exact ⟨[], rfl, rfl⟩
  | case2 cs ih =>
    obtain ⟨w, hw, ht⟩ := ih
    exact ⟨'_' :: w, congrArg _ hw, ht⟩
  | case3 c cs hc _ text rest hrun ih =>
    obtain ⟨w, hw, ht⟩ := ih
    rw [hrun] at hw ht
    refine ⟨c :: w, congrArg _ hw, ?_⟩
    rw [withoutSeparators, List.filter_cons_of_pos (by simpa using hc)]
    exact congrArg _ ht
  | case4 c cs => exact ⟨[], rfl, rfl⟩

theorem hexRun_append {cs rest : List Char}
    (h : ∀ c ∈ withoutSeparators cs, (Text.digit? 16 c).isSome = true) (hrest : Ends rest) :
    hexRun (cs ++ rest) = (withoutSeparators cs, rest) := by
  induction cs with
  | nil =>
    cases rest with
    | nil => rfl
    | cons c rest =>
      obtain ⟨hdigit, -, hc, -⟩ := hrest.not_digit
      simp [hexRun, hdigit, hc, withoutSeparators]
  | cons c cs ih =>
    by_cases hc : c = '_'
    · subst hc
      rw [List.cons_append, hexRun, if_pos rfl, ih h]
      rfl
    · rw [withoutSeparators, List.filter_cons_of_pos (by simpa using hc),
        List.forall_mem_cons] at h
      rw [List.cons_append, hexRun, if_neg hc, if_pos h.1, ih h.2, withoutSeparators,
        withoutSeparators, List.filter_cons_of_pos (by simpa using hc)]

/-! ### Numbers -/

theorem filter_lt_eq_some {o : Option Nat} {bound n : Nat} :
    o.filter (· < bound) = some n ↔ o = some n ∧ n < bound := by
  simp [Option.filter_eq_some_iff]

theorem filter_lt_eq_none {o : Option Nat} {bound : Nat} :
    o.filter (· < bound) = none ↔ ∀ n, o = some n → bound ≤ n := by
  simp [Option.filter_eq_none_iff]

/-- The value of a gathered decimal is its magnitude. -/
theorem magnitude_of_decimalValue? {negative : Bool} {cs : List Char} {n : Number}
    (h : decimalValue? negative (withoutSeparators cs) = some n) : Magnitude negative cs n := by
  unfold decimalValue? at h
  split at h
  next n hn =>
    cases h
    obtain ⟨hn, hsize⟩ := filter_lt_eq_some.1 hn
    exact .integer hn hsize
  next hn =>
    split at h
    next x hx =>
      obtain ⟨d, hd, rfl⟩ := Option.map_eq_some_iff.1 hx
      split at h
      next hfinite =>
        cases h
        exact .float (isDecimal_of_read? hd) (filter_lt_eq_none.1 hn) hfinite
      next => cases h
    next => cases h

theorem decimalValue?_of_integer (negative : Bool) {cs : List Char} {n : Nat}
    (hn : Text.natural? 10 cs = some n) (hsize : n < Text.bits63) :
    decimalValue? negative cs = some (signed negative n) := by
  rw [decimalValue?, filter_lt_eq_some.2 ⟨hn, hsize⟩]

theorem decimalValue?_of_float (negative : Bool) {cs : List Char} {d : Decimal.Written}
    (hd : IsDecimal cs d) (hsize : ∀ n, Text.natural? 10 cs = some n → Text.bits63 ≤ n)
    (hfinite : d.toBinary64.isFinite = true) :
    decimalValue? negative cs =
      some (.float (if negative then d.toBinary64.neg else d.toBinary64)) := by
  rw [decimalValue?, filter_lt_eq_none.2 hsize, read?_of_isDecimal hd, Option.map_some]
  simp [hfinite]

/-- Text that starts as a hexadecimal number does. -/
def Hexadecimal (cs : List Char) : Prop :=
  ∃ mark ds, (mark = 'x' ∨ mark = 'X') ∧ cs = '0' :: mark :: ds

theorem unsignedNumber_hexadecimal (start : List Char) (negative : Bool) {mark : Char}
    (hmark : mark = 'x' ∨ mark = 'X') (cs : List Char) :
    unsignedNumber start negative ('0' :: mark :: cs) =
      match (Text.natural? 16 (hexRun cs).1).filter (· < Text.bits63) with
      | some n => .ok (signed negative n, (hexRun cs).2)
      | none => .error ⟨.badHexadecimal, start⟩ := by
  rcases hmark with rfl | rfl <;> rfl

theorem unsignedNumber_decimal (start : List Char) (negative : Bool) {cs : List Char}
    (h : ¬ Hexadecimal cs) :
    unsignedNumber start negative cs =
      match decimalValue? negative (decimalRun false cs).1 with
      | some n => .ok (n, (decimalRun false cs).2)
      | none => .error ⟨.badNumber (String.ofList (decimalRun false cs).1), start⟩ := by
  unfold unsignedNumber
  split
  next ds => exact absurd ⟨'x', ds, .inl rfl, rfl⟩ h
  next ds => exact absurd ⟨'X', ds, .inr rfl, rfl⟩ h
  next => rfl

/-- What is gathered as a decimal does not start as a hexadecimal number. -/
theorem not_hexadecimal {cs rest : List Char} (h : (decimalRun false cs).2 = [])
    (hrest : Ends rest) : ¬ Hexadecimal (cs ++ rest) := by
  rintro ⟨mark, ds, hmark, hcs⟩
  have hzero : decimalRun false ('0' :: mark :: ds) = (['0'], mark :: ds) := by
    rw [decimalRun_cons (.inl (by decide))]
    rcases hmark with rfl | rfl <;> rw [decimalRun_stop (by decide) (by simp [GoesOn]; decide)]
  have hrun := decimalRun_append h hrest
  rw [hcs, hzero] at hrun
  have hpart := (hrest mark (by rw [← (Prod.mk.inj hrun).2]; rfl)).1
  rcases hmark with rfl | rfl
  all_goals
    rw [isNamePart, isLetterOrNumeral_of_bounds (by decide)] at hpart
    cases hpart

/-- A magnitude in front of what ends a number is read. -/
theorem unsignedNumber_append {negative : Bool} {cs rest : List Char} {n : Number}
    (h : Magnitude negative cs n) (hrest : Ends rest) (start : List Char) :
    unsignedNumber start negative (cs ++ rest) = .ok (n, rest) := by
  cases h with
  | hexadecimal hmark hn hsize =>
    rw [List.cons_append, List.cons_append, unsignedNumber_hexadecimal start negative hmark,
      hexRun_append (digits_of_natural? hn).2 hrest, filter_lt_eq_some.2 ⟨hn, hsize⟩]
  | integer hn hsize =>
    have hrun := decimalRun_withoutSeparators false cs (decimalRun_natural? false hn)
    rw [unsignedNumber_decimal start negative (not_hexadecimal hrun hrest),
      decimalRun_append hrun hrest, decimalValue?_of_integer negative hn hsize]
  | float hd hsize hfinite =>
    have hrun := decimalRun_withoutSeparators false cs (decimalRun_isDecimal hd)
    rw [unsignedNumber_decimal start negative (not_hexadecimal hrun hrest),
      decimalRun_append hrun hrest, decimalValue?_of_float negative hd hsize hfinite]

/-- What is read after a sign is a magnitude. -/
theorem magnitude_of_unsignedNumber {start cs rest : List Char} {negative : Bool} {n : Number}
    (h : unsignedNumber start negative cs = .ok (n, rest)) :
    ∃ w, Magnitude negative w n ∧ cs = w ++ rest := by
  by_cases hex : Hexadecimal cs
  · obtain ⟨mark, ds, hmark, rfl⟩ := hex
    rw [unsignedNumber_hexadecimal start negative hmark] at h
    obtain ⟨w, hw, hdigits⟩ := hexRun_split ds
    split at h
    next m hm =>
      cases h
      obtain ⟨hm, hsize⟩ := filter_lt_eq_some.1 hm
      exact ⟨'0' :: mark :: w, .hexadecimal hmark (hdigits ▸ hm) hsize,
        congrArg (fun cs => '0' :: mark :: cs) hw⟩
    next => cases h
  · rw [unsignedNumber_decimal start negative hex] at h
    obtain ⟨w, hw, hgathered⟩ := decimalRun_split false cs
    split at h
    next m hm =>
      cases h
      exact ⟨w, magnitude_of_decimalValue? (hgathered ▸ hm), hw⟩
    next => cases h

/-! ### Signed numbers, names and keys -/

theorem number_digit {c : Char} (hminus : c ≠ '-') (hplus : c ≠ '+') (cs : List Char) :
    number (c :: cs) = unsignedNumber (c :: cs) false (c :: cs) := by
  unfold number
  split <;> simp_all

/-- A number in front of what ends it is read. -/
theorem number_append {w rest : List Char} {n : Number} (h : Numeral w n) (hrest : Ends rest) :
    number (w ++ rest) = .ok (n, rest) := by
  cases h with
  | @unsigned c cs _ hc h =>
    have hminus : c ≠ '-' := by
      rintro rfl
      exact absurd hc (by decide)
    have hplus : c ≠ '+' := by
      rintro rfl
      exact absurd hc (by decide)
    exact (number_digit hminus hplus _).trans (unsignedNumber_append h hrest _)
  | plus h => exact unsignedNumber_append h hrest _
  | minus h => exact unsignedNumber_append h hrest _

theorem IsDecimal.ne_nil {cs : List Char} {d : Decimal.Written} (h : IsDecimal cs d) :
    cs ≠ [] := by
  cases h with
  | whole hn _ => simp [(digits_of_natural? hn).1]
  | point _ _ _ => simp

theorem Magnitude.ne_nil {negative : Bool} {cs : List Char} {n : Number}
    (h : Magnitude negative cs n) : cs ≠ [] := by
  rintro rfl
  cases h with
  | integer hn _ => exact (digits_of_natural? hn).1 rfl
  | float hd _ _ => exact hd.ne_nil rfl

/-- What is read as a number is one. -/
theorem numeral_of_number {c : Char} {cs rest : List Char} {n : Number}
    (hc : Decimal.isDigit c = true ∨ c = '-' ∨ c = '+' ∨ c = '.')
    (h : number (c :: cs) = .ok (n, rest)) : ∃ w, Numeral w n ∧ c :: cs = w ++ rest := by
  by_cases hminus : c = '-'
  · subst hminus
    obtain ⟨w, hw, rfl⟩ := magnitude_of_unsignedNumber h
    exact ⟨'-' :: w, .minus hw, rfl⟩
  by_cases hplus : c = '+'
  · subst hplus
    obtain ⟨w, hw, rfl⟩ := magnitude_of_unsignedNumber h
    exact ⟨'+' :: w, .plus hw, rfl⟩
  rw [number_digit hminus hplus] at h
  obtain ⟨w, hw, hcs⟩ := magnitude_of_unsignedNumber h
  obtain ⟨d, ds, rfl⟩ := List.exists_cons_of_ne_nil hw.ne_nil
  obtain ⟨rfl, rfl⟩ := List.cons.inj hcs
  exact ⟨c :: ds, .unsigned (by tauto) hw, rfl⟩

/-! ### Names and keys -/

/-- A name in front of what ends it is read. -/
theorem name_append {w rest : List Char} (hw : ∀ c ∈ w, isNamePart c = true) (hrest : Ends rest) :
    name (w ++ rest) = (String.ofList w, rest) := by
  obtain ⟨htake, hdrop⟩ := takeWhile_append_of_stop hw fun c hc => (hrest c hc).1
  rw [name, htake, hdrop]

theorem isNamePart_of_isNameStart {c : Char} (h : isNameStart c = true) : isNamePart c = true := by
  simp only [isNameStart, isNamePart, Text.isLetter, Text.isLetterOrNumeral, Bool.or_eq_true] at *
  tauto

theorem isNameStart_of_lower {c : Char} (h : 97 ≤ c.toNat ∧ c.toNat ≤ 122) :
    isNameStart c = true := by
  have hletters : Text.letterRanges = (65, 90) :: (97, 122) :: Text.letterRanges.drop 2 := rfl
  have hc : Text.isLetter c = true := by
    rw [Text.isLetter, hletters]
    simp only [Text.inRanges]
    grind
  simp [isNameStart, hc]

theorem isNameStart_bounds {c : Char} (h : isNameStart c = true) :
    65 ≤ c.toNat ∨ c = '$' := by
  simp only [isNameStart, Bool.or_eq_true, decide_eq_true_eq] at h
  rcases h with (hletter | rfl) | rfl
  · have hletters : Text.letterRanges = (65, 90) :: Text.letterRanges.drop 1 := rfl
    by_contra! hc
    rw [Text.isLetter, hletters, Text.inRanges, if_pos hc.1] at hletter
    cases hletter
  · exact .inl (by decide)
  · exact .inr rfl

theorem isNameStart_not_digit {c : Char} (h : isNameStart c = true) :
    Decimal.isDigit c = false := by
  by_contra hd
  rcases isNameStart_bounds h with hc | rfl
  · have := isDigit_bounds (Bool.not_eq_false _ ▸ hd)
    omega
  · exact hd (by decide)

theorem isNameStart_not_quote {c : Char} (h : isNameStart c = true) : isQuote c = false := by
  by_contra hq
  rcases isQuote_cases (Bool.not_eq_false _ ▸ hq) with rfl | rfl | rfl <;>
    exact absurd h (by decide)

/-- A key in front of what ends it is read. -/
theorem key_append {w rest : List Char} {s : String} (h : Key w s) (hrest : Ends rest) :
    key (w ++ rest) = .ok (s, rest) := by
  cases h with
  | string h =>
    obtain @⟨quote, body, out, hquote, hbody, hout⟩ := h
    have := quoted_append (.mk hquote hbody hout) rest
    simp only [List.cons_append, key, hquote, if_true]
    exact this
  | @name c cs hc hcs =>
    have hname := name_append (List.forall_mem_cons.2 ⟨isNamePart_of_isNameStart hc, hcs⟩) hrest
    simp only [List.cons_append, key, isNameStart_not_quote hc, hc, if_true]
    exact congrArg Except.ok hname
  | @number c cs n hc h =>
    have hnumber := number_append (.unsigned (.inl hc) h) hrest
    have hstart : isNameStart c = false := by
      by_contra hs
      rw [isNameStart_not_digit (Bool.not_eq_false _ ▸ hs)] at hc
      cases hc
    have hquote : isQuote c = false := by
      by_contra hq
      rcases isQuote_cases (Bool.not_eq_false _ ▸ hq) with rfl | rfl | rfl <;>
        exact absurd hc (by decide)
    rw [List.cons_append] at hnumber ⊢
    simp only [key, hquote, hstart, hc, hnumber, if_true]
    rfl

/-- What is read as a key is one. -/
theorem key_of_key {cs rest : List Char} {s : String} (h : key cs = .ok (s, rest)) :
    ∃ w, Key w s ∧ cs = w ++ rest := by
  unfold key at h
  split at h
  · cases h
  next c cs =>
  split at h
  next hquote =>
    obtain ⟨w, hw, rfl⟩ := quoted_of_quoted hquote h
    exact ⟨c :: w, .string hw, rfl⟩
  next hquote =>
  split at h
  next hstart =>
    cases h
    have hpart := isNamePart_of_isNameStart hstart
    rw [List.takeWhile_cons_of_pos hpart, List.dropWhile_cons_of_pos hpart]
    exact ⟨c :: cs.takeWhile isNamePart, .name hstart fun d hd => List.mem_takeWhile_imp hd,
      congrArg _ List.takeWhile_append_dropWhile.symm⟩
  next hstart =>
  split at h
  next hdigit =>
    cases hnumber : number (c :: cs) with
    | error f => rw [hnumber] at h; cases h
    | ok read =>
      rw [hnumber] at h
      cases h
      obtain ⟨w, hw, hcs⟩ := numeral_of_number (.inl hdigit) hnumber
      cases hw with
      | unsigned _ h =>
        obtain ⟨rfl, -⟩ := List.cons.inj hcs
        exact ⟨_, .number hdigit h, hcs⟩
      | plus h | minus h =>
        obtain ⟨rfl, -⟩ := List.cons.inj hcs
        exact absurd hdigit (by decide)
  next => cases h

/-- A word is read as its value. -/
theorem word?_of_word {w : List Char} {v : Json} (h : Word w v) :
    word? (String.ofList w) = some v := by
  cases h <;> rfl

theorem word_of_word? {s : String} {v : Json} (h : word? s = some v) : Word s.toList v := by
  fun_cases word? s with
  | case1 => cases h; exact .true
  | case2 => cases h; exact .false
  | case3 => cases h; exact .null
  | case4 => cases h; exact .undefined
  | case5 => simp_all [word?]

end RouteContract.Literal
