import Mathlib
import RouteContract.Proofs.Literal.Cursor
import RouteContract.Proofs.Literal.Numbers

/-!
# Tokens under a cursor

The readings of one token with a cursor do what the readings of the text left do (`Tracks`). Those
that go on from character to character are allowed one step for each character that is left, and
some more; those that gather characters are given by what they have taken so far (`gather_tracks`).
-/

namespace RouteContract.Literal.Cursor

variable {text rest : List Char} {pos fuel : ℕ}

/-! ### Gathering and skipping -/

/-- What is gathered is given by any function that gathers one character after the other. -/
theorem gather_tracks (accepts : List Char → Char → Bool) (takes : Char → Bool)
    (run : List Char → List Char → List Char × List Char)
    (hnil : ∀ taken, run taken [] = (taken, []))
    (hcons : ∀ taken c cs, run taken (c :: cs) =
      if accepts taken c then run (if takes c then taken ++ [c] else taken) cs
      else (taken, c :: cs))
    (h : At text pos rest) (hfuel : rest.length < fuel) (taken : List Char) :
    Tracks text (Stands text) (gather text accepts takes fuel taken pos)
      (.ok (run taken rest)) := by
  induction rest generalizing fuel taken pos with
  | nil =>
    obtain ⟨fuel, rfl⟩ : ∃ n, fuel = n + 1 := ⟨fuel - 1, by omega⟩
    rw [gather, h.getElem?_end, hnil]
    exact .ok ⟨rfl, h⟩
  | cons c rest ih =>
    obtain ⟨fuel, rfl⟩ : ∃ n, fuel = n + 1 := ⟨fuel - 1, by omega⟩
    rw [List.length_cons] at hfuel
    rw [gather, h.getElem?, hcons]
    dsimp only
    split
    · rw [h.advance_one]
      exact ih h.next (by omega) _
    · exact .ok ⟨rfl, h⟩

/-- The cursor goes on behind the line of a comment. -/
theorem gather_line (h : At text pos rest) (hfuel : rest.length < fuel) :
    Tracks text (Stands text) (gather text (fun _ c => c ≠ '\n') (fun _ => false) fuel [] pos)
      (.ok ([], rest.dropWhile (· ≠ '\n'))) := by
  refine gather_tracks _ _ (fun taken cs => (taken, cs.dropWhile (· ≠ '\n'))) (fun _ => rfl)
    (fun taken c cs => ?_) h hfuel []
  rw [List.dropWhile_cons]
  split <;> simp_all

/-- The text after a block comment; one that is not closed is a fault. -/
def closed (cs : List Char) : Outcome (List Char) :=
  match closeComment? cs with
  | some rest => .ok rest
  | none => .error ⟨.unterminatedComment, []⟩

theorem skipTrivia_closed (comment : List Char) :
    Literal.skipTrivia ('/' :: '*' :: comment) = closed comment >>= Literal.skipTrivia := by
  unfold closed
  cases h : closeComment? comment with
  | none => exact skipTrivia_block_none h
  | some rest => exact skipTrivia_block h

theorem length_lt_of_closed {cs rest : List Char} (h : closed cs = .ok rest) :
    rest.length < cs.length := by
  unfold closed at h
  split at h
  next hrest =>
    cases h
    exact closeComment?_length hrest
  next => cases h

/-- A block comment is closed where it is closed in the text left. -/
theorem closeBlock_tracks (h : At text pos rest) (hfuel : rest.length < fuel) :
    Tracks text (At text) (closeBlock text fuel pos) (closed rest) := by
  unfold closed
  fun_induction closeComment? rest generalizing fuel pos with
  | case1 =>
    obtain ⟨fuel, rfl⟩ : ∃ n, fuel = n + 1 := ⟨fuel - 1, by omega⟩
    rw [closeBlock, h.getElem?_end]
    exact .fault (f := ⟨.unterminatedComment, []⟩) h
  | case2 rest =>
    obtain ⟨fuel, rfl⟩ : ∃ n, fuel = n + 1 := ⟨fuel - 1, by omega⟩
    rw [closeBlock, h.getElem?]
    dsimp only
    rw [if_pos ⟨rfl, h.getElem?_next⟩, h.advance_two]
    exact .ok h.next.next
  | case3 c rest hend ih =>
    obtain ⟨fuel, rfl⟩ : ∃ n, fuel = n + 1 := ⟨fuel - 1, by omega⟩
    rw [List.length_cons] at hfuel
    rw [closeBlock, h.getElem?]
    dsimp only
    have hopen : ¬ (c = '*' ∧ text[pos + 1]? = some '/') := by
      rintro ⟨rfl, hslash⟩
      rw [h.getElem?_next, List.head?_eq_some_iff] at hslash
      obtain ⟨more, rfl⟩ := hslash
      exact hend more rfl rfl
    rw [if_neg hopen, h.advance_one]
    exact ih h.next (by omega)

/-- White space and comments are skipped as in the text left. -/
theorem skipTrivia_tracks (h : At text pos rest) (hfuel : rest.length + 2 ≤ fuel) :
    Tracks text (At text) (skipTrivia text fuel pos) (Literal.skipTrivia rest) := by
  induction fuel generalizing rest pos with
  | zero => omega
  | succ fuel ih =>
    rw [skipTrivia]
    cases rest with
    | nil =>
      rw [h.getElem?_end, skipTrivia_nil]
      exact .ok h
    | cons c cs =>
      rw [List.length_cons] at hfuel
      rw [h.getElem?]
      dsimp only
      rw [h.getElem?_next]
      by_cases hblank : Text.isBlank c
      · rw [if_pos hblank, h.advance_one, skipTrivia_cons_of_blank hblank]
        exact ih h.next (by omega)
      rw [if_neg hblank]
      by_cases hline : c = '/' ∧ cs.head? = some '/'
      · rw [if_pos hline]
        obtain ⟨rfl, hcs⟩ := hline
        obtain ⟨comment, rfl⟩ := List.head?_eq_some_iff.1 hcs
        have hroom : ('/' :: '/' :: comment).length < fuel := by simp at hfuel ⊢; omega
        obtain ⟨a, hgather, -, hat⟩ := (gather_line h hroom).exists_ok
        have hlength := (List.dropWhile_sublist (l := comment) (· ≠ '\n')).length_le
        rw [hgather, skipTrivia_line]
        exact ih hat (by simp at hfuel hlength ⊢; omega)
      rw [if_neg hline]
      by_cases hblock : c = '/' ∧ cs.head? = some '*'
      · rw [if_pos hblock]
        obtain ⟨rfl, hcs⟩ := hblock
        obtain ⟨comment, rfl⟩ := List.head?_eq_some_iff.1 hcs
        rw [h.advance_two]
        have hroom : comment.length < fuel := by simp at hfuel; omega
        rw [skipTrivia_closed]
        refine (closeBlock_tracks h.next.next hroom).bind fun next rest hat hrest => ?_
        have hlength := length_lt_of_closed hrest
        exact ih hat (by omega)
      rw [if_neg hblock]
      by_cases hslash : c = '/'
      · subst hslash
        rw [skipTrivia_slash (by rintro more rfl; simp at hline)
          (by rintro more rfl; simp at hblock)]
        exact .ok h
      · rw [skipTrivia_cons (by simpa using hblank) hslash]
        exact .ok h

/-! ### Strings and names -/

/-- The body that was read already is put before the one that is read of the text left. -/
theorem quotedBody_tracks {quote : Char} {start : ℕ} {left : List Char}
    (hstart : At text start left) (h : At text pos rest) (hfuel : rest.length < fuel)
    (body : List Char) :
    Tracks text (fun a b => a.1 = body ++ b.1 ∧ At text a.2 b.2)
      (quotedBody text quote start fuel body pos) (Literal.quotedBody quote left rest) := by
  induction fuel generalizing rest pos body with
  | zero => omega
  | succ fuel ih =>
    rw [quotedBody]
    cases rest with
    | nil =>
      rw [h.getElem?_end]
      exact .fault (f := ⟨.unterminatedString, left⟩) hstart
    | cons c cs =>
      rw [List.length_cons] at hfuel
      rw [h.getElem?]
      dsimp only
      rw [h.getElem?_next]
      by_cases hescape : c = '\\'
      · subst hescape
        rw [if_pos rfl, h.advance_one]
        dsimp only [bind, Except.bind]
        cases cs with
        | nil =>
          obtain ⟨fuel, rfl⟩ : ∃ n, fuel = n + 1 := ⟨fuel - 1, by simp at hfuel; omega⟩
          rw [h.next.getElem?_end, quotedBody, h.next.getElem?_end]
          exact .fault (f := ⟨.unterminatedString, left⟩) hstart
        | cons d cs =>
          rw [h.next.getElem?, quotedBody_escape]
          dsimp only
          rw [h.next.advance_one]
          refine (ih h.next.next (by simp at hfuel; omega) _).map_right fun a b hab => ?_
          exact ⟨by rw [hab.1]; simp, hab.2⟩
      rw [if_neg hescape, quotedBody_cons hescape]
      split
      · exact .fault (f := ⟨.substitution, c :: cs⟩) h
      split
      · exact .fault (f := ⟨.lineBreakInString, c :: cs⟩) h
      split
      · rw [h.advance_one]
        exact .ok ⟨(List.append_nil _).symm, h.next⟩
      · rw [h.advance_one]
        refine (ih h.next (by omega) _).map_right fun a b hab => ?_
        exact ⟨by rw [hab.1]; simp, hab.2⟩

theorem quoted_tracks {quote : Char} (h : At text pos (quote :: rest))
    (hfuel : rest.length < fuel) :
    Tracks text (Stands text) (quoted text fuel quote pos) (Literal.quoted quote rest) := by
  rw [quoted, h.advance_one]
  refine (quotedBody_tracks h h.next hfuel []).bind fun a b hab _ => ?_
  exact .ok ⟨by rw [hab.1]; rfl, hab.2⟩

theorem name_tracks (h : At text pos rest) (hfuel : rest.length < fuel) :
    Tracks text (Stands text) (name text fuel pos) (.ok (Literal.name rest)) := by
  obtain ⟨a, hgather, hword, hat⟩ := (gather_tracks (fun _ c => isNamePart c) (fun _ => true)
    (fun taken cs => (taken ++ cs.takeWhile isNamePart, cs.dropWhile isNamePart))
    (fun _ => by simp) (fun taken c cs => by by_cases hc : isNamePart c <;> simp [hc])
    h hfuel []).exists_ok
  rw [name, hgather]
  exact .ok ⟨by rw [hword]; rfl, hat⟩

/-! ### Numbers -/

/-- The digits of a hexadecimal number are gathered without separators. -/
theorem gather_hexadecimal (h : At text pos rest) (hfuel : rest.length < fuel) :
    Tracks text (Stands text)
      (gather text (fun _ c => (Text.digit? 16 c).isSome || c = '_') (· ≠ '_') fuel [] pos)
      (.ok (hexRun rest)) := by
  refine gather_tracks _ _ (fun taken cs => (taken ++ (hexRun cs).1, (hexRun cs).2))
    (fun _ => by simp [hexRun]) (fun taken c cs => ?_) h hfuel []
  rw [hexRun]
  by_cases hc : c = '_'
  · simp [hc]
  · by_cases hdigit : (Text.digit? 16 c).isSome <;> simp [hc, hdigit]

/-- The mark of an exponent is the last character taken. -/
def afterMark (taken : List Char) : Bool :=
  taken.getLast? = some 'e' || taken.getLast? = some 'E'

theorem afterMark_append (taken : List Char) (c : Char) :
    afterMark (taken ++ [c]) = (c = 'e' || c = 'E') := by
  simp [afterMark]

theorem isDecimalPart_iff {taken : List Char} {c : Char} (hc : c ≠ '_') :
    isDecimalPart taken c = true ↔ GoesOn (afterMark taken) c := by
  simp [isDecimalPart, isMark, GoesOn, afterMark, hc, or_assoc]

/-- The characters of a decimal number are gathered without separators. -/
theorem gather_decimal (h : At text pos rest) (hfuel : rest.length < fuel) :
    Tracks text (Stands text) (gather text isDecimalPart (· ≠ '_') fuel [] pos)
      (.ok (decimalRun false rest)) := by
  refine gather_tracks _ _ (fun taken cs =>
    (taken ++ (decimalRun (afterMark taken) cs).1, (decimalRun (afterMark taken) cs).2))
    (fun _ => by simp [decimalRun]) (fun taken c cs => ?_) h hfuel []
  by_cases hc : c = '_'
  · simp [hc, isDecimalPart, decimalRun_separator]
  · by_cases hgo : GoesOn (afterMark taken) c
    · simp [(isDecimalPart_iff hc).2 hgo, decimalRun_cons hgo, afterMark_append, hc]
    · simp [mt (isDecimalPart_iff hc).1 hgo, decimalRun_stop hc hgo]

/-- Text that starts with no sign. -/
def Unsigned (cs : List Char) : Prop := ∀ c, cs.head? = some c → c ≠ '+' ∧ c ≠ '-'

theorem signed64?_of_unsigned {radix : ℕ} {cs : List Char} (h : Unsigned cs) :
    Text.signed64? radix cs =
      ((Text.natural? radix cs).filter (· < Text.bits63)).map Int.ofNat := by
  unfold Text.signed64?
  split
  · exact absurd rfl (h '+' rfl).1
  · exact absurd rfl (h '-' rfl).2
  · rfl

theorem unsigned_nil : Unsigned [] := by
  intro c hc
  cases hc

theorem unsigned_hexRun (cs : List Char) : Unsigned (hexRun cs).1 := by
  fun_induction hexRun cs with
  | case1 => exact unsigned_nil
  | case2 cs ih => exact ih
  | case3 c cs hc hdigit =>
    rintro d ⟨⟩
    constructor <;> rintro rfl <;> exact absurd hdigit (by decide)
  | case4 => exact unsigned_nil

theorem unsigned_decimalRun (cs : List Char) : Unsigned (decimalRun false cs).1 := by
  induction cs with
  | nil => exact unsigned_nil
  | cons c cs ih =>
    by_cases hc : c = '_'
    · rwa [hc, decimalRun_separator]
    by_cases hgo : GoesOn false c
    · rw [decimalRun_cons hgo]
      rintro d ⟨⟩
      constructor <;> rintro rfl <;> exact absurd hgo (by simp [GoesOn]; decide)
    · rw [decimalRun_stop hc hgo]
      exact unsigned_nil

/-- A row of decimal digits has no mark. -/
theorem natural?_of_isMark {cs : List Char} (h : cs.any isMark = true) :
    Text.natural? 10 cs = none := by
  obtain ⟨c, hmem, hc⟩ := List.any_eq_true.1 h
  by_contra hn
  obtain ⟨n, hn⟩ := Option.ne_none_iff_exists'.1 hn
  have hdigit := (digits_of_natural? hn).2 c hmem
  have hmark : c = '.' ∨ c = 'e' ∨ c = 'E' := by simpa [isMark, or_assoc] using hc
  rcases hmark with rfl | rfl | rfl <;> exact absurd hdigit (by decide)

/-- A number without marks is tried as a whole number. -/
theorem signed64?_decimalRun (cs : List Char) :
    (if (decimalRun false cs).1.any isMark then none
      else Text.signed64? 10 (decimalRun false cs).1) =
      ((Text.natural? 10 (decimalRun false cs).1).filter (· < Text.bits63)).map Int.ofNat := by
  split
  next h =>
    rw [natural?_of_isMark h]
    rfl
  next => exact signed64?_of_unsigned (unsigned_decimalRun cs)

theorem checked64_eq {i : ℤ} (h : i.natAbs < Text.bits63) : checked64 i = .ok i :=
  if_pos (by omega)

/-- A whole number below the bound and its negation fit into 64 bits. -/
theorem signed_ofNat (negative : Bool) {n : ℕ} (h : n < Text.bits63) :
    signed negative (Int.ofNat n) = .ok (Literal.signed negative n) := by
  have hpos : checked64 (Int.ofNat n) = .ok (Int.ofNat n) := checked64_eq h
  have hneg : checked64 (-Int.ofNat n) = .ok (-Int.ofNat n) :=
    checked64_eq (by rwa [Int.natAbs_neg])
  rw [signed, hpos]
  cases negative with
  | false => rfl
  | true =>
    change checked64 (-Int.ofNat n) >>= _ = _
    rw [hneg]
    rfl

theorem signed_tracks (negative : Bool) {n : ℕ} (hn : n < Text.bits63) (h : At text pos rest) :
    Tracks text (Stands text) (do return (← signed negative (Int.ofNat n), pos))
      (.ok (Literal.signed negative n, rest)) := by
  rw [signed_ofNat negative hn]
  exact .ok ⟨rfl, h⟩

theorem hexadecimal_tracks {start : ℕ} {left : List Char} (negative : Bool)
    (hstart : At text start left) (h : At text pos rest) (hfuel : rest.length < fuel) :
    Tracks text (Stands text) (hexadecimal text fuel start negative pos)
      (match (Text.natural? 16 (hexRun rest).1).filter (· < Text.bits63) with
        | some n => .ok (Literal.signed negative n, (hexRun rest).2)
        | none => .error ⟨.badHexadecimal, left⟩) := by
  obtain ⟨⟨digits, next⟩, hgather, rfl, hat⟩ := (gather_hexadecimal h hfuel).exists_ok
  rw [hexadecimal, hgather]
  change Tracks text _ (hexadecimalValue text start negative (hexRun rest).1 next) _
  rw [hexadecimalValue, signed64?_of_unsigned (unsigned_hexRun rest)]
  cases hn : (Text.natural? 16 (hexRun rest).1).filter (· < Text.bits63) with
  | none => exact .fault (f := ⟨.badHexadecimal, left⟩) hstart
  | some n =>
    exact signed_tracks negative (filter_lt_eq_some.1 hn).2 hat

theorem decimal_tracks {start : ℕ} {left : List Char} (negative : Bool)
    (hstart : At text start left) (h : At text pos rest) (hfuel : rest.length < fuel) :
    Tracks text (Stands text) (decimal text fuel start negative pos)
      (match decimalValue? negative (decimalRun false rest).1 with
        | some n => .ok (n, (decimalRun false rest).2)
        | none => .error ⟨.badNumber (String.ofList (decimalRun false rest).1), left⟩) := by
  obtain ⟨⟨digits, next⟩, hgather, rfl, hat⟩ := (gather_decimal h hfuel).exists_ok
  have hfault : ∀ word, Tracks text (Stands text) (fail text (.badNumber word) start)
      (.error ⟨.badNumber word, left⟩ : Outcome (Number × List Char)) :=
    fun word => .fault (f := ⟨.badNumber word, left⟩) hstart
  rw [decimal, hgather]
  change Tracks text _ (decimalValue text start negative (decimalRun false rest).1 next) _
  rw [decimalValue]
  split
  next hnil =>
    rw [hnil]
    exact hfault _
  next =>
    rw [signed64?_decimalRun, decimalValue?]
    cases hn : (Text.natural? 10 (decimalRun false rest).1).filter (· < Text.bits63) with
    | some n => exact signed_tracks negative (filter_lt_eq_some.1 hn).2 hat
    | none =>
      dsimp only [Option.map_none]
      cases (Decimal.read? (decimalRun false rest).1).map Decimal.Written.toBinary64 with
      | none => exact hfault _
      | some x =>
        dsimp only
        split
        · exact .ok ⟨rfl, hat⟩
        · exact hfault _

theorem unsignedNumber_tracks {start : ℕ} {left : List Char} (negative : Bool)
    (hstart : At text start left) (h : At text pos rest) (hfuel : rest.length < fuel) :
    Tracks text (Stands text) (unsignedNumber text fuel start negative pos)
      (Literal.unsignedNumber left negative rest) := by
  by_cases hex : Hexadecimal rest
  · obtain ⟨mark, ds, hmark, rfl⟩ := hex
    rw [unsignedNumber, h.getElem?, h.getElem?_next, unsignedNumber_hexadecimal left negative hmark,
      if_pos ⟨rfl, by simpa using hmark⟩, h.advance_two]
    exact hexadecimal_tracks negative hstart h.next.next (by simp at hfuel; omega)
  · have hplain : ¬ (text[pos]? = some '0' ∧
        (text[pos + 1]? = some 'x' ∨ text[pos + 1]? = some 'X')) := by
      rintro ⟨hzero, hmark⟩
      rw [h.head?] at hzero
      obtain ⟨more, rfl⟩ := List.head?_eq_some_iff.1 hzero
      simp only [h.getElem?_next, List.head?_eq_some_iff, ← exists_or] at hmark
      obtain ⟨ds, rfl | rfl⟩ := hmark
      · exact hex ⟨'x', ds, .inl rfl, rfl⟩
      · exact hex ⟨'X', ds, .inr rfl, rfl⟩
    rw [unsignedNumber, if_neg hplain, unsignedNumber_decimal left negative hex]
    exact decimal_tracks negative hstart h hfuel

theorem number_tracks {c : Char} (h : At text pos (c :: rest)) (hfuel : rest.length + 1 < fuel) :
    Tracks text (Stands text) (number text fuel pos) (Literal.number (c :: rest)) := by
  rw [number, h.getElem?]
  by_cases hminus : c = '-'
  · subst hminus
    rw [if_pos rfl, h.advance_one]
    exact unsignedNumber_tracks true h h.next (by omega)
  by_cases hplus : c = '+'
  · subst hplus
    rw [if_neg (by decide), if_pos rfl, h.advance_one]
    exact unsignedNumber_tracks false h h.next (by omega)
  rw [if_neg (by simpa using hminus), if_neg (by simpa using hplus), number_digit hminus hplus]
  exact unsignedNumber_tracks false h h hfuel

theorem key_tracks (h : At text pos rest) (hfuel : rest.length < fuel) :
    Tracks text (Stands text) (key text fuel pos) (Literal.key rest) := by
  rw [key, Literal.key.eq_def]
  cases rest with
  | nil =>
    rw [h.getElem?_end]
    exact .fault (f := ⟨.missingKey, []⟩) h
  | cons c cs =>
    rw [List.length_cons] at hfuel
    rw [h.getElem?]
    dsimp only
    split
    · exact quoted_tracks h (by omega)
    split
    · exact name_tracks h hfuel
    split
    · exact (number_tracks h hfuel).map fun a b hab => ⟨by rw [hab.1], hab.2⟩
    · exact .fault (f := ⟨.missingKey, c :: cs⟩) h

theorem colon_tracks (h : At text pos rest) (hfuel : rest.length + 2 ≤ fuel) :
    Tracks text (At text) (colon text fuel pos) (Literal.colon rest) := by
  refine (skipTrivia_tracks h hfuel).bind fun next left hat _ => ?_
  rw [hat.head?]
  by_cases hcolon : left.head? = some ':'
  · obtain ⟨more, rfl⟩ := List.head?_eq_some_iff.1 hcolon
    rw [if_pos hcolon, hat.advance_one]
    exact .ok hat.next
  · rw [if_neg hcolon]
    split
    next => exact absurd rfl hcolon
    next => exact .fault (f := ⟨.missingColon, left⟩) hat

theorem separator_tracks (close : Char) (fault : Fault) (h : At text pos rest)
    (hfuel : rest.length + 2 ≤ fuel) :
    Tracks text (At text) (separator text close fault fuel pos)
      (Literal.separator close fault rest) := by
  refine (skipTrivia_tracks h hfuel).bind fun next left hat _ => ?_
  cases left with
  | nil =>
    rw [hat.getElem?_end]
    exact .fault (f := ⟨fault, []⟩) hat
  | cons c cs =>
    rw [hat.getElem?]
    simp only [Option.some.injEq]
    split
    · rw [hat.advance_one]
      exact .ok hat.next
    split
    · exact .ok hat
    · exact .fault (f := ⟨fault, c :: cs⟩) hat

end RouteContract.Literal.Cursor
