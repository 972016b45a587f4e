import Mathlib
import RouteContract.Proofs.Literal.CursorTokens
import RouteContract.Proofs.Literal.Reading

/-!
# Values under a cursor

The readings of values, items and fields call each other. One induction on the number of steps that
may be inside each other shows that they do what the readings of the text left do: each reading
takes a character off the text before the next one of its kind, so two steps for each character are
enough.
-/

namespace RouteContract.Literal.Cursor

/-! ### What a reading takes off a text -/

section Lengths

variable {cs rest : List Char}

theorem length_le_of_skipTrivia (h : Literal.skipTrivia cs = .ok rest) :
    rest.length ≤ cs.length := by
  obtain ⟨rfl, -⟩ | ⟨t, -, rfl⟩ := skipped_of_skipTrivia h
  · simp
  · simp

theorem length_lt_of_value {fuel : ℕ} {v : Json} (h : Literal.value fuel cs = .ok (v, rest)) :
    rest.length < cs.length := by
  obtain ⟨t, w, -, hw, rfl⟩ := (finds fuel).1 h
  obtain ⟨c, w, rfl, -⟩ := hw.opens
  simp only [List.length_append, List.length_cons]
  omega

theorem length_le_of_key {s : String} (h : Literal.key cs = .ok (s, rest)) :
    rest.length ≤ cs.length := by
  obtain ⟨w, -, rfl⟩ := key_of_key h
  simp

theorem length_lt_of_colon (h : Literal.colon cs = .ok rest) : rest.length < cs.length := by
  obtain ⟨t, -, rfl⟩ := colon_cases h
  simp only [List.length_append, List.length_cons]
  omega

theorem length_le_of_separator {close : Char} {fault : Fault}
    (h : Literal.separator close fault cs = .ok rest) : rest.length ≤ cs.length := by
  obtain ⟨t, -, rfl | ⟨more, rfl, -⟩⟩ := separator_cases h
  · simp only [List.length_append, List.length_cons]
    omega
  · simp

end Lengths

/-! ### Values, items and fields -/

section Values

variable (text : List Char) (fuel : ℕ)

/-- Values are read as in the text left, which is read with enough fuel of its own. -/
def TracksValue : Prop :=
  ∀ {pos : ℕ} {rest : List Char} {n : ℕ}, At text pos rest → 2 * rest.length + 4 ≤ fuel →
    2 * rest.length + 2 ≤ n →
      Tracks text (Stands text) (value text fuel pos) (Literal.value n rest)

/-- The items of an array are read as in the text left and put after those already read. -/
def TracksItems : Prop :=
  ∀ {pos : ℕ} {rest : List Char} {n : ℕ} (list : List Json), At text pos rest →
    2 * rest.length + 5 ≤ fuel → 2 * rest.length + 3 ≤ n →
      Tracks text (fun a b => a.1 = list ++ b.1 ∧ At text a.2 b.2) (items text fuel list pos)
        (Literal.items n rest)

/-- The fields of an object are read as in the text left. -/
def TracksFields : Prop :=
  ∀ {pos : ℕ} {rest : List Char} {n : ℕ} (entries : List (String × Json)), At text pos rest →
    2 * rest.length + 5 ≤ fuel → 2 * rest.length + 3 ≤ n →
      Tracks text (Stands text) (fields text fuel entries pos) (Literal.fields n entries rest)

end Values

section Steps

variable {text : List Char} {fuel : ℕ}

theorem value_tracks (hitems : TracksItems text fuel) (hfields : TracksFields text fuel) :
    TracksValue text (fuel + 1) := by
  intro pos rest n h hfuel hn
  obtain ⟨n, rfl⟩ : ∃ m, n = m + 1 := ⟨n - 1, by omega⟩
  rw [value, Literal.value]
  refine (skipTrivia_tracks h (by omega)).bind fun next left hat hleft => ?_
  have hlength := length_le_of_skipTrivia hleft
  cases left with
  | nil =>
    rw [hat.getElem?_end]
    exact .fault (f := ⟨.unexpectedEnd, []⟩) hat
  | cons c more =>
    rw [List.length_cons] at hlength
    rw [hat.getElem?]
    dsimp only
    split
    · rw [hat.advance_one]
      refine (hfields [] hat.next (by omega) (by omega)).next fun _ next left hat _ => ?_
      exact .ok ⟨rfl, hat⟩
    split
    · rw [hat.advance_one]
      refine (hitems [] hat.next (by omega) (by omega)).next fun _ next left hat _ => ?_
      exact .ok ⟨rfl, hat⟩
    split
    · refine (quoted_tracks hat (by omega)).next fun _ next left hat _ => ?_
      exact .ok ⟨rfl, hat⟩
    split
    · refine (number_tracks hat (by omega)).next fun _ next left hat _ => ?_
      exact .ok ⟨rfl, hat⟩
    split
    · have hroom : (c :: more).length < fuel := by simp; omega
      obtain ⟨⟨word, next⟩, hname, rfl, hat⟩ := (name_tracks hat hroom).exists_ok
      rw [hname]
      dsimp only [bind, Except.bind]
      cases word? (Literal.name (c :: more)).1 with
      | some v => exact .ok ⟨rfl, hat⟩
      | none => exact .fault (f := ⟨.notData _, _⟩) hat
    · exact .fault (f := ⟨.unexpectedCharacter, c :: more⟩) hat

theorem items_tracks (hvalue : TracksValue text fuel) (hitems : TracksItems text fuel) :
    TracksItems text (fuel + 1) := by
  intro pos rest n list h hfuel hn
  obtain ⟨n, rfl⟩ : ∃ m, n = m + 1 := ⟨n - 1, by omega⟩
  rw [items, Literal.items]
  refine (skipTrivia_tracks h (by omega)).bind fun next left hat hleft => ?_
  have hlength := length_le_of_skipTrivia hleft
  cases left with
  | nil =>
    rw [hat.getElem?_end]
    exact .fault (f := ⟨.unterminatedArray, []⟩) hat
  | cons c more =>
    rw [hat.getElem?]
    dsimp only
    by_cases hc : c = ']'
    · subst hc
      rw [if_pos rfl, hat.advance_one]
      exact .ok ⟨(List.append_nil _).symm, hat.next⟩
    · rw [if_neg hc]
      split
      next h => cases h
      next h => exact absurd (List.cons.inj h).1 hc
      refine (hvalue hat (by omega) (by omega)).next fun item next left hat hitem => ?_
      have := length_lt_of_value hitem
      refine (separator_tracks ']' .missingComma hat (by omega)).bind fun next left' hat hsep => ?_
      have := length_le_of_separator hsep
      rw [bind_pure_comp]
      refine (hitems (list ++ [item]) hat (by omega) (by omega)).map_right fun a b hab => ?_
      exact ⟨by simpa using hab.1, hab.2⟩

theorem fields_tracks (hvalue : TracksValue text fuel) (hfields : TracksFields text fuel) :
    TracksFields text (fuel + 1) := by
  intro pos rest n entries h hfuel hn
  obtain ⟨n, rfl⟩ : ∃ m, n = m + 1 := ⟨n - 1, by omega⟩
  rw [fields, Literal.fields]
  refine (skipTrivia_tracks h (by omega)).bind fun next left hat hleft => ?_
  have hlength := length_le_of_skipTrivia hleft
  cases left with
  | nil =>
    rw [hat.getElem?_end]
    exact .fault (f := ⟨.unterminatedObject, []⟩) hat
  | cons c more =>
    rw [hat.getElem?]
    dsimp only
    by_cases hc : c = '}'
    · subst hc
      rw [if_pos rfl, hat.advance_one]
      exact .ok ⟨rfl, hat.next⟩
    · rw [if_neg hc]
      split
      next h => cases h
      next h => exact absurd (List.cons.inj h).1 hc
      refine (key_tracks hat (by omega)).next fun k next left hat hkey => ?_
      have := length_le_of_key hkey
      refine (colon_tracks hat (by omega)).bind fun next left' hat hcolon => ?_
      have := length_lt_of_colon hcolon
      refine (hvalue hat (by omega) (by omega)).next fun v next left hat hv => ?_
      have := length_lt_of_value hv
      refine (separator_tracks '}' .missingFieldComma hat (by omega)).bind
        fun next left' hat hsep => ?_
      have := length_le_of_separator hsep
      exact hfields _ hat (by omega) (by omega)

end Steps

/-- Readings with a cursor keep up with the readings of the text left. -/
theorem tracks (text : List Char) (fuel : ℕ) :
    TracksValue text fuel ∧ TracksItems text fuel ∧ TracksFields text fuel := by
  induction fuel with
  | zero =>
    exact ⟨fun _ hfuel _ => by omega, fun _ _ hfuel _ => by omega, fun _ _ hfuel _ => by omega⟩
  | succ fuel ih =>
    obtain ⟨hvalue, hitems, hfields⟩ := ih
    exact ⟨value_tracks hitems hfields, items_tracks hvalue hitems, fields_tracks hvalue hfields⟩

/-! ### Whole texts -/

/-- The text ends where the cursor is behind its last character. -/
theorem trailing_tracks {text rest : List Char} {pos : ℕ} (v : Json) (h : At text pos rest) :
    Tracks text Eq (if pos < text.length then fail text .trailingInput pos else return v)
      (if rest.isEmpty then .ok v else .error ⟨.trailingInput, rest⟩) := by
  have hlength := h.length
  cases rest with
  | nil =>
    rw [List.length_nil] at hlength
    rw [if_neg (by omega)]
    exact .ok rfl
  | cons c rest =>
    rw [List.length_cons] at hlength
    rw [if_pos (by omega)]
    exact .fault (f := ⟨.trailingInput, c :: rest⟩) h

theorem parse_tracks (text : List Char) {fuel : ℕ} (hfuel : 2 * text.length + 4 ≤ fuel) :
    Tracks text Eq (parse text fuel) (whole text) := by
  refine ((tracks text fuel).1 (at_zero text) hfuel (le_refl (enough text))).next
    fun v pos rest hat hv => ?_
  have := length_lt_of_value hv
  refine (skipTrivia_tracks hat (by omega)).bind fun pos rest hat hrest => ?_
  have := length_le_of_skipTrivia hrest
  rw [semicolon, hat.head?]
  by_cases hc : rest.head? = some ';'
  · obtain ⟨more, rfl⟩ := List.head?_eq_some_iff.1 hc
    rw [List.length_cons] at this
    have hroom : more.length + 2 ≤ fuel := by omega
    rw [if_pos hc, hat.advance_one]
    exact (skipTrivia_tracks hat.next hroom).bind fun _ _ hat _ => trailing_tracks v hat
  · rw [if_neg hc]
    dsimp only
    split
    next => exact absurd rfl hc
    next => exact trailing_tracks v hat

/-- With enough steps allowed, reading with a cursor is reading the text left: it halts for a fault
of the text only. -/
theorem parse_eq (text : String) {fuel : ℕ} (hfuel : 2 * text.toList.length + 4 ≤ fuel) :
    parse text.toList fuel = (Literal.parse text).mapError Halt.fault := by
  have h := parse_tracks text.toList hfuel
  rw [Literal.parse]
  generalize whole text.toList = r, parse text.toList fuel = m at h ⊢
  cases h with
  | ok h =>
    subst h
    rfl
  | fault h =>
    rw [fail, h.offset]
    rfl

/-- An error lies before a character of the text, or at its end. -/
theorem exists_before_of_parse {text : String} {e : Error} (h : Literal.parse text = .error e) :
    ∃ before after, text.toList = before ++ after ∧ e.position = Text.byteSize before := by
  have htracks := parse_tracks text.toList (le_refl _)
  rw [Literal.parse] at h
  generalize whole text.toList = r, parse text.toList _ = m at h htracks
  cases htracks with
  | ok => cases h
  | @fault pos f hat =>
    cases h
    refine ⟨text.toList.take pos, f.left, ?_, ?_⟩
    · rw [← hat.drop_eq, List.take_append_drop]
    · rw [← offset_eq hat.le_length, hat.offset]

end RouteContract.Literal.Cursor
