import Mathlib
import RouteContract.Proofs.Literal.Grammar

/-!
# Reading the tokens of data literals

Each reader of a token accepts exactly the rule of the grammar: what it takes off a text satisfies
the rule, and a text that satisfies the rule is taken off, given that what follows does not go on
with the token (`Ends`). Trivia and the punctuation of arrays and objects never do.
-/

namespace RouteContract.Literal

/-! ### The first occurrence of a character -/

/-- A text without a character, or one cut at the first one. -/
theorem cut_cases (c : Char) (cs : List Char) :
    c ∉ cs ∨ ∃ before after, c ∉ before ∧ cs = before ++ c :: after := by
  by_cases h : c ∈ cs
  · obtain ⟨before, after, hcs, hbefore⟩ := List.eq_append_cons_of_mem h
    exact .inr ⟨before, after, hbefore, hcs⟩
  · exact .inl h

theorem forall_ne_of_notMem {c : Char} {cs : List Char} (h : c ∉ cs) :
    ∀ d ∈ cs, decide (d ≠ c) = true := by
  intro d hd
  have hne : d ≠ c := fun e => h (e ▸ hd)
  simpa using hne

theorem takeWhile_of_notMem {c : Char} {cs : List Char} (h : c ∉ cs) :
    cs.takeWhile (· ≠ c) = cs :=
  List.takeWhile_eq_self_iff.2 (forall_ne_of_notMem h)

theorem dropWhile_of_notMem {c : Char} {cs : List Char} (h : c ∉ cs) :
    cs.dropWhile (· ≠ c) = [] :=
  List.dropWhile_eq_nil_iff.2 (forall_ne_of_notMem h)

theorem takeWhile_cut {c : Char} {before : List Char} (h : c ∉ before) (after : List Char) :
    (before ++ c :: after).takeWhile (· ≠ c) = before := by
  rw [List.takeWhile_append_of_pos (forall_ne_of_notMem h), List.takeWhile_cons_of_neg (by simp),
    List.append_nil]

theorem dropWhile_cut {c : Char} {before : List Char} (h : c ∉ before) (after : List Char) :
    (before ++ c :: after).dropWhile (· ≠ c) = c :: after := by
  rw [List.dropWhile_append_of_pos (forall_ne_of_notMem h), List.dropWhile_cons_of_neg (by simp)]

/-! ### Comments -/

/-- A block comment ends at the first `*/`. -/
theorem closeComment?_append {comment : List Char} (h : ¬ ['*', '/'] <:+: comment)
    (rest : List Char) : closeComment? (comment ++ '*' :: '/' :: rest) = some rest := by
  induction comment with
  | nil => rfl
  | cons c comment ih =>
    have hhead : ∀ more, c = '*' → comment ++ '*' :: '/' :: rest = '/' :: more → False := by
      rintro more rfl hmore
      cases comment with
      | nil => simp at hmore
      | cons d comment =>
        obtain ⟨rfl, -⟩ := List.cons.inj hmore
        exact h ⟨[], comment, rfl⟩
    rw [List.cons_append, closeComment?.eq_3 _ _ hhead]
    exact ih fun hi => h (List.infix_cons hi)

theorem exists_of_closeComment? {cs rest : List Char} (h : closeComment? cs = some rest) :
    ∃ comment, ¬ ['*', '/'] <:+: comment ∧ cs = comment ++ '*' :: '/' :: rest := by
  fun_induction closeComment? cs with
  | case1 => cases h
  | case2 tail => exact ⟨[], by simp, by simpa using h⟩
  | case3 c tail hc ih =>
    obtain ⟨comment, hcomment, rfl⟩ := ih h
    refine ⟨c :: comment, fun hi => ?_, rfl⟩
    rcases List.infix_cons_iff.1 hi with hp | hi
    · cases comment with
      | nil => simp at hp
      | cons d comment =>
        simp only [List.cons_prefix_cons, List.nil_prefix] at hp
        obtain ⟨rfl, rfl, -⟩ := hp
        exact hc _ rfl rfl
    · exact hcomment hi

/-! ### Trivia -/

theorem isBlank_lineFeed : Text.isBlank '\n' = true := by decide

theorem isBlank_slash : Text.isBlank '/' = false := by decide

theorem skipTrivia_cons_of_blank {c : Char} (hc : Text.isBlank c = true) (cs : List Char) :
    skipTrivia (c :: cs) = skipTrivia cs := by
  rw [skipTrivia.eq_def]
  simp [hc]

theorem skipTrivia_line (comment : List Char) :
    skipTrivia ('/' :: '/' :: comment) = skipTrivia (comment.dropWhile (· ≠ '\n')) := by
  rw [skipTrivia.eq_def]
  simp [isBlank_slash]

theorem skipTrivia_block {comment rest : List Char} (h : closeComment? comment = some rest) :
    skipTrivia ('/' :: '*' :: comment) = skipTrivia rest := by
  rw [skipTrivia.eq_def]
  simp only [isBlank_slash, Bool.false_eq_true, if_false, if_true]
  split <;> simp_all

theorem skipTrivia_block_none {comment : List Char} (h : closeComment? comment = none) :
    skipTrivia ('/' :: '*' :: comment) = .error ⟨.unterminatedComment, []⟩ := by
  rw [skipTrivia.eq_def]
  simp only [isBlank_slash, Bool.false_eq_true, if_false, if_true]
  split <;> simp_all

theorem skipTrivia_nil : skipTrivia [] = .ok [] := by
  rw [skipTrivia.eq_def]

/-- Nothing is skipped in front of other characters. -/
theorem skipTrivia_cons {c : Char} (hc : Text.isBlank c = false) (hslash : c ≠ '/')
    (cs : List Char) : skipTrivia (c :: cs) = .ok (c :: cs) := by
  rw [skipTrivia.eq_def]
  simp [hc, hslash]

/-- A slash starts a comment in front of a slash or a star only. -/
theorem skipTrivia_slash {cs : List Char} (hline : ∀ more, cs ≠ '/' :: more)
    (hblock : ∀ more, cs ≠ '*' :: more) : skipTrivia ('/' :: cs) = .ok ('/' :: cs) := by
  rw [skipTrivia.eq_def]
  simp only [isBlank_slash]
  split <;> simp_all

/-- Trivia in front of a text are skipped. -/
theorem skipTrivia_append {t : List Char} (ht : Trivia t) (rest : List Char) :
    skipTrivia (t ++ rest) = skipTrivia rest := by
  induction ht with
  | nil => rfl
  | blank hc _ ih => rw [List.cons_append, skipTrivia_cons_of_blank hc, ih]
  | line hcomment _ ih =>
    simp only [List.cons_append, List.append_assoc]
    rw [skipTrivia_line, dropWhile_cut hcomment, skipTrivia_cons_of_blank isBlank_lineFeed, ih]
  | block hcomment _ ih =>
    simp only [List.cons_append, List.append_assoc]
    rw [skipTrivia_block (closeComment?_append hcomment _), ih]

/-- Trivia at the end of a text are skipped. -/
theorem skipTrivia_last {t : List Char} (ht : LastTrivia t) : skipTrivia t = .ok [] := by
  cases ht with
  | closed h =>
    have := skipTrivia_append h []
    rwa [List.append_nil, skipTrivia_nil] at this
  | line h hcomment =>
    rw [skipTrivia_append h, skipTrivia_line, dropWhile_of_notMem hcomment, skipTrivia_nil]

theorem Trivia.append {t cs : List Char} (ht : Trivia t) (h : Trivia cs) : Trivia (t ++ cs) := by
  induction ht with
  | nil => exact h
  | blank hc _ ih => exact .blank hc ih
  | line hcomment _ ih => simpa using Trivia.line hcomment ih
  | block hcomment _ ih => simpa using Trivia.block hcomment ih

theorem LastTrivia.append {t cs : List Char} (ht : Trivia t) (h : LastTrivia cs) :
    LastTrivia (t ++ cs) := by
  cases h with
  | closed h => exact .closed (ht.append h)
  | line h hcomment => simpa using LastTrivia.line (ht.append h) hcomment

/-- What `skipTrivia` may take off a text to leave `rest`. -/
def Skipped (cs rest : List Char) : Prop :=
  (rest = [] ∧ LastTrivia cs) ∨ ∃ t, Trivia t ∧ cs = t ++ rest

theorem Skipped.refl (cs : List Char) : Skipped cs cs := .inr ⟨[], .nil, rfl⟩

theorem Skipped.append {t cs rest : List Char} (ht : Trivia t) (h : Skipped cs rest) :
    Skipped (t ++ cs) rest := by
  obtain ⟨hrest, h⟩ | ⟨t', h, rfl⟩ := h
  · exact .inl ⟨hrest, h.append ht⟩
  · exact .inr ⟨t ++ t', ht.append h, by simp⟩

/-- What is skipped are trivia. -/
theorem skipped_of_skipTrivia {cs rest : List Char} (h : skipTrivia cs = .ok rest) :
    Skipped cs rest := by
  fun_cases skipTrivia cs with
  | case1 =>
    rw [skipTrivia_nil] at h
    cases h
    exact .refl _
  | case2 c cs hc =>
    rw [skipTrivia_cons_of_blank hc] at h
    exact (skipped_of_skipTrivia h).append (.blank hc .nil)
  | case3 comment =>
    rw [skipTrivia_line] at h
    rcases cut_cases '\n' comment with hcomment | ⟨line, more, hline, rfl⟩
    · rw [dropWhile_of_notMem hcomment, skipTrivia_nil] at h
      cases h
      exact .inl ⟨rfl, .line .nil hcomment⟩
    · rw [dropWhile_cut hline, skipTrivia_cons_of_blank isBlank_lineFeed] at h
      simpa using (skipped_of_skipTrivia h).append (.line hline .nil)
  | case4 comment more hmore =>
    rw [skipTrivia_block hmore] at h
    obtain ⟨comment, hcomment, rfl⟩ := exists_of_closeComment? hmore
    simpa using (skipped_of_skipTrivia h).append (.block hcomment .nil)
  | case5 comment hnone =>
    rw [skipTrivia_block_none hnone] at h
    cases h
  | case6 cs hline hblock =>
    rw [skipTrivia_slash hline hblock] at h
    cases h
    exact .refl _
  | case7 c cs hc hslash =>
    rw [skipTrivia_cons (by simpa using hc) hslash] at h
    cases h
    exact .refl _
termination_by cs.length

/-! ### Quoted bodies -/

theorem quotedBody_cons {quote : Char} {start : List Char} {c : Char} (hc : c ≠ '\\')
    (cs : List Char) :
    quotedBody quote start (c :: cs) =
      if quote = '\x60' ∧ c = '$' ∧ cs.head? = some '{' then .error ⟨.substitution, c :: cs⟩
      else if c = '\n' ∧ quote ≠ '\x60' then .error ⟨.lineBreakInString, c :: cs⟩
      else if c = quote then .ok ([], cs)
      else (quotedBody quote start cs).map fun (body, rest) => (c :: body, rest) := by
  rw [quotedBody.eq_4 _ _ _ _ (fun h => absurd h hc) (fun _ _ h => absurd h hc)]
  congr 3

theorem quotedBody_escape (quote : Char) (start : List Char) (c : Char) (cs : List Char) :
    quotedBody quote start ('\\' :: c :: cs) =
      (quotedBody quote start cs).map fun (body, rest) => ('\\' :: c :: body, rest) := by
  rw [quotedBody.eq_3]
  cases quotedBody quote start cs <;> rfl

theorem isQuote_cases {c : Char} (h : isQuote c = true) : c = '"' ∨ c = '\x27' ∨ c = '\x60' := by
  simpa [isQuote, or_assoc] using h

theorem isQuote_ne_backslash {c : Char} (h : isQuote c = true) : c ≠ '\\' := by
  rintro rfl
  exact absurd h (by decide)

theorem isQuote_ne_lineFeed {c : Char} (h : isQuote c = true) : c ≠ '\n' := by
  rintro rfl
  exact absurd h (by decide)

theorem isQuote_ne_dollar {c : Char} (h : isQuote c = true) : c ≠ '$' := by
  rintro rfl
  exact absurd h (by decide)

/-- A body is read up to its closing quote. -/
theorem quotedBody_append {quote : Char} {body : List Char} (hquote : isQuote quote = true)
    (h : Body quote body) (start rest : List Char) :
    quotedBody quote start (body ++ quote :: rest) = .ok (body, rest) := by
  induction h with
  | nil =>
    rw [List.nil_append, quotedBody_cons (isQuote_ne_backslash hquote)]
    simp [isQuote_ne_dollar hquote, isQuote_ne_lineFeed hquote]
  | escape c _ ih =>
    rw [List.cons_append, List.cons_append, quotedBody_escape, ih]
    rfl
  | @plain c cs hescape hend hline hdollar _ ih =>
    have hsubstitution : ¬ (quote = '\x60' ∧ c = '$' ∧ (cs ++ quote :: rest).head? = some '{') := by
      rintro ⟨hbacktick, hc, hhead⟩
      cases cs with
      | nil => simp_all
      | cons d cs => exact hdollar hbacktick hc (by simpa using hhead)
    have hfeed : ¬ (c = '\n' ∧ quote ≠ '\x60') := fun ⟨hc, hne⟩ => hne (hline hc)
    rw [List.cons_append, quotedBody_cons hescape, if_neg hsubstitution, if_neg hfeed, if_neg hend,
      ih]
    rfl

/-- What is read up to a closing quote is a body. -/
theorem body_of_quotedBody {quote : Char} {start cs body rest : List Char}
    (h : quotedBody quote start cs = .ok (body, rest)) :
    Body quote body ∧ cs = body ++ quote :: rest := by
  fun_induction quotedBody quote start cs generalizing body with
  | case1 => cases h
  | case2 => cases h
  | case3 c cs ih =>
    cases hcs : quotedBody quote start cs with
    | error f => rw [hcs] at h; cases h
    | ok read =>
      rw [hcs] at h
      cases h
      obtain ⟨hbody, hcut⟩ := ih hcs
      exact ⟨.escape c hbody, by rw [hcut]; rfl⟩
  | case4 c cs => cases h
  | case5 => cases h
  | case6 cs hlast hescape hsubstitution hline =>
    cases h
    exact ⟨.nil, rfl⟩
  | case7 c cs hlast hescape hsubstitution hline hend ih =>
    cases hcs : quotedBody quote start cs with
    | error f => rw [hcs] at h; cases h
    | ok read =>
      rw [hcs] at h
      cases h
      obtain ⟨hbody, hcut⟩ := ih hcs
      refine ⟨.plain ?_ hend ?_ ?_ hbody, by rw [hcut]; rfl⟩
      · rintro rfl
        cases cs with
        | nil => exact hlast rfl rfl
        | cons d cs => exact hescape d cs rfl rfl
      · intro hc
        by_contra hne
        exact hline ⟨hc, hne⟩
      · intro hbacktick hc hhead
        refine hsubstitution ⟨hbacktick, hc, ?_⟩
        rw [hcut, List.head?_append, hhead]
        rfl

/-! ### Escapes -/

theorem codeDenotes_codeChar (code : List Char) : CodeDenotes code (codeChar code) := by
  unfold codeChar
  cases hn : Text.unsigned? 16 Text.bits32 code with
  | none => exact .itself (by simp [hn])
  | some n =>
    cases hc : Text.scalar? n with
    | none => simpa [hc] using CodeDenotes.itself (by simp [hn, hc])
    | some c => simpa [hc] using CodeDenotes.character hn hc

theorem codeChar_of_codeDenotes {code denoted : List Char} (h : CodeDenotes code denoted) :
    codeChar code = denoted := by
  unfold codeChar
  cases h with
  | character hn hc => simp [hn, hc]
  | itself h =>
    have : (Text.unsigned? 16 Text.bits32 code).bind Text.scalar? = none := by
      rw [Option.bind_eq_none_iff]
      exact h
    rw [this]

/-- The first characters of a text are as many as asked for, unless it has no others. -/
theorem take_cases (n : Nat) (cs : List Char) :
    (cs.take n).length = n ∨ (cs.take n).length < n ∧ cs.drop n = [] := by
  rw [List.length_take, List.drop_eq_nil_iff]
  omega

/-- The text after a backslash denotes what `escape` gives. -/
theorem unescaped_escape {cs out : List Char} (h : Unescaped (escape cs).2 out) :
    Unescaped ('\\' :: cs) ((escape cs).1 ++ out) := by
  revert h
  fun_cases escape cs with
  | case1 => intro h; cases h; exact .last
  | case2 rest => exact fun h => .letter (by decide) h
  | case3 rest => exact fun h => .letter (by decide) h
  | case4 rest => exact fun h => .letter (by decide) h
  | case5 rest => exact fun h => .letter (by decide) h
  | case6 rest => exact fun h => .letter (by decide) h
  | case7 rest => exact fun h => .letter (by decide) h
  | case8 rest => exact fun h => .letter (by decide) h
  | case9 rest =>
    intro h
    have := Unescaped.code2 (take_cases 2 rest) (codeDenotes_codeChar _) h
    rwa [List.take_append_drop] at this
  | case10 rest =>
    rcases cut_cases '}' rest with hcode | ⟨code, more, hcode, rfl⟩
    · rw [takeWhile_of_notMem hcode, dropWhile_of_notMem hcode]
      intro h
      cases h
      simpa using Unescaped.unbraced hcode (codeDenotes_codeChar rest)
    · rw [takeWhile_cut hcode, dropWhile_cut hcode]
      exact fun h => .braced hcode (codeDenotes_codeChar code) h
  | case11 rest hbrace =>
    intro h
    have hhead : (rest.take 4 ++ rest.drop 4).head? ≠ some '{' := by
      rw [List.take_append_drop]
      intro hhead
      obtain ⟨more, rfl⟩ := List.head?_eq_some_iff.1 hhead
      exact hbrace more rfl
    have := Unescaped.code4 (take_cases 4 rest) hhead (codeDenotes_codeChar _) h
    rwa [List.take_append_drop] at this
  | case12 rest => exact fun h => .continued h
  | case13 c rest =>
    refine fun h => .other ?_ h
    simp_all [escapeLetters]

/-- Every body denotes its text with the escapes resolved. -/
theorem unescaped_unescapeChars (body : List Char) : Unescaped body (unescapeChars body) := by
  fun_induction unescapeChars body with
  | case1 => exact .nil
  | case2 cs ih => exact unescaped_escape ih
  | case3 c cs hc ih => exact .plain hc ih

theorem unescapeChars_cons {c : Char} (hc : c ≠ '\\') (cs : List Char) :
    unescapeChars (c :: cs) = c :: unescapeChars cs := by
  rw [unescapeChars, if_neg hc]

theorem unescapeChars_escape (cs : List Char) :
    unescapeChars ('\\' :: cs) = (escape cs).1 ++ unescapeChars (escape cs).2 := by
  rw [unescapeChars, if_pos rfl]

theorem escape_letter {c d : Char} (hc : (c, d) ∈ letterEscapes) (cs : List Char) :
    escape (c :: cs) = ([d], cs) := by
  simp only [letterEscapes, List.mem_cons, Prod.mk.injEq, List.not_mem_nil, or_false] at hc
  rcases hc with ⟨rfl, rfl⟩ | ⟨rfl, rfl⟩ | ⟨rfl, rfl⟩ | ⟨rfl, rfl⟩ | ⟨rfl, rfl⟩ | ⟨rfl, rfl⟩ |
    ⟨rfl, rfl⟩ <;> rfl

theorem escape_other {c : Char} (hc : c ∉ escapeLetters) (cs : List Char) :
    escape (c :: cs) = ([c], cs) := by
  simp only [escapeLetters, List.mem_cons, List.not_mem_nil, or_false, not_or] at hc
  unfold escape
  split <;> simp_all

theorem escape_code4 {cs : List Char} (h : cs.head? ≠ some '{') :
    escape ('u' :: cs) = (codeChar (cs.take 4), cs.drop 4) :=
  escape.eq_11 cs fun more hcs => h (by rw [hcs]; rfl)

/-- A code of the given length is what is taken from the text. -/
theorem take_code {n : Nat} {code cs : List Char}
    (h : code.length = n ∨ code.length < n ∧ cs = []) :
    (code ++ cs).take n = code ∧ (code ++ cs).drop n = cs := by
  rcases h with rfl | ⟨hlt, rfl⟩
  · simp
  · rw [List.append_nil]
    exact ⟨List.take_of_length_le hlt.le, List.drop_of_length_le hlt.le⟩

/-- And it denotes nothing else. -/
theorem unescapeChars_of_unescaped {body out : List Char} (h : Unescaped body out) :
    unescapeChars body = out := by
  induction h with
  | nil => rw [unescapeChars]
  | plain hc _ ih => rw [unescapeChars_cons hc, ih]
  | last => rw [unescapeChars_escape, escape, unescapeChars, List.append_nil]
  | letter hc _ ih => rw [unescapeChars_escape, escape_letter hc, ih, List.singleton_append]
  | continued _ ih => rw [unescapeChars_escape, escape, ih, List.nil_append]
  | code2 hcode hd _ ih =>
    obtain ⟨htake, hdrop⟩ := take_code hcode
    rw [unescapeChars_escape, escape, htake, hdrop, ih, codeChar_of_codeDenotes hd]
  | code4 hcode hbrace hd _ ih =>
    obtain ⟨htake, hdrop⟩ := take_code hcode
    rw [unescapeChars_escape, escape_code4 hbrace, htake, hdrop, ih, codeChar_of_codeDenotes hd]
  | braced hcode hd _ ih =>
    rw [unescapeChars_escape, escape, takeWhile_cut hcode, dropWhile_cut hcode, List.drop_one,
      List.tail_cons, ih, codeChar_of_codeDenotes hd]
  | unbraced hcode hd =>
    rw [unescapeChars_escape, escape, takeWhile_of_notMem hcode, dropWhile_of_notMem hcode,
      List.drop_nil, unescapeChars, List.append_nil, codeChar_of_codeDenotes hd]
  | other hc _ ih => rw [unescapeChars_escape, escape_other hc, ih, List.singleton_append]

/-! ### Strings -/

/-- A quoted string in front of a text is read, whatever follows. -/
theorem quoted_append {quote : Char} {w : List Char} {s : String} (h : Quoted (quote :: w) s)
    (rest : List Char) : quoted quote (w ++ rest) = .ok (s, rest) := by
  cases h with
  | @mk _ body out hquote hbody hout =>
    rw [quoted, List.append_assoc, List.singleton_append, quotedBody_append hquote hbody]
    simp [Bind.bind, Except.bind, Pure.pure, Except.pure, unescapeChars_of_unescaped hout]

/-- What is read as a quoted string is one. -/
theorem quoted_of_quoted {quote : Char} (hquote : isQuote quote = true) {cs rest : List Char}
    {s : String} (h : quoted quote cs = .ok (s, rest)) :
    ∃ w, Quoted (quote :: w) s ∧ cs = w ++ rest := by
  unfold quoted at h
  cases hbody : quotedBody quote (quote :: cs) cs with
  | error f => rw [hbody] at h; cases h
  | ok read =>
    rw [hbody] at h
    cases h
    obtain ⟨hb, hcs⟩ := body_of_quotedBody hbody
    exact ⟨read.1 ++ [quote], .mk hquote hb (unescaped_unescapeChars read.1), by simpa using hcs⟩

end RouteContract.Literal
