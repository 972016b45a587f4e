import Mathlib
import RouteContract.Comment.Directive
import RouteContract.Proofs.File.NormalForm
import RouteContract.Proofs.Literal.Tokens

/-!
# Tidying comments

The white space of a block comment holds what decorates its lines: each may be indented and start
with a star (`Gap`). Its text is tidied line by line, without white space at the ends of a line and
the star at its front (`content_block`).

Lines and tokens cut a text in different places. Tidying is therefore said from any place of a text
on (`tidy`): it keeps what stands in front of a token (`tidy_append_cons`), and makes white space
out of a gap (`tidy_gap`), so it can be followed token by token.
-/

namespace RouteContract

namespace Text

/-! ### White space -/

/-- A text of white space. -/
def Blank (cs : List Char) : Prop := ∀ c ∈ cs, isBlank c = true

theorem Blank.nil : Blank [] := by simp [Blank]

theorem Blank.lineFeed {cs : List Char} (h : Blank cs) : Blank ('\n' :: cs) := by
  rintro c (_ | ⟨_, hc⟩)
  · decide
  · exact h c hc

theorem Blank.trivia {cs : List Char} (h : Blank cs) : Literal.Trivia cs := by
  induction cs with
  | nil => exact .nil
  | cons c cs ih =>
    rw [Blank, List.forall_mem_cons] at h
    exact .blank h.1 (ih h.2)

/-! ### Trimming -/

theorem trimFront_append {a : List Char} (ha : Blank a) (cs : List Char) :
    trimFront (a ++ cs) = trimFront cs :=
  List.dropWhile_append_of_pos ha

theorem trimFront_cons {c : Char} (hc : isBlank c = false) (cs : List Char) :
    trimFront (c :: cs) = c :: cs := by
  rw [trimFront, List.dropWhile_cons_of_neg (by simp [hc])]

theorem trimFront_blank {a : List Char} (ha : Blank a) : trimFront a = [] := by
  have := trimFront_append ha []
  rwa [List.append_nil] at this

theorem trimBack_append {a : List Char} (ha : Blank a) (cs : List Char) :
    trimBack (cs ++ a) = trimBack cs := by
  rw [trimBack, trimBack, List.reverse_append, List.dropWhile_append_of_pos]
  intro c hc
  exact ha c (List.mem_reverse.1 hc)

theorem trimBack_blank {a : List Char} (ha : Blank a) : trimBack a = [] :=
  trimBack_append ha []

/-- Only what follows the last character that is not blank is dropped. -/
theorem trimBack_append_cons {c : Char} (hc : isBlank c = false) (a cs : List Char) :
    trimBack (a ++ c :: cs) = a ++ c :: trimBack cs := by
  have hdrop : ∀ bs : List Char, (bs ++ c :: a.reverse).dropWhile isBlank =
      bs.dropWhile isBlank ++ c :: a.reverse := by
    intro bs
    induction bs with
    | nil => exact List.dropWhile_cons_of_neg (by simp [hc])
    | cons b bs ih =>
      rw [List.cons_append, List.dropWhile_cons, List.dropWhile_cons, ih]
      split <;> rfl
  rw [trimBack, trimBack, List.reverse_append, List.reverse_cons, List.append_assoc,
    List.singleton_append, hdrop]
  simp

theorem trimChars_append_left {a : List Char} (ha : Blank a) (cs : List Char) :
    trimChars (a ++ cs) = trimChars cs := by
  rw [trimChars, trimChars, trimFront_append ha]

theorem trimChars_cons {c : Char} (hc : isBlank c = false) (cs : List Char) :
    trimChars (c :: cs) = c :: trimBack cs := by
  rw [trimChars, trimFront_cons hc]
  exact trimBack_append_cons hc [] cs

theorem trimChars_blank {a : List Char} (ha : Blank a) : trimChars a = [] := by
  rw [trimChars, trimFront_blank ha]
  rfl

theorem trimChars_append_right {a : List Char} (ha : Blank a) (cs : List Char) :
    trimChars (cs ++ a) = trimChars cs := by
  induction cs with
  | nil => exact trimChars_blank ha
  | cons c cs ih =>
    by_cases hc : isBlank c = true
    · have hblank : Blank [c] := by simpa [Blank] using hc
      have hleft := trimChars_append_left hblank (cs ++ a)
      have hleft' := trimChars_append_left hblank cs
      rw [List.singleton_append] at hleft hleft'
      rw [List.cons_append, hleft, ih, hleft']
    · rw [Bool.not_eq_true] at hc
      rw [List.cons_append, trimChars_cons hc, trimChars_cons hc, trimBack_append ha]

theorem trimBack_trimBack (cs : List Char) : trimBack (trimBack cs) = trimBack cs := by
  simp [trimBack, List.dropWhile_idempotent]

theorem trimChars_trimBack (cs : List Char) : trimChars (trimBack cs) = trimChars cs := by
  have hblank : Blank (cs.reverse.takeWhile isBlank).reverse := fun c hc =>
    List.mem_takeWhile_imp (List.mem_reverse.1 hc)
  have hcut : trimBack cs ++ (cs.reverse.takeWhile isBlank).reverse = cs := by
    rw [trimBack, ← List.reverse_append, List.takeWhile_append_dropWhile, List.reverse_reverse]
  conv_rhs => rw [← hcut, trimChars_append_right hblank]

theorem trimChars_dropReturn (line : List Char) : trimChars (dropReturn line) = trimChars line := by
  unfold dropReturn
  split
  next hlast =>
    obtain ⟨front, rfl⟩ := List.getLast?_eq_some_iff.1 hlast
    have hreturn : Blank ['\r'] := by simpa [Blank] using (by decide : isBlank '\r' = true)
    rw [List.dropLast_concat, trimChars_append_right hreturn]
  next => rfl

theorem trimFront_eq_self_iff {cs : List Char} :
    trimFront cs = cs ↔ ∀ c, cs.head? = some c → isBlank c = false := by
  cases cs with
  | nil => simp [trimFront]
  | cons c cs => simp [trimFront, List.dropWhile_eq_self_iff]

theorem trimBack_eq_self_iff {cs : List Char} :
    trimBack cs = cs ↔ ∀ c, cs.getLast? = some c → isBlank c = false := by
  rw [trimBack, List.reverse_eq_iff, ← List.head?_reverse]
  exact trimFront_eq_self_iff

/-- A text is trimmed when it has white space neither at its front nor at its back. -/
theorem trimChars_eq_self_iff {cs : List Char} :
    trimChars cs = cs ↔ (∀ c, cs.head? = some c → isBlank c = false) ∧
      ∀ c, cs.getLast? = some c → isBlank c = false := by
  rw [← trimFront_eq_self_iff, ← trimBack_eq_self_iff, trimChars]
  constructor
  · intro h
    have hlength : cs.length ≤ (trimFront cs).length := by
      have := (List.dropWhile_suffix (l := (trimFront cs).reverse) isBlank).length_le
      rw [List.length_reverse, ← List.length_reverse] at this
      calc cs.length = (trimBack (trimFront cs)).length := by rw [h]
        _ ≤ (trimFront cs).length := this
    have hfront : trimFront cs = cs := (List.dropWhile_suffix isBlank).eq_of_length_le hlength
    exact ⟨hfront, by rwa [hfront] at h⟩
  · rintro ⟨hfront, hback⟩
    rw [hfront, hback]

theorem trimChars_cons_concat {c d : Char} (hc : isBlank c = false) (hd : isBlank d = false)
    (cs : List Char) : trimChars (c :: (cs ++ [d])) = c :: (cs ++ [d]) := by
  refine trimChars_eq_self_iff.2 ⟨by simpa using hc, ?_⟩
  rw [← List.cons_append, List.getLast?_concat]
  simpa using hd

/-- An empty last piece adds at most a line feed. -/
theorem trimChars_intercalate_concat_nil (pieces : List (List Char)) :
    trimChars (List.intercalate ['\n'] (pieces ++ [[]])) =
      trimChars (List.intercalate ['\n'] pieces) := by
  have happend : ∃ a, Blank a ∧
      List.intercalate ['\n'] (pieces ++ [[]]) = List.intercalate ['\n'] pieces ++ a := by
    induction pieces with
    | nil => exact ⟨[], .nil, rfl⟩
    | cons piece pieces ih =>
      obtain ⟨a, ha, heq⟩ := ih
      cases pieces with
      | nil => exact ⟨['\n'], Blank.nil.lineFeed, by simp⟩
      | cons next pieces =>
        refine ⟨a, ha, ?_⟩
        rw [List.cons_append, List.cons_append, List.intercalate_cons_cons, ← List.cons_append,
          heq, List.intercalate_cons_cons, List.append_assoc, List.append_assoc,
          List.append_assoc]
  obtain ⟨a, ha, heq⟩ := happend
  rw [heq, trimChars_append_right ha]

/-- An empty first piece adds at most a line feed. -/
theorem trimChars_intercalate_nil_cons (pieces : List (List Char)) :
    trimChars (List.intercalate ['\n'] ([] :: pieces)) =
      trimChars (List.intercalate ['\n'] pieces) := by
  cases pieces with
  | nil => rfl
  | cons piece pieces =>
    rw [List.intercalate_cons_cons, List.nil_append, trimChars_append_left Blank.nil.lineFeed]

end Text

open Text (Blank)

namespace Directive

/-! ### White space of comments -/

/-- White space within a line. -/
def Indent (cs : List Char) : Prop := Blank cs ∧ '\n' ∉ cs

/-- What stands at the front of a line: nothing, or a star behind an indentation. -/
inductive Margin : List Char → Prop
  | bare : Margin []
  | star {indent : List Char} (h : Indent indent) : Margin (indent ++ ['*'])

theorem Margin.notMem {margin : List Char} (h : Margin margin) : '\n' ∉ margin := by
  cases h with
  | bare => simp
  | star h => simp [h.2]

/-- White space in a block comment: over several lines, each line after the first has a margin. -/
inductive Gap : List Char → Prop
  | inline {indent : List Char} (h : Indent indent) : Gap indent
  | line {indent margin gap : List Char} (hindent : Indent indent) (hmargin : Margin margin)
    (h : Gap gap) : Gap (indent ++ '\n' :: (margin ++ gap))

/-! ### Tidying -/

/-- A line without white space at its ends and a star at its front. -/
def lineContent (line : List Char) : List Char :=
  match Text.trimChars line with
  | '*' :: rest => Text.trimChars rest
  | line => line

/-- Tidy the lines of a text, the first one by a function of its own. -/
def tidyFrom (first : List Char → List Char) (cs : List Char) : List Char :=
  match Text.splitChars '\n' cs with
  | [] => []
  | line :: more => List.intercalate ['\n'] (first line :: more.map lineContent)

/-- Tidy a text from within a line on. -/
def tidy (cs : List Char) : List Char := tidyFrom Text.trimBack cs

theorem tidyFrom_of_notMem (first : List Char → List Char) {cs : List Char} (h : '\n' ∉ cs) :
    tidyFrom first cs = first cs := by
  rw [tidyFrom, Text.splitChars_of_notMem h]
  exact List.intercalate_singleton ..

theorem tidyFrom_line (first : List Char → List Char) {line : List Char} (h : '\n' ∉ line)
    (cs : List Char) :
    tidyFrom first (line ++ '\n' :: cs) = first line ++ '\n' :: tidyFrom lineContent cs := by
  rw [tidyFrom, Text.splitChars_append h, tidyFrom]
  cases hcs : Text.splitChars '\n' cs with
  | nil => exact absurd hcs (Text.splitChars_ne_nil _ _)
  | cons next more =>
    simp only [List.map_cons]
    rw [List.intercalate_cons_cons, List.append_assoc, List.singleton_append]

/-- What a function keeps of the front of every line, it keeps of the front of a text. -/
theorem tidyFrom_append {first next : List Char → List Char} {cs kept : List Char} (h : '\n' ∉ cs)
    (hkept : ∀ line, first (cs ++ line) = kept ++ next line) (rest : List Char) :
    tidyFrom first (cs ++ rest) = kept ++ tidyFrom next rest := by
  obtain hrest | ⟨line, more, hline, rfl⟩ := Literal.cut_cases '\n' rest
  · rw [tidyFrom_of_notMem _ hrest, tidyFrom_of_notMem _ (by simp [h, hrest]), hkept]
  · rw [← List.append_assoc, tidyFrom_line _ (by simp [h, hline]), tidyFrom_line _ hline, hkept,
      List.append_assoc]

theorem ne_of_isBlank {c : Char} (hc : Text.isBlank c = false) : '\n' ≠ c := by
  rintro rfl
  exact absurd hc (by decide)

/-- Tidying keeps what stands within a line in front of a character that is not blank. -/
theorem tidy_append_cons {c : Char} (hc : Text.isBlank c = false) {cs : List Char} (h : '\n' ∉ cs)
    (rest : List Char) : tidy (cs ++ c :: rest) = cs ++ c :: tidy rest := by
  have hline : '\n' ∉ cs ++ [c] := by simp [h, ne_of_isBlank hc]
  have hkept : ∀ line, Text.trimBack (cs ++ [c] ++ line) = cs ++ [c] ++ Text.trimBack line := by
    intro line
    simpa using Text.trimBack_append_cons hc cs line
  simpa [tidy] using tidyFrom_append hline hkept rest

theorem lineContent_margin {margin : List Char} (hmargin : Margin margin) {a : List Char}
    (ha : Blank a) : lineContent (margin ++ a) = [] := by
  unfold lineContent
  cases hmargin with
  | bare => rw [List.nil_append, Text.trimChars_blank ha]
  | star h =>
    rw [List.append_assoc, Text.trimChars_append_left h.1, List.singleton_append,
      Text.trimChars_cons (by decide), Text.trimBack_blank ha]
    rfl

/-- A margin is dropped with the white space behind it. -/
theorem lineContent_margin_cons {margin : List Char} (hmargin : Margin margin) {a : List Char}
    (ha : Blank a) {c : Char} (hc : Text.isBlank c = false) (hstar : c ≠ '*') (line : List Char) :
    lineContent (margin ++ (a ++ c :: line)) = c :: Text.trimBack line := by
  unfold lineContent
  cases hmargin with
  | bare =>
    rw [List.nil_append, Text.trimChars_append_left ha, Text.trimChars_cons hc]
    split
    next heq => exact absurd (List.cons.inj heq).1 hstar
    next => rfl
  | star h =>
    rw [List.append_assoc, Text.trimChars_append_left h.1, List.singleton_append,
      Text.trimChars_cons (by decide), Text.trimBack_append_cons hc]
    simp only
    rw [Text.trimChars_append_left ha, Text.trimChars_cons hc, Text.trimBack_trimBack]

/-- Text that starts with a token, or is empty. -/
def Halts (cs : List Char) : Prop := ∀ c, cs.head? = some c → Text.isBlank c = false ∧ c ≠ '*'

theorem halts_nil : Halts [] := by simp [Halts]

theorem halts_cons {c : Char} (hc : Text.isBlank c = false) (hstar : c ≠ '*') (cs : List Char) :
    Halts (c :: cs) := by
  rintro d hd
  cases hd
  exact ⟨hc, hstar⟩

theorem tidy_cons {c : Char} (hc : Text.isBlank c = false) (rest : List Char) :
    tidy (c :: rest) = c :: tidy rest :=
  tidy_append_cons hc List.not_mem_nil rest

theorem tidy_indent {indent : List Char} (h : Indent indent) {cs : List Char} {c : Char}
    (hcs : Halts cs) (hc : cs.head? = some c) : tidy (indent ++ cs) = indent ++ tidy cs := by
  obtain ⟨rest, rfl⟩ := List.head?_eq_some_iff.1 hc
  rw [tidy_append_cons (hcs c rfl).1 h.2, tidy_cons (hcs c rfl).1]

/-- At the front of a line, a margin and a gap become white space. -/
theorem tidyFrom_margin {gap : List Char} (hgap : Gap gap) {margin : List Char}
    (hmargin : Margin margin) {rest : List Char} (hrest : Halts rest) :
    ∃ a, Blank a ∧ tidyFrom lineContent (margin ++ (gap ++ rest)) = a ++ tidy rest := by
  -- by the lines of the gap: the last one ends with a token or the text, the others are empty
  induction hgap generalizing margin with
  | @inline indent h =>
    refine ⟨[], .nil, ?_⟩
    cases rest with
    | nil =>
      rw [tidyFrom_of_notMem _ (by simp [hmargin.notMem, h.2]), List.append_nil,
        lineContent_margin hmargin h.1]
      rfl
    | cons c rest =>
      obtain ⟨hc, hstar⟩ := hrest c rfl
      have hline : '\n' ∉ margin ++ (indent ++ [c]) := by
        simp [hmargin.notMem, h.2, ne_of_isBlank hc]
      have hkept : ∀ line, lineContent (margin ++ (indent ++ [c]) ++ line) =
          [c] ++ Text.trimBack line := by
        intro line
        simpa using lineContent_margin_cons hmargin h.1 hc hstar line
      have := tidyFrom_append hline hkept rest
      rw [tidy_cons hc]
      simpa [tidy] using this
  | @line indent margin' gap hindent hmargin' _ ih =>
    obtain ⟨a, ha, heq⟩ := ih hmargin'
    refine ⟨'\n' :: a, ha.lineFeed, ?_⟩
    have hsplit : margin ++ (indent ++ '\n' :: (margin' ++ gap) ++ rest) =
        margin ++ indent ++ '\n' :: (margin' ++ (gap ++ rest)) := by
      simp
    rw [hsplit, tidyFrom_line _ (by simp [hmargin.notMem, hindent.2]), heq,
      lineContent_margin hmargin hindent.1]
    rfl

/-- Within a text, a gap becomes white space, and keeps its line feeds where a token follows. -/
theorem tidy_gap {gap : List Char} (hgap : Gap gap) {rest : List Char} (hrest : Halts rest) :
    ∃ a, Blank a ∧ ('\n' ∈ gap → '\n' ∈ a) ∧ tidy (gap ++ rest) = a ++ tidy rest := by
  cases hgap with
  | inline h =>
    cases rest with
    | nil =>
      refine ⟨[], .nil, fun hline => absurd hline h.2, ?_⟩
      rw [List.append_nil, tidy, tidyFrom_of_notMem _ h.2, Text.trimBack_blank h.1]
      rfl
    | cons c rest => exact ⟨_, h.1, id, tidy_indent h hrest rfl⟩
  | @line indent margin gap hindent hmargin h =>
    obtain ⟨a, ha, heq⟩ := tidyFrom_margin h hmargin hrest
    refine ⟨'\n' :: a, ha.lineFeed, fun _ => .head _, ?_⟩
    rw [List.append_assoc, List.cons_append, List.append_assoc, tidy, tidyFrom_line _ hindent.2,
      heq, Text.trimBack_blank hindent.1]
    rfl

/-! ### The content of a block comment -/

theorem lineContent_dropReturn (line : List Char) :
    lineContent (Text.dropReturn line) = lineContent line := by
  rw [lineContent, lineContent, Text.trimChars_dropReturn]

theorem tidyFrom_lineContent (cs : List Char) : tidyFrom lineContent cs =
    List.intercalate ['\n'] ((Text.splitChars '\n' cs).map lineContent) := by
  unfold tidyFrom
  split
  next h => exact absurd h (Text.splitChars_ne_nil _ _)
  next h => rw [h, List.map_cons]

/-- The lines of a text and its pieces between line feeds tidy to the same text. -/
theorem trimChars_lineChars (cs : List Char) :
    Text.trimChars (List.intercalate ['\n'] ((Text.lineChars cs).map lineContent)) =
      Text.trimChars (tidyFrom lineContent cs) := by
  obtain ⟨front, last, hpieces⟩ : ∃ front last, Text.splitChars '\n' cs = front ++ [last] :=
    ⟨_, _, (List.dropLast_concat_getLast (Text.splitChars_ne_nil _ _)).symm⟩
  have hfront : (front.map Text.dropReturn).map lineContent = front.map lineContent := by
    rw [List.map_map]
    exact List.map_congr_left fun line _ => lineContent_dropReturn line
  rw [tidyFrom_lineContent, Text.lineChars, hpieces, List.dropLast_concat, List.map_append, hfront,
    List.map_append]
  cases last with
  | nil =>
    have hnil : lineContent [] = [] := lineContent_margin .bare .nil
    rw [List.map_singleton, hnil, Text.trimChars_intercalate_concat_nil]
    simp
  | cons c last => simp

/-- The content of a block comment is its tidied text without white space at the ends. -/
theorem content_block (inner : List Char) :
    content ('/' :: '*' :: (inner ++ ['*', '/'])) =
      Text.trimChars (tidyFrom lineContent inner) := by
  have htrim : Text.trimChars ('/' :: '*' :: (inner ++ ['*', '/'])) =
      '/' :: '*' :: (inner ++ ['*', '/']) := by
    have hslash : Text.isBlank '/' = false := by decide
    simpa using Text.trimChars_cons_concat hslash hslash ('*' :: (inner ++ ['*']))
  have hline : Text.afterPrefix? ['/', '/'] ('/' :: '*' :: (inner ++ ['*', '/'])) = none := by
    simp [Text.afterPrefix?]
  have hblock : Text.afterPrefix? ['/', '*'] ('/' :: '*' :: (inner ++ ['*', '/'])) =
      some (inner ++ ['*', '/']) :=
    Text.afterPrefix?_eq_some_iff.2 rfl
  have hend : Text.beforeSuffix? ['*', '/'] (inner ++ ['*', '/']) = some inner :=
    Text.beforeSuffix?_eq_some_iff.2 rfl
  rw [content, htrim, hline, ← trimChars_lineChars]
  simp only
  rw [hblock, Option.bind_some, hend]
  rfl

end Directive

end RouteContract
