import Mathlib
import RouteContract.Comment.Doc
import RouteContract.Proofs.Comment.Tidying

/-!
# Documentation blocks as they are written

A block is written with one line for each line of its free text, one for the name of each tag with
the first line of its value, and one for each further line of a value (`Layout`). It is read as it
was written (`parse?_render`): its lines are found again behind their stars, with an empty line
before and behind them (`Layout.WellFormed.map_lineContent`), and are read in runs, the free text
first (`foldl_next_text`) and then tag by tag (`foldl_next_tag`).
-/

namespace RouteContract

namespace Text

/-! ### Lines -/

/-- Lines are found again before the separators that end them. -/
theorem splitChars_lines {sep : Char} {lines : List (List Char)} (h : ∀ line ∈ lines, sep ∉ line)
    (rest : List Char) :
    splitChars sep (lines.flatMap (· ++ [sep]) ++ rest) = lines ++ splitChars sep rest := by
  induction lines with
  | nil => rfl
  | cons line lines ih =>
    rw [List.forall_mem_cons] at h
    rw [List.flatMap_cons, List.append_assoc, List.append_assoc, List.singleton_append,
      splitChars_append h.1, ih h.2, List.cons_append]

theorem lineChars_lines {lines : List (List Char)} (h : ∀ line ∈ lines, '\n' ∉ line)
    {last : List Char} (hlast : '\n' ∉ last) (hne : last ≠ []) :
    lineChars (lines.flatMap (· ++ ['\n']) ++ last) = lines.map dropReturn ++ [last] := by
  rw [lineChars, splitChars_lines h, splitChars_of_notMem hlast]
  simp [hne]

theorem head?_intercalate {sep : List Char} {lines : List (List Char)}
    (h : lines.head? ≠ some []) :
    (List.intercalate sep lines).head? = lines.head?.bind List.head? := by
  cases lines with
  | nil => rfl
  | cons line lines =>
    have hline : line ≠ [] := by simpa using h
    cases lines with
    | nil => rw [List.intercalate_singleton]; rfl
    | cons next lines =>
      rw [List.intercalate_cons_cons, List.append_assoc, List.head?_append_of_ne_nil _ hline]
      rfl

theorem getLast?_intercalate {sep : List Char} {lines : List (List Char)}
    (h : lines.getLast? ≠ some []) :
    (List.intercalate sep lines).getLast? = lines.getLast?.bind List.getLast? := by
  induction lines with
  | nil => rfl
  | cons line lines ih =>
    cases lines with
    | nil => rw [List.intercalate_singleton]; rfl
    | cons next lines =>
      rw [List.getLast?_cons_cons] at h
      have hne : List.intercalate sep (next :: lines) ≠ [] := by
        intro hnil
        have hnone := ih h
        rw [hnil, List.getLast?_nil, List.getLast?_cons, Option.bind_some, eq_comm,
          List.getLast?_eq_none_iff] at hnone
        exact h (by rw [List.getLast?_cons, hnone])
      rw [List.intercalate_cons_cons, List.getLast?_cons_cons, ← ih h,
        List.getLast?_append_of_ne_nil _ hne]

/-- Trimmed lines make a trimmed text, unless the first or the last one is empty. -/
theorem trimChars_intercalate {sep : List Char} {lines : List (List Char)}
    (h : ∀ line ∈ lines, trimChars line = line) (hhead : lines.head? ≠ some [])
    (hlast : lines.getLast? ≠ some []) :
    trimChars (List.intercalate sep lines) = List.intercalate sep lines := by
  rw [trimChars_eq_self_iff, head?_intercalate hhead, getLast?_intercalate hlast]
  constructor
  · rintro c hc
    obtain ⟨line, hline, hc⟩ := Option.bind_eq_some_iff.1 hc
    exact (trimChars_eq_self_iff.1 (h line (List.mem_of_head? hline))).1 c hc
  · rintro c hc
    obtain ⟨line, hline, hc⟩ := Option.bind_eq_some_iff.1 hc
    exact (trimChars_eq_self_iff.1 (h line (List.mem_of_getLast? hline))).2 c hc

end Text

open Text (Blank)

namespace DocComment

/-! ### Layouts -/

/-- A line that is read as it stands: trimmed, and without a line feed. It may start with a star,
since reading drops only the star of the block. -/
structure IsLine (line : String) : Prop where
  trimmed : Text.trimChars line.toList = line.toList
  lineFeed : '\n' ∉ line.toList

instance (line : String) : Decidable (IsLine line) :=
  decidable_of_iff (Text.trimChars line.toList = line.toList ∧ '\n' ∉ line.toList)
    ⟨fun ⟨htrim, hline⟩ => ⟨htrim, hline⟩, fun h => ⟨h.trimmed, h.lineFeed⟩⟩

/-- Whether a line is read as a tag. -/
def OpensTag (line : String) : Prop := line.toList.head? = some '@'
deriving Decidable

/-- A tag as it is written: its name, and the lines of its value, none if it has no value. -/
structure TagLayout where
  name : String
  value : List String := []

/-- A name without white space, and a value of lines that are not empty. The first of them stands
behind the name, so only the others must not open a tag. -/
structure TagLayout.WellFormed (tag : TagLayout) : Prop where
  name : ∀ c ∈ tag.name.toList, Text.isBlank c = false
  value : ∀ line ∈ tag.value, line ≠ "" ∧ IsLine line
  tail : ∀ line ∈ tag.value.tail, ¬OpensTag line

instance (tag : TagLayout) : Decidable tag.WellFormed :=
  decidable_of_iff
    ((tag.name.toList.all fun c => Text.isBlank c = false) = true ∧
      (∀ line ∈ tag.value, line ≠ "" ∧ IsLine line) ∧ ∀ line ∈ tag.value.tail, ¬OpensTag line)
    ⟨fun ⟨hname, hvalue, htail⟩ => ⟨by simpa using hname, hvalue, htail⟩,
      fun h => ⟨by simpa using h.name, h.value, h.tail⟩⟩

/-- A block as it is written: the lines of its free text, and its tags. -/
structure Layout where
  text : List String := []
  tags : List TagLayout := []

/-- A free text whose lines open no tag and that neither starts nor ends with an empty line, and
well-formed tags. -/
structure Layout.WellFormed (b : Layout) : Prop where
  text : ∀ line ∈ b.text, IsLine line ∧ ¬OpensTag line
  head? : b.text.head? ≠ some ""
  getLast? : b.text.getLast? ≠ some ""
  tags : ∀ tag ∈ b.tags, tag.WellFormed

instance (b : Layout) : Decidable b.WellFormed :=
  decidable_of_iff
    ((∀ line ∈ b.text, IsLine line ∧ ¬OpensTag line) ∧ b.text.head? ≠ some "" ∧
      b.text.getLast? ≠ some "" ∧ ∀ tag ∈ b.tags, tag.WellFormed)
    ⟨fun ⟨htext, hhead, hlast, htags⟩ => ⟨htext, hhead, hlast, htags⟩,
      fun h => ⟨h.text, h.head?, h.getLast?, h.tags⟩⟩

/-- The lines of a tag: its name with the first line of the value, then the further ones. -/
def TagLayout.lines : TagLayout → List String
  | ⟨name, []⟩ => ["@" ++ name]
  | ⟨name, line :: more⟩ => ("@" ++ name ++ " " ++ line) :: more

/-- The lines of a block. -/
def Layout.lines (b : Layout) : List String := b.text ++ b.tags.flatMap TagLayout.lines

/-- A block in writing, with a star in front of each line. -/
def Layout.render (b : Layout) : String :=
  "/**\n" ++ String.join (b.lines.map fun line => " * " ++ line ++ "\n") ++ " */"

/-- Lines put together, none if there are no lines. -/
def joined? (sep : String) : List String → Option String
  | [] => none
  | line :: more => some (sep.intercalate (line :: more))

/-- The tag that is written. -/
def TagLayout.tag (tag : TagLayout) : DocTag where
  name := tag.name
  value := joined? " " tag.value

/-- The block that is written. -/
def Layout.doc (b : Layout) : DocComment where
  text := joined? "\n" b.text
  tags := b.tags.map TagLayout.tag

/-! ### The lines of a block in writing -/

theorem lineContent_dropReturn (line : List Char) :
    lineContent (Text.dropReturn line) = lineContent line := by
  rw [lineContent, lineContent, Text.trimChars_dropReturn]

/-- A line with a star in front. -/
def starred (line : List Char) : List Char := ' ' :: '*' :: ' ' :: line

theorem lineContent_starred (line : List Char) :
    lineContent (starred line) = Text.trimChars line := by
  have hspace : Blank [' '] := by simpa [Blank] using (by decide : Text.isBlank ' ' = true)
  have hstar : Text.isBlank '*' = false := by decide
  calc lineContent (starred line)
    _ = Text.trimChars (dropStar (Text.trimChars ('*' :: ' ' :: line))) := by
      rw [lineContent, starred, ← Text.trimChars_append_left hspace ('*' :: ' ' :: line)]
      rfl
    _ = Text.trimChars (Text.trimBack (' ' :: line)) := by
      rw [Text.trimChars_cons hstar]
      rfl
    _ = Text.trimChars line := by
      rw [Text.trimChars_trimBack, ← Text.trimChars_append_left hspace line]
      rfl

/-- Between the delimiters, each line but the last one is ended by a line feed. -/
def Layout.inner (b : Layout) : List Char :=
  ([] :: b.lines.map fun line => starred line.toList).flatMap (· ++ ['\n']) ++ [' ']

theorem Layout.inner?_render (b : Layout) : inner? b.render.toList = some b.inner := by
  have hrender : b.render.toList = ['/', '*', '*'] ++ (b.inner ++ ['*', '/']) := by
    simp [render, inner, starred, String.toList_join, List.flatMap_map]
  have hslash : Text.isBlank '/' = false := by decide
  have htrim : Text.trimChars (['/', '*', '*'] ++ (b.inner ++ ['*', '/'])) =
      ['/', '*', '*'] ++ (b.inner ++ ['*', '/']) := by
    simpa using Text.trimChars_cons_concat hslash hslash ('*' :: '*' :: (b.inner ++ ['*']))
  rw [hrender, inner?, htrim, Text.afterPrefix?_eq_some_iff.2 rfl, Option.bind_some,
    Text.beforeSuffix?_eq_some_iff.2 rfl]

theorem TagLayout.WellFormed.isLine {tag : TagLayout} (h : tag.WellFormed) :
    ∀ line ∈ tag.lines, IsLine line := by
  obtain ⟨name, value⟩ := tag
  have hat : Text.isBlank '@' = false := by decide
  have hname : '\n' ∉ name.toList := fun hmem => Directive.ne_of_isBlank (h.name _ hmem) rfl
  cases value with
  | nil =>
    intro line hline
    obtain rfl : line = "@" ++ name := by simpa [lines] using hline
    refine ⟨Text.trimChars_eq_self_iff.2 ⟨by simpa using hat, ?_⟩, by simp [hname]⟩
    intro c hc
    have hmem : c = '@' ∨ c ∈ name.toList := by simpa using List.mem_of_getLast? hc
    obtain rfl | hmem := hmem
    · exact hat
    · exact h.name c hmem
  | cons first more =>
    obtain ⟨⟨hne, hfirst⟩, hmore⟩ := List.forall_mem_cons.1 h.value
    refine List.forall_mem_cons.2 ⟨⟨Text.trimChars_eq_self_iff.2 ⟨by simpa using hat, ?_⟩, ?_⟩,
      fun line hline => (hmore line hline).2⟩
    · rw [String.toList_append, List.getLast?_append_of_ne_nil _ (by simpa using hne)]
      exact (Text.trimChars_eq_self_iff.1 hfirst.trimmed).2
    · simp [hname, hfirst.lineFeed]

theorem Layout.WellFormed.isLine {b : Layout} (h : b.WellFormed) :
    ∀ line ∈ b.lines, IsLine line := by
  intro line hline
  obtain hline | hline := List.mem_append.1 hline
  · exact (h.text line hline).1
  · obtain ⟨tag, htag, hline⟩ := List.mem_flatMap.1 hline
    exact (h.tags tag htag).isLine line hline

/-- The lines of the block are found again, and an empty line before and behind them. -/
theorem Layout.WellFormed.map_lineContent {b : Layout} (h : b.WellFormed) :
    (Text.lineChars b.inner).map lineContent = [] :: b.lines.map String.toList ++ [[]] := by
  have hlineFeed : ∀ line ∈ [] :: b.lines.map fun line => starred line.toList, '\n' ∉ line := by
    simp +contextual [starred, fun line hline => (h.isLine line hline).lineFeed]
  have hcontent : ∀ line ∈ b.lines,
      lineContent (Text.dropReturn (starred line.toList)) = line.toList := by
    intro line hline
    rw [lineContent_dropReturn, lineContent_starred, (h.isLine line hline).trimmed]
  have hempty : lineContent (Text.dropReturn []) = [] ∧ lineContent [' '] = [] := by decide
  rw [inner, Text.lineChars_lines hlineFeed (by decide) (by simp)]
  simpa [hempty] using hcontent

/-! ### Reading line by line -/

theorem changeLast_concat {α : Type} (f : α → α) (front : List α) (a : α) :
    changeLast f (front ++ [a]) = front ++ [f a] := by
  induction front with
  | nil => rfl
  | cons b front ih =>
    cases front with
    | nil => rfl
    | cons c front => exact congrArg (b :: ·) ih

/-- Before the first tag, a line that opens no tag is free text. -/
theorem Reading.next_text (lines : List (List Char)) {line : String} (h : ¬OpensTag line) :
    Reading.next ⟨lines, []⟩ line.toList = ⟨lines ++ [line.toList], []⟩ := by
  unfold Reading.next
  split
  next heq => exact absurd (congrArg List.head? heq) h
  next => rfl

/-- Behind a tag, a line that opens no tag continues its value. -/
theorem Reading.next_value (lines : List (List Char)) (front : List DocTag) (tag : DocTag)
    {line : String} (h : ¬OpensTag line) :
    Reading.next ⟨lines, front ++ [tag]⟩ line.toList =
      ⟨lines, front ++ [tag.continueBy line.toList]⟩ := by
  unfold Reading.next
  split
  next heq => exact absurd (congrArg List.head? heq) h
  next => rw [if_neg (by simp), changeLast_concat]

/-- An empty line adds nothing but itself to the free text. -/
theorem Reading.exists_next_nil (lines : List (List Char)) (tags : List DocTag) :
    ∃ behind, (behind = [] ∨ behind = [[]]) ∧
      Reading.next ⟨lines, tags⟩ [] = ⟨lines ++ behind, tags⟩ := by
  have hnil : ¬OpensTag "" := by decide
  obtain rfl | ⟨front, tag, rfl⟩ := List.eq_nil_or_concat' tags
  · exact ⟨[[]], .inr rfl, Reading.next_text lines hnil⟩
  · refine ⟨[], .inl rfl, ?_⟩
    rw [List.append_nil]
    exact Reading.next_value lines front tag hnil

theorem foldl_next_text {text : List String} (h : ∀ line ∈ text, ¬OpensTag line)
    (lines : List (List Char)) :
    (text.map String.toList).foldl Reading.next ⟨lines, []⟩ =
      ⟨lines ++ text.map String.toList, []⟩ := by
  induction text generalizing lines with
  | nil => simp
  | cons line text ih =>
    rw [List.forall_mem_cons] at h
    rw [List.map_cons, List.foldl_cons, Reading.next_text lines h.1, ih h.2, List.append_assoc,
      List.singleton_append]

theorem nonEmpty_toList {s : String} (h : s ≠ "") : nonEmpty s.toList = some s := by
  simp [nonEmpty, h]

theorem openTag_name {name : String} (h : ∀ c ∈ name.toList, Text.isBlank c = false) :
    openTag name.toList = ⟨name, none⟩ := by
  have hname : ∀ c ∈ name.toList, (!Text.isBlank c) = true := by simpa using h
  rw [openTag, List.takeWhile_eq_self_iff.2 hname, List.dropWhile_eq_nil_iff.2 hname,
    String.ofList_toList]
  rfl

theorem openTag_value {name line : String} (h : ∀ c ∈ name.toList, Text.isBlank c = false)
    (hne : line ≠ "") (hline : IsLine line) :
    openTag (name.toList ++ ' ' :: line.toList) = ⟨name, some line⟩ := by
  have hname : ∀ c ∈ name.toList, (!Text.isBlank c) = true := by simpa using h
  have hspace : Text.isBlank ' ' = true := by decide
  have hvalue : Text.trimChars (' ' :: line.toList) = line.toList := by
    rw [← List.singleton_append, Text.trimChars_append_left (by simpa [Blank] using hspace),
      hline.trimmed]
  rw [openTag, List.takeWhile_append_of_pos hname, List.dropWhile_append_of_pos hname,
    List.takeWhile_cons_of_neg (by simp [hspace]), List.dropWhile_cons_of_neg (by simp [hspace]),
    hvalue, List.append_nil, String.ofList_toList, nonEmpty_toList hne]

theorem continueBy_line (name value : String) {line : String} (h : line ≠ "") :
    DocTag.continueBy ⟨name, some value⟩ line.toList = ⟨name, some (value ++ " " ++ line)⟩ := by
  simp [DocTag.continueBy, h]

theorem foldl_next_value {more : List String} (h : ∀ line ∈ more, line ≠ "" ∧ ¬OpensTag line)
    (lines : List (List Char)) (front : List DocTag) (name value : String) :
    (more.map String.toList).foldl Reading.next ⟨lines, front ++ [⟨name, some value⟩]⟩ =
      ⟨lines, front ++ [⟨name, some (" ".intercalate (value :: more))⟩]⟩ := by
  induction more generalizing value with
  | nil => simp
  | cons line more ih =>
    obtain ⟨⟨hne, hline⟩, hmore⟩ := List.forall_mem_cons.1 h
    rw [List.map_cons, List.foldl_cons, Reading.next_value lines front _ hline,
      continueBy_line name value hne, ih hmore, String.intercalate_cons_append,
      String.intercalate_cons_cons]

/-- The lines of one tag are read to this tag. -/
theorem foldl_next_tag {tag : TagLayout} (h : tag.WellFormed) (lines : List (List Char))
    (front : List DocTag) :
    (tag.lines.map String.toList).foldl Reading.next ⟨lines, front⟩ =
      ⟨lines, front ++ [tag.tag]⟩ := by
  obtain ⟨name, value⟩ := tag
  cases value with
  | nil =>
    have hopen : ("@" ++ name).toList = '@' :: name.toList := by simp
    simp only [TagLayout.lines, List.map_cons, List.map_nil, List.foldl_cons, List.foldl_nil, hopen,
      Reading.next, openTag_name h.name]
    rfl
  | cons line more =>
    obtain ⟨⟨hne, hline⟩, hmore⟩ := List.forall_mem_cons.1 h.value
    have hopen : ("@" ++ name ++ " " ++ line).toList =
        '@' :: (name.toList ++ ' ' :: line.toList) := by simp
    simp only [TagLayout.lines, List.map_cons, List.foldl_cons, hopen, Reading.next,
      openTag_value h.name hne hline]
    -- the first line of the value was read with the name, the others continue it
    exact foldl_next_value (fun line hline => ⟨(hmore line hline).1, h.tail line hline⟩) ..

theorem foldl_next_tags {tags : List TagLayout} (h : ∀ tag ∈ tags, tag.WellFormed)
    (lines : List (List Char)) (front : List DocTag) :
    ((tags.flatMap TagLayout.lines).map String.toList).foldl Reading.next ⟨lines, front⟩ =
      ⟨lines, front ++ tags.map TagLayout.tag⟩ := by
  induction tags generalizing front with
  | nil => simp
  | cons tag tags ih =>
    rw [List.forall_mem_cons] at h
    rw [List.flatMap_cons, List.map_append, List.foldl_append, foldl_next_tag h.1, ih h.2,
      List.append_assoc, List.singleton_append, List.map_cons]

/-! ### Reading a block that was written -/

theorem nonEmpty_intercalate (sep : String) {lines : List String} (h : lines.head? ≠ some "") :
    nonEmpty (sep.intercalate lines).toList = joined? sep lines := by
  cases lines with
  | nil => rfl
  | cons line more =>
    have hline : line ≠ "" := by simpa using h
    have hne : sep.intercalate (line :: more) ≠ "" := by
      cases more with
      | nil => simpa using hline
      | cons next more => simp [String.intercalate_cons_cons, hline]
    exact nonEmpty_toList hne

/-- The free text is read without the empty lines around it. -/
theorem nonEmpty_text {b : Layout} (h : b.WellFormed) {behind : List (List Char)}
    (hbehind : behind = [] ∨ behind = [[]]) :
    nonEmpty (Text.trimChars (List.intercalate ['\n']
      ([] :: b.text.map String.toList ++ behind))) = joined? "\n" b.text := by
  have hlines : ∀ line ∈ b.text.map String.toList, Text.trimChars line = line := by
    simpa using fun line hline => (h.text line hline).1.trimmed
  have htrim : Text.trimChars (List.intercalate ['\n'] (b.text.map String.toList)) =
      List.intercalate ['\n'] (b.text.map String.toList) :=
    Text.trimChars_intercalate hlines (by simpa using h.head?) (by simpa using h.getLast?)
  have hjoin : List.intercalate ['\n'] (b.text.map String.toList) =
      ("\n".intercalate b.text).toList := by
    rw [String.toList_intercalate]
    rfl
  have hempty : Text.trimChars (List.intercalate ['\n']
      ([] :: b.text.map String.toList ++ behind)) =
      Text.trimChars (List.intercalate ['\n'] (b.text.map String.toList)) := by
    obtain rfl | rfl := hbehind
    · rw [List.append_nil, Text.trimChars_intercalate_nil_cons]
    · rw [Text.trimChars_intercalate_concat_nil, Text.trimChars_intercalate_nil_cons]
  rw [hempty, htrim, hjoin, nonEmpty_intercalate _ h.head?]

/-- **A block is read as it was written.** From a block with one line for each line of its text, and
with each tag on a line with the first line of its value and the others below, exactly this text and
these tags are read, each value on one line. -/
theorem parse?_render (b : Layout) (h : b.WellFormed) : parse? b.render = some b.doc := by
  obtain ⟨behind, hbehind, hnext⟩ :=
    Reading.exists_next_nil ([] :: b.text.map String.toList) (b.tags.map TagLayout.tag)
  have hread : ([] :: b.lines.map String.toList ++ [[]]).foldl Reading.next {} =
      ⟨[] :: b.text.map String.toList ++ behind, b.tags.map TagLayout.tag⟩ := by
    have hopening : Reading.next {} [] = ⟨[[]], []⟩ := rfl
    rw [List.cons_append, List.foldl_cons, hopening, Layout.lines, List.map_append,
      List.foldl_append, List.foldl_append, foldl_next_text fun line hline => (h.text line hline).2,
      foldl_next_tags h.tags, List.nil_append]
    exact hnext
  rw [parse?, Layout.inner?_render, Option.map_some, h.map_lineContent, hread, Reading.finish,
    nonEmpty_text h hbehind, Layout.doc]

/-- An empty line within the text stays, as does a star in front of a line. -/
theorem parse?_render_star :
    Layout.WellFormed
        ⟨["Löscht:", "", "* alles"], [⟨"summary", ["@home:", "all"]⟩, ⟨"hidden", []⟩]⟩ ∧
      parse? "/**\n * Löscht:\n * \n * * alles\n * @summary @home:\n * all\n * @hidden\n */" =
        some ⟨some "Löscht:\n\n* alles", [⟨"summary", some "@home: all"⟩, ⟨"hidden", none⟩]⟩ := by
  have hwell : Layout.WellFormed
      ⟨["Löscht:", "", "* alles"], [⟨"summary", ["@home:", "all"]⟩, ⟨"hidden", []⟩]⟩ := by
    decide
  have hrender : Layout.render
      ⟨["Löscht:", "", "* alles"], [⟨"summary", ["@home:", "all"]⟩, ⟨"hidden", []⟩]⟩ =
      "/**\n * Löscht:\n * \n * * alles\n * @summary @home:\n * all\n * @hidden\n */" := by
    decide +kernel
  exact ⟨hwell, hrender ▸ parse?_render _ hwell⟩

end DocComment

end RouteContract
