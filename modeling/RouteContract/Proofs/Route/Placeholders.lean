import Mathlib
import RouteContract.Proofs.Distinct
import RouteContract.Proofs.Route.Path

/-!
# Parameters and placeholders

Two passes read a route path: one puts its parameters in braces, the other lists what stands
between braces. On a path without opening braces they agree on the parameters: the placeholders are
the names behind colons (`parameterNames`), each once. The first pass is done after one run, and
works inside each segment.
-/

namespace RouteContract

namespace Text

theorem afterPrefix?_singleton_of_ne {c d : Char} (h : c ≠ d) (cs : List Char) :
    afterPrefix? [c] (d :: cs) = none := by
  rw [afterPrefix?, if_neg h]

/-- A text is cut at the first occurrence of a character. -/
theorem cutAt?_singleton {c : Char} {before : List Char} (h : c ∉ before) (after : List Char) :
    cutAt? [c] (before ++ c :: after) = some (before, after) := by
  induction before with
  | nil => rw [List.nil_append, cutAt?, afterPrefix?, if_pos rfl, afterPrefix?]
  | cons d before ih =>
    rw [List.mem_cons, not_or] at h
    rw [List.cons_append, cutAt?, afterPrefix?_singleton_of_ne h.1, ih h.2, Option.map_some]

/-- The pieces with the separator between them are the text. -/
theorem intercalate_splitChars (sep : Char) (cs : List Char) :
    List.intercalate [sep] (splitChars sep cs) = cs := by
  induction cs with
  | nil => rfl
  | cons c cs ih =>
    rw [splitChars]
    cases hpieces : splitChars sep cs with
    | nil => exact absurd hpieces (splitChars_ne_nil sep cs)
    | cons piece more =>
      rw [hpieces] at ih
      split
      · next hc => rw [List.intercalate_cons_cons, ih, hc, List.nil_append, List.singleton_append]
      · cases more with
        | nil =>
          rw [List.intercalate_singleton] at ih ⊢
          rw [ih]
        | cons next more =>
          rw [List.intercalate_cons_cons] at ih ⊢
          rw [← ih, List.cons_append, List.cons_append]

end Text

namespace Route

/-! ### Names behind colons -/

/-- The name of the parameter a text starts with: the characters of a name behind a colon, as far as
they go. -/
def leadingName? : List Char → Option (List Char)
  | ':' :: cs =>
    let name := cs.takeWhile isNameChar
    if name = [] then none else some name
  | _ => none

/-- The names behind the colons of a path, in order. -/
def parameterNames (cs : List Char) : List (List Char) := cs.tails.filterMap leadingName?

@[simp] theorem parameterNames_nil : parameterNames [] = [] := rfl

theorem leadingName?_cons_of_ne {c : Char} (h : c ≠ ':') (cs : List Char) :
    leadingName? (c :: cs) = none := by
  unfold leadingName?
  split
  · next heq => exact absurd (List.cons.inj heq).1 h
  · rfl

theorem parameterNames_cons (c : Char) (cs : List Char) :
    parameterNames (c :: cs) = (leadingName? (c :: cs)).toList ++ parameterNames cs := by
  rw [parameterNames, List.tails_cons, List.filterMap_cons]
  cases leadingName? (c :: cs) with
  | none => rfl
  | some name => rfl

theorem parameterNames_cons_of_ne {c : Char} (h : c ≠ ':') (cs : List Char) :
    parameterNames (c :: cs) = parameterNames cs := by
  rw [parameterNames_cons, leadingName?_cons_of_ne h, Option.toList_none, List.nil_append]

/-- A text without colons in front names no parameter. -/
theorem parameterNames_append {front : List Char} (h : ':' ∉ front) (cs : List Char) :
    parameterNames (front ++ cs) = parameterNames cs := by
  induction front with
  | nil => rfl
  | cons c front ih =>
    rw [List.mem_cons, not_or] at h
    rw [List.cons_append, parameterNames_cons_of_ne (Ne.symm h.1), ih h.2]

theorem dropOptional_subset (cs : List Char) : dropOptional cs ⊆ cs := by
  unfold dropOptional
  split
  · exact List.subset_cons_self _ _
  · exact List.Subset.refl _

theorem parameterNames_dropOptional (cs : List Char) :
    parameterNames (dropOptional cs) = parameterNames cs := by
  unfold dropOptional
  split
  · rw [parameterNames_cons_of_ne (by decide)]
  · rfl

theorem isNameChar_of_mem_takeWhile {cs : List Char} {c : Char}
    (h : c ∈ cs.takeWhile isNameChar) : isNameChar c = true :=
  List.mem_takeWhile_imp h

/-- What is no character of a name does not occur in a name. -/
theorem notMem_takeWhile {c : Char} (h : isNameChar c = false) (cs : List Char) :
    c ∉ cs.takeWhile isNameChar := by
  intro hc
  rw [isNameChar_of_mem_takeWhile hc] at h
  cases h

theorem parameterNames_dropWhile (cs : List Char) :
    parameterNames (cs.dropWhile isNameChar) = parameterNames cs := by
  conv_rhs => rw [← List.takeWhile_append_dropWhile (p := isNameChar) (l := cs)]
  rw [parameterNames_append (notMem_takeWhile (by decide) cs)]

/-- Each name behind a colon has a character. -/
theorem ne_nil_of_mem_parameterNames {cs name : List Char} (h : name ∈ parameterNames cs) :
    name ≠ [] := by
  obtain ⟨tail, -, hname⟩ := List.mem_filterMap.1 h
  unfold leadingName? at hname
  split at hname
  · dsimp only at hname
    split at hname
    · cases hname
    · next hne => exact Option.some.inj hname ▸ hne
  · cases hname

/-! ### Between braces -/

theorem bracedNames_cons_of_ne {c : Char} (h : c ≠ '{') (cs : List Char) :
    bracedNames (c :: cs) = bracedNames cs := by
  rw [bracedNames, if_pos h]

theorem bracedNames_open {name : List Char} (h : '}' ∉ name) (rest : List Char) :
    bracedNames ('{' :: (name ++ '}' :: rest)) = name :: bracedNames rest := by
  rw [bracedNames, if_neg (by decide)]
  split
  · next hcut => rw [Text.cutAt?_singleton h] at hcut; cases hcut
  · next hcut =>
    rw [Text.cutAt?_singleton h] at hcut
    cases hcut
    rfl

/-- What stands between the braces that are put are the names behind the colons. -/
theorem bracedNames_bracedChars {cs : List Char} (h : '{' ∉ cs) :
    bracedNames (bracedChars cs) = parameterNames cs := by
  fun_induction bracedChars cs with
  | case1 => rw [bracedNames, parameterNames_nil]
  | case2 c cs hc ih =>
    rw [List.mem_cons, not_or] at h
    rw [bracedNames_cons_of_ne (Ne.symm h.1), ih h.2, parameterNames_cons_of_ne hc]
  | case3 c cs hc name hname ih =>
    rw [List.mem_cons, not_or] at h
    obtain rfl := not_not.1 hc
    have hnone : leadingName? (':' :: cs) = none := if_pos (List.isEmpty_iff.1 hname)
    rw [bracedNames_cons_of_ne (by decide), ih h.2, parameterNames_cons, hnone,
      Option.toList_none, List.nil_append]
  | case4 c cs hc name hname ih =>
    rw [List.mem_cons, not_or] at h
    obtain rfl := not_not.1 hc
    have hsome : leadingName? (':' :: cs) = some name :=
      if_neg fun hnil => hname (List.isEmpty_iff.2 hnil)
    have hrest : '{' ∉ dropOptional (cs.dropWhile isNameChar) := fun hmem =>
      h.2 ((List.dropWhile_sublist isNameChar).subset (dropOptional_subset _ hmem))
    rw [bracedNames_open (notMem_takeWhile (by decide) cs), ih hrest,
      parameterNames_dropOptional, parameterNames_dropWhile, parameterNames_cons, hsome,
      Option.toList_some, List.singleton_append]

/-- Adding names one by one keeps the first of each. -/
theorem foldl_addName {names : List (List Char)} (h : ∀ name ∈ names, name ≠ []) :
    names.foldl addName [] = names.eraseDups := by
  refine foldl_eq_eraseDups fun name hname before => ?_
  rw [addName]
  simp only [h name hname, false_or]

theorem placeholders_braced {path : String} (h : '{' ∉ path.toList) :
    placeholders (braced path) =
      (parameterNames path.toList).eraseDups.map String.ofList := by
  rw [placeholders, braced, String.toList_ofList, placeholderChars, bracedNames_bracedChars h,
    foldl_addName fun name => ne_nil_of_mem_parameterNames]

/-! ### Once is enough -/

theorem bracedChars_append {front : List Char} (h : ':' ∉ front) (cs : List Char) :
    bracedChars (front ++ cs) = front ++ bracedChars cs := by
  induction front with
  | nil => rfl
  | cons c front ih =>
    rw [List.mem_cons, not_or] at h
    rw [List.cons_append, bracedChars, if_pos (Ne.symm h.1), ih h.2, List.cons_append]

/-- Neither a colon nor a brace belongs to a name, so a text starts with the same name as before. -/
theorem takeWhile_bracedChars (cs : List Char) :
    (bracedChars cs).takeWhile isNameChar = cs.takeWhile isNameChar := by
  fun_induction bracedChars cs with
  | case1 => rfl
  | case2 c cs hc ih => rw [List.takeWhile_cons, List.takeWhile_cons, ih]
  | case3 c cs hc name hname ih =>
    obtain rfl := not_not.1 hc
    rfl
  | case4 c cs hc name hname ih =>
    obtain rfl := not_not.1 hc
    rfl

theorem bracedChars_bracedChars (cs : List Char) :
    bracedChars (bracedChars cs) = bracedChars cs := by
  fun_induction bracedChars cs with
  | case1 => rw [bracedChars]
  | case2 c cs hc ih => rw [bracedChars, if_pos hc, ih]
  | case3 c cs hc name hname ih =>
    rw [bracedChars, if_neg (by decide), takeWhile_bracedChars, if_pos hname, ih]
  | case4 c cs hc name hname ih =>
    have hfront : ':' ∉ '{' :: name ++ ['}'] := by
      simp [name, notMem_takeWhile (c := ':') (by decide) cs]
    have hcut : '{' :: (name ++ '}' :: bracedChars (dropOptional (cs.dropWhile isNameChar))) =
        '{' :: name ++ ['}'] ++ bracedChars (dropOptional (cs.dropWhile isNameChar)) := by simp
    rw [hcut, bracedChars_append hfront, ih]

/-! ### Segments -/

theorem splitChars_bracedChars (cs : List Char) :
    Text.splitChars '/' (bracedChars cs) = (Text.splitChars '/' cs).map bracedChars := by
  have hslash : ∀ piece ∈ (Text.splitChars '/' cs).map bracedChars, '/' ∉ piece := by
    intro piece hpiece hmem
    obtain ⟨before, hbefore, rfl⟩ := List.mem_map.1 hpiece
    rcases mem_bracedChars hmem with h | h | h
    · exact (Text.mem_piece hbefore _ h).2 rfl
    · exact absurd h (by decide)
    · exact absurd h (by decide)
  have hne : (Text.splitChars '/' cs).map bracedChars ≠ [] := fun hnil =>
    Text.splitChars_ne_nil '/' cs (List.map_eq_nil_iff.1 hnil)
  rw [← Text.splitChars_intercalate hne hslash, ← bracedChars_intercalate,
    Text.intercalate_splitChars]

theorem splitOn_braced (path : String) :
    Text.splitOn '/' (braced path) = (Text.splitOn '/' path).map braced := by
  simp [Text.splitOn, braced, splitChars_bracedChars]

/-- A segment that stands for itself: not empty, and no way to stay or to go up. -/
def StandsForItself (segment : String) : Prop := segment ∉ ["", ".", ".."]

theorem toList_braced (path : String) : (braced path).toList = bracedChars path.toList :=
  String.toList_ofList

/-- Braces make no segment empty or a dot: the segment was so before. -/
theorem StandsForItself.braced {segment : String} (h : StandsForItself segment) :
    StandsForItself (braced segment) := by
  have hback : ∀ dots : List Char, (bracedChars segment.toList = dots → segment.toList = dots) →
      segment ≠ String.ofList dots → Route.braced segment ≠ String.ofList dots := by
    intro dots hdots hne heq
    refine hne (String.toList_injective ?_)
    rw [String.toList_ofList, hdots (by rw [← toList_braced, heq, String.toList_ofList])]
  simp only [StandsForItself, List.mem_cons, List.not_mem_nil, or_false, not_or] at h ⊢
  refine ⟨hback [] bracedChars_eq_nil h.1, hback ['.'] (fun hdot => ?_) h.2.1,
    hback ['.', '.'] (fun hdots => ?_) h.2.2⟩
  · obtain ⟨rest, hrest, hnil⟩ := bracedChars_eq_dot_cons hdot
    rw [hrest, bracedChars_eq_nil hnil]
  · obtain ⟨rest, hrest, hdot⟩ := bracedChars_eq_dot_cons hdots
    obtain ⟨last, hlast, hnil⟩ := bracedChars_eq_dot_cons hdot
    rw [hrest, hlast, bracedChars_eq_nil hnil]

/-- The placeholders of a path in braces are the names behind its colons, each once, in order of
first occurrence, if the path has no opening brace of its own. Putting a path in braces a second
time changes nothing; each segment of the path becomes one segment, and one that stands for itself
goes on doing so. -/
theorem braced_faithful (path : String) :
    ('{' ∉ path.toList →
      placeholders (braced path) = (parameterNames path.toList).eraseDups.map String.ofList) ∧
    braced (braced path) = braced path ∧
    (Text.splitOn '/' (braced path)).length = (Text.splitOn '/' path).length ∧
    List.Forall₂ (fun before after => StandsForItself before → StandsForItself after)
      (Text.splitOn '/' path) (Text.splitOn '/' (braced path)) := by
  refine ⟨placeholders_braced, ?_, ?_, ?_⟩
  · rw [braced, toList_braced, bracedChars_bracedChars, ← braced]
  · rw [splitOn_braced, List.length_map]
  · rw [splitOn_braced, List.forall₂_map_right_iff, List.forall₂_same]
    exact fun segment _ => StandsForItself.braced

/-- A colon without a name, a name behind two colons, a name with its mark and a name met again. -/
theorem braced_faithful_users :
    '{' ∉ "/:/::user-id/:b?:id/:user".toList ∧
    placeholders (braced "/:/::user-id/:b?:id/:user") = ["user", "b", "id"] := by
  have hopen : '{' ∉ "/:/::user-id/:b?:id/:user".toList := by decide
  refine ⟨hopen, ?_⟩
  rw [(braced_faithful "/:/::user-id/:b?:id/:user").1 hopen]
  decide +kernel

end Route

end RouteContract
