import Mathlib
import RouteContract.Route.Path

/-!
# Paths in normal form

A path in normal form starts with a slash, and behind each slash stands a segment that is not empty,
not a dot and not two dots; only the root ends with a slash. Joining gives such a path, since the
segments are read that way (`isSegment_of_mem_segments`). Putting parameters in braces changes each
segment by itself (`bracedChars_ofSegments`) and can make none of them empty or a dot.
-/

namespace RouteContract

namespace Text

/-! ### Pieces between separators -/

theorem splitChars_of_notMem {sep : Char} {cs : List Char} (h : sep ∉ cs) :
    splitChars sep cs = [cs] := by
  induction cs with
  | nil => rfl
  | cons c cs ih =>
    rw [List.mem_cons, not_or] at h
    rw [splitChars, if_neg (Ne.symm h.1), ih h.2]

theorem splitChars_append {sep : Char} {piece : List Char} (h : sep ∉ piece) (rest : List Char) :
    splitChars sep (piece ++ sep :: rest) = piece :: splitChars sep rest := by
  induction piece with
  | nil => rw [List.nil_append, splitChars, if_pos rfl]
  | cons c piece ih =>
    rw [List.mem_cons, not_or] at h
    rw [List.cons_append, splitChars, if_neg (Ne.symm h.1), ih h.2]

/-- Pieces without the separator are found again behind it. -/
theorem splitChars_intercalate {sep : Char} {pieces : List (List Char)} (hne : pieces ≠ [])
    (h : ∀ piece ∈ pieces, sep ∉ piece) :
    splitChars sep (List.intercalate [sep] pieces) = pieces := by
  induction pieces with
  | nil => exact absurd rfl hne
  | cons piece pieces ih =>
    cases pieces with
    | nil =>
      rw [List.intercalate_singleton]
      exact splitChars_of_notMem (h piece (by simp))
    | cons next pieces =>
      rw [List.intercalate_cons_cons, List.append_assoc, List.singleton_append,
        splitChars_append (h piece (by simp)), ih (by simp) fun other ho => h other (by simp [ho])]

/-- A piece holds characters of the text only, and not the separator. -/
theorem mem_piece {sep : Char} {cs piece : List Char} (h : piece ∈ splitChars sep cs) :
    ∀ c ∈ piece, c ∈ cs ∧ c ≠ sep := by
  induction cs generalizing piece with
  | nil =>
    rw [splitChars, List.mem_singleton] at h
    simp [h]
  | cons d cs ih =>
    have later : ∀ other ∈ splitChars sep cs, ∀ c ∈ other, c ∈ d :: cs ∧ c ≠ sep := by
      intro other ho c hc
      exact ⟨List.mem_cons_of_mem _ (ih ho c hc).1, (ih ho c hc).2⟩
    rw [splitChars] at h
    split at h
    · rcases List.mem_cons.1 h with rfl | h
      · intro c hc
        cases hc
      · exact later piece h
    · next hd =>
      split at h
      · next hnil => exact absurd hnil (splitChars_ne_nil sep cs)
      · next first more hfirst =>
        rcases List.mem_cons.1 h with rfl | h
        · intro c hc
          rcases List.mem_cons.1 hc with rfl | hc
          · exact ⟨List.mem_cons_self, hd⟩
          · exact later first (by simp [hfirst]) c hc
        · exact later piece (by simp [hfirst, h])

end Text

namespace Route

/-! ### Segments -/

/-- A segment of a path in normal form. -/
structure IsSegment (segment : List Char) : Prop where
  ne_nil : segment ≠ []
  ne_dot : segment ≠ ['.']
  ne_dots : segment ≠ ['.', '.']
  slash : '/' ∉ segment
  backslash : '\\' ∉ segment

theorem backslash_notMem_slashed (cs : List Char) : '\\' ∉ slashed cs := by
  intro h
  obtain ⟨c, -, hc⟩ := List.mem_map.1 h
  split at hc
  · cases hc
  · next hne => exact hne hc

/-- Reading a segment onto good ones leaves good ones, whatever is read. -/
theorem isSegment_pushSegment {segments : List (List Char)} (h : ∀ s ∈ segments, IsSegment s)
    {segment : List Char} (hslash : '/' ∉ segment) (hback : '\\' ∉ segment) :
    ∀ s ∈ pushSegment segments segment, IsSegment s := by
  intro s hs
  unfold pushSegment at hs
  split at hs
  · exact h s hs
  · next hempty =>
    rw [not_or] at hempty
    split at hs
    · exact h s (List.mem_of_mem_dropLast hs)
    · next hdots =>
      rcases List.mem_append.1 hs with hs | hs
      · exact h s hs
      · rw [List.mem_singleton.1 hs]
        exact ⟨hempty.1, hempty.2, hdots, hslash, hback⟩

theorem isSegment_of_mem_segments (cs : List Char) : ∀ s ∈ segments cs, IsSegment s := by
  unfold segments
  refine List.foldlRecOn (motive := fun read => ∀ s ∈ read, IsSegment s) _ _ ?_
    fun before hbefore piece hpiece => ?_
  · intro s hs
    cases hs
  · have hchars := Text.mem_piece hpiece
    refine isSegment_pushSegment hbefore ?_ ?_
    · intro hslash
      exact (hchars _ hslash).2 rfl
    · intro hback
      exact backslash_notMem_slashed cs (hchars _ hback).1

/-! ### Braces -/

theorem dropOptional_append_slash (cs rest : List Char) :
    dropOptional (cs ++ '/' :: rest) = dropOptional cs ++ '/' :: rest := by
  cases cs with
  | nil => rfl
  | cons c cs =>
    unfold dropOptional
    rw [List.cons_append]
    split
    · next h =>
      cases h
      rfl
    · next hno =>
      split
      · next h =>
        cases h
        exact absurd rfl (hno _)
      · rfl

theorem takeWhile_append_slash (cs rest : List Char) :
    (cs ++ '/' :: rest).takeWhile isNameChar = cs.takeWhile isNameChar := by
  induction cs with
  | nil => rfl
  | cons c cs ih =>
    rw [List.cons_append, List.takeWhile_cons, List.takeWhile_cons, ih]

theorem dropWhile_append_slash (cs rest : List Char) :
    (cs ++ '/' :: rest).dropWhile isNameChar = cs.dropWhile isNameChar ++ '/' :: rest := by
  induction cs with
  | nil => rfl
  | cons c cs ih =>
    rw [List.cons_append, List.dropWhile_cons, List.dropWhile_cons, ih]
    split
    · rfl
    · rfl

/-- A slash ends the name of a parameter, so that braces are put on either side of it alone. -/
theorem bracedChars_append_slash (cs rest : List Char) :
    bracedChars (cs ++ '/' :: rest) = bracedChars cs ++ '/' :: bracedChars rest := by
  fun_induction bracedChars cs with
  | case1 => rw [List.nil_append, List.nil_append, bracedChars, if_pos (by decide)]
  | case2 c cs hc ih => rw [List.cons_append, bracedChars, if_pos hc, ih, List.cons_append]
  | case3 c cs hc name hname ih =>
    rw [List.cons_append, bracedChars, if_neg hc, takeWhile_append_slash, if_pos hname, ih,
      List.cons_append]
  | case4 c cs hc name hname ih =>
    rw [List.cons_append, bracedChars, if_neg hc, takeWhile_append_slash, if_neg hname,
      dropWhile_append_slash, dropOptional_append_slash, ih]
    simp only [List.cons_append, List.append_assoc, name]

/-- Braces are put inside the segments. -/
theorem bracedChars_intercalate (segments : List (List Char)) :
    bracedChars (List.intercalate ['/'] segments) =
      List.intercalate ['/'] (segments.map bracedChars) := by
  induction segments with
  | nil => rw [List.map_nil, List.intercalate_nil, bracedChars]
  | cons segment segments ih =>
    cases segments with
    | nil => rw [List.map_singleton, List.intercalate_singleton, List.intercalate_singleton]
    | cons next segments =>
      rw [List.map_cons, List.map_cons, List.intercalate_cons_cons, List.intercalate_cons_cons,
        ← List.map_cons, ← ih, List.append_assoc, List.append_assoc, List.singleton_append,
        List.singleton_append, bracedChars_append_slash]

theorem bracedChars_ofSegments (segments : List (List Char)) :
    bracedChars (ofSegments segments) = ofSegments (segments.map bracedChars) := by
  rw [ofSegments, bracedChars, if_pos (by decide), bracedChars_intercalate, ofSegments]

/-- Braces add no characters but themselves. -/
theorem mem_bracedChars {cs : List Char} {c : Char} (h : c ∈ bracedChars cs) :
    c ∈ cs ∨ c = '{' ∨ c = '}' := by
  fun_induction bracedChars cs with
  | case1 => exact Or.inl h
  | case2 d cs hd ih =>
    rcases List.mem_cons.1 h with rfl | h
    · exact Or.inl List.mem_cons_self
    · exact (ih h).imp_left (List.mem_cons_of_mem d)
  | case3 d cs hd name hname ih =>
    rw [not_not] at hd
    rcases List.mem_cons.1 h with rfl | h
    · exact Or.inl (hd ▸ List.mem_cons_self)
    · exact (ih h).imp_left (List.mem_cons_of_mem d)
  | case4 d cs hd name hname ih =>
    have hrest : ∀ x ∈ dropOptional (cs.dropWhile isNameChar), x ∈ cs := by
      intro x hx
      refine (List.dropWhile_sublist isNameChar).subset ?_
      unfold dropOptional at hx
      split at hx
      · next heq => exact heq ▸ List.mem_cons_of_mem _ hx
      · exact hx
    rcases List.mem_cons.1 h with rfl | h
    · exact Or.inr (Or.inl rfl)
    rcases List.mem_append.1 h with h | h
    · exact Or.inl (List.mem_cons_of_mem d ((List.takeWhile_sublist isNameChar).subset h))
    rcases List.mem_cons.1 h with rfl | h
    · exact Or.inr (Or.inr rfl)
    · exact (ih h).imp_left fun hc => List.mem_cons_of_mem d (hrest c hc)

theorem bracedChars_eq_nil {cs : List Char} (h : bracedChars cs = []) : cs = [] := by
  unfold bracedChars at h
  split at h
  · rfl
  · split at h
    · cases h
    · dsimp only at h
      split at h
      · cases h
      · cases h

/-- A text that is a dot, or a dot before another text, in braces was so before. -/
theorem bracedChars_eq_dot_cons {cs rest : List Char} (h : bracedChars cs = '.' :: rest) :
    ∃ before, cs = '.' :: before ∧ bracedChars before = rest := by
  unfold bracedChars at h
  split at h
  · cases h
  · next c cs =>
    split at h
    · cases h
      exact ⟨cs, rfl, rfl⟩
    · dsimp only at h
      split at h
      · cases h
      · cases h

/-- A segment stays a segment when its parameters are put in braces. -/
theorem IsSegment.braced {segment : List Char} (h : IsSegment segment) :
    IsSegment (bracedChars segment) where
  ne_nil hnil := h.ne_nil (bracedChars_eq_nil hnil)
  ne_dot hdot := by
    obtain ⟨rest, rfl, hrest⟩ := bracedChars_eq_dot_cons hdot
    exact h.ne_dot (by rw [bracedChars_eq_nil hrest])
  ne_dots hdots := by
    obtain ⟨rest, rfl, hrest⟩ := bracedChars_eq_dot_cons hdots
    obtain ⟨last, rfl, hlast⟩ := bracedChars_eq_dot_cons hrest
    exact h.ne_dots (by rw [bracedChars_eq_nil hlast])
  slash hs := by
    rcases mem_bracedChars hs with hs | hs | hs
    · exact h.slash hs
    · exact absurd hs (by decide)
    · exact absurd hs (by decide)
  backslash hb := by
    rcases mem_bracedChars hb with hb | hb | hb
    · exact h.backslash hb
    · exact absurd hb (by decide)
    · exact absurd hb (by decide)

/-! ### Normal form -/

/-- A path in normal form. -/
structure IsNormal (path : String) : Prop where
  /-- The path starts with a slash. -/
  head : path.toList.head? = some '/'
  backslash : '\\' ∉ path.toList
  /-- Behind each slash stands a segment, but for the root. -/
  segments : path ≠ "/" → ∀ segment ∈ (Text.splitChars '/' path.toList).tail,
    segment ≠ [] ∧ segment ≠ ['.'] ∧ segment ≠ ['.', '.']
  /-- Only the root ends with a slash. -/
  getLast : path ≠ "/" → path.toList.getLast? ≠ some '/'

theorem backslash_notMem_intercalate {segments : List (List Char)}
    (h : ∀ s ∈ segments, IsSegment s) : '\\' ∉ List.intercalate ['/'] segments := by
  induction segments with
  | nil => simp
  | cons segment segments ih =>
    have hfirst := (h segment (by simp)).backslash
    cases segments with
    | nil => rwa [List.intercalate_singleton]
    | cons next segments =>
      rw [List.intercalate_cons_cons, List.mem_append, List.mem_append, not_or, not_or]
      exact ⟨⟨hfirst, by decide⟩, ih fun s hs => h s (List.mem_cons_of_mem _ hs)⟩

theorem intercalate_ne_nil {segments : List (List Char)} (h : ∀ s ∈ segments, IsSegment s)
    (hne : segments ≠ []) : List.intercalate ['/'] segments ≠ [] := by
  cases segments with
  | nil => exact absurd rfl hne
  | cons segment segments =>
    have hfirst := (h segment (by simp)).ne_nil
    cases segments with
    | nil => rwa [List.intercalate_singleton]
    | cons next segments =>
      rw [List.intercalate_cons_cons]
      simp [hfirst]

theorem getLast?_intercalate {segments : List (List Char)} (h : ∀ s ∈ segments, IsSegment s) :
    (List.intercalate ['/'] segments).getLast? ≠ some '/' := by
  induction segments with
  | nil => simp
  | cons segment segments ih =>
    cases segments with
    | nil =>
      rw [List.intercalate_singleton]
      intro hlast
      exact (h segment (by simp)).slash (List.mem_of_getLast? hlast)
    | cons next segments =>
      have hrest : ∀ s ∈ next :: segments, IsSegment s := fun s hs =>
        h s (List.mem_cons_of_mem _ hs)
      rw [List.intercalate_cons_cons,
        List.getLast?_append_of_ne_nil _ (intercalate_ne_nil hrest (by simp))]
      exact ih hrest

/-- Segments make a path in normal form. -/
theorem isNormal_ofSegments {segments : List (List Char)} (h : ∀ s ∈ segments, IsSegment s) :
    IsNormal (String.ofList (ofSegments segments)) := by
  -- only the root has no segments
  have hroot : String.ofList (ofSegments segments) ≠ "/" → segments ≠ [] := by
    rintro hne rfl
    exact hne rfl
  constructor
  · rw [String.toList_ofList]
    rfl
  · rw [String.toList_ofList, ofSegments, List.mem_cons, not_or]
    exact ⟨by decide, backslash_notMem_intercalate h⟩
  · intro hne segment hs
    rw [String.toList_ofList, ofSegments, Text.splitChars, if_pos rfl, List.tail_cons,
      Text.splitChars_intercalate (hroot hne) fun s hs => (h s hs).slash] at hs
    exact ⟨(h segment hs).ne_nil, (h segment hs).ne_dot, (h segment hs).ne_dots⟩
  · intro hne hlast
    rw [String.toList_ofList, ofSegments, ← List.singleton_append,
      List.getLast?_append_of_ne_nil _ (intercalate_ne_nil h (hroot hne))] at hlast
    exact getLast?_intercalate h hlast

theorem isNormal_braced_join (base path : String) : IsNormal (braced (join base path)) := by
  have h : braced (join base path) = String.ofList
      (ofSegments ((segments (base.toList ++ '/' :: path.toList)).map bracedChars)) := by
    rw [braced, join, String.toList_ofList, joinChars, bracedChars_ofSegments]
  rw [h]
  refine isNormal_ofSegments fun s hs => ?_
  obtain ⟨before, hbefore, rfl⟩ := List.mem_map.1 hs
  exact (isSegment_of_mem_segments _ _ hbefore).braced

/-! ### Placeholders -/

theorem nodup_addName {names : List (List Char)} (h : names.Nodup) (name : List Char) :
    (addName names name).Nodup := by
  unfold addName
  split
  · exact h
  · next hnew =>
    rw [not_or] at hnew
    exact List.concat_eq_append ▸ h.concat hnew.2

/-- A path has each placeholder once. -/
theorem nodup_placeholders (path : String) : (placeholders path).Nodup := by
  have hchars : (placeholderChars path.toList).Nodup :=
    List.foldlRecOn _ _ List.nodup_nil fun names h name _ => nodup_addName h name
  exact hchars.map fun a b h => by simpa using congrArg String.toList h

end Route

end RouteContract
