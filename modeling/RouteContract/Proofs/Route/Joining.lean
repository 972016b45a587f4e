import Mathlib
import RouteContract.Proofs.Route.Path

/-!
# Joining paths one after the other

A path is read segment by segment onto the segments that are left of what was read before
(`Leaves`), so a text is read as its parts are, one behind the other. A path that is put together
from segments is read as these segments (`segments_ofSegments`), and so it does not matter whether
the parts of a path are joined at once or one after the other, with a path in normal form after each
(`foldl_join`).
-/

namespace RouteContract

namespace Text

/-- A separator in a text cuts it: its pieces are those before and those behind. -/
theorem splitChars_append_sep (sep : Char) (before behind : List Char) :
    splitChars sep (before ++ sep :: behind) = splitChars sep before ++ splitChars sep behind := by
  induction before with
  | nil =>
    rw [List.nil_append, splitChars.eq_2, if_pos rfl, splitChars.eq_1, List.singleton_append]
  | cons c before ih =>
    rw [List.cons_append, splitChars, splitChars, ih]
    split
    · rfl
    · cases h : splitChars sep before with
      | nil => exact absurd h (splitChars_ne_nil sep before)
      | cons piece more => rfl

end Text

namespace Route

/-- The segments of a path in the order in which they are read, and those that are left: an empty
one and a dot leave all as it was, two dots take the last one away, and any other is added. -/
inductive Leaves : List (List Char) → List (List Char) → Prop
  | nil : Leaves [] []
  | idle {read left : List (List Char)} {segment : List Char} (h : Leaves read left)
    (hs : segment = [] ∨ segment = ['.']) : Leaves (read ++ [segment]) left
  | up {read left : List (List Char)} {last : List Char} (h : Leaves read (left ++ [last])) :
    Leaves (read ++ [['.', '.']]) left
  | top {read : List (List Char)} (h : Leaves read []) : Leaves (read ++ [['.', '.']]) []
  | add {read left : List (List Char)} {segment : List Char} (h : Leaves read left)
    (hs : segment ≠ [] ∧ segment ≠ ['.'] ∧ segment ≠ ['.', '.']) :
    Leaves (read ++ [segment]) (left ++ [segment])

theorem Leaves.pushSegment {read left : List (List Char)} (h : Leaves read left)
    (segment : List Char) : Leaves (read ++ [segment]) (pushSegment left segment) := by
  unfold Route.pushSegment
  split
  next hidle => exact h.idle hidle
  next hidle =>
    rw [not_or] at hidle
    split
    next hdots =>
      subst hdots
      rcases List.eq_nil_or_concat left with rfl | ⟨rest, last, rfl⟩
      · exact h.top
      · rw [List.concat_eq_append, List.dropLast_concat]
        rw [List.concat_eq_append] at h
        exact h.up
    next hdots => exact h.add ⟨hidle.1, hidle.2, hdots⟩

theorem leaves_foldl_pushSegment (read : List (List Char)) :
    Leaves read (read.foldl pushSegment []) := by
  induction read using List.reverseRecOn with
  | nil => exact .nil
  | append_singleton read segment ih =>
    rw [List.foldl_append, List.foldl_cons, List.foldl_nil]
    exact ih.pushSegment segment

/-- What is left of the segments of a text. -/
theorem leaves_segments (cs : List Char) :
    Leaves (Text.splitChars '/' (slashed cs)) (segments cs) :=
  leaves_foldl_pushSegment _

/-! ### Reading part after part -/

/-- Read a text onto the segments that are left of what was read before it. -/
def readOnto (left : List (List Char)) (cs : List Char) : List (List Char) :=
  (Text.splitChars '/' (slashed cs)).foldl pushSegment left

theorem segments_eq_readOnto (cs : List Char) : segments cs = readOnto [] cs := rfl

/-- What stands behind a slash is read onto what is left of the text before it. -/
theorem readOnto_append_slash (left : List (List Char)) (before behind : List Char) :
    readOnto left (before ++ '/' :: behind) = readOnto (readOnto left before) behind := by
  have hcut : slashed (before ++ '/' :: behind) = slashed before ++ '/' :: slashed behind := by
    simp [slashed]
  rw [readOnto, hcut, Text.splitChars_append_sep, List.foldl_append, readOnto, readOnto]

theorem readOnto_intercalate (left : List (List Char)) (text : List Char)
    (texts : List (List Char)) :
    readOnto left (List.intercalate ['/'] (text :: texts)) =
      (text :: texts).foldl readOnto left := by
  induction texts generalizing left text with
  | nil => rw [List.intercalate_singleton, List.foldl_cons, List.foldl_nil]
  | cons next texts ih =>
    rw [List.intercalate_cons_cons, List.append_assoc, List.singleton_append,
      readOnto_append_slash, ih, List.foldl_cons, List.foldl_cons, List.foldl_cons]

/-- Texts with slashes between them are read one after the other. -/
theorem segments_intercalate (texts : List (List Char)) :
    segments (List.intercalate ['/'] texts) = texts.foldl readOnto [] := by
  cases texts with
  | nil => rfl
  | cons text texts => exact readOnto_intercalate [] text texts

/-! ### Reading a path in normal form -/

theorem pushSegment_of_isSegment {segment : List Char} (h : IsSegment segment)
    (left : List (List Char)) : pushSegment left segment = left ++ [segment] := by
  rw [pushSegment, if_neg (not_or.2 ⟨h.ne_nil, h.ne_dot⟩), if_neg h.ne_dots]

/-- A segment in normal form is read as itself. -/
theorem readOnto_of_isSegment {segment : List Char} (h : IsSegment segment)
    (left : List (List Char)) : readOnto left segment = left ++ [segment] := by
  have hslashed : slashed segment = segment := by
    refine (List.map_congr_left fun c hc => if_neg ?_).trans (List.map_id segment)
    rintro rfl
    exact h.backslash hc
  rw [readOnto, hslashed, Text.splitChars_of_notMem h.slash, List.foldl_cons, List.foldl_nil,
    pushSegment_of_isSegment h]

theorem foldl_readOnto_of_isSegment {texts : List (List Char)} (h : ∀ s ∈ texts, IsSegment s)
    (left : List (List Char)) : texts.foldl readOnto left = left ++ texts := by
  induction texts generalizing left with
  | nil => rw [List.foldl_nil, List.append_nil]
  | cons segment texts ih =>
    rw [List.forall_mem_cons] at h
    rw [List.foldl_cons, readOnto_of_isSegment h.1, ih h.2, List.append_assoc,
      List.singleton_append]

/-- A path of segments in normal form is read as these segments. -/
theorem segments_ofSegments {left : List (List Char)} (h : ∀ s ∈ left, IsSegment s) :
    segments (ofSegments left) = left := by
  rw [ofSegments, ← List.nil_append ('/' :: _), segments_eq_readOnto, readOnto_append_slash]
  show segments (List.intercalate ['/'] left) = left
  rw [segments_intercalate, foldl_readOnto_of_isSegment h, List.nil_append]

/-! ### Joining -/

/-- A text is joined to a path by reading it onto the segments of the path. -/
theorem join_ofSegments {left : List (List Char)} (h : ∀ s ∈ left, IsSegment s) (path : String) :
    join (String.ofList (ofSegments left)) path =
      String.ofList (ofSegments (readOnto left path.toList)) := by
  rw [join, joinChars, String.toList_ofList, segments_eq_readOnto, readOnto_append_slash,
    ← segments_eq_readOnto, segments_ofSegments h]

theorem isSegment_readOnto {left : List (List Char)} (h : ∀ s ∈ left, IsSegment s)
    (cs : List Char) : ∀ s ∈ readOnto left cs, IsSegment s := by
  have hread : readOnto left cs = segments (ofSegments left ++ '/' :: cs) := by
    rw [segments_eq_readOnto, readOnto_append_slash, ← segments_eq_readOnto, segments_ofSegments h]
  rw [hread]
  exact isSegment_of_mem_segments _

theorem foldl_join_ofSegments {left : List (List Char)} (h : ∀ s ∈ left, IsSegment s)
    (paths : List String) :
    paths.foldl join (String.ofList (ofSegments left)) =
      String.ofList (ofSegments ((paths.map String.toList).foldl readOnto left)) := by
  induction paths generalizing left with
  | nil => rfl
  | cons path paths ih =>
    rw [List.foldl_cons, join_ofSegments h, ih (isSegment_readOnto h _), List.map_cons,
      List.foldl_cons]

/-- Joining to the root reads the text. -/
theorem join_root (path : String) :
    join "/" path = String.ofList (ofSegments (segments path.toList)) :=
  join_ofSegments (List.forall_mem_nil IsSegment) path

/-- **Joining paths one after the other is joining them at once.** Either way the path is a slash
and what is left of all segments, with slashes between them, when the segments of the paths are read
from the left with backslashes as slashes. Joined to the root, such a path is itself. -/
theorem foldl_join (paths : List String) :
    paths.foldl join "/" = join "/" (String.intercalate "/" paths) ∧
      (∃ left, Leaves (Text.splitChars '/' (slashed (String.intercalate "/" paths).toList)) left ∧
        paths.foldl join "/" = String.ofList ('/' :: List.intercalate ['/'] left)) ∧
      join "/" (paths.foldl join "/") = paths.foldl join "/" := by
  have honce : paths.foldl join "/" = join "/" (String.intercalate "/" paths) := by
    rw [join_root, String.toList_intercalate,
      show "/".toList = ['/'] from rfl, segments_intercalate]
    exact foldl_join_ofSegments (List.forall_mem_nil IsSegment) paths
  refine ⟨honce, ⟨_, leaves_segments _, honce.trans (join_root _)⟩, ?_⟩
  rw [honce, join_root (String.intercalate "/" paths), join_root, String.toList_ofList,
    segments_ofSegments (isSegment_of_mem_segments _)]

end Route

end RouteContract
