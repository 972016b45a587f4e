import Mathlib
import RouteContract.Crawl.Docs
import RouteContract.Proofs.Program.Links

/-!
# The comments in front of a node

`commentsBefore` is the longest run of comments directly before a node. A comment trails the named
sibling before the run when it starts on the line where that ends. The comments that belong to the
node are the run, less its first comment if that one trails (`leadingCommentNodes_eq`); a second
comment that trails as well is kept (`leadingCommentNodes_trailed`).

The runs before the statements of a block lie between them. So the comments that directives are read
from are among the children of the block, in their order, and each is there once
(`sublist_bodyCommentNodes`).
-/

namespace RouteContract

namespace Program

section Definitions

variable (p : Program)

/-- Whether a node is a comment. -/
def isComment (id : NodeId) : Bool := p.kind id == "comment"

/-- The siblings before a node, in source order. -/
def siblingsBefore (id : NodeId) : List NodeId :=
  match p.parent? id with
  | some a => if (p.children a).contains id then (p.children a).takeWhile (· ≠ id) else []
  | none => []

/-- The longest run of comments directly before a node. -/
def commentsBefore (id : NodeId) : List NodeId := (p.siblingsBefore id).rtakeWhile p.isComment

/-- The sibling before the comments before a node. -/
def siblingBeforeComments? (id : NodeId) : Option NodeId :=
  ((p.siblingsBefore id).rdropWhile p.isComment).getLast?

/-- Whether a comment trails the sibling before the comments before a node. -/
def trailing (id comment : NodeId) : Bool :=
  (p.siblingBeforeComments? id).any (p.trails comment)

/-- The comments that a list of siblings ends with, less those that trail what is before them. -/
def commentsAtEnd (siblings : List NodeId) : List NodeId :=
  (p.commentRun siblings.reverse).reverse

end Definitions

variable {p : Program} {id : NodeId}

/-! ### The run before a node -/

theorem leadingCommentNodes_eq_commentsAtEnd (p : Program) (id : NodeId) :
    p.leadingCommentNodes id = p.commentsAtEnd (p.siblingsBefore id) := by
  unfold leadingCommentNodes siblingsBefore
  split
  · next h => rw [h]; rfl
  · next a h =>
    rw [h]
    dsimp only
    split
    · rfl
    · rfl

theorem trails_eq_false {comment before : NodeId} (h : p.isComment before = true) :
    p.trails comment before = false := by
  have hkind : p.kind before = "comment" := by simpa [isComment] using h
  simp [trails, hkind]

theorem commentsAtEnd_concat (siblings : List NodeId) (s : NodeId) :
    p.commentsAtEnd (siblings ++ [s]) =
      if p.isComment s && !(siblings.getLast?.any (p.trails s)) then p.commentsAtEnd siblings ++ [s]
      else [] := by
  unfold commentsAtEnd
  rw [List.reverse_concat, ← List.head?_reverse]
  cases siblings.reverse with
  | nil => by_cases h : p.kind s = "comment" <;> simp [commentRun, isComment, h]
  | cons before rest =>
    by_cases h : p.kind s = "comment" <;> by_cases ht : p.trails s before = true <;>
      simp [commentRun, isComment, h, ht]

/-- Of the run of comments at the end only the first one can be left out. -/
theorem commentsAtEnd_eq (siblings : List NodeId) : p.commentsAtEnd siblings =
    match siblings.rtakeWhile p.isComment with
    | [] => []
    | c :: rest =>
      if (siblings.rdropWhile p.isComment).getLast?.any (p.trails c) then rest else c :: rest := by
  induction siblings using List.reverseRecOn with
  | nil => simp [commentsAtEnd, commentRun]
  | append_singleton siblings s ih =>
    rw [commentsAtEnd_concat, List.rtakeWhile_concat, List.rdropWhile_concat]
    cases hs : p.isComment s with
    | false => simp
    | true =>
      cases hrun : siblings.rtakeWhile p.isComment with
      | nil =>
        -- the comment is the first of the run, and the sibling before it is no comment
        have hdrop : siblings.rdropWhile p.isComment = siblings :=
          List.rdropWhile_eq_self_iff.2 (List.rtakeWhile_eq_nil_iff.1 hrun)
        rw [hrun] at ih
        rw [ih, hdrop]
        cases ht : siblings.getLast?.any (p.trails s) <;> simp [ht]
      | cons c rest =>
        -- the sibling before the comment is one of the run
        have hlast : siblings.getLast?.any (p.trails s) = false := by
          obtain ⟨front, hfront⟩ := List.rtakeWhile_suffix (p := p.isComment) (l := siblings)
          rw [hrun] at hfront
          rw [← hfront, List.getLast?_append_cons]
          have hmem := List.getLast_mem (List.cons_ne_nil c rest)
          rw [List.getLast?_eq_some_getLast (List.cons_ne_nil c rest), Option.any_some]
          refine trails_eq_false (List.mem_rtakeWhile_imp (l := siblings) ?_)
          rwa [hrun]
        rw [hrun] at ih
        rw [hlast, ih]
        simp only [Bool.not_false, Bool.and_self, if_true, List.cons_append]
        split <;> rfl

/-- The comments that belong to a node are those directly before it, less the first of them if it
trails the sibling before it. -/
theorem leadingCommentNodes_eq (p : Program) (id : NodeId) : p.leadingCommentNodes id =
    match p.commentsBefore id with
    | [] => []
    | c :: rest => if p.trailing id c then rest else c :: rest := by
  rw [leadingCommentNodes_eq_commentsAtEnd, commentsAtEnd_eq]
  rfl

theorem leadingCommentNodes_sublist (p : Program) (id : NodeId) :
    (p.leadingCommentNodes id).Sublist (p.commentsBefore id) := by
  rw [leadingCommentNodes_eq]
  split
  · exact List.nil_sublist _
  · next c rest h =>
    rw [h]
    split
    · exact List.sublist_cons_self c rest
    · exact List.Sublist.refl _

/-- No comment but the first one need be looked at if all that trail are to be left out. -/
theorem leadingCommentNodes_eq_filter_iff (p : Program) (id : NodeId) :
    p.leadingCommentNodes id = (p.commentsBefore id).filter (fun c => !p.trailing id c) ↔
      ∀ c ∈ (p.commentsBefore id).tail, p.trailing id c = false := by
  rw [leadingCommentNodes_eq]
  cases p.commentsBefore id with
  | nil => simp
  | cons c rest =>
    have hrest : rest = rest.filter (fun c => !p.trailing id c) ↔
        ∀ c ∈ rest, p.trailing id c = false := by
      rw [eq_comm, List.filter_eq_self]
      simp
    cases hc : p.trailing id c <;> simp [hc, hrest]

/-! ### The runs before the children of a node -/

/-- The siblings before a child are the children before it. -/
theorem siblingsBefore_of_children (hp : p.Linked) {x : NodeId} {pre rest : List NodeId}
    (h : p.children id = pre ++ x :: rest) : p.siblingsBefore x = pre := by
  have hx : x ∈ p.children id := by simp [h]
  have hnotMem : x ∉ pre := by
    have hnodup := hp.nodup_children id
    rw [h, List.nodup_middle, List.nodup_cons, List.mem_append, not_or] at hnodup
    exact hnodup.1.1
  have hpre : ∀ y ∈ pre, decide (y ≠ x) = true := by
    rintro y hy
    rw [decide_eq_true_iff]
    rintro rfl
    exact hnotMem hy
  rw [siblingsBefore, hp.parent?_eq hx]
  dsimp only
  rw [if_pos (List.contains_iff_mem.2 hx), h, List.takeWhile_append_of_pos hpre,
    List.takeWhile_cons_of_neg (by simp), List.append_nil]

/-- The comments that belong to the later children of a node are among these, after the comments
that the earlier ones end with. -/
theorem flatMap_leadingCommentNodes_sublist (hp : p.Linked) (pre : List NodeId) {rest : List NodeId}
    (h : p.children id = pre ++ rest) :
    ((rest.filter fun c => (p.node c).named && p.kind c != "comment").flatMap
      p.leadingCommentNodes).Sublist (pre.rtakeWhile p.isComment ++ rest) := by
  induction rest generalizing pre with
  | nil => exact List.nil_sublist _
  | cons x rest ih =>
    have hnext := ih (pre ++ [x]) (by simp [h])
    rw [List.rtakeWhile_concat] at hnext
    cases hx : p.isComment x with
    | true =>
      -- the comment goes on a run that ends before one of the later children
      have hkind : p.kind x = "comment" := by simpa [isComment] using hx
      simpa [hx, hkind] using hnext
    | false =>
      rw [hx] at hnext
      have hlater := hnext.cons x
      by_cases hnamed : ((p.node x).named && p.kind x != "comment") = true
      · -- the run before this child ends with it
        rw [List.filter_cons, if_pos hnamed, List.flatMap_cons]
        refine List.Sublist.append ?_ hlater
        have hrun := p.leadingCommentNodes_sublist x
        rwa [commentsBefore, siblingsBefore_of_children hp h] at hrun
      · rw [List.filter_cons, if_neg hnamed]
        exact hlater.trans (List.sublist_append_right _ _)

end Program

namespace Crawl

/-- The comments in front of the statements of a body, as nodes. -/
def bodyCommentNodes (p : Program) (body : NodeId) : List NodeId :=
  if p.kind body = "statement_block" then (p.namedChildren body).flatMap p.leadingCommentNodes
  else []

variable {p : Program}

theorem bodyComments_eq (p : Program) (body : NodeId) :
    bodyComments p body = (bodyCommentNodes p body).map p.text := by
  unfold bodyComments bodyCommentNodes
  split
  · rw [List.map_flatMap]
    rfl
  · rfl

/-- The comments that directives are read from are children of the body, in their order. -/
theorem sublist_bodyCommentNodes (hp : p.Linked) (body : NodeId) :
    (bodyCommentNodes p body).Sublist (p.children body) := by
  unfold bodyCommentNodes
  split
  · exact Program.flatMap_leadingCommentNodes_sublist hp [] rfl
  · exact List.nil_sublist _

/-- **The comments in front of a node** are the longest run of comments directly before it, less its
first one if that starts on the line on which a named sibling before the run ends. These are all
that do not start there just when no other comment of the run does. So each comment of a block is
read for directives once at most, and in source order. -/
theorem applyDirectives_leading_comments (p : Program) (id : NodeId) :
    (p.leadingCommentNodes id = match p.commentsBefore id with
      | [] => []
      | c :: rest => if p.trailing id c then rest else c :: rest) ∧
    (p.leadingCommentNodes id = (p.commentsBefore id).filter (fun c => !p.trailing id c) ↔
      ∀ c ∈ (p.commentsBefore id).tail, p.trailing id c = false) ∧
    (p.Linked → ∀ markers op handler body, p.field? handler "body" = some body →
      (bodyCommentNodes p body).Sublist (p.children body) ∧ (bodyCommentNodes p body).Nodup ∧
      applyDirectives p markers op handler =
        applyComments markers op ((bodyCommentNodes p body).map p.text)) := by
  refine ⟨p.leadingCommentNodes_eq id, p.leadingCommentNodes_eq_filter_iff id, ?_⟩
  intro hp markers op handler body hbody
  have hsublist := sublist_bodyCommentNodes hp body
  refine ⟨hsublist, hsublist.nodup (hp.nodup_children body), ?_⟩
  rw [applyDirectives, hbody, ← bodyComments_eq]

/-- A function with the body
```
{
  // w
  a(); /* x */ /* y */
  b();
}
```
-/
def trailedProgram : Program where
  units := #[{ nodes := #[
    { kind := "program", named := true, children := [1] },
    { kind := "arrow_function", named := true, parent := some 0, children := [2], endLine := 5 },
    { kind := "statement_block", field := some "body", named := true, parent := some 1,
      children := [3, 4, 5, 6, 7], endLine := 5 },
    { kind := "comment", named := true, parent := some 2, text := "// w", startLine := 2,
      endLine := 2 },
    { kind := "expression_statement", named := true, parent := some 2, text := "a();",
      startLine := 3, endLine := 3 },
    { kind := "comment", named := true, parent := some 2, text := "/* x */", startLine := 3,
      endLine := 3 },
    { kind := "comment", named := true, parent := some 2, text := "/* y */", startLine := 3,
      endLine := 3 },
    { kind := "expression_statement", named := true, parent := some 2, text := "b();",
      startLine := 4, endLine := 4 }] }]

/-- Of two comments that trail a statement the second one belongs to the next statement. -/
theorem leadingCommentNodes_trailed :
    trailedProgram.Linked ∧ trailedProgram.commentsBefore ⟨0, 7⟩ = [⟨0, 5⟩, ⟨0, 6⟩] ∧
    (trailedProgram.commentsBefore ⟨0, 7⟩).filter (fun c => !trailedProgram.trailing ⟨0, 7⟩ c) =
      [] ∧
    trailedProgram.leadingCommentNodes ⟨0, 7⟩ = [⟨0, 6⟩] := by
  decide +kernel

/-- Directives are read from the comment before the first statement and, behind it, from the second
one that trails it. -/
theorem applyDirectives_leading_comments_trailed :
    trailedProgram.Linked ∧ trailedProgram.field? ⟨0, 1⟩ "body" = some ⟨0, 2⟩ ∧
    bodyCommentNodes trailedProgram ⟨0, 2⟩ = [⟨0, 3⟩, ⟨0, 6⟩] ∧
    (bodyCommentNodes trailedProgram ⟨0, 2⟩).Sublist (trailedProgram.children ⟨0, 2⟩) ∧
    applyDirectives trailedProgram Directive.defaultMarkers Operation.fresh ⟨0, 1⟩ =
      applyComments Directive.defaultMarkers Operation.fresh ["// w", "/* y */"] := by
  have hp : trailedProgram.Linked := by decide +kernel
  have hbody : trailedProgram.field? ⟨0, 1⟩ "body" = some ⟨0, 2⟩ := by decide +kernel
  have hnodes : bodyCommentNodes trailedProgram ⟨0, 2⟩ = [⟨0, 3⟩, ⟨0, 6⟩] := by decide +kernel
  obtain ⟨hsublist, -, happly⟩ := (applyDirectives_leading_comments trailedProgram ⟨0, 7⟩).2.2 hp
    Directive.defaultMarkers Operation.fresh ⟨0, 1⟩ ⟨0, 2⟩ hbody
  rw [hnodes] at happly
  exact ⟨hp, hbody, hnodes, hsublist, happly⟩

end Crawl

end RouteContract
