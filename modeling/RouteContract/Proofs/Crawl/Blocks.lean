import Mathlib
import RouteContract.Crawl.Docs

/-!
# Which block documents a call or a handler

The block of a node is the last one among the comments that belong to it. A call and a handler are
documented by their own block, and without one by that of a node around them: of the statement that
the call is, of the declaration or property that holds the handler. `Documents` is this search as a
relation, and `callSiteDocs_blocks` and `handlerDocs_blocks` say that the documentation of a call
and of a handler is what the block says that the search ends at.
-/

namespace RouteContract.Crawl

variable {p : Program} {kinds : List String} {node a : NodeId} {doc doc' : DocComment}

variable (p) in
/-- A node has a block: the last one among the comments that belong to it. -/
def HasBlock (node : NodeId) (doc : DocComment) : Prop :=
  ∃ before comment after, p.leadingComments node = before ++ comment :: after ∧
    DocComment.parse? comment = some doc ∧ ∀ other ∈ after, DocComment.parse? other = none

variable (p kinds) in
/-- The block that documents a node: its own, or without one that of the node around it when this
is of one of the kinds. -/
inductive Documents : NodeId → DocComment → Prop
  | own {node : NodeId} {doc : DocComment} (h : HasBlock p node doc) : Documents node doc
  | around {node a : NodeId} {doc : DocComment} (hown : ∀ doc, ¬ HasBlock p node doc)
      (hparent : p.parent? node = some a) (hkind : p.kind a ∈ kinds) (h : Documents a doc) :
      Documents node doc

/-- A comment that alone belongs to a node is its block, when it is a block. -/
theorem exists_hasBlock {comment : String} {said : DocMetadata}
    (hcomments : p.leadingComments node = [comment])
    (hsaid : (DocComment.parse? comment).map DocMetadata.ofDoc = some said) :
    ∃ doc, HasBlock p node doc ∧ DocMetadata.ofDoc doc = said := by
  obtain ⟨doc, hdoc, hof⟩ := Option.map_eq_some_iff.1 hsaid
  exact ⟨doc, ⟨[], comment, [], hcomments, hdoc, by simp⟩, hof⟩

theorem docComment?_eq_some_iff : p.docComment? node = some doc ↔ HasBlock p node doc := by
  rw [Program.docComment?, List.findSome?_eq_some_iff]
  constructor
  · rintro ⟨after, comment, before, hcomments, hdoc, hafter⟩
    refine ⟨before.reverse, comment, after.reverse, ?_, hdoc, by simpa using hafter⟩
    rw [List.reverse_eq_iff.1 hcomments]
    simp
  · rintro ⟨before, comment, after, hcomments, hdoc, hafter⟩
    refine ⟨after.reverse, comment, before.reverse, ?_, hdoc, by simpa using hafter⟩
    rw [hcomments]
    simp

theorem docComment?_eq_none_iff : p.docComment? node = none ↔ ∀ doc, ¬ HasBlock p node doc := by
  rw [Option.eq_none_iff_forall_ne_some]
  exact forall_congr' fun doc => docComment?_eq_some_iff.not

theorem docsThrough_of_hasBlock (h : HasBlock p node doc) :
    docsThrough p kinds node = .ofDoc doc := by
  rw [docsThrough, docComment?_eq_some_iff.2 h]

theorem docsThrough_of_parent (hown : ∀ doc, ¬ HasBlock p node doc)
    (hparent : p.parent? node = some a) :
    docsThrough p kinds node = if kinds.contains (p.kind a) then docsThrough p kinds a else {} := by
  rw [docsThrough, docComment?_eq_none_iff.2 hown]
  simp only
  split
  · next a' h' => rw [Option.some.inj (h'.symm.trans hparent)]
  · next h' => exact absurd (h'.symm.trans hparent) (Option.some_ne_none _).symm

theorem docsThrough_of_no_parent (hown : ∀ doc, ¬ HasBlock p node doc)
    (hparent : p.parent? node = none) : docsThrough p kinds node = {} := by
  rw [docsThrough, docComment?_eq_none_iff.2 hown]
  simp only
  split
  · next a h' => exact absurd (h'.symm.trans hparent) (Option.some_ne_none _)
  · rfl

/-- The documentation of a node is what the block says that documents it. -/
theorem Documents.docsThrough_eq (h : Documents p kinds node doc) :
    docsThrough p kinds node = .ofDoc doc := by
  induction h with
  | own h => exact docsThrough_of_hasBlock h
  | around hown hparent hkind _ ih =>
    rw [docsThrough_of_parent hown hparent, if_pos (List.contains_iff_mem.2 hkind), ih]

/-- A node that no block documents has no documentation. -/
theorem docsThrough_of_undocumented (node : NodeId) (h : ∀ doc, ¬ Documents p kinds node doc) :
    docsThrough p kinds node = {} := by
  -- the search goes from a node to its parent, which has a smaller index
  induction hn : node.index using Nat.strong_induction_on generalizing node with
  | h n ih =>
    have hown : ∀ doc, ¬ HasBlock p node doc := fun doc hdoc => h doc (.own hdoc)
    cases hparent : p.parent? node with
    | none => exact docsThrough_of_no_parent hown hparent
    | some a =>
      rw [docsThrough_of_parent hown hparent]
      split
      · next hkind =>
        have hkind := List.contains_iff_mem.1 hkind
        refine ih a.index (hn ▸ Program.parent?_index_lt hparent) a (fun doc hdoc => ?_) rfl
        exact h doc (.around hown hparent hkind hdoc)
      · rfl

/-- **The documentation of a call** is what its own block says, or that of the statement which it
is, awaited or not; without such a block it has none. -/
theorem callSiteDocs_blocks (p : Program) (call : NodeId) :
    let documents := Documents p ["expression_statement", "await_expression"] call
    (∀ doc, documents doc → callSiteDocs p call = .ofDoc doc) ∧
      ((∀ doc, ¬ documents doc) → callSiteDocs p call = {}) :=
  ⟨fun _ h => h.docsThrough_eq, docsThrough_of_undocumented call⟩

/-- **The documentation of a handler** is what its own block says, or that of the declaration, the
property or the field which holds it, exported or not; without such a block it has none. -/
theorem handlerDocs_blocks (p : Program) (handler : NodeId) :
    let documents := Documents p ["variable_declarator", "lexical_declaration",
      "variable_declaration", "export_statement", "pair", "public_field_definition"] handler
    (∀ doc, documents doc → handlerDocs p handler = .ofDoc doc) ∧
      ((∀ doc, ¬ documents doc) → handlerDocs p handler = {}) :=
  ⟨fun _ h => h.docsThrough_eq, docsThrough_of_undocumented handler⟩

end RouteContract.Crawl
