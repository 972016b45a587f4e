import Mathlib
import RouteContract.Crawl.Usage
import RouteContract.Proofs.Program.Links

/-!
# Casts around an expression

The body of a request is cast by the casts around it, through parentheses and other nodes that keep
the value of an expression. Analysis looks at this from both sides: from the access to the body it
climbs to the nearest cast (`insideCast`), and from a cast it descends to the expression under it
(`stripCasts`).

`enclosing p node` is the chain of casts and such nodes around an expression, each the operand of
the next. Descending from a node ends at the expression just when the node is on the chain
(`stripCasts_eq_iff`), and climbing from a node of the chain meets a cast just when one is further
out on it (`insideCast_iff`). So of all casts of the tree one tells the type of the body: the
outermost one on the chain.
-/

namespace RouteContract.Crawl

section Chain

variable (p : Program)

/-- Whether a node keeps the value of the expression in it. -/
def isTransparent (id : NodeId) : Bool := transparentKinds.contains (p.kind id)

/-- The operand of a cast, or of a node that keeps the value of an expression. -/
def operand? (id : NodeId) : Option NodeId :=
  if isTransparent p id then (p.namedChildren id).head? else castOperand? p id

/-- The chain of casts and of nodes that keep a value around a node, from the inside to the outside,
each with the one before as its operand. -/
def enclosing (node : NodeId) : List NodeId :=
  match _h : p.parent? node with
  | some a => if operand? p a = some node then a :: enclosing a else []
  | none => []
termination_by node.index
decreasing_by exact Program.parent?_index_lt _h

/-- The outermost node of the chain around a node, or the node itself. -/
def outermost (node : NodeId) : NodeId := (enclosing p node).getLastD node

end Chain

variable {p : Program} {node a b c : NodeId}

/-! ### Operands -/

theorem operand?_of_transparent (h : isTransparent p a = true) :
    operand? p a = (p.namedChildren a).head? := if_pos h

theorem operand?_of_not_transparent (h : isTransparent p a = false) :
    operand? p a = castOperand? p a := if_neg (Bool.eq_false_iff.1 h)

theorem isCast_iff : isCast p a = true ↔
    p.kind a = "as_expression" ∨ p.kind a = "type_assertion" := by
  simp [isCast, castKinds]

theorem isCast_eq_false_of_transparent (h : isTransparent p a = true) : isCast p a = false := by
  rw [isTransparent, transparentKinds] at h
  rw [isCast]
  simp only [List.contains_iff_mem, List.mem_cons, List.not_mem_nil, or_false] at h
  rcases h with h | h | h <;> rw [h] <;> decide

theorem castOperand?_eq_none (h : isCast p a = false) : castOperand? p a = none := by
  rw [Bool.eq_false_iff, ne_eq, isCast_iff, not_or] at h
  rw [castOperand?, if_neg h.1, if_neg h.2]

/-- What is neither a cast nor keeps a value has no operand. -/
theorem operand?_eq_none (hcast : isCast p a = false) (h : isTransparent p a = false) :
    operand? p a = none := by
  rw [operand?_of_not_transparent h, castOperand?_eq_none hcast]

theorem mem_children_of_operand? (h : operand? p a = some b) : b ∈ p.children a := by
  refine Program.mem_children_of_mem_namedChildren ?_
  unfold operand? castOperand? at h
  split at h
  · exact List.mem_of_head? h
  split at h
  · exact List.mem_of_head? h
  split at h
  · exact List.mem_of_find?_eq_some h
  · cases h

theorem operand?_descends (h : operand? p a = some b) :
    p.size b.unit - b.index < p.size a.unit - a.index := by
  obtain ⟨hunit, hlt, hsize⟩ := Program.mem_children (mem_children_of_operand? h)
  rw [hunit]
  omega

/-! ### Descending -/

theorem skipParens_of_not_transparent (h : isTransparent p a = false) : p.skipParens a = a := by
  rw [Program.skipParens]
  exact if_neg (Bool.eq_false_iff.1 h)

theorem skipParens_of_operand? (h : isTransparent p a = true) (hb : operand? p a = some b) :
    p.skipParens a = p.skipParens b := by
  rw [operand?_of_transparent h] at hb
  rw [Program.skipParens]
  refine (if_pos h).trans ?_
  split
  · next inner hinner => rw [Option.some.inj (hinner.symm.trans hb)]
  · next hnone => cases hnone.symm.trans hb

theorem skipParens_of_no_operand (h : operand? p a = none) : p.skipParens a = a := by
  cases ht : isTransparent p a with
  | false => exact skipParens_of_not_transparent ht
  | true =>
    rw [operand?_of_transparent ht] at h
    rw [Program.skipParens]
    refine (if_pos ht).trans ?_
    split
    · next inner hinner => cases h.symm.trans hinner
    · rfl

/-- Descending goes on at the operand. -/
theorem stripCasts_of_operand? (h : operand? p a = some b) : stripCasts p a = stripCasts p b := by
  rw [stripCasts, stripCasts]
  cases ht : isTransparent p a with
  | true => rw [skipParens_of_operand? ht h]
  | false =>
    rw [operand?_of_not_transparent ht] at h
    rw [skipParens_of_not_transparent ht, castCore]
    split
    · next inner hinner => rw [Option.some.inj (hinner.symm.trans h)]
    · next hnone => cases hnone.symm.trans h

/-- Descending ends where there is no operand. -/
theorem stripCasts_of_no_operand (h : operand? p a = none) : stripCasts p a = a := by
  have hcast : castOperand? p a = none := by
    cases ht : isTransparent p a with
    | false => rwa [operand?_of_not_transparent ht] at h
    | true => exact castOperand?_eq_none (isCast_eq_false_of_transparent ht)
  rw [stripCasts, skipParens_of_no_operand h, castCore]
  split
  · next inner hinner => cases hcast.symm.trans hinner
  · rfl

/-! ### The chain -/

/-- A node with an operand is the next one on the chain around it. -/
theorem enclosing_of_operand? (hp : p.Linked) (h : operand? p a = some b) :
    enclosing p b = a :: enclosing p a := by
  have hparent := hp.parent?_eq (mem_children_of_operand? h)
  rw [enclosing]
  split
  · next a' ha' =>
    obtain rfl := Option.some.inj (ha'.symm.trans hparent)
    rw [if_pos h]
  · next hnone => cases hnone.symm.trans hparent

/-- From a node of the chain on, the chain is the one around that node. -/
theorem enclosing_eq_append {pre post : List NodeId} (h : enclosing p node = pre ++ c :: post) :
    post = enclosing p c := by
  fun_induction enclosing p node generalizing pre with
  | case1 node a _ _ ih =>
    cases pre with
    | nil =>
      obtain ⟨rfl, rfl⟩ := List.cons.inj h
      rfl
    | cons d pre => exact ih (List.cons.inj h).2
  | case2 => simp at h
  | case3 => simp at h

theorem outermost_eq_of_append {pre post : List NodeId}
    (h : enclosing p node = pre ++ c :: post) : outermost p c = outermost p node := by
  rw [outermost, outermost, ← enclosing_eq_append h, h]
  simp [List.getLastD_eq_getLast?, List.getLast?_cons]

theorem stripCasts_of_mem_enclosing (h : c ∈ enclosing p node) :
    stripCasts p c = stripCasts p node := by
  fun_induction enclosing p node with
  | case1 node a _ hoperand ih =>
    rcases List.mem_cons.1 h with rfl | h
    · exact stripCasts_of_operand? hoperand
    · exact (ih h).trans (stripCasts_of_operand? hoperand)
  | case2 => cases h
  | case3 => cases h

/-- A node is on the chain around the expression to which descending from it leads. -/
theorem mem_enclosing_stripCasts (hp : p.Linked) (c : NodeId) :
    c = stripCasts p c ∨ c ∈ enclosing p (stripCasts p c) := by
  -- by the distance from the end of the arena, which falls along operands
  induction hn : p.size c.unit - c.index using Nat.strong_induction_on generalizing c with
  | _ n ih =>
    cases hoperand : operand? p c with
    | none => exact .inl (stripCasts_of_no_operand hoperand).symm
    | some b =>
      right
      have hchain := enclosing_of_operand? hp hoperand
      rw [stripCasts_of_operand? hoperand]
      rcases ih _ (hn ▸ operand?_descends hoperand) b rfl with hb | hb
      · rw [← hb, hchain]
        exact List.mem_cons_self
      · obtain ⟨pre, post, hsplit⟩ := List.append_of_mem hb
        rw [hsplit, enclosing_eq_append hsplit, hchain]
        simp

/-- Descending from a node ends at an expression just when the node is on the chain around it. -/
theorem stripCasts_eq_iff (hp : p.Linked) (h : operand? p node = none) :
    stripCasts p c = node ↔ c = node ∨ c ∈ enclosing p node := by
  constructor
  · rintro rfl
    exact mem_enclosing_stripCasts hp c
  · rintro (rfl | hc)
    · exact stripCasts_of_no_operand h
    · rw [stripCasts_of_mem_enclosing hc, stripCasts_of_no_operand h]

/-! ### Climbing -/

/-- What is around the chain is no cast and keeps no value, so that the chain holds all casts. -/
def Closed (p : Program) (node : NodeId) : Prop :=
  ∀ a, p.parent? (outermost p node) = some a → isCast p a = false ∧ isTransparent p a = false

instance (p : Program) (node : NodeId) : Decidable (Closed p node) :=
  inferInstanceAs (Decidable (∀ a ∈ p.parent? (outermost p node),
    isCast p a = false ∧ isTransparent p a = false))

theorem outerNode?_of_parent? (h : p.parent? node = some a) :
    outerNode? p node = if isTransparent p a then outerNode? p a else some a := by
  rw [outerNode?]
  split
  · next a' ha' =>
    obtain rfl := Option.some.inj (h.symm.trans ha')
    rfl
  · next hnone => cases h.symm.trans hnone

/-- Climbing from a node meets a cast just when one is on the chain around it. -/
theorem insideCast_iff (h : Closed p node) :
    insideCast p node = true ↔ ∃ c ∈ enclosing p node, isCast p c = true := by
  unfold Closed outermost at h
  unfold insideCast
  fun_induction enclosing p node with
  | case1 node a hparent hoperand ih =>
    rw [List.getLastD_cons] at h
    rw [outerNode?_of_parent? hparent]
    cases ht : isTransparent p a with
    | true =>
      rw [if_pos rfl, ih h]
      simp [isCast_eq_false_of_transparent ht]
    | false =>
      have hcast : isCast p a = true := by
        by_contra hcast
        rw [operand?_eq_none (Bool.eq_false_iff.2 hcast) ht] at hoperand
        cases hoperand
      simp [hcast]
  | case2 node a hparent _ =>
    obtain ⟨hcast, ht⟩ := h a hparent
    rw [outerNode?_of_parent? hparent, ht]
    simp [hcast]
  | case3 node hparent =>
    rw [outerNode?]
    split
    · next a' ha' => cases hparent.symm.trans ha'
    · simp

theorem Closed.of_append (h : Closed p node) {pre post : List NodeId}
    (hsplit : enclosing p node = pre ++ c :: post) : Closed p c := by
  unfold Closed at h ⊢
  rwa [outermost_eq_of_append hsplit]

/-! ### The cast of the body -/

/-- Of the casts on the chain around a node, the outermost one is the only one that is in no other
cast. -/
theorem getLast?_casts_eq_some_iff (h : Closed p node) :
    ((enclosing p node).filter (isCast p)).getLast? = some c ↔
      c ∈ enclosing p node ∧ isCast p c = true ∧ insideCast p c = false := by
  constructor
  · intro hlast
    obtain ⟨casts, hcasts⟩ := List.getLast?_eq_some_iff.1 hlast
    obtain ⟨pre, rest, hsplit, -, hrest⟩ := List.filter_eq_append_iff.1 hcasts
    obtain ⟨mid, post, rfl, -, hcast, hpost⟩ := List.filter_eq_cons_iff.1 hrest
    rw [← List.append_assoc] at hsplit
    refine ⟨by simp [hsplit], hcast, ?_⟩
    rw [Bool.eq_false_iff, ne_eq, insideCast_iff (h.of_append hsplit),
      ← enclosing_eq_append hsplit]
    rintro ⟨d, hd, hdcast⟩
    exact List.filter_eq_nil_iff.1 hpost d hd hdcast
  · rintro ⟨hc, hcast, hinside⟩
    obtain ⟨pre, post, hsplit⟩ := List.append_of_mem hc
    rw [Bool.eq_false_iff, ne_eq, insideCast_iff (h.of_append hsplit),
      ← enclosing_eq_append hsplit] at hinside
    have hpost : post.filter (isCast p) = [] :=
      List.filter_eq_nil_iff.2 fun d hd hdcast => hinside ⟨d, hd, hdcast⟩
    rw [hsplit, List.filter_append, List.filter_cons_of_pos hcast, hpost, List.getLast?_concat]

theorem kind_of_requestProperty? {roles : Roles} {name : String}
    (h : requestProperty? p roles node = some name) : p.kind node = "member_expression" := by
  unfold requestProperty? at h
  split at h
  · split at h
    · next hmember => exact hmember.1
    · cases h
  · cases h

section Analysis

variable {m : Type → Type} [Monad m]

theorem visitMember_of_body {roles : Roles} (h : requestProperty? p roles node = some "body") :
    (visitMember p roles node : Usage m Unit) =
      if insideCast p node then pure ()
      else change fun op =>
        if op.requestBody.isNone then
          { op with requestBody := some (.json Schema.inferredObject) }
        else op := by
  rw [visitMember, if_pos h]
  cases insideCast p node <;> rfl

/-- **Climbing and descending casts agree.** Around an access to the body of the request, let
nothing but the chain of its casts cast it. If there is a cast on the chain, the access itself tells
nothing of the body, and of all casts under which the access is found by descending exactly one is
in no other cast: the outermost one on the chain. If there is none, descending from a cast never
leads to the access, and it gives the body a schema of its own just when it has none. -/
theorem body_cast_of_outermost (hp : p.Linked) {roles : Roles}
    (hbody : requestProperty? p roles node = some "body") (hclosed : Closed p node) :
    ((∃ c ∈ enclosing p node, isCast p c = true) →
      (visitMember p roles node : Usage m Unit) = pure () ∧
      ∃ outer, ((enclosing p node).filter (isCast p)).getLast? = some outer ∧
        ∀ c, isCast p c = true ∧ insideCast p c = false ∧ stripCasts p c = node ↔ c = outer) ∧
    ((∀ c ∈ enclosing p node, isCast p c = false) →
      (∀ c, isCast p c = true → stripCasts p c ≠ node) ∧
      (visitMember p roles node : Usage m Unit) = change fun op =>
        if op.requestBody.isNone then
          { op with requestBody := some (.json Schema.inferredObject) }
        else op) := by
  have hkind := kind_of_requestProperty? hbody
  have hnoCast : isCast p node = false := by
    rw [Bool.eq_false_iff, ne_eq, isCast_iff, hkind]
    decide
  have hnoOperand : operand? p node = none := by
    refine operand?_eq_none hnoCast ?_
    rw [isTransparent, hkind]
    decide
  have hstrip {c : NodeId} (hcast : isCast p c = true) :
      stripCasts p c = node ↔ c ∈ enclosing p node := by
    rw [stripCasts_eq_iff hp hnoOperand, or_iff_right]
    rintro rfl
    exact Bool.false_ne_true (hnoCast.symm.trans hcast)
  have hinside := insideCast_iff hclosed
  rw [visitMember_of_body hbody]
  constructor
  · intro hcast
    rw [if_pos (hinside.2 hcast)]
    obtain ⟨c, hc, hcast⟩ := hcast
    obtain ⟨outer, houter⟩ := Option.isSome_iff_exists.1 <| List.getLast?_isSome.2 <|
      List.ne_nil_of_mem (List.mem_filter.2 ⟨hc, hcast⟩)
    refine ⟨rfl, outer, houter, fun c => ⟨fun ⟨hcast, hin, hnode⟩ => ?_, ?_⟩⟩
    · have hlast := (getLast?_casts_eq_some_iff hclosed).2 ⟨(hstrip hcast).1 hnode, hcast, hin⟩
      exact Option.some.inj (hlast.symm.trans houter)
    · rintro rfl
      obtain ⟨hmem, hcast, hin⟩ := (getLast?_casts_eq_some_iff hclosed).1 houter
      exact ⟨hcast, hin, (hstrip hcast).2 hmem⟩
  · intro hnone
    refine ⟨fun c hcast hnode => ?_, if_neg ?_⟩
    · exact Bool.false_ne_true ((hnone c ((hstrip hcast).1 hnode)).symm.trans hcast)
    · rw [hinside]
      rintro ⟨c, hc, hcast⟩
      exact Bool.false_ne_true ((hnone c hc).symm.trans hcast)

end Analysis

/-- The expressions `((req.body as A)! as B).name` and `(req.body)!`. -/
def castProgram : Program where
  units := #[{ nodes := #[
    { kind := "program", named := true, children := [1, 13] },
    { kind := "member_expression", named := true, parent := some 0, children := [2, 12] },
    { kind := "parenthesized_expression", field := some "object", named := true, parent := some 1,
      children := [3] },
    { kind := "as_expression", named := true, parent := some 2, children := [4, 11] },
    { kind := "non_null_expression", named := true, parent := some 3, children := [5] },
    { kind := "parenthesized_expression", named := true, parent := some 4, children := [6] },
    { kind := "as_expression", named := true, parent := some 5, children := [7, 10] },
    { kind := "member_expression", named := true, parent := some 6, children := [8, 9] },
    { kind := "identifier", field := some "object", named := true, parent := some 7,
      text := "req" },
    { kind := "property_identifier", field := some "property", named := true, parent := some 7,
      text := "body" },
    { kind := "type_identifier", named := true, parent := some 6, text := "A" },
    { kind := "type_identifier", named := true, parent := some 3, text := "B" },
    { kind := "property_identifier", field := some "property", named := true, parent := some 1,
      text := "name" },
    { kind := "non_null_expression", named := true, parent := some 0, children := [14] },
    { kind := "parenthesized_expression", named := true, parent := some 13, children := [15] },
    { kind := "member_expression", named := true, parent := some 14, children := [16, 17] },
    { kind := "identifier", field := some "object", named := true, parent := some 15,
      text := "req" },
    { kind := "property_identifier", field := some "property", named := true, parent := some 15,
      text := "body" }] }]

/-- The first access is cast to `A` and that to `B`: the cast to `B` is the one that counts. The
second one is not cast. -/
theorem body_cast_of_outermost_nested :
    castProgram.Linked ∧
    requestProperty? castProgram ⟨some "req", some "res"⟩ ⟨0, 7⟩ = some "body" ∧
    Closed castProgram ⟨0, 7⟩ ∧ Closed castProgram ⟨0, 15⟩ ∧
    enclosing castProgram ⟨0, 7⟩ = [⟨0, 6⟩, ⟨0, 5⟩, ⟨0, 4⟩, ⟨0, 3⟩, ⟨0, 2⟩] ∧
    (∀ c, isCast castProgram c = true ∧ insideCast castProgram c = false ∧
      stripCasts castProgram c = ⟨0, 7⟩ ↔ c = ⟨0, 3⟩) ∧
    (visitMember castProgram ⟨some "req", some "res"⟩ ⟨0, 7⟩ : Usage Id Unit) = pure () ∧
    ∀ c, isCast castProgram c = true → stripCasts castProgram c ≠ ⟨0, 15⟩ := by
  have hp : castProgram.Linked := by decide +kernel
  have hbody : requestProperty? castProgram ⟨some "req", some "res"⟩ ⟨0, 7⟩ = some "body" := by
    decide +kernel
  have hbody' : requestProperty? castProgram ⟨some "req", some "res"⟩ ⟨0, 15⟩ = some "body" := by
    decide +kernel
  have hclosed : Closed castProgram ⟨0, 7⟩ := by decide +kernel
  have hclosed' : Closed castProgram ⟨0, 15⟩ := by decide +kernel
  obtain ⟨hvisit, outer, houter, hcasts⟩ :=
    (body_cast_of_outermost (m := Id) hp hbody hclosed).1 (by decide +kernel)
  have hlast : ((enclosing castProgram ⟨0, 7⟩).filter (isCast castProgram)).getLast? =
      some ⟨0, 3⟩ := by decide +kernel
  obtain rfl := Option.some.inj (houter.symm.trans hlast)
  exact ⟨hp, hbody, hclosed, hclosed', by decide +kernel, hcasts, hvisit,
    ((body_cast_of_outermost (m := Id) hp hbody' hclosed').2 (by decide +kernel)).1⟩

end RouteContract.Crawl
