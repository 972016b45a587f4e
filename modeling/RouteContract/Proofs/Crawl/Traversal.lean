import Mathlib
import RouteContract.Proofs.Crawl.Branches
import RouteContract.Proofs.Program.Links

/-!
# The worklists of the crawl

The crawl of a unit and the analysis of a body are walks with a stack of pending nodes. In a round
the node on top, which is the last one of the stack, is taken off and visited, and its named
children are put on, the last one first (`round`, `walkM_round`). The invariant of the rounds is
that the pending nodes and the nodes below them, from the top on, are what is left of the pre-order
of the start (`pending_iterate`). So the k-th round visits the k-th node of the pre-order, whatever
the visits do in between. In a linked tree the pre-order lists each node below the start once.
-/

namespace RouteContract

open Relation (ReflTransGen)

namespace Program

/-- A node is at or below another one, along named children. -/
abbrev Below (p : Program) (start node : NodeId) : Prop :=
  ReflTransGen (fun a c => c ∈ p.namedChildren a) start node

section Order

variable {p : Program}

theorem parent?_of_mem_namedChildren (hp : p.Linked) {id c : NodeId}
    (h : c ∈ p.namedChildren id) : p.parent? c = some id :=
  hp.parent?_eq (mem_children_of_mem_namedChildren h)

theorem Below.index_le {a node : NodeId} (h : p.Below a node) : a.index ≤ node.index := by
  induction h with
  | refl => exact le_rfl
  | tail _ hchild ih =>
    exact ih.trans (mem_children (mem_children_of_mem_namedChildren hchild)).2.1.le

/-- The pre-order lists the nodes at and below a node. -/
theorem mem_preorder {start node : NodeId} : node ∈ p.preorder start ↔ p.Below start node := by
  induction start using preorder.induct p with
  | case1 start ih =>
    rw [preorder_eq, List.mem_cons, List.mem_flatMap, Below, ReflTransGen.cases_head_iff]
    refine or_congr eq_comm (exists_congr fun c => and_congr_right fun hc => ?_)
    exact ih ⟨c, hc⟩

/-- Of two nodes above a third one, one is above the other. -/
theorem Below.total (hp : p.Linked) {a b node : NodeId} (ha : p.Below a node)
    (hb : p.Below b node) : p.Below a b ∨ p.Below b a := by
  have hunique : Relator.RightUnique (Function.swap fun a c => c ∈ p.namedChildren a) :=
    fun c x y hx hy => Option.some.inj
      ((parent?_of_mem_namedChildren hp hx).symm.trans (parent?_of_mem_namedChildren hp hy))
  exact (ReflTransGen.total_of_right_unique hunique (Relation.reflTransGen_swap.2 ha)
    (Relation.reflTransGen_swap.2 hb)).symm.imp Relation.reflTransGen_swap.1
    Relation.reflTransGen_swap.1

/-- No child of a node is below another one. -/
theorem not_below_of_ne (hp : p.Linked) {id c d : NodeId} (hc : c ∈ p.namedChildren id)
    (hd : d ∈ p.namedChildren id) (hne : c ≠ d) : ¬ p.Below c d := by
  intro h
  rcases ReflTransGen.cases_tail h with rfl | ⟨a, hca, had⟩
  · exact hne rfl
  · -- the parent of `d` is the node itself, which is above `c`
    have ha : a = id := Option.some.inj
      ((parent?_of_mem_namedChildren hp had).symm.trans (parent?_of_mem_namedChildren hp hd))
    have hle := Below.index_le (ha ▸ hca)
    have hlt := (mem_children (mem_children_of_mem_namedChildren hc)).2.1
    omega

/-- The pre-order of a linked tree lists each node once. -/
theorem nodup_preorder (hp : p.Linked) (start : NodeId) : (p.preorder start).Nodup := by
  induction start using preorder.induct p with
  | case1 start ih =>
    have hchildren : (p.namedChildren start).Nodup := (hp.nodup_children start).filter _
    rw [preorder_eq, List.nodup_cons, List.mem_flatMap, List.nodup_flatMap]
    refine ⟨?_, fun c hc => ih ⟨c, hc⟩, hchildren.pairwise_of_forall_ne fun c hc d hd hne => ?_⟩
    · rintro ⟨c, hc, hbelow⟩
      have hle := Below.index_le (mem_preorder.1 hbelow)
      have hlt := (mem_children (mem_children_of_mem_namedChildren hc)).2.1
      omega
    · intro node hcn hdn
      rcases Below.total hp (mem_preorder.1 hcn) (mem_preorder.1 hdn) with h | h
      · exact not_below_of_ne hp hc hd hne h
      · exact not_below_of_ne hp hd hc hne.symm h

/-- The nodes below a node are in its unit. -/
theorem unit_of_mem_preorder {start node : NodeId} (h : node ∈ p.preorder start) :
    node.unit = start.unit := by
  induction mem_preorder.1 h with
  | refl => rfl
  | tail hbelow hchild ih =>
    exact (unit_of_mem_namedChildren hchild).trans (ih (mem_preorder.2 hbelow))

/-- The nodes below a node are in the arena behind it. -/
theorem length_preorder_le (hp : p.Linked) {start : NodeId}
    (h : start.index < p.size start.unit) :
    (p.preorder start).length ≤ p.size start.unit - start.index := by
  have hinside : ∀ node ∈ p.preorder start, node ∈
      (Finset.Ico start.index (p.size start.unit)).image (NodeId.mk start.unit) := by
    intro node hnode
    have hbelow := mem_preorder.1 hnode
    have hunit : node.unit = start.unit := unit_of_mem_preorder hnode
    have hlt : node.index < p.size start.unit := by
      rcases ReflTransGen.cases_tail hbelow with rfl | ⟨a, ha, hchild⟩
      · exact h
      · have hsize := (mem_children (mem_children_of_mem_namedChildren hchild)).2.2
        rwa [unit_of_mem_preorder (mem_preorder.2 ha)] at hsize
    exact Finset.mem_image.2 ⟨node.index, Finset.mem_Ico.2 ⟨hbelow.index_le, hlt⟩, by rw [← hunit]⟩
  calc (p.preorder start).length
      = (p.preorder start).toFinset.card :=
        (List.toFinset_card_of_nodup (nodup_preorder hp start)).symm
    _ ≤ ((Finset.Ico start.index (p.size start.unit)).image (NodeId.mk start.unit)).card :=
        Finset.card_le_card fun node hnode => hinside node (List.mem_toFinset.1 hnode)
    _ ≤ (Finset.Ico start.index (p.size start.unit)).card := Finset.card_image_le
    _ = p.size start.unit - start.index := Nat.card_Ico _ _

end Order

section Rounds

variable (p : Program)

/-- One round of a walk: the last node of the stack is taken off, and its named children are put on,
the last one first. -/
def round (stack : List NodeId) : List NodeId :=
  match stack.getLast? with
  | none => []
  | some node => stack.dropLast ++ (p.namedChildren node).reverse

/-- The pending nodes and the nodes below them, from the top of the stack on. -/
def pending (stack : List NodeId) : List NodeId := stack.reverse.flatMap p.preorder

@[simp] theorem round_concat (stack : List NodeId) (node : NodeId) :
    p.round (stack ++ [node]) = stack ++ (p.namedChildren node).reverse := by
  simp [round]

@[simp] theorem pending_singleton (start : NodeId) : p.pending [start] = p.preorder start := by
  simp [pending]

/-- A walk visits the node on top of the stack and goes on with the next round. -/
theorem walkM_round {m : Type → Type} [Monad m] (visit : NodeId → m Unit) (stack : List NodeId) :
    p.walkM visit stack.reverse = match stack.getLast? with
      | none => pure ()
      | some node => (do
        visit node
        p.walkM visit (p.round stack).reverse) := by
  induction stack using List.reverseRecOn with
  | nil => simp [walkM]
  | append_singleton stack node => simp [walkM]

/-- The next node to visit is the one on top. -/
theorem head?_pending (stack : List NodeId) : (p.pending stack).head? = stack.getLast? := by
  induction stack using List.reverseRecOn with
  | nil => rfl
  | append_singleton stack node => simp [pending, preorder_eq]

/-- A round visits one node of those that are pending. -/
theorem pending_round (stack : List NodeId) :
    p.pending (p.round stack) = (p.pending stack).tail := by
  induction stack using List.reverseRecOn with
  | nil => rfl
  | append_singleton stack node => simp [pending, preorder_eq]

/-- After some rounds what is left of the pre-order is pending. -/
theorem pending_iterate (k : ℕ) (stack : List NodeId) :
    p.pending (p.round^[k] stack) = (p.pending stack).drop k := by
  induction k with
  | zero => rfl
  | succ k ih => rw [Function.iterate_succ_apply', pending_round, ih, List.tail_drop]

/-- The rounds visit the nodes of the pre-order one after the other. -/
theorem getLast?_iterate_round (k : ℕ) (start : NodeId) :
    (p.round^[k] [start]).getLast? = (p.preorder start)[k]? := by
  rw [← head?_pending, pending_iterate, pending_singleton, List.head?_drop]

/-- The stack is empty when they are all visited. -/
theorem iterate_round_eq_nil_iff (k : ℕ) (start : NodeId) :
    p.round^[k] [start] = [] ↔ (p.preorder start).length ≤ k := by
  rw [← List.getLast?_eq_none_iff, getLast?_iterate_round, List.getElem?_eq_none_iff]

end Rounds

end Program

namespace Crawl

variable {m : Type → Type} [Monad m] (p : Program) (o : Oracle m)

/-- What is done at a call when helper functions are followed to a number of calls. -/
def followWithin : ℕ → Roles → NodeId → List NodeId → Usage m Unit
  | 0 => fun _ _ _ => pure ()
  | left + 1 => followCall p o (analyse p o left)

/-- A body is walked, unless neither the request nor the response has a name. -/
theorem analyse_eq (left : ℕ) (roles : Roles) (body : NodeId) :
    analyse p o left roles body =
      if roles.request.isNone && roles.response.isNone then pure ()
      else p.walkM (visitNode p o (followWithin p o left) roles) [body] := by
  cases left <;> rfl

end Crawl

open Program Crawl

/-- **The worklists are pre-order traversals.** From any start, the k-th round visits the k-th node
of the pre-order, in which a node comes before the nodes below it, child by child; the stack is
empty when all are visited. In a linked tree these are the nodes below the start along named
children that are no comments, each once. What a walk does is therefore what the visits do in this
order, whatever they are, and the walks of the crawl and of usage analysis are such walks, though
their visits mount other units and analyse helper functions. -/
theorem worklists_in_preorder {p : Program} (hp : p.Linked) :
    (∀ start, (∀ k, (p.round^[k] [start]).getLast? = (p.preorder start)[k]?) ∧
      (∀ k, p.round^[k] [start] = [] ↔ (p.preorder start).length ≤ k) ∧
      p.preorder start = start :: (p.namedChildren start).flatMap p.preorder ∧
      (p.preorder start).Nodup ∧ ∀ node, node ∈ p.preorder start ↔ p.Below start node) ∧
    ∀ (m : Type → Type) [Monad m] [LawfulMonad m],
      (∀ (visit : NodeId → m Unit) (stack : List NodeId),
        p.walkM visit stack.reverse = match stack.getLast? with
        | none => pure ()
        | some node => do
          visit node
          p.walkM visit (p.round stack).reverse) ∧
      (∀ (visit : NodeId → m Unit) start,
        p.walkM visit [start] = (p.preorder start).forM visit) ∧
      ∀ o : Oracle m,
        (∀ markers unit base stack,
          let crawlFrom := crawlUnit p o markers p.units.size
          crawlFrom unit base stack =
            (p.preorder (.root unit)).forM (visitCallSite p o markers crawlFrom base stack)) ∧
        ∀ left roles body, analyse p o left roles body =
          if roles.request.isNone && roles.response.isNone then pure ()
          else (p.preorder body).forM (visitNode p o (followWithin p o left) roles) := by
  refine ⟨fun start => ⟨fun k => p.getLast?_iterate_round k start,
    fun k => p.iterate_round_eq_nil_iff k start, p.preorder_eq start, nodup_preorder hp start,
    fun node => mem_preorder⟩, fun m _ _ => ⟨fun visit stack => p.walkM_round visit stack,
    fun visit start => p.walkM_singleton visit start, fun o => ⟨?_, ?_⟩⟩⟩
  · intro markers unit base stack crawlFrom
    have hcrawls : Crawls p o markers crawlFrom := crawls_iff.2 rfl
    rw [hcrawls unit base stack, p.walkM_singleton]
  · intro left roles body
    rw [analyse_eq, p.walkM_singleton]

/-- The unit `f(a /* c */, b)`. -/
def argumentsProgram : Program where
  units := #[{
    path := "arguments.ts"
    nodes := #[
      { kind := "program", named := true, children := [1] },
      { kind := "call_expression", named := true, parent := some 0, children := [2, 3] },
      { kind := "identifier", field := some "function", named := true, parent := some 1,
        text := "f" },
      { kind := "arguments", field := some "arguments", named := true, parent := some 1,
        children := [4, 5, 6, 7, 8, 9] },
      { kind := "(", parent := some 3, text := "(" },
      { kind := "identifier", named := true, parent := some 3, text := "a" },
      { kind := "comment", named := true, parent := some 3, text := "/* c */" },
      { kind := ",", parent := some 3, text := "," },
      { kind := "identifier", named := true, parent := some 3, text := "b" },
      { kind := ")", parent := some 3, text := ")" }] }]

/-- The call comes before the function and the arguments, and these come in the order of the source;
tokens and the comment are not visited. -/
theorem worklists_in_preorder_arguments : argumentsProgram.Linked ∧
    argumentsProgram.preorder (.root 0) = [⟨0, 0⟩, ⟨0, 1⟩, ⟨0, 2⟩, ⟨0, 3⟩, ⟨0, 5⟩, ⟨0, 8⟩] ∧
    (argumentsProgram.round^[2] [.root 0]).getLast? = some ⟨0, 2⟩ ∧
    argumentsProgram.round^[6] [.root 0] = [] ∧ ¬ argumentsProgram.Below (.root 0) ⟨0, 6⟩ := by
  have hp : argumentsProgram.Linked := by decide +kernel
  have horder : argumentsProgram.preorder (.root 0) =
      [⟨0, 0⟩, ⟨0, 1⟩, ⟨0, 2⟩, ⟨0, 3⟩, ⟨0, 5⟩, ⟨0, 8⟩] := by decide +kernel
  obtain ⟨hrounds, hend, -, -, hmem⟩ := (worklists_in_preorder hp).1 (.root 0)
  rw [horder] at hrounds hend hmem
  exact ⟨hp, horder, hrounds 2, (hend 6).2 le_rfl, fun h => by simpa using (hmem ⟨0, 6⟩).2 h⟩

end RouteContract
