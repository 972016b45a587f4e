import Mathlib
import RouteContract.Proofs.Crawl.Repetition
import RouteContract.Proofs.Crawl.Walk

/-!
# What a body tells by itself

A visit of a node is what the node tells by itself, and then, when the node is a call, what the
function behind it tells (`visitNode_eq`). The first part neither looks at the functions that were
visited nor visits one (`VisitFree`). It is therefore the same in every analysis, and once it was
done, doing it again adds nothing to the operation or to a later one (`Told`).
-/

namespace RouteContract.Crawl

section Parts

variable {m : Type → Type} [Monad m] [LawfulMonad m] (p : Program) (o : Oracle m)

/-- What a node tells when no call is followed. -/
def visitOwn (roles : Roles) (node : NodeId) : Usage m Unit :=
  visitNode p o (fun _ _ _ => pure ()) roles node

/-- Follow the function of a node, if the node is a call. -/
def followNode (follow : Roles → NodeId → List NodeId → Usage m Unit) (roles : Roles)
    (node : NodeId) : Usage m Unit :=
  if p.kind node = "call_expression" then
    match (p.field? node "function").map p.skipParens with
    | none => pure ()
    | some callee => follow roles callee (callArguments p node)
  else pure ()

theorem visitCall_eq (follow : Roles → NodeId → List NodeId → Usage m Unit) (roles : Roles)
    (call : NodeId) :
    visitCall p o follow roles call = (do
      visitCall p o (fun _ _ _ => pure ()) roles call
      match (p.field? call "function").map p.skipParens with
      | none => pure ()
      | some callee => follow roles callee (callArguments p call)) := by
  cases hcallee : (p.field? call "function").map p.skipParens with
  | none =>
    simp only [visitCall, hcallee]
    rw [pure_bind]
  | some callee =>
    simp only [visitCall, hcallee]
    split
    · split <;> split <;> simp only [bind_assoc, pure_bind]
    · rw [pure_bind]

/-- A visit is what the node tells by itself, and then what its call leads to. -/
theorem visitNode_eq (follow : Roles → NodeId → List NodeId → Usage m Unit) (roles : Roles)
    (node : NodeId) :
    visitNode p o follow roles node = (do
      visitOwn p o roles node
      followNode p follow roles node) := by
  unfold visitOwn followNode
  by_cases hcall : p.kind node = "call_expression"
  · rw [if_pos hcall]
    simp only [visitNode, hcall]
    exact visitCall_eq p o follow roles node
  · rw [if_neg hcall]
    unfold visitNode
    split
    · contradiction
    all_goals exact (bind_pure_unit (x := _)).symm

end Parts

/-! ### Independence of what was visited -/

/-- A computation neither looks at the functions that were visited nor visits one. -/
def VisitFree {α : Type} (x : Usage Id α) : Prop :=
  ∀ s functions, x.run { s with visited := functions } =
    ((x.run s).1, { (x.run s).2 with visited := functions })

section Rules

variable {α β : Type}

theorem visitFree_pure (a : α) : VisitFree (pure a : Usage Id α) := fun _ _ => rfl

theorem VisitFree.bind {x : Usage Id α} {f : α → Usage Id β} (hx : VisitFree x)
    (hf : ∀ a, VisitFree (f a)) : VisitFree (x >>= f) := by
  intro s functions
  show (f (x.run { s with visited := functions }).1).run (x.run { s with visited := functions }).2 =
    (((f (x.run s).1).run (x.run s).2).1, _)
  rw [hx s functions]
  exact hf (x.run s).1 (x.run s).2 functions

theorem visitFree_ask (q : Id α) : VisitFree (askOracle q) := fun _ _ => rfl

theorem visitFree_change (f : Operation → Operation) : VisitFree (change f : Usage Id Unit) :=
  fun _ _ => rfl

/-- A computation that does not visit functions leaves them as they were. -/
theorem VisitFree.visited {x : Usage Id α} (hx : VisitFree x) (s : UsageState) :
    (x.run s).2.visited = s.visited :=
  congrArg (fun r => r.2.visited) (hx s s.visited)

end Rules

section Steps

variable (o : Oracle Id)

theorem visitFree_schemaOf (t : TypeId) : VisitFree (schemaOf o t) := fun _ _ => rfl

theorem visitFree_addHeader (name : String) (required : Bool) :
    VisitFree (addHeader name required : Usage Id Unit) := by
  unfold addHeader
  split
  · exact visitFree_pure ()
  · exact visitFree_change _

theorem visitFree_setBody (t : TypeId) : VisitFree (setBody o t) := by
  refine (visitFree_schemaOf o t).bind fun schema => ?_
  split
  · exact visitFree_change _
  · exact visitFree_pure ()

theorem visitFree_addQueryParameter (property : SymbolId) :
    VisitFree (addQueryParameter o property) := fun _ _ => rfl

theorem visitFree_sendPayload (t : TypeId) : VisitFree (sendPayload o t) := by
  intro s functions
  obtain ⟨hfull, hempty⟩ := sendPayload_run o t s
  obtain ⟨hfull', hempty'⟩ := sendPayload_run o t { s with visited := functions }
  by_cases h : (s.operation.ensureResponse "200").HasPayload
  · rw [hfull h, hfull' h]
  · rw [hempty h, hempty' h]

/-- No step of a single node depends on what was visited. -/
theorem ownSteps_visitFree : OwnSteps o VisitFree where
  pure := visitFree_pure
  bind hx hf := hx.bind hf
  ask q _ := visitFree_ask q
  header := visitFree_addHeader
  query := visitFree_addQueryParameter o
  looseQuery _ := visitFree_change _
  body := visitFree_setBody o
  bodyPlace := visitFree_change _
  payload := visitFree_sendPayload o
  status _ := visitFree_change _

end Steps

/-! ### What an operation was told -/

open Operation (Covers)

/-- An operation was told what a computation tells: to it, and to all that it may become, the
computation adds nothing more. Only the request body may be replaced again. -/
def Told (x : Usage Id Unit) (op : Operation) : Prop :=
  ∀ final : Operation, final.Covers op → ∀ table functions, ∃ body,
    (x.run ⟨final, table, functions⟩).2.operation = { final with requestBody := body }

theorem Told.later {x : Usage Id Unit} {op op' : Operation} (h : Told x op) (hop : op'.Covers op) :
    Told x op' :=
  fun final hfinal => h final (hfinal.trans hop)

theorem told_pure (op : Operation) : Told (pure () : Usage Id Unit) op :=
  fun _ _ _ _ => ⟨_, rfl⟩

/-- What was done was told. -/
theorem told_of_run {x : Usage Id Unit} (hx : Repeated x) (hfree : VisitFree x) (s : UsageState) :
    Told x (x.run s).2.operation := by
  intro final hfinal table functions
  obtain ⟨-, h⟩ := hx.abreast final s ⟨final, table, s.visited⟩ hfinal ⟨rfl, ⟨_, rfl⟩, .inl rfl⟩
  rw [hfree ⟨final, table, s.visited⟩ functions]
  exact h.operation

/-- Two computations in a row tell nothing new when neither does, since the first one only adds. -/
theorem Told.bind {x y : Usage Id Unit} {op : Operation} (hrepeated : Repeated x)
    (hx : Told x op) (hy : Told y op) : Told (x >>= fun _ => y) op := by
  intro final hfinal table functions
  obtain ⟨body, hbody⟩ := hx final hfinal table functions
  have hcovers := hrepeated.covers ⟨final, table, functions⟩
  obtain ⟨body', hbody'⟩ := hy _ (hcovers.trans hfinal) (x.run ⟨final, table, functions⟩).2.table
    (x.run ⟨final, table, functions⟩).2.visited
  refine ⟨body', hbody'.trans ?_⟩
  rw [hbody]

theorem told_forM {α : Type} {f : α → Usage Id Unit} {l : List α} {op : Operation}
    (hf : ∀ a ∈ l, Repeated (f a)) (h : ∀ a ∈ l, Told (f a) op) : Told (l.forM f) op := by
  induction l with
  | nil => exact told_pure op
  | cons a l ih =>
    rw [List.forall_mem_cons] at hf h
    exact h.1.bind hf.1 (ih hf.2 h.2)

/-! ### Fewer names -/

/-- Names that are all among others. -/
def Roles.Within (fewer roles : Roles) : Prop :=
  (fewer.request = none ∨ fewer.request = roles.request) ∧
    (fewer.response = none ∨ fewer.response = roles.response)

instance (fewer roles : Roles) : Decidable (fewer.Within roles) :=
  inferInstanceAs (Decidable (_ ∧ _))

/-- There are no fewer names than none. -/
theorem Roles.Within.isNone {fewer roles : Roles} (h : fewer.Within roles)
    (hroles : (roles.request.isNone && roles.response.isNone) = true) :
    (fewer.request.isNone && fewer.response.isNone) = true := by
  simp only [Bool.and_eq_true, Option.isNone_iff_eq_none] at hroles ⊢
  exact ⟨h.1.elim id (·.trans hroles.1), h.2.elim id (·.trans hroles.2)⟩

section Bodies

variable (p : Program) (o : Oracle Id) (roles : Roles)

theorem visitMember_of_no_request (response : Option String) (member : NodeId) :
    (visitMember p ⟨none, response⟩ member : Usage Id Unit) = pure () := by
  unfold visitMember
  split
  · next h => cases h
  · split
    · split
      · next h => cases h
      · rfl
    · rfl

theorem visitSubscript_of_no_request (response : Option String) (subscript : NodeId) :
    (visitSubscript p ⟨none, response⟩ subscript : Usage Id Unit) = pure () := by
  unfold visitSubscript
  split
  · rfl
  · split
    · next h => cases h
    · rfl

theorem visitCast_of_no_request (response : Option String) (cast : NodeId) :
    visitCast p o ⟨none, response⟩ cast = pure () := by
  unfold visitCast
  split <;> rfl

theorem visitDeclarator_of_no_request (response : Option String) (declarator : NodeId) :
    visitDeclarator p o ⟨none, response⟩ declarator = pure () := by
  unfold visitDeclarator
  split
  · split
    · next h => cases h.2
    · rfl
  · rfl

/-- What a node tells is what it tells of the response, and then of the request. Only a call tells
anything of the response. -/
theorem visitOwn_eq (node : NodeId) :
    visitOwn p o roles node = (do
      visitOwn p o ⟨none, roles.response⟩ node
      visitOwn p o ⟨roles.request, none⟩ node) := by
  obtain ⟨request, response⟩ := roles
  unfold visitOwn visitNode
  split
  · unfold visitCall
    cases (p.field? node "function").map p.skipParens with
    | none => rfl
    | some function =>
      dsimp only
      split
      · cases (p.field? function "property").map p.text <;>
          cases (p.field? function "object").map p.skipParens <;>
            cases request <;> cases response <;> simp
      · rfl
  · rw [visitMember_of_no_request, pure_bind]
    rfl
  · rw [visitSubscript_of_no_request, pure_bind]
    rfl
  · rw [visitCast_of_no_request, pure_bind]
    rfl
  · rw [visitCast_of_no_request, pure_bind]
    rfl
  · rw [visitDeclarator_of_no_request, pure_bind]
    rfl
  · rfl

theorem visitOwn_of_no_names (node : NodeId) : visitOwn p o ⟨none, none⟩ node = pure () := by
  unfold visitOwn visitNode
  split
  · unfold visitCall
    split
    · rfl
    · split <;> rfl
  · exact visitMember_of_no_request p none node
  · exact visitSubscript_of_no_request p none node
  · exact visitCast_of_no_request p o none node
  · exact visitCast_of_no_request p o none node
  · exact visitDeclarator_of_no_request p o none node
  · rfl

theorem repeated_visitOwn (node : NodeId) : Repeated (visitOwn p o roles node) :=
  (steps_repeated o).visitNode p (fun _ _ _ => repeated_pure ()) roles node

theorem visitFree_visitOwn (node : NodeId) : VisitFree (visitOwn p o roles node) :=
  (ownSteps_visitFree o).visitNode p (fun _ _ _ => visitFree_pure ()) roles node

/-- A visit under some names tells all that the node tells under fewer names. -/
theorem told_visitOwn {fewer roles : Roles} (h : fewer.Within roles) (node : NodeId)
    (s : UsageState) :
    Told (visitOwn p o fewer node) ((visitOwn p o roles node).run s).2.operation := by
  have told (names : Roles) (s : UsageState) :
      Told (visitOwn p o names node) ((visitOwn p o names node).run s).2.operation :=
    told_of_run (repeated_visitOwn p o names node) (visitFree_visitOwn p o names node) s
  have hnone (op : Operation) : Told (visitOwn p o ⟨none, none⟩ node) op := by
    rw [visitOwn_of_no_names]
    exact told_pure op
  -- the response first, and then the request
  have hresponse := told ⟨none, roles.response⟩ s
  set t := ((visitOwn p o ⟨none, roles.response⟩ node).run s).2
  have hrequest := told ⟨roles.request, none⟩ t
  have hcovers := (repeated_visitOwn p o ⟨roles.request, none⟩ node).covers t
  rw [visitOwn_eq p o roles, visitOwn_eq p o fewer]
  refine Told.bind (repeated_visitOwn p o _ node) ?_ ?_
  · rcases h.2 with hfewer | hfewer
    · rw [hfewer]
      exact hnone _
    · rw [hfewer]
      exact hresponse.later hcovers
  · rcases h.1 with hfewer | hfewer
    · rw [hfewer]
      exact hnone _
    · rw [hfewer]
      exact hrequest

/-- A body was told when its nodes were. -/
theorem told_analyseOwn {body : NodeId} {op : Operation}
    (h : ∀ node ∈ p.preorder body, Told (visitOwn p o roles node) op) :
    Told (analyse p o 0 roles body) op := by
  unfold analyse
  split
  · exact told_pure op
  · rw [p.walkM_singleton]
    exact told_forM (fun node _ => repeated_visitOwn p o roles node) h

end Bodies

end RouteContract.Crawl
