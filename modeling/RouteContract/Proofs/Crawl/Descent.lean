import Mathlib
import RouteContract.Proofs.Crawl.Chains
import RouteContract.Proofs.Crawl.Traversal
import RouteContract.Proofs.Outcome

/-!
# The descent into helper functions

The analysis of a body is interrupted where a call hands the request or the response to a helper
function, whose body is analysed first. `Descent` is the state of this: the bodies whose analysis
has begun, each with its own worklist, the innermost one first, and all functions that were entered.
In a round the next node is visited, and the helper of its call is entered, if there is one
(`round`); an analysis is what the rounds do, one after the other (`resume_rounds`).

Nothing is known of the answers of the oracle, so that helpers may lead to each other in any way.
A helper is entered when it was not visited, by a call in the innermost body that passes the request
or the response (`ensures_next`). What therefore holds of every state on the way is `Lawful`.
-/

namespace RouteContract.Crawl

open Program

/-- A function whose body is analysed. -/
structure Entry where
  function : NodeId
  body : NodeId
  roles : Roles
  /-- The number of calls that lead to it. -/
  depth : ℕ
  /-- The call that leads to it; none leads to a handler. -/
  call : Option NodeId
deriving DecidableEq, Repr

/-- A body whose analysis has begun, with the nodes that are pending, the next one first. -/
structure Frame where
  entry : Entry
  pending : List NodeId
deriving DecidableEq, Repr

/-- The bodies that are analysed, the innermost one first, and all functions that were entered, the
last one first. -/
structure Descent where
  frames : List Frame := []
  entered : List Entry := []
deriving DecidableEq, Repr

/-- Nothing is visited in a function that received no value. -/
def Entry.frame (e : Entry) : Frame :=
  ⟨e, if e.roles.request.isNone && e.roles.response.isNone then [] else [e.body]⟩

/-- The entry of a handler. -/
def Entry.ofHandler (p : Program) (handler body : NodeId) : Entry :=
  ⟨handler, body, handlerRoles p handler, 0, none⟩

section Rounds

variable {m : Type → Type} [Monad m] (p : Program) (o : Oracle m)

/-- The helper function behind a call that hands on a value, when it is in the same unit and was not
visited. From now on it was. -/
def takeHelper (roles : Roles) (callee : NodeId) (arguments : List NodeId) :
    Usage m (Option NodeId) := do
  if (positionOf? p arguments roles.request).isNone
      && (positionOf? p arguments roles.response).isNone then return none
  if isFunctionLiteral p callee then return none
  match ← askOracle (resolveHandler p o callee) with
  | none => return none
  | some helper =>
    if helper.unit ≠ callee.unit ∨ (← get).visited.contains helper then return none
    modify fun s => { s with visited := helper :: s.visited }
    return some helper

/-- A helper function with a body, entered by a call. -/
def Entry.helper? (caller : Entry) (call helper : NodeId) : Option Entry :=
  (p.field? helper "body").map fun body =>
    { function := helper
      body
      roles := forwardedRoles p caller.roles (callArguments p call) helper
      depth := caller.depth + 1
      call := some call }

/-- What is entered at a node of a body. -/
def Entry.next (caller : Entry) (node : NodeId) : Usage m (Option Entry) :=
  if p.kind node = "call_expression" ∧ caller.depth < maxForwarding then
    match (p.field? node "function").map p.skipParens with
    | none => pure none
    | some callee => do
      let helper ← takeHelper p o caller.roles callee (callArguments p node)
      return helper.bind (caller.helper? p node)
  else pure none

namespace Descent

/-- One round: a body without pending nodes is left, and else the next node is visited. -/
def round (d : Descent) : Usage m Descent :=
  match d.frames with
  | [] => pure d
  | ⟨_, []⟩ :: callers => pure { d with frames := callers }
  | ⟨caller, node :: pending⟩ :: callers => do
    visitOwn p o caller.roles node
    let walking : Frame := ⟨caller, p.namedChildren node ++ pending⟩
    match ← caller.next p o node with
    | none => return { d with frames := walking :: callers }
    | some e =>
      return { frames := e.frame :: walking :: callers, entered := e :: d.entered }

/-- A number of rounds. -/
def rounds : ℕ → Descent → Usage m Descent
  | 0, d => pure d
  | n + 1, d => do rounds n (← round p o d)

end Descent

/-- A number of rounds over the body of a handler, if it has one. -/
def descendBody (handler : NodeId) (n : ℕ) : Usage m Descent :=
  match p.field? handler "body" with
  | none => pure {}
  | some body => do
    modify fun s => { s with visited := handler :: s.visited }
    Descent.rounds p o n
      { frames := [(Entry.ofHandler p handler body).frame]
        entered := [.ofHandler p handler body] }

/-- The analysis of a handler in a number of rounds: its type arguments are applied first. -/
def descend (handler : NodeId) (n : ℕ) : Usage m Descent := do
  if let request :: _ :: _ := parameterNodes p handler then applyRequestArguments p o request
  descendBody p o handler n

end Rounds

/-! ### An analysis is made of rounds -/

section Resuming

variable {m : Type → Type} [Monad m] (p : Program) (o : Oracle m)

/-- Go on with the analysis of a body. -/
def Frame.resume (f : Frame) : Usage m Unit :=
  p.walkM (visitNode p o (followWithin p o (maxForwarding - f.entry.depth)) f.entry.roles) f.pending

/-- Go on with all bodies. -/
def Descent.resume (d : Descent) : Usage m Unit := d.frames.forM (Frame.resume p o)

/-- A body is analysed by going on from its beginning. -/
theorem analyse_eq_resume (e : Entry) :
    analyse p o (maxForwarding - e.depth) e.roles e.body = e.frame.resume p o := by
  rw [analyse_eq, Frame.resume, Entry.frame]
  split
  · rw [walkM]
  · rfl

variable [LawfulMonad m]

/-- To follow a call is to take its helper, and then to analyse its body. -/
theorem followCall_eq (go : Roles → NodeId → Usage m Unit) (roles : Roles) (callee : NodeId)
    (arguments : List NodeId) :
    followCall p o go roles callee arguments = (do
      match ← takeHelper p o roles callee arguments with
      | none => pure ()
      | some helper =>
        if let some body := p.field? helper "body" then
          go (forwardedRoles p roles arguments helper) body) := by
  unfold followCall takeHelper
  split
  · rw [pure_bind]
  split
  · rw [pure_bind]
  rw [bind_assoc]
  refine bind_congr fun helper => ?_
  cases helper with
  | none => rw [pure_bind]
  | some helper =>
    dsimp only
    rw [bind_assoc]
    refine bind_congr fun s => ?_
    split
    · rw [pure_bind]
    · rw [bind_assoc]
      refine bind_congr fun _ => ?_
      cases hbody : p.field? helper "body" <;> simp only [pure_bind, hbody]

/-- What follows from a node is what is entered there. -/
theorem followNode_eq (caller : Entry) (node : NodeId) :
    followNode p (followWithin p o (maxForwarding - caller.depth)) caller.roles node = (do
      match ← caller.next p o node with
      | none => pure ()
      | some e => e.frame.resume p o) := by
  unfold followNode Entry.next
  by_cases hcall : p.kind node = "call_expression"
  · rw [if_pos hcall]
    by_cases hdepth : caller.depth < maxForwarding
    · -- one call less is left below
      have hleft : maxForwarding - caller.depth = maxForwarding - (caller.depth + 1) + 1 := by omega
      rw [if_pos ⟨hcall, hdepth⟩, hleft]
      cases (p.field? node "function").map p.skipParens with
      | none => rw [pure_bind]
      | some callee =>
        dsimp only
        rw [followWithin, followCall_eq, bind_assoc]
        refine bind_congr fun helper => ?_
        rw [pure_bind]
        cases helper with
        | none => rfl
        | some helper =>
          rw [Option.bind_some, Entry.helper?]
          cases hbody : p.field? helper "body" with
          | none => simp only [hbody, Option.map_none]
          | some body =>
            simp only [hbody, Option.map_some]
            exact analyse_eq_resume p o ⟨helper, body, _, caller.depth + 1, some node⟩
    · have hleft : maxForwarding - caller.depth = 0 := by omega
      rw [if_neg fun h => hdepth h.2, hleft, pure_bind]
      cases (p.field? node "function").map p.skipParens <;> rfl
  · rw [if_neg hcall, if_neg fun h => hcall h.1, pure_bind]

namespace Descent

/-- A round is the beginning of what is left. -/
theorem resume_round (d : Descent) :
    (do (← round p o d).resume p o) = d.resume p o := by
  obtain ⟨frames, entered⟩ := d
  match frames with
  | [] => exact pure_bind _ _
  | ⟨caller, []⟩ :: callers =>
    rw [round, pure_bind, resume, resume, List.forM_eq_forM, List.forM_cons, Frame.resume, walkM,
      pure_bind]
  | ⟨caller, node :: pending⟩ :: callers =>
    simp only [round, resume, List.forM_eq_forM, List.forM_cons]
    rw [Frame.resume, walkM, visitNode_eq, followNode_eq]
    simp only [bind_assoc]
    refine bind_congr fun _ => bind_congr fun next => ?_
    cases next with
    | none => simp [Frame.resume]
    | some e => simp [Frame.resume]

theorem resume_rounds (n : ℕ) (d : Descent) :
    (do (← rounds p o n d).resume p o) = d.resume p o := by
  induction n generalizing d with
  | zero => exact pure_bind _ _
  | succ n ih =>
    rw [rounds, bind_assoc]
    simp only [ih]
    exact resume_round p o d

end Descent

end Resuming

/-! ### What a call enters -/

/-- The request or the response is among the arguments, by its name. -/
def Passes (p : Program) (roles : Roles) (arguments : List NodeId) : Prop :=
  ∃ name, (roles.request = some name ∨ roles.response = some name) ∧
    ∃ a ∈ arguments, p.kind (p.skipParens a) = "identifier" ∧ p.text (p.skipParens a) = name

/-- A call in a body enters a helper function: one of the unit of the call, to which the call passes
the request or the response, and with no more calls than are followed. -/
structure Entry.Calls (p : Program) (caller : Entry) (call : NodeId) (e : Entry) : Prop where
  call_eq : e.call = some call
  kind : p.kind call = "call_expression"
  unit : e.function.unit = call.unit
  passes : Passes p caller.roles (callArguments p call)
  roles : e.roles = forwardedRoles p caller.roles (callArguments p call) e.function
  depth : e.depth = caller.depth + 1
  depth_le : e.depth ≤ maxForwarding
  body : p.field? e.function "body" = some e.body

theorem passes_of_isSome {p : Program} {roles : Roles} {arguments : List NodeId}
    (h : ¬((positionOf? p arguments roles.request).isNone
      && (positionOf? p arguments roles.response).isNone) = true) : Passes p roles arguments := by
  have passed {name : Option String} (hname : ¬(positionOf? p arguments name).isNone = true) :
      ∃ n, name = some n ∧ ∃ a ∈ arguments,
        p.kind (p.skipParens a) = "identifier" ∧ p.text (p.skipParens a) = n := by
    cases name with
    | none => exact absurd rfl hname
    | some n =>
      rw [positionOf?, Option.isNone_iff_eq_none, List.findIdx?_eq_none_iff] at hname
      push Not at hname
      obtain ⟨a, ha, hnamed⟩ := hname
      exact ⟨n, rfl, a, ha, by simpa [isNamed] using hnamed⟩
  rw [Bool.and_eq_true, not_and_or] at h
  rcases h with h | h
  · obtain ⟨n, hn, hpassed⟩ := passed h
    exact ⟨n, .inl hn, hpassed⟩
  · obtain ⟨n, hn, hpassed⟩ := passed h
    exact ⟨n, .inr hn, hpassed⟩

section Next

variable {m : Type → Type} [Monad m] [LawfulMonad m] {p : Program} (o : Oracle m)

/-- A helper is taken once. -/
theorem ensures_takeHelper (roles : Roles) (callee : NodeId) (arguments : List NodeId)
    (s : UsageState) :
    Ensures (takeHelper p o roles callee arguments) s fun r s' =>
      (r = none ∧ s'.visited = s.visited) ∨ ∃ helper, r = some helper ∧
        s'.visited = helper :: s.visited ∧ helper ∉ s.visited ∧ helper.unit = callee.unit ∧
        Passes p roles arguments := by
  unfold takeHelper
  split
  · exact ensures_pure (.inl ⟨rfl, rfl⟩)
  next hpasses =>
  split
  · exact ensures_pure (.inl ⟨rfl, rfl⟩)
  refine ensures_lift_bind fun helper => ?_
  cases helper with
  | none => exact ensures_pure (.inl ⟨rfl, rfl⟩)
  | some helper =>
    refine ensures_get_bind ?_
    split
    · exact ensures_pure (.inl ⟨rfl, rfl⟩)
    next hfresh =>
    push Not at hfresh
    refine ensures_modify_bind (ensures_pure (.inr ⟨helper, rfl, rfl, ?_, hfresh.1, ?_⟩))
    · simpa using hfresh.2
    · exact passes_of_isSome hpasses

/-- What is entered at a node was not visited, and is from now on. -/
theorem ensures_next (caller : Entry) (node : NodeId) (s : UsageState) :
    Ensures (caller.next p o node) s fun next s' =>
      (next = none ∧ s.visited ⊆ s'.visited) ∨ ∃ e, next = some e ∧
        s'.visited = e.function :: s.visited ∧ e.function ∉ s.visited ∧
        caller.Calls p node e := by
  have nothing : Ensures (pure none : Usage m (Option Entry)) s fun next s' =>
      (next = none ∧ s.visited ⊆ s'.visited) ∨ ∃ e, next = some e ∧
        s'.visited = e.function :: s.visited ∧ e.function ∉ s.visited ∧ caller.Calls p node e :=
    ensures_pure (.inl ⟨rfl, List.Subset.refl _⟩)
  unfold Entry.next
  split
  · next hcall =>
    cases hcallee : (p.field? node "function").map p.skipParens with
    | none => exact nothing
    | some callee =>
      refine (ensures_takeHelper o caller.roles callee _ s).bind fun r s' hr => ensures_pure ?_
      rcases hr with ⟨rfl, hs⟩ | ⟨helper, rfl, hs, hfresh, hunit, hpasses⟩
      · exact .inl ⟨rfl, hs ▸ List.Subset.refl _⟩
      · rw [Option.bind_some, Entry.helper?]
        cases hbody : p.field? helper "body" with
        | none => exact .inl ⟨rfl, hs ▸ List.subset_cons_self _ _⟩
        | some body =>
          refine .inr ⟨_, rfl, hs, hfresh, rfl, hcall.1, ?_, hpasses, rfl, rfl, hcall.2, hbody⟩
          obtain ⟨function, hfunction, rfl⟩ := Option.map_eq_some_iff.1 hcallee
          exact hunit.trans ((unit_skipParens function).trans (unit_of_field? hfunction))
  · exact nothing

end Next

/-! ### The invariant of the rounds -/

namespace Descent

/-- What holds of every state of a descent, and the functions that were visited then. -/
structure Lawful (p : Program) (handler : NodeId) (d : Descent) (visited : List NodeId) : Prop where
  visited : ∀ e ∈ d.entered, e.function ∈ visited
  nodup : (d.entered.map Entry.function).Nodup
  body : ∀ e ∈ d.entered, p.field? e.function "body" = some e.body
  unit : ∀ e ∈ d.entered, e.function.unit = handler.unit
  way : ∀ e ∈ d.entered, e = .ofHandler p handler e.body ∨
    ∃ caller ∈ d.entered, ∃ call ∈ p.preorder caller.body, caller.Calls p call e
  known : ∀ f ∈ d.frames, f.entry ∈ d.entered
  pending : ∀ f ∈ d.frames, ∀ node ∈ f.pending, node ∈ p.preorder f.entry.body
  /-- The number of calls that lead to a body is the number of bodies around it. -/
  depth : ∀ f callers, f :: callers <:+ d.frames → f.entry.depth = callers.length

section Steps

variable {p : Program} {handler : NodeId} {d : Descent} {visited visited' : List NodeId}
  {caller e : Entry} {node : NodeId} {pending : List NodeId} {callers : List Frame}

theorem lawful_empty (p : Program) (handler : NodeId) (visited : List NodeId) :
    Lawful p handler {} visited where
  visited _ h := by cases h
  nodup := List.nodup_nil
  body _ h := by cases h
  unit _ h := by cases h
  way _ h := by cases h
  known _ h := by cases h
  pending _ h := by cases h
  depth f callers h := by simpa using List.IsSuffix.subset h

theorem mem_preorder_of_mem_frame {node : NodeId} (h : node ∈ e.frame.pending) :
    node ∈ p.preorder e.body := by
  unfold Entry.frame at h
  split at h
  · cases h
  · rw [List.mem_singleton.1 h]
    exact mem_preorder.2 .refl

theorem lawful_start {body : NodeId} (hbody : p.field? handler "body" = some body) :
    Lawful p handler ⟨[(Entry.ofHandler p handler body).frame], [.ofHandler p handler body]⟩
      [handler] where
  visited e he := by
    rw [List.mem_singleton.1 he]
    exact List.mem_cons_self
  nodup := List.nodup_singleton _
  body e he := by
    rw [List.mem_singleton.1 he]
    exact hbody
  unit e he := by
    rw [List.mem_singleton.1 he]
    rfl
  way e he := by
    rw [List.mem_singleton.1 he]
    exact .inl rfl
  known f hf := by
    rw [List.mem_singleton.1 hf]
    exact List.mem_cons_self
  pending f hf node hnode := by
    rw [List.mem_singleton.1 hf] at hnode ⊢
    exact mem_preorder_of_mem_frame hnode
  depth f callers h := by
    obtain ⟨rfl, rfl⟩ : f = (Entry.ofHandler p handler body).frame ∧ callers = [] := by
      simpa [List.suffix_cons_iff] using h
    rfl

theorem Lawful.mono (h : Lawful p handler d visited) (hsub : visited ⊆ visited') :
    Lawful p handler d visited' :=
  { h with visited := fun e he => hsub (h.visited e he) }

/-- A body is left. -/
theorem Lawful.leave {f : Frame} (h : Lawful p handler d visited) (hd : d.frames = f :: callers) :
    Lawful p handler { d with frames := callers } visited where
  visited := h.visited
  nodup := h.nodup
  body := h.body
  unit := h.unit
  way := h.way
  known f hf := h.known f (hd ▸ List.mem_cons_of_mem _ hf)
  pending f hf := h.pending f (hd ▸ List.mem_cons_of_mem _ hf)
  depth f callers hf := h.depth f callers (hd ▸ hf.trans (List.suffix_cons _ _))

/-- The walk over a body goes on below a node. -/
theorem Lawful.walk (h : Lawful p handler d visited)
    (hd : d.frames = ⟨caller, node :: pending⟩ :: callers) :
    Lawful p handler
      { d with frames := ⟨caller, p.namedChildren node ++ pending⟩ :: callers } visited where
  visited := h.visited
  nodup := h.nodup
  body := h.body
  unit := h.unit
  way := h.way
  known := by
    have hknown := h.known
    rw [hd, List.forall_mem_cons] at hknown
    exact List.forall_mem_cons.2 hknown
  pending := by
    have hpending := h.pending
    rw [hd, List.forall_mem_cons] at hpending
    refine List.forall_mem_cons.2 ⟨fun c hc => ?_, hpending.2⟩
    rcases List.mem_append.1 hc with hc | hc
    · have hnode := mem_preorder.1 (hpending.1 node List.mem_cons_self)
      exact mem_preorder.2 (hnode.tail hc)
    · exact hpending.1 c (List.mem_cons_of_mem _ hc)
  depth f callers' hf := by
    rcases List.suffix_cons_iff.1 hf with hf | hf
    · cases hf
      exact h.depth ⟨caller, node :: pending⟩ callers (hd ▸ List.suffix_rfl)
    · exact h.depth f callers' (hd ▸ hf.trans (List.suffix_cons _ _))

/-- A helper is entered by a call in the innermost body. -/
theorem Lawful.enter {f : Frame} (h : Lawful p handler d visited) (hd : d.frames = f :: callers)
    (hnode : node ∈ p.preorder f.entry.body) (hfresh : e.function ∉ visited)
    (hcall : f.entry.Calls p node e) :
    Lawful p handler ⟨e.frame :: d.frames, e :: d.entered⟩ (e.function :: visited) := by
  have hcaller : f.entry ∈ d.entered := h.known f (hd ▸ List.mem_cons_self)
  constructor
  case visited =>
    exact List.forall_mem_cons.2
      ⟨List.mem_cons_self, fun x hx => List.mem_cons_of_mem _ (h.visited x hx)⟩
  case nodup =>
    rw [List.map_cons, List.nodup_cons]
    refine ⟨fun hmem => hfresh ?_, h.nodup⟩
    obtain ⟨x, hx, hsame⟩ := List.mem_map.1 hmem
    exact hsame ▸ h.visited x hx
  case body => exact List.forall_mem_cons.2 ⟨hcall.body, h.body⟩
  case unit =>
    refine List.forall_mem_cons.2 ⟨?_, h.unit⟩
    -- the call is in the body of its function
    rw [hcall.unit, unit_of_mem_preorder hnode, unit_of_field? (h.body _ hcaller)]
    exact h.unit _ hcaller
  case way =>
    refine List.forall_mem_cons.2 ⟨.inr ⟨f.entry, ?_, node, hnode, hcall⟩, fun x hx => ?_⟩
    · exact List.mem_cons_of_mem _ hcaller
    · refine (h.way x hx).imp_right fun ⟨caller, hmem, hcalls⟩ => ?_
      exact ⟨caller, List.mem_cons_of_mem _ hmem, hcalls⟩
  case known =>
    exact List.forall_mem_cons.2
      ⟨List.mem_cons_self, fun f hf => List.mem_cons_of_mem _ (h.known f hf)⟩
  case pending =>
    exact List.forall_mem_cons.2 ⟨fun c hc => mem_preorder_of_mem_frame hc, h.pending⟩
  case depth =>
    intro g around hg
    rcases List.suffix_cons_iff.1 hg with hg | hg
    · cases hg
      have hdepth := h.depth f callers (hd ▸ List.suffix_rfl)
      rw [hd, List.length_cons, ← hdepth]
      exact hcall.depth
    · exact h.depth g around hg

theorem Lawful.depth_le (h : Lawful p handler d visited) {e : Entry} (he : e ∈ d.entered) :
    e.depth ≤ maxForwarding := by
  rcases h.way e he with hhandler | ⟨caller, -, call, -, hcalls⟩
  · rw [hhandler]
    exact Nat.zero_le _
  · exact hcalls.depth_le

/-- No more bodies are inside each other than calls are followed, and that of the handler. -/
theorem Lawful.length_frames_le (h : Lawful p handler d visited) :
    d.frames.length ≤ maxForwarding + 1 := by
  cases hd : d.frames with
  | nil => exact Nat.zero_le _
  | cons f callers =>
    have hdepth := h.depth f callers (hd ▸ List.suffix_rfl)
    have hle := h.depth_le (h.known f (hd ▸ List.mem_cons_self))
    rw [List.length_cons]
    omega

/-- In a linked tree no two functions have the same body. -/
theorem Lawful.nodup_bodies (hp : p.Linked) (h : Lawful p handler d visited) :
    (d.entered.map Entry.body).Nodup := by
  refine List.Nodup.of_map p.parent? ?_
  have hparent : (d.entered.map Entry.body).map p.parent? =
      (d.entered.map Entry.function).map some := by
    rw [List.map_map, List.map_map]
    refine List.map_congr_left fun e he => ?_
    exact hp.parent?_eq (List.mem_of_find?_eq_some (h.body e he))
  rw [hparent]
  exact h.nodup.map (Option.some_injective _)

end Steps

end Descent

end RouteContract.Crawl
