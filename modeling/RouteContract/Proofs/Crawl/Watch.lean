import Mathlib
import RouteContract.Crawl.Routes

/-!
# Watching a crawl

A watched crawl is the crawl with a look at three kinds of events while it runs: a unit is walked, a
handler is merged into an operation, the body of a function is analysed. The watch may do anything
in the monad of the oracle, so that it can stop the crawl, or keep a record. A property of every
event of a crawl is stated with a watch that is silent on the events that have it: then the watched
crawl is the crawl, whatever the watch does on other events, which never come.

`Confines` says what such a property has to go by: what holds of the units that the crawl comes to,
and of the branches of mounts that lead to them. `crawlWatched_eq` derives from it that a watch that
is silent on these is never heard.
-/

namespace RouteContract

/-- A sequence depends on what follows the results of its first part only. -/
theorem bind_congr_of_satisfiesM {m : Type → Type} [Monad m] [LawfulMonad m] {α β : Type} {x : m α}
    {P : α → Prop} (hx : SatisfiesM P x) {f g : α → m β} (h : ∀ a, P a → f a = g a) :
    x >>= f = x >>= g := by
  obtain ⟨y, rfl⟩ := hx
  rw [bind_map_left, bind_map_left]
  exact bind_congr fun a => h a.1 a.2

/-- The results of a question are those of the oracle. -/
theorem satisfiesM_lift {m : Type → Type} [Monad m] [LawfulMonad m] {σ α : Type} {q : m α}
    {P : α → Prop} (hq : SatisfiesM P q) : SatisfiesM P (StateT.lift q : StateT σ m α) := by
  obtain ⟨y, rfl⟩ := hq
  refine ⟨StateT.lift y, StateT.ext fun s => ?_⟩
  simp [StateT.run_map, StateT.run_lift]

/-- An answer that is known needs no question. -/
theorem lift_pure {m : Type → Type} [Monad m] [LawfulMonad m] {σ α : Type} (a : α) :
    (StateT.lift (pure a) : StateT σ m α) = pure a := by
  refine StateT.ext fun s => ?_
  rw [StateT.run_lift, pure_bind, StateT.run_pure]

/-! ### Walks -/

namespace Program

variable (p : Program) {m : Type → Type} [Monad m]

/-- A walk stays in the unit of its nodes. -/
theorem walkM_congr {unit : ℕ} {visit visit' : NodeId → m Unit}
    (h : ∀ node, node.unit = unit → visit node = visit' node) (pending : List NodeId)
    (hp : ∀ node ∈ pending, node.unit = unit) : p.walkM visit pending = p.walkM visit' pending := by
  fun_induction walkM p visit pending with
  | case1 => rw [walkM]
  | case2 node pending ih =>
    obtain ⟨hnode, hpending⟩ := List.forall_mem_cons.1 hp
    rw [walkM, h node hnode, ih]
    intro child hchild
    rcases List.mem_append.1 hchild with hc | hc
    · rw [(mem_children (mem_children_of_mem_namedChildren hc)).1, hnode]
    · exact hpending child hc

theorem walkM_root_congr {unit : ℕ} {visit visit' : NodeId → m Unit}
    (h : ∀ node, node.unit = unit → visit node = visit' node) :
    p.walkM visit [.root unit] = p.walkM visit' [.root unit] :=
  p.walkM_congr h _ (by simp [NodeId.root])

variable {p}

theorem unit_of_field? {id c : NodeId} {role : String} (h : p.field? id role = some c) :
    c.unit = id.unit :=
  (mem_children (List.mem_of_find?_eq_some h)).1

theorem unit_of_mem_namedChildren {id c : NodeId} (h : c ∈ p.namedChildren id) : c.unit = id.unit :=
  (mem_children (mem_children_of_mem_namedChildren h)).1

theorem unit_skipParens (id : NodeId) : (p.skipParens id).unit = id.unit := by
  fun_induction skipParens p id with
  | case1 id _ inner h ih => rw [ih, unit_of_mem_namedChildren (List.mem_of_head? h)]
  | case2 => rfl
  | case3 => rfl

end Program

namespace Crawl

open Program

variable {m : Type → Type} [Monad m]

/-! ### Watched crawls -/

/-- What a crawl comes to while it runs. -/
inductive Event where
  /-- A unit is walked, at the end of a branch of mounts. -/
  | walk (unit : ℕ) (stack : List ℕ)
  /-- The documentation, the directives and the usage of a handler are merged into an operation. -/
  | merge (handler : NodeId)
  /-- The body of a handler or of a helper function is analysed. -/
  | enter (body : NodeId)
deriving DecidableEq, Repr

section

variable (p : Program) (o : Oracle m) (markers : List String) (watch : Event → m Unit)

/-- `analyse` with a look at each body. -/
def analyseWatched : ℕ → Roles → NodeId → Usage m Unit
  | 0, roles, body => do
    askOracle (watch (.enter body))
    analyse p o 0 roles body
  | left + 1, roles, body => do
    askOracle (watch (.enter body))
    if roles.request.isNone && roles.response.isNone then pure ()
    else p.walkM (visitNode p o (followCall p o (analyseWatched left)) roles) [body]

/-- `analyseHandlerM` with a look at each body. -/
def analyseHandlerMWatched (handler : NodeId) : Usage m Unit := do
  let parameters := parameterNodes p handler
  if let request :: _ :: _ := parameters then applyRequestArguments p o request
  let roles : Roles :=
    ⟨parameters[0]?.bind (bindingName? p), parameters[1]?.bind (bindingName? p)⟩
  if let some body := p.field? handler "body" then
    modify fun s => { s with visited := handler :: s.visited }
    analyseWatched p o watch maxForwarding roles body

/-- `analyseHandler` with a look at the handler and each body. -/
def analyseHandlerWatched (handler : NodeId) (operation : Operation) (table : Entries Schema) :
    m (Operation × Entries Schema) := do
  watch (.merge handler)
  let (_, s) ← (analyseHandlerMWatched p o watch handler).run ⟨operation, table, []⟩
  return (s.operation, s.table)

/-- `analyseHandlers` with a look at each handler and each body. -/
def analyseHandlersWatched (op : Operation) (table : Entries Schema) :
    List NodeId → m (Operation × Entries Schema)
  | [] => return (op, table)
  | handler :: rest => do
    let (op, table) ← analyseHandlerWatched p o watch handler op table
    analyseHandlersWatched op table rest

/-- `registerRoute` with a look at each handler and each body. -/
def registerRouteWatched (base : String) (method : Method) (call : NodeId) (c : MemberCall) :
    Crawling m Unit := do
  match ← inquire (resolvePath p o c.first) with
  | none => return
  | some routePath =>
    let handlers ← inquire (resolveHandlers p o (handlerArguments p c))
    if handlers.isEmpty then return
    inquire (handlers.forM fun handler => watch (.merge handler))
    let path := Route.braced (Route.join base routePath)
    let (op, warnings) := documentedOperation p markers call path handlers
    let s ← get
    let (op, table) ← inquire (analyseHandlersWatched p o watch op s.table handlers)
    set { s with
      routes := s.routes.register path method op
      table
      warnings := s.warnings ++ warnings }

/-- `visitCallSite` with a look at each handler and each body. -/
def visitCallSiteWatched (crawlUnit : ℕ → String → List ℕ → Crawling m Unit) (base : String)
    (stack : List ℕ) (node : NodeId) : Crawling m Unit :=
  if p.kind node = "call_expression" then
    match memberCall? p node with
    | none => pure ()
    | some c =>
      if Text.sameAscii c.verb "use" then mountUnit p o crawlUnit base stack c
      else match Method.ofVerb? c.verb with
        | some method => registerRouteWatched p o markers watch base method node c
        | none => pure ()
  else pure ()

/-- `crawlUnit` with a look at every event. -/
def crawlUnitWatched : ℕ → ℕ → String → List ℕ → Crawling m Unit
  | 0, unit, base, stack => do
    inquire (watch (.walk unit stack))
    p.walkM (visitCallSiteWatched p o markers watch (fun _ _ _ => pure ()) base stack) [.root unit]
  | left + 1, unit, base, stack => do
    inquire (watch (.walk unit stack))
    p.walkM (visitCallSiteWatched p o markers watch (crawlUnitWatched left) base stack) [.root unit]

/-- `crawl` with a look at every event. -/
def crawlWatched (entry : ℕ) : m (Crawled × List Warning) := do
  let (_, s) ← (crawlUnitWatched p o markers watch p.units.size entry "/" [entry]).run {}
  return (⟨s.routes, s.table⟩, s.warnings)

end

/-! ### Where the crawl comes to -/

section

variable {p : Program}

/-- Outside the program there are no calls. -/
theorem unit_lt_of_call {node : NodeId} (h : p.kind node = "call_expression") :
    node.unit < p.units.size := by
  by_contra hunit
  have hempty : p.unit node.unit = {} := by
    rw [Program.unit, Array.getD_eq_getD_getElem?, Array.getElem?_eq_none (not_lt.1 hunit)]
    rfl
  rw [kind, Program.node, hempty, Array.getD_eq_getD_getElem?, Array.getElem?_empty] at h
  exact absurd h (by decide)

theorem unit_of_mem_callArguments {call argument : NodeId} (h : argument ∈ callArguments p call) :
    argument.unit = call.unit := by
  unfold callArguments at h
  split at h
  · next list hlist => rw [unit_of_mem_namedChildren h, unit_of_field? hlist]
  · cases h

/-- The arguments of a call are in its unit. -/
theorem unit_of_memberCall? {call : NodeId} {c : MemberCall} (h : memberCall? p call = some c) :
    c.first.unit = call.unit ∧ ∀ a ∈ c.trailing, a.unit = call.unit := by
  unfold memberCall? at h
  obtain ⟨function, -, h⟩ := Option.bind_eq_some_iff.1 h
  split at h
  · cases h
  · obtain ⟨property, -, h⟩ := Option.bind_eq_some_iff.1 h
    split at h
    · next first second more harguments =>
      cases h
      have hunit : ∀ a ∈ first :: second :: more, a.unit = call.unit := fun a ha =>
        unit_of_mem_callArguments (by rw [harguments]; exact ha)
      exact ⟨hunit first (by simp), fun a ha => hunit a (List.mem_cons_of_mem _ ha)⟩
    · cases h

/-- The function that a declaration defines is in its unit. -/
theorem unit_of_functionOf? {declaration function : NodeId}
    (h : functionOf? p declaration = some function) : function.unit = declaration.unit := by
  unfold functionOf? at h
  dsimp only at h
  split at h
  · cases h
    rfl
  · split at h
    · obtain ⟨value, hvalue, rfl⟩ := Option.map_eq_some_iff.1 (Option.filter_eq_some_iff.1 h).1
      rw [unit_skipParens, unit_of_field? hvalue]
    · cases h

end

/-- Which units a crawl may come to, and by which branches of mounts. -/
structure Confines (p : Program) (o : Oracle m) (U : ℕ → Prop) (B : ℕ → List ℕ → Prop) : Prop where
  /-- Declarations in the project are in such units. -/
  declared (s : SymbolId) :
    SatisfiesM (fun ds => ∀ d ∈ ds, p.origin d = .project → U d.unit) (o.declarations s)
  /-- Such a branch leads to such a unit. -/
  unit {unit : ℕ} {stack : List ℕ} (h : B unit stack) : U unit
  /-- A mount of a unit that is not on the branch makes such a branch. -/
  mount {unit target : ℕ} {stack : List ℕ} (h : B unit stack) (hunit : unit < p.units.size)
    (ht : U target) (hn : target ∉ stack) : B target (stack ++ [target])

/-- A watch that is silent on what a crawl may come to. -/
structure Silent (U : ℕ → Prop) (B : ℕ → List ℕ → Prop) (watch : Event → m Unit) : Prop where
  walk (unit : ℕ) (stack : List ℕ) (h : B unit stack) : watch (.walk unit stack) = pure ()
  merge (handler : NodeId) (h : U handler.unit) : watch (.merge handler) = pure ()
  enter (body : NodeId) (h : U body.unit) : watch (.enter body) = pure ()

variable [LawfulMonad m] {p : Program} {o : Oracle m} {U : ℕ → Prop} {B : ℕ → List ℕ → Prop}

namespace Confines

variable (hU : Confines p o U B)
include hU

theorem declarationOf (node : NodeId) :
    SatisfiesM (fun r => ∀ d ∈ r, U d.unit) (declarationOf p o node) := by
  refine SatisfiesM.bind (SatisfiesM.trivial (x := referredSymbol o node)) fun s _ => ?_
  cases s with
  | none => exact SatisfiesM.pure (by simp)
  | some s =>
    refine SatisfiesM.bind (hU.declared s) fun ds hds => SatisfiesM.pure fun d hd => ?_
    obtain ⟨hhead, horigin⟩ := Option.filter_eq_some_iff.1 hd
    exact hds d (List.mem_of_head? hhead) (by simpa using horigin)

theorem resolveHandler {node : NodeId} (h : U node.unit) :
    SatisfiesM (fun r => ∀ f ∈ r, U f.unit) (resolveHandler p o node) := by
  unfold Crawl.resolveHandler
  dsimp only
  split
  · refine SatisfiesM.pure fun f hf => ?_
    rw [← Option.some.inj hf, unit_skipParens]
    exact h
  · split
    · refine SatisfiesM.bind (hU.declarationOf _) fun d hd => SatisfiesM.pure fun f hf => ?_
      obtain ⟨declaration, rfl, hf⟩ := Option.bind_eq_some_iff.1 hf
      rw [unit_of_functionOf? hf]
      exact hd declaration rfl
    · exact SatisfiesM.pure (by simp)

theorem resolveHandlers {arguments : List NodeId} (h : ∀ a ∈ arguments, U a.unit) :
    SatisfiesM (fun handlers => ∀ f ∈ handlers, U f.unit) (resolveHandlers p o arguments) := by
  induction arguments with
  | nil => exact SatisfiesM.pure (by simp)
  | cons a rest ih =>
    obtain ⟨ha, hrest⟩ := List.forall_mem_cons.1 h
    refine SatisfiesM.bind (hU.resolveHandler ha) fun r hr => ?_
    cases r with
    | none => exact ih hrest
    | some f =>
      refine SatisfiesM.bind (ih hrest) fun handlers hs => SatisfiesM.pure ?_
      exact List.forall_mem_cons.2 ⟨hr f rfl, hs⟩

theorem resolveMount (node : NodeId) :
    SatisfiesM (fun r => ∀ t ∈ r, U t) (resolveMount p o node) := by
  refine SatisfiesM.bind (hU.declarationOf _) fun d hd => SatisfiesM.pure fun t ht => ?_
  obtain ⟨declaration, rfl, rfl⟩ := Option.map_eq_some_iff.1 ht
  exact hd declaration rfl

end Confines

/-! ### Computations that call others -/

omit [LawfulMonad m] in
/-- A helper function is analysed in the unit of the call only. -/
theorem followCall_congr {analyse analyse' : Roles → NodeId → Usage m Unit} {callee : NodeId}
    (h : ∀ roles body, body.unit = callee.unit → analyse roles body = analyse' roles body)
    (roles : Roles) (arguments : List NodeId) :
    followCall p o analyse roles callee arguments =
      followCall p o analyse' roles callee arguments := by
  unfold followCall
  split
  · rfl
  split
  · rfl
  refine bind_congr fun helper => ?_
  cases helper with
  | none => rfl
  | some helper =>
    refine bind_congr fun s => ?_
    split
    · rfl
    · next hhelper =>
      rw [not_or, not_not] at hhelper
      refine bind_congr fun _ => ?_
      split
      · next body hbody => exact h _ body ((unit_of_field? hbody).trans hhelper.1)
      · rfl

omit [LawfulMonad m] in
theorem visitNode_congr {follow follow' : Roles → NodeId → List NodeId → Usage m Unit}
    {node : NodeId} (h : ∀ roles callee arguments, callee.unit = node.unit →
      follow roles callee arguments = follow' roles callee arguments) (roles : Roles) :
    visitNode p o follow roles node = visitNode p o follow' roles node := by
  unfold visitNode
  split
  · unfold visitCall
    split
    · rfl
    · next function hfunction =>
      obtain ⟨callee, hcallee, rfl⟩ := Option.map_eq_some_iff.1 hfunction
      have hunit : (p.skipParens callee).unit = node.unit := by
        rw [unit_skipParens, unit_of_field? hcallee]
      simp only [h _ _ _ hunit]
  all_goals rfl

/-- A unit is crawled when it is mounted, not being on the branch. -/
theorem mountUnit_congr (hU : Confines p o U B)
    {crawlUnit crawlUnit' : ℕ → String → List ℕ → Crawling m Unit} {stack : List ℕ}
    (h : ∀ target base, U target → target ∉ stack →
      crawlUnit target base (stack ++ [target]) = crawlUnit' target base (stack ++ [target]))
    (base : String) (c : MemberCall) :
    mountUnit p o crawlUnit base stack c = mountUnit p o crawlUnit' base stack c := by
  unfold mountUnit
  refine bind_congr fun path =>
    bind_congr_of_satisfiesM (satisfiesM_lift (hU.resolveMount c.second)) fun target ht => ?_
  cases target with
  | none => rfl
  | some target =>
    dsimp only
    split
    · rfl
    · next hn => exact h target _ (ht target rfl) (by simpa using hn)

theorem visitCallSite_congr (hU : Confines p o U B)
    {crawlUnit crawlUnit' : ℕ → String → List ℕ → Crawling m Unit} {stack : List ℕ} {node : NodeId}
    (h : node.unit < p.units.size → ∀ target base, U target → target ∉ stack →
      crawlUnit target base (stack ++ [target]) = crawlUnit' target base (stack ++ [target]))
    (markers : List String) (base : String) :
    visitCallSite p o markers crawlUnit base stack node =
      visitCallSite p o markers crawlUnit' base stack node := by
  unfold visitCallSite
  split
  · next hkind => simp only [mountUnit_congr hU (h (unit_lt_of_call hkind))]
  · rfl

/-! ### Silent watches -/

namespace Silent

variable {watch : Event → m Unit} (hw : Silent U B watch)
include hw

theorem analyseWatched (left : ℕ) (roles : Roles) {body : NodeId} (h : U body.unit) :
    analyseWatched p o watch left roles body = analyse p o left roles body := by
  induction left generalizing roles body with
  | zero => rw [Crawl.analyseWatched, hw.enter body h, askOracle, lift_pure, pure_bind]
  | succ left ih =>
    rw [Crawl.analyseWatched, hw.enter body h, askOracle, lift_pure, pure_bind, analyse]
    split
    · rfl
    · have hbody : ∀ start ∈ [body], start.unit = body.unit := by simp
      refine p.walkM_congr (fun node hnode => ?_) _ hbody
      refine visitNode_congr (fun roles callee arguments hcallee => ?_) roles
      refine followCall_congr (fun roles inner hinner => ih roles ?_) roles arguments
      rw [hinner, hcallee, hnode]
      exact h

theorem analyseHandlerMWatched {handler : NodeId} (h : U handler.unit) :
    analyseHandlerMWatched p o watch handler = analyseHandlerM p o handler := by
  have hbody : ∀ body, p.field? handler "body" = some body → U body.unit := fun body hbody => by
    rw [unit_of_field? hbody]
    exact h
  unfold Crawl.analyseHandlerMWatched analyseHandlerM
  cases hfield : p.field? handler "body" with
  | none => rfl
  | some body =>
    dsimp only
    rewrite [hw.analyseWatched _ _ (hbody body hfield)]
    rfl

theorem analyseHandlerWatched {handler : NodeId} (h : U handler.unit) (op : Operation)
    (table : Entries Schema) :
    analyseHandlerWatched p o watch handler op table = analyseHandler p o handler op table := by
  rw [Crawl.analyseHandlerWatched, hw.merge handler h, pure_bind, hw.analyseHandlerMWatched h]
  rfl

theorem analyseHandlersWatched {handlers : List NodeId} (h : ∀ f ∈ handlers, U f.unit)
    (op : Operation) (table : Entries Schema) :
    analyseHandlersWatched p o watch op table handlers =
      analyseHandlers p o op table handlers := by
  induction handlers generalizing op table with
  | nil => rfl
  | cons handler rest ih =>
    obtain ⟨hhandler, hrest⟩ := List.forall_mem_cons.1 h
    rw [Crawl.analyseHandlersWatched, analyseHandlers, hw.analyseHandlerWatched hhandler]
    exact bind_congr fun r => ih hrest r.1 r.2

theorem forM_merge {handlers : List NodeId} (h : ∀ f ∈ handlers, U f.unit) :
    (handlers.forM fun handler => watch (.merge handler)) = pure () := by
  induction handlers with
  | nil => rfl
  | cons handler rest ih =>
    obtain ⟨hhandler, hrest⟩ := List.forall_mem_cons.1 h
    rw [List.forM_eq_forM, List.forM_cons, hw.merge handler hhandler, pure_bind,
      ← List.forM_eq_forM, ih hrest]

theorem registerRouteWatched (hU : Confines p o U B) {call : NodeId} {c : MemberCall}
    (hc : memberCall? p call = some c) (h : U call.unit) (markers : List String) (base : String)
    (method : Method) :
    registerRouteWatched p o markers watch base method call c =
      registerRoute p o markers base method call c := by
  have harguments : ∀ a ∈ handlerArguments p c, U a.unit := fun a ha => by
    rw [(unit_of_memberCall? hc).2 a (List.mem_of_mem_filter ha)]
    exact h
  unfold Crawl.registerRouteWatched registerRoute
  refine bind_congr fun path => ?_
  cases path with
  | none => rfl
  | some path =>
    refine bind_congr_of_satisfiesM (satisfiesM_lift (hU.resolveHandlers harguments))
      fun handlers hs => ?_
    split
    · rfl
    · rw [hw.forM_merge hs, inquire, lift_pure, pure_bind]
      simp only [hw.analyseHandlersWatched hs]

theorem visitCallSiteWatched (hU : Confines p o U B) {node : NodeId} (h : U node.unit)
    (crawlUnit : ℕ → String → List ℕ → Crawling m Unit) (markers : List String) (base : String)
    (stack : List ℕ) :
    visitCallSiteWatched p o markers watch crawlUnit base stack node =
      visitCallSite p o markers crawlUnit base stack node := by
  unfold Crawl.visitCallSiteWatched visitCallSite
  cases hc : memberCall? p node with
  | none => rfl
  | some c =>
    dsimp only
    cases Method.ofVerb? c.verb with
    | none => rfl
    | some method =>
      dsimp only
      rewrite [hw.registerRouteWatched hU hc h]
      rfl

end Silent

/-! ### The crawl -/

namespace Silent

variable {watch : Event → m Unit} (hw : Silent U B watch) (hU : Confines p o U B)
include hw hU

theorem crawlUnitWatched (markers : List String) (left : ℕ) {unit : ℕ} {stack : List ℕ}
    (h : B unit stack) (base : String) :
    crawlUnitWatched p o markers watch left unit base stack =
      crawlUnit p o markers left unit base stack := by
  induction left generalizing unit stack base with
  | zero =>
    rw [Crawl.crawlUnitWatched, crawlUnit, hw.walk unit stack h, inquire, lift_pure, pure_bind]
    refine p.walkM_root_congr fun node hnode => ?_
    exact hw.visitCallSiteWatched hU (hnode ▸ hU.unit h) _ markers base stack
  | succ left ih =>
    rw [Crawl.crawlUnitWatched, crawlUnit, hw.walk unit stack h, inquire, lift_pure, pure_bind]
    refine p.walkM_root_congr fun node hnode => ?_
    rw [hw.visitCallSiteWatched hU (hnode ▸ hU.unit h)]
    refine visitCallSite_congr hU (fun hunit target base ht hn => ?_) markers base
    exact ih (hU.mount h (hnode ▸ hunit) ht hn) base

end Silent

/-- **A watch that is silent on what the crawl may come to is never heard.** -/
theorem crawlWatched_eq {watch : Event → m Unit} (hw : Silent U B watch) (hU : Confines p o U B)
    (markers : List String) {entry : ℕ} (h : B entry [entry]) :
    crawlWatched p o markers watch entry = crawl p o markers entry := by
  rw [crawlWatched, hw.crawlUnitWatched hU markers _ h]
  rfl

theorem confines_true (p : Program) (o : Oracle m) :
    Confines p o (fun _ => True) fun _ _ => True where
  declared _ := SatisfiesM.of_true fun _ _ _ _ => trivial
  unit _ := trivial
  mount _ _ _ _ := trivial

end Crawl

end RouteContract
