import Mathlib
import RouteContract.Proofs.Crawl.Questions

/-!
# What usage analysis is made of

Usage analysis walks bodies and follows calls, but it changes the operation, the table and the set
of visited functions in a dozen ways only. `Steps o K` lists them: a family `K` of computations with
these steps is closed under putting them together, and holds each of them. `Steps.analyseHandlerM`
goes once through the analysis and shows that every such family holds it. A law of the analysis is
then shown by going through the steps. A law of what single nodes tell, calls not being followed,
needs only the steps in `OwnSteps o K`.
-/

namespace RouteContract.Crawl

variable {m : Type → Type} [Monad m] (o : Oracle m)

/-- Add the query parameter of a property. -/
def addQueryParameter (property : SymbolId) : Usage m Unit := do
  let parameter ← queryParameter o property
  change fun op => op.addParameter parameter

/-- The parameter of a key of the query whose type has no such property. -/
def looseQueryParameter (key : String) : Parameter :=
  { name := key, location := .query, schema := .typed "string" }

/-- Describe the body by a placeholder, unless it is described. -/
def placeBody (op : Operation) : Operation :=
  if op.requestBody.isNone then { op with requestBody := some (.json Schema.inferredObject) }
  else op

/-- A family of computations that holds every step that one node makes by itself, and what is made
of such steps. -/
structure OwnSteps (K : ∀ {α : Type}, Usage m α → Prop) : Prop where
  pure {α : Type} (a : α) : K (pure a)
  bind {α β : Type} {x : Usage m α} {f : α → Usage m β} (hx : K x) (hf : ∀ a, K (f a)) :
    K (x >>= f)
  /-- Questions to the oracle. -/
  ask {α : Type} (q : m α) (hq : o.Inquiry q) : K (askOracle q)
  header (name : String) (required : Bool) : K (addHeader name required)
  query (property : SymbolId) : K (addQueryParameter o property)
  looseQuery (key : String) : K (change fun op => op.addParameter (looseQueryParameter key))
  body (t : TypeId) : K (setBody o t)
  bodyPlace : K (change placeBody)
  payload (t : TypeId) : K (sendPayload o t)
  status (code : String) : K (change fun op => op.ensureResponse code)

/-- A family of computations that holds every step of usage analysis: the steps of single nodes, and
those that follow calls. -/
structure Steps (K : ∀ {α : Type}, Usage m α → Prop) : Prop extends OwnSteps o K where
  /-- Looking which functions were visited, with the rest of the computation. -/
  visited {α : Type} {f : List NodeId → Usage m α} (hf : ∀ functions, K (f functions)) :
    K (get >>= fun s => f s.visited)
  /-- Marking a function as visited. -/
  mark (function : NodeId) : K (modify fun s => { s with visited := function :: s.visited })

namespace OwnSteps

variable {K : ∀ {α : Type}, Usage m α → Prop} {o} (hK : OwnSteps o K) (p : Program)
include hK

theorem forM {α : Type} {f : α → Usage m Unit} (l : List α) (hf : ∀ a ∈ l, K (f a)) :
    K (l.forM f) := by
  induction l with
  | nil => exact hK.pure ()
  | cons a l ih => exact hK.bind (hf a (by simp)) fun _ => ih fun a ha => hf a (by simp [ha])

theorem walkM {visit : NodeId → Usage m Unit} (hv : ∀ node, K (visit node))
    (pending : List NodeId) : K (p.walkM visit pending) := by
  fun_induction Program.walkM p visit pending with
  | case1 => exact hK.pure ()
  | case2 node pending ih => exact hK.bind (hv node) fun _ => ih

theorem addQueryParameters (t : TypeId) : K (addQueryParameters o t) :=
  hK.bind (hK.ask _ fun _ h => h.properties t) fun properties =>
    hK.forM properties fun property _ => hK.query property

theorem addHeaders (t : TypeId) : K (addHeaders o t) :=
  hK.bind (hK.ask _ fun _ h => h.properties t) fun properties =>
    hK.forM properties fun property _ =>
      hK.bind (hK.ask _ fun _ h => h.symbolName property) fun name =>
        hK.bind (hK.ask _ fun _ h => h.isOptional property) fun _ => hK.header name _

theorem applyRequestArguments (request : NodeId) : K (applyRequestArguments p o request) := by
  unfold Crawl.applyRequestArguments
  split
  · exact hK.pure ()
  · refine hK.bind (hK.ask _ fun _ h => h.argumentsAt _) fun arguments => ?_
    dsimp only
    split
    · refine hK.bind (hK.body _) fun _ => ?_
      split
      · exact hK.addQueryParameters _
      · exact hK.pure ()
    · split
      · exact hK.addQueryParameters _
      · exact hK.pure ()

/-- The payload of a call that answers. -/
theorem sent (response method : String) (function : NodeId) (arguments : List NodeId) : K (do
    if method = "json" ∨ method = "send" then
      if let some payload := arguments.head? then
        if chainRoot? p function = some response then
          sendPayload o (← askOracle (o.typeAt payload))) := by
  split
  · split
    · split
      · exact hK.bind (hK.ask _ fun _ h => h.typeAt _) fun t => hK.payload t
      · exact hK.pure ()
    · exact hK.pure ()
  · exact hK.pure ()

theorem visitResponseCall (response method : String) (function object : NodeId)
    (arguments : List NodeId) :
    K (visitResponseCall p o response method function object arguments) := by
  -- the payload is looked at whether or not the call sets a status
  unfold Crawl.visitResponseCall
  dsimp only
  split
  · split
    · exact hK.bind (hK.status _) fun _ => hK.sent p _ _ _ _
    · exact hK.sent p _ _ _ _
  · exact hK.sent p _ _ _ _

theorem visitRequestCall (request method : String) (object : NodeId) (arguments : List NodeId) :
    K (visitRequestCall p request method object arguments) := by
  unfold Crawl.visitRequestCall
  split
  · split
    · exact hK.header _ _
    · exact hK.pure ()
  · exact hK.pure ()

/-- What a call tells of the request, and what the function behind it does. -/
theorem requested {follow : Roles → NodeId → List NodeId → Usage m Unit}
    (hf : ∀ roles callee arguments, K (follow roles callee arguments)) (roles : Roles)
    (call function : NodeId) : K (do
      if let (some request, some method, some object) := (roles.request,
          (p.field? function "property").map p.text,
          (p.field? function "object").map p.skipParens) then
        Crawl.visitRequestCall p request method object (callArguments p call)
      follow roles function (callArguments p call)) := by
  dsimp only
  split
  · exact hK.bind (hK.visitRequestCall p _ _ _ _) fun _ => hf _ _ _
  · exact hf _ _ _

theorem visitCall {follow : Roles → NodeId → List NodeId → Usage m Unit}
    (hf : ∀ roles callee arguments, K (follow roles callee arguments)) (roles : Roles)
    (call : NodeId) : K (visitCall p o follow roles call) := by
  unfold Crawl.visitCall
  split
  · exact hK.pure ()
  · next function _ =>
    dsimp only
    split
    · split
      · exact hK.bind (hK.visitResponseCall p _ _ _ _ _) fun _ => hK.requested p hf _ _ _
      · exact hK.requested p hf _ _ _
    · exact hf _ _ _

theorem visitMember (roles : Roles) (member : NodeId) : K (visitMember p roles member) := by
  unfold Crawl.visitMember
  split
  · split
    · exact hK.bodyPlace
    · exact hK.pure ()
  · split
    · split
      · exact hK.header _ _
      · exact hK.pure ()
    · exact hK.pure ()

theorem visitSubscript (roles : Roles) (subscript : NodeId) :
    K (visitSubscript p roles subscript) := by
  unfold Crawl.visitSubscript
  split
  · exact hK.pure ()
  · dsimp only
    split
    · split
      · exact hK.header _ _
      · exact hK.pure ()
    · exact hK.pure ()

theorem visitCast (roles : Roles) (cast : NodeId) : K (visitCast p o roles cast) := by
  unfold Crawl.visitCast
  split
  · exact hK.pure ()
  split
  · exact hK.pure ()
  refine hK.bind (hK.ask _ fun _ h => h.castType p cast) fun t => ?_
  split
  · exact hK.body t
  split
  · exact hK.addQueryParameters t
  split
  · exact hK.addHeaders t
  · exact hK.pure ()

theorem visitDeclarator [LawfulMonad m] (roles : Roles) (declarator : NodeId) :
    K (visitDeclarator p o roles declarator) := by
  unfold Crawl.visitDeclarator
  split
  · split
    · refine hK.bind (hK.ask _ fun _ h => h.typeAt _) fun t => ?_
      refine hK.bind (hK.ask _ fun _ h => h.properties t) fun properties => ?_
      refine hK.forM _ fun key _ =>
        hK.bind (hK.ask _ fun _ h => h.propertyNamed key properties) fun found => ?_
      dsimp only
      split
      · exact hK.query _
      · rw [pure_bind]
        exact hK.looseQuery key
    · exact hK.pure ()
  · exact hK.pure ()

theorem visitNode [LawfulMonad m] {follow : Roles → NodeId → List NodeId → Usage m Unit}
    (hf : ∀ roles callee arguments, K (follow roles callee arguments)) (roles : Roles)
    (node : NodeId) : K (visitNode p o follow roles node) := by
  unfold Crawl.visitNode
  split
  · exact hK.visitCall p hf roles node
  · exact hK.visitMember p roles node
  · exact hK.visitSubscript p roles node
  · exact hK.visitCast p roles node
  · exact hK.visitCast p roles node
  · exact hK.visitDeclarator p roles node
  · exact hK.pure ()

/-- A body is analysed by itself when no calls are followed. -/
theorem analyseOwn [LawfulMonad m] (roles : Roles) (body : NodeId) :
    K (Crawl.analyse p o 0 roles body) := by
  unfold Crawl.analyse
  split
  · exact hK.pure ()
  · exact hK.walkM p (hK.visitNode p (fun _ _ _ => hK.pure ()) roles) [body]

end OwnSteps

namespace Steps

variable {K : ∀ {α : Type}, Usage m α → Prop} {o} (hK : Steps o K) (p : Program)
include hK

theorem followCall {analyse : Roles → NodeId → Usage m Unit}
    (ha : ∀ roles body, K (analyse roles body)) (roles : Roles) (callee : NodeId)
    (arguments : List NodeId) : K (followCall p o analyse roles callee arguments) := by
  unfold Crawl.followCall
  split
  · exact hK.pure ()
  split
  · exact hK.pure ()
  refine hK.bind (hK.ask _ fun _ h => h.resolveHandler p callee) fun helper => ?_
  split
  · exact hK.pure ()
  · next helper =>
    refine hK.visited (f := fun functions => if helper.unit ≠ callee.unit ∨
      functions.contains helper then Pure.pure () else _) fun functions => ?_
    split
    · exact hK.pure ()
    · refine hK.bind (hK.mark helper) fun _ => ?_
      split
      · exact ha _ _
      · exact hK.pure ()

/-- What one more level of calls adds is again made of steps. -/
theorem analyse [LawfulMonad m] (left : Nat) (roles : Roles) (body : NodeId) :
    K (analyse p o left roles body) := by
  induction left generalizing roles body with
  | zero => exact hK.analyseOwn p roles body
  | succ left ih =>
    unfold Crawl.analyse
    split
    · exact hK.pure ()
    · exact hK.walkM p (hK.visitNode p (hK.followCall p ih) roles) [body]

/-- The body of a handler. -/
theorem entered [LawfulMonad m] (handler : NodeId) (roles : Roles) : K (do
    if let some body := p.field? handler "body" then
      modify fun s => { s with visited := handler :: s.visited }
      Crawl.analyse p o maxForwarding roles body : Usage m Unit) := by
  split
  · exact hK.bind (hK.mark handler) fun _ => hK.analyse p _ _ _
  · exact hK.pure ()

/-- The analysis of a handler is made of steps. -/
theorem analyseHandlerM [LawfulMonad m] (handler : NodeId) : K (analyseHandlerM p o handler) := by
  unfold Crawl.analyseHandlerM
  dsimp only
  split
  · exact hK.bind (hK.applyRequestArguments p _) fun _ => hK.entered p _ _
  · exact hK.entered p _ _

end Steps

end RouteContract.Crawl
