import RouteContract.Crawl.Docs
import RouteContract.Crawl.Usage
import RouteContract.Document.Basic
import RouteContract.Route.Path

/-!
# The crawl

A unit is walked from its root, and every call of a member with at least two arguments is looked at.
A call of `use` mounts the unit of its second argument under the path of its first, unless that unit
is already on the branch of mounts. A call named after a request method registers an operation under
the joined path, when one of its further arguments leads to a handler; a later registration of the
same path and method replaces the earlier one in its place.
-/

namespace RouteContract.Crawl

/-- What the crawl has found so far. -/
structure CrawlState where
  routes : Routes := []
  table : Entries Schema := []
  warnings : List Warning := []

/-- The crawl over the answers of an oracle. -/
abbrev Crawling (m : Type → Type) := StateT CrawlState m

section

variable {m : Type → Type} [Monad m] (p : Program) (o : Oracle m) (markers : List String)

/-- Ask an oracle. -/
def inquire {α : Type} (query : m α) : Crawling m α := StateT.lift query

/-- A call of a member with at least two arguments: the name, and the arguments. -/
structure MemberCall where
  verb : String
  first : NodeId
  second : NodeId
  more : List NodeId
deriving Repr, Inhabited

/-- The arguments behind the first. -/
def MemberCall.trailing (c : MemberCall) : List NodeId := c.second :: c.more

/-- Read a call of a member with at least two arguments. -/
def memberCall? (call : NodeId) : Option MemberCall := do
  let function ← p.field? call "function"
  if p.kind function ≠ "member_expression" then none
  else
    let property ← p.field? function "property"
    match callArguments p call with
    | first :: second :: more => some ⟨p.text property, first, second, more⟩
    | _ => none

/-- The arguments of a route that may be handlers: all but calls. -/
def handlerArguments (c : MemberCall) : List NodeId :=
  c.trailing.filter fun a => p.kind (p.skipParens a) != "call_expression"

/-- The handlers that arguments lead to, in order. -/
def resolveHandlers : List NodeId → m (List NodeId)
  | [] => return []
  | a :: rest => do
    match ← resolveHandler p o a with
    | some handler => return handler :: (← resolveHandlers rest)
    | none => resolveHandlers rest

/-- A path parameter. -/
def pathParameter (name : String) : Parameter :=
  { name, location := .path, required := true, schema := .typed "string" }

/-- The operation of a route before its handlers are looked at. -/
def routeOperation (call : NodeId) (path : String) : Operation :=
  (Route.placeholders path).foldl (fun op name => op.addParameter (pathParameter name))
    ((callSiteDocs p call).mergeInto .fresh)

/-- Apply the directives of every handler, in order. -/
def applyAllDirectives (op : Operation) : List NodeId → Operation × List Warning
  | [] => (op, [])
  | handler :: rest =>
    let (op, warnings) := applyDirectives p markers op handler
    let (op, more) := applyAllDirectives op rest
    (op, warnings ++ more)

/-- The operation with the documentation and directives of the handlers. -/
def documentedOperation (call : NodeId) (path : String) (handlers : List NodeId) :
    Operation × List Warning :=
  applyAllDirectives p markers
    (handlers.foldl (fun op handler => (handlerDocs p handler).mergeInto op)
      (routeOperation p call path)) handlers

/-- Analyse the handlers of a route, in order. -/
def analyseHandlers (op : Operation) (table : Entries Schema) :
    List NodeId → m (Operation × Entries Schema)
  | [] => return (op, table)
  | handler :: rest => do
    let (op, table) ← analyseHandler p o handler op table
    analyseHandlers op table rest

/-- Register the operation of a call with a method. -/
def registerRoute (base : String) (method : Method) (call : NodeId) (c : MemberCall) :
    Crawling m Unit := do
  match ← inquire (resolvePath p o c.first) with
  | none => return
  | some routePath =>
    let handlers ← inquire (resolveHandlers p o (handlerArguments p c))
    if handlers.isEmpty then return
    let path := Route.braced (Route.join base routePath)
    let (op, warnings) := documentedOperation p markers call path handlers
    let s ← get
    let (op, table) ← inquire (analyseHandlers p o op s.table handlers)
    set { s with
      routes := s.routes.register path method op
      table
      warnings := s.warnings ++ warnings }

/-- Mount the unit that a call leads to, unless it is on the branch. -/
def mountUnit (crawlUnit : Nat → String → List Nat → Crawling m Unit) (base : String)
    (stack : List Nat) (c : MemberCall) : Crawling m Unit := do
  let mountPath := (← inquire (resolvePath p o c.first)).getD "/"
  match ← inquire (resolveMount p o c.second) with
  | none => return
  | some target =>
    if stack.contains target then return
    crawlUnit target (Route.join base mountPath) (stack ++ [target])

/-- Look at a node. -/
def visitCallSite (crawlUnit : Nat → String → List Nat → Crawling m Unit) (base : String)
    (stack : List Nat) (node : NodeId) : Crawling m Unit :=
  if p.kind node = "call_expression" then
    match memberCall? p node with
    | none => pure ()
    | some c =>
      if Text.sameAscii c.verb "use" then mountUnit p o crawlUnit base stack c
      else match Method.ofVerb? c.verb with
        | some method => registerRoute p o markers base method node c
        | none => pure ()
  else pure ()

/-- Crawl a unit under a base path, mounting at most so many units on a branch. -/
def crawlUnit : Nat → Nat → String → List Nat → Crawling m Unit
  | 0, unit, base, stack =>
    p.walkM (visitCallSite p o markers (fun _ _ _ => pure ()) base stack) [.root unit]
  | left + 1, unit, base, stack =>
    p.walkM (visitCallSite p o markers (crawlUnit left) base stack) [.root unit]

/-- Crawl every route that is reachable from an entry unit. -/
def crawl (entry : Nat) : m (Crawled × List Warning) := do
  let (_, s) ← (crawlUnit p o markers p.units.size entry "/" [entry]).run {}
  return (⟨s.routes, s.table⟩, s.warnings)

end

/-- The markers of a configuration; none means the defaults. -/
def markersOrDefault (markers : List String) : List String :=
  if markers.isEmpty then Directive.defaultMarkers else markers

end RouteContract.Crawl
