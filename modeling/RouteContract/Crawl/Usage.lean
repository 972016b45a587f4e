import RouteContract.Crawl.Reference
import RouteContract.Crawl.Walk
import RouteContract.Document.Operation
import RouteContract.Schema.Generator

/-!
# What a handler reads and sends

The parameters, the request body and the responses of an operation, from the way in which a handler
uses its request and response values. The values are known by the names of the first two parameters;
a helper function of the same unit that receives one of them is analysed too, once for a handler,
and to a bounded depth of calls.
-/

namespace RouteContract.Crawl

/-- The names of the request and the response value. -/
structure Roles where
  request : Option String := none
  response : Option String := none
deriving DecidableEq, Repr, Inhabited

/-- The operation so far, the table of named schemas, and the functions already analysed. -/
structure UsageState where
  operation : Operation
  table : Entries Schema
  visited : List NodeId

/-- Usage analysis over the answers of an oracle. -/
abbrev Usage (m : Type → Type) := StateT UsageState m

/-- How many calls deep helper functions are followed. -/
def maxForwarding : Nat := 8

/-- The kinds of nodes around an expression that keep its value. -/
def transparentKinds : List String :=
  ["parenthesized_expression", "non_null_expression", "satisfies_expression"]

/-- The kinds of casts. -/
def castKinds : List String := ["as_expression", "type_assertion"]

section Trees

variable (p : Program)

/-- The parameters of a function. -/
def parameterNodes (function : NodeId) : List NodeId :=
  match p.field? function "parameters" with
  | some list => p.namedChildren list
  | none => (p.field? function "parameter").toList

/-- The identifier that a parameter binds, when it is a plain name. -/
def bindingNode? (parameter : NodeId) : Option NodeId :=
  let kind := p.kind parameter
  let node := if kind = "required_parameter" ∨ kind = "optional_parameter" then
      p.field? parameter "pattern"
    else if kind = "assignment_pattern" then p.field? parameter "left"
    else some parameter
  node.filter fun n => p.kind n == "identifier"

/-- The name that a parameter binds, when it is a plain name. -/
def bindingName? (parameter : NodeId) : Option String := (bindingNode? p parameter).map p.text

/-- The arguments of a call. -/
def callArguments (call : NodeId) : List NodeId :=
  match p.field? call "arguments" with
  | some list => p.namedChildren list
  | none => []

/-- A status code that is written as a number. -/
def statusCode? (node : NodeId) : Option String :=
  let node := p.skipParens node
  if p.kind node = "number" then
    (Text.unsigned? 10 Text.bits16 (p.text node).toList).map fun code => Text.integerText code
  else none

/-- Whether a node is an identifier with a name. -/
def isNamed (node : NodeId) (name : String) : Bool :=
  p.kind node == "identifier" && p.text node == name

/-- The step from a chain of members and calls to what is before its end. -/
def chainStep? (node : NodeId) : Option NodeId :=
  let kind := p.kind node
  if kind = "member_expression" ∨ kind = "subscript_expression" then p.field? node "object"
  else if kind = "call_expression" then p.field? node "function"
  else if transparentKinds.contains kind then (p.namedChildren node).head?
  else none

/-- A step of a chain goes to a larger index, inside the arena. -/
theorem chainStep?_descends {p : Program} {id c : NodeId} (h : chainStep? p id = some c) :
    p.size c.unit - c.index < p.size id.unit - id.index := by
  unfold chainStep? at h
  simp only at h
  split at h
  · exact Names.field?_descends h
  · split at h
    · exact Names.field?_descends h
    · split at h
      · exact Names.namedChild_descends (List.mem_of_head? h)
      · simp at h

/-- The name at the root of a chain of members and calls. -/
def chainRoot? (node : NodeId) : Option String :=
  if p.kind node = "identifier" then some (p.text node)
  else match _h : chainStep? p node with
    | some next => chainRoot? next
    | none => none
termination_by p.size node.unit - node.index
decreasing_by exact chainStep?_descends _h

/-- The name of a property that is read off the request. -/
def requestProperty? (roles : Roles) (node : NodeId) : Option String :=
  match roles.request, p.field? node "object" with
  | some request, some object =>
    if p.kind node = "member_expression" ∧ isNamed p (p.skipParens object) request then
      (p.field? node "property").map p.text
    else none
  | _, _ => none

/-- Whether a node is a cast. -/
def isCast (id : NodeId) : Bool := castKinds.contains (p.kind id)

/-- The parent of a node, through nodes that keep its value. -/
def outerNode? (node : NodeId) : Option NodeId :=
  match _h : p.parent? node with
  | some a => if transparentKinds.contains (p.kind a) then outerNode? a else some a
  | none => none
termination_by node.index
decreasing_by exact Program.parent?_index_lt _h

/-- Whether a cast is directly around a node. -/
def insideCast (node : NodeId) : Bool := (outerNode? p node).any (isCast p)

/-- The expression that a cast casts. -/
def castOperand? (node : NodeId) : Option NodeId :=
  if p.kind node = "as_expression" then (p.namedChildren node).head?
  else if p.kind node = "type_assertion" then
    (p.namedChildren node).find? fun c => p.kind c != "type_arguments"
  else none

/-- The operand of a cast has a larger index, inside the arena. -/
theorem castOperand?_descends {p : Program} {id c : NodeId} (h : castOperand? p id = some c) :
    p.size c.unit - c.index < p.size id.unit - id.index := by
  unfold castOperand? at h
  split at h
  · exact Names.namedChild_descends (List.mem_of_head? h)
  · split at h
    · exact Names.namedChild_descends (List.mem_of_find?_eq_some h)
    · simp at h

/-- What is inside parentheses is no further from the end of the arena. -/
theorem skipParens_descends (id : NodeId) :
    p.size (p.skipParens id).unit - (p.skipParens id).index ≤ p.size id.unit - id.index := by
  fun_induction Program.skipParens p id with
  | case1 id _ inner h ih =>
    have := Names.namedChild_descends (List.mem_of_head? h)
    omega
  | case2 => omega
  | case3 => omega

/-- The expression under casts, given a node without parentheses around it. -/
def castCore (node : NodeId) : NodeId :=
  match _h : castOperand? p node with
  | some inner => castCore (p.skipParens inner)
  | none => node
termination_by p.size node.unit - node.index
decreasing_by
  have := castOperand?_descends _h
  have := skipParens_descends p inner
  omega

/-- The expression under casts and parentheses. -/
def stripCasts (node : NodeId) : NodeId := castCore p (p.skipParens node)

/-- The type expression of a cast; a cast to a constant has none. -/
def castTypeNode? (cast : NodeId) : Option NodeId :=
  if p.kind cast = "type_assertion" then
    (p.childOfKind? cast "type_arguments").bind fun args => (p.namedChildren args).head?
  else if 2 ≤ (p.namedChildren cast).length then (p.namedChildren cast).getLast?
  else none

/-- The keys of a pattern that takes an object apart. -/
def destructuredKeys (pattern : NodeId) : List String :=
  (p.namedChildren pattern).filterMap fun element =>
    match p.kind element with
    | "shorthand_property_identifier_pattern" => some (p.text element)
    | "pair_pattern" =>
      (p.field? element "key").map fun key => (p.stringValue? key).getD (p.text key)
    | "object_assignment_pattern" => (p.field? element "left").map p.text
    | _ => none

/-- The position of the first argument that is a name. -/
def positionOf? (arguments : List NodeId) : Option String → Option Nat
  | some name => arguments.findIdx? fun a => isNamed p (p.skipParens a) name
  | none => none

/-- The names under which a helper function receives the request and the response. -/
def forwardedRoles (roles : Roles) (arguments : List NodeId) (helper : NodeId) : Roles :=
  let parameters := parameterNodes p helper
  let rename (name : Option String) : Option String :=
    ((positionOf? p arguments name).bind fun i => parameters[i]?).bind (bindingName? p)
  ⟨rename roles.request, rename roles.response⟩

end Trees

section Analysis

variable {m : Type → Type} [Monad m] (p : Program) (o : Oracle m)

/-- Ask an oracle. -/
def askOracle {α : Type} (query : m α) : Usage m α := StateT.lift query

/-- Generate the schema of a type. -/
def schemaOf (t : TypeId) : Usage m Schema := do
  let s ← get
  let (schema, table) ← askOracle ((Schema.ofType o t).run s.table)
  modify fun s => { s with table }
  return schema

/-- Change the operation. -/
def change (f : Operation → Operation) : Usage m Unit :=
  modify fun s => { s with operation := f s.operation }

/-- The header that the media type of the body describes. -/
def contentType : String := "content-type"

/-- Add a header parameter. -/
def addHeader (name : String) (required : Bool) : Usage m Unit :=
  if Text.sameAscii name contentType then pure ()
  else change fun op =>
    op.addParameter { name, location := .header, required, schema := .typed "string" }

/-- The query parameter of a property. -/
def queryParameter (property : SymbolId) : Usage m Parameter := do
  let name ← askOracle (o.symbolName property)
  let schema ← schemaOf o (← askOracle (o.typeOfSymbol property))
  let isOptional ← askOracle (o.isOptional property)
  let description ← askOracle (o.docText property)
  return {
    name
    location := .query
    required := !isOptional
    schema := if schema.isBlank then .typed "string" else schema
    description }

/-- Add a query parameter for each property of a type. -/
def addQueryParameters (t : TypeId) : Usage m Unit := do
  (← askOracle (o.properties t)).forM fun property => do
    let parameter ← queryParameter o property
    change fun op => op.addParameter parameter

/-- Set the request body, when its schema tells anything. -/
def setBody (t : TypeId) : Usage m Unit := do
  let schema ← schemaOf o t
  if !schema.isEmpty then change fun op => { op with requestBody := some (.json schema) }

/-- Apply the type arguments of the request parameter: its third is the body, its fourth the
query. -/
def applyRequestArguments (request : NodeId) : Usage m Unit := do
  match bindingNode? p request with
  | none => return
  | some name =>
    let arguments ← askOracle (do o.typeArguments (← o.typeAt name))
    if let some body := arguments[2]? then setBody o body
    if let some query := arguments[3]? then addQueryParameters o query

/-- Give the response 200 the schema of a payload, unless it has content. -/
def sendPayload (payload : TypeId) : Usage m Unit := do
  change fun op => op.ensureResponse "200"
  let described := (Entries.get? "200" (← get).operation.responses).any fun r => !r.content.isEmpty
  if !described then
    let schema ← schemaOf o payload
    let fill (r : Response) : Response := { r with content := [(jsonMediaType, ⟨schema⟩)] }
    change fun op => { op with responses := Entries.change "200" fill op.responses }

/-- What a method call on the response tells. -/
def visitResponseCall (response method : String) (function object : NodeId)
    (arguments : List NodeId) : Usage m Unit := do
  if isNamed p object response ∧ (method = "status" ∨ method = "sendStatus") then
    if let some code := arguments.head?.bind (statusCode? p) then
      change fun op => op.ensureResponse code
  if method = "json" ∨ method = "send" then
    if let some payload := arguments.head? then
      if chainRoot? p function = some response then
        sendPayload o (← askOracle (o.typeAt payload))

/-- What a method call on the request tells. -/
def visitRequestCall (request method : String) (object : NodeId) (arguments : List NodeId) :
    Usage m Unit := do
  if isNamed p object request ∧ (method = "header" ∨ method = "get") then
    if let some name := arguments.head?.bind p.stringValue? then addHeader name false

/-- Analyse the helper function that a call hands the request or the response to. -/
def followCall (analyse : Roles → NodeId → Usage m Unit) (roles : Roles) (callee : NodeId)
    (arguments : List NodeId) : Usage m Unit := do
  if (positionOf? p arguments roles.request).isNone
      && (positionOf? p arguments roles.response).isNone then return
  if isFunctionLiteral p callee then return
  match ← askOracle (resolveHandler p o callee) with
  | none => return
  | some helper =>
    if helper.unit ≠ callee.unit ∨ (← get).visited.contains helper then return
    modify fun s => { s with visited := helper :: s.visited }
    if let some body := p.field? helper "body" then
      analyse (forwardedRoles p roles arguments helper) body

/-- What a call tells. -/
def visitCall (follow : Roles → NodeId → List NodeId → Usage m Unit) (roles : Roles)
    (call : NodeId) : Usage m Unit := do
  match (p.field? call "function").map p.skipParens with
  | none => return
  | some function =>
    let arguments := callArguments p call
    if p.kind function = "member_expression" then
      let method := (p.field? function "property").map p.text
      let object := (p.field? function "object").map p.skipParens
      if let (some response, some method, some object) := (roles.response, method, object) then
        visitResponseCall p o response method function object arguments
      if let (some request, some method, some object) := (roles.request, method, object) then
        visitRequestCall p request method object arguments
    follow roles function arguments

/-- What a member expression tells: the body is read, or a header. -/
def visitMember (roles : Roles) (member : NodeId) : Usage m Unit := do
  if requestProperty? p roles member = some "body" then
    if !insideCast p member then
      change fun op =>
        if op.requestBody.isNone then
          { op with requestBody := some (.json Schema.inferredObject) }
        else op
  else
    match (p.field? member "object").map p.skipParens, p.field? member "property" with
    | some object, some property =>
      if requestProperty? p roles object = some "headers" then addHeader (p.text property) false
    | _, _ => return

/-- What a subscript tells: a header is read. -/
def visitSubscript (roles : Roles) (subscript : NodeId) : Usage m Unit := do
  match (p.field? subscript "object").map p.skipParens with
  | none => return
  | some object =>
    if requestProperty? p roles object = some "headers" then
      let name := (p.field? subscript "index").bind fun index =>
        p.stringValue? (p.skipParens index)
      if let some name := name then addHeader name false

/-- The type that a cast asserts. -/
def castType (cast : NodeId) : m TypeId :=
  match castTypeNode? p cast with
  | some node => o.typeOfTypeNode node
  | none => o.typeAt cast

/-- Add a header parameter for each property of a type. -/
def addHeaders (t : TypeId) : Usage m Unit := do
  (← askOracle (o.properties t)).forM fun property => do
    let name ← askOracle (o.symbolName property)
    let isOptional ← askOracle (o.isOptional property)
    addHeader name !isOptional

/-- What a cast tells; of nested casts only the outermost counts. -/
def visitCast (roles : Roles) (cast : NodeId) : Usage m Unit := do
  if insideCast p cast then return
  match requestProperty? p roles (stripCasts p cast) with
  | none => return
  | some property =>
    let t ← askOracle (castType p o cast)
    if property = "body" then setBody o t
    else if property = "query" then addQueryParameters o t
    else if property = "headers" then addHeaders o t

/-- The first property of a name. -/
def propertyNamed (name : String) : List SymbolId → m (Option SymbolId)
  | [] => return none
  | s :: rest => do
    if (← o.symbolName s) = name then return some s else propertyNamed name rest

/-- What a declaration tells: the query is taken apart. -/
def visitDeclarator (roles : Roles) (declarator : NodeId) : Usage m Unit := do
  match p.field? declarator "name", p.field? declarator "value" with
  | some pattern, some value =>
    if p.kind pattern = "object_pattern"
        ∧ requestProperty? p roles (stripCasts p value) = some "query" then
      let t ← askOracle (o.typeAt value)
      let properties ← askOracle (o.properties t)
      (destructuredKeys p pattern).forM fun key => do
        let parameter ← match ← askOracle (propertyNamed o key properties) with
          | some property => queryParameter o property
          | none => pure { name := key, location := .query, schema := .typed "string" }
        change fun op => op.addParameter parameter
  | _, _ => return

/-- What a node tells. -/
def visitNode (follow : Roles → NodeId → List NodeId → Usage m Unit) (roles : Roles)
    (node : NodeId) : Usage m Unit :=
  match p.kind node with
  | "call_expression" => visitCall p o follow roles node
  | "member_expression" => visitMember p roles node
  | "subscript_expression" => visitSubscript p roles node
  | "as_expression" => visitCast p o roles node
  | "type_assertion" => visitCast p o roles node
  | "variable_declarator" => visitDeclarator p o roles node
  | _ => pure ()

/-- Analyse a body, following calls to a depth. -/
def analyse : Nat → Roles → NodeId → Usage m Unit
  | 0, roles, body =>
    if roles.request.isNone && roles.response.isNone then pure ()
    else p.walkM (visitNode p o (fun _ _ _ => pure ()) roles) [body]
  | left + 1, roles, body =>
    if roles.request.isNone && roles.response.isNone then pure ()
    else p.walkM (visitNode p o (followCall p o (analyse left)) roles) [body]

/-- Analyse one handler. -/
def analyseHandlerM (handler : NodeId) : Usage m Unit := do
  let parameters := parameterNodes p handler
  if let request :: _ :: _ := parameters then applyRequestArguments p o request
  let roles : Roles :=
    ⟨parameters[0]?.bind (bindingName? p), parameters[1]?.bind (bindingName? p)⟩
  if let some body := p.field? handler "body" then
    modify fun s => { s with visited := handler :: s.visited }
    analyse p o maxForwarding roles body

/-- The operation and the table of named schemas after the analysis of one handler. -/
def analyseHandler (handler : NodeId) (operation : Operation) (table : Entries Schema) :
    m (Operation × Entries Schema) := do
  let (_, s) ← (analyseHandlerM p o handler).run ⟨operation, table, []⟩
  return (s.operation, s.table)

end Analysis

end RouteContract.Crawl
