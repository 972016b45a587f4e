import RouteContract.Types.Expression

/-!
# The types of expressions and declarations

`infer` gives the type of an expression from its form. `valueType` remembers it; an expression that
is met again while its type is being looked for says nothing. A constant keeps the literal type of
its value, other declarations widen it.
-/

namespace RouteContract.Types

variable (p : Program) (calls : Calls)

/-- The type of the child of a node in a role. -/
def childType (node : NodeId) (role : String) : Resolve TypeId :=
  match p.field? node role with
  | some n => calls.valueType n
  | none => anyType

/-- The type of the first named child of a node, changed by a step. -/
def innerType (node : NodeId) (step : TypeId → Resolve TypeId) : Resolve TypeId :=
  match (p.namedChildren node).head? with
  | some inner => do step (← calls.valueType inner)
  | none => anyType

/-- Whether a type is that of a text. -/
def isText (t : TypeId) : Resolve Bool := do
  match ← data t with
  | .string => return true
  | .stringLit _ => return true
  | _ => return false

/-- The operators that compare. -/
def comparisons : List String :=
  ["==", "===", "!=", "!==", "<", ">", "<=", ">=", "instanceof", "in"]

/-- The type of a binary expression. -/
def inferBinary (node : NodeId) : Resolve TypeId := do
  let operator := ((p.field? node "operator").map p.text).getD ""
  if operator = "+" then
    if ← isText (← childType p calls node "left") then intern .string
    else if ← isText (← childType p calls node "right") then intern .string
    else intern .number
  else if comparisons.contains operator then intern .boolean
  else if operator = "&&" ∨ operator = "||" ∨ operator = "??" then
    let left ← childType p calls node "left"
    let right ← childType p calls node "right"
    let left ← if operator = "??" then nonNullable left else pure left
    makeUnion [left, right]
  else intern .number

/-- The type of a unary expression. -/
def inferUnary (node : NodeId) : Resolve TypeId :=
  match (p.field? node "operator").map p.text with
  | some "!" => intern .boolean
  | some "delete" => intern .boolean
  | some "typeof" => intern .string
  | some "void" => intern .undefined
  | some "-" =>
    match p.field? node "argument" with
    | some arg =>
      if p.kind arg = "number" then intern (.numberLit ("-" ++ canonicalNumeral (p.text arg)))
      else intern .number
    | none => intern .number
  | _ => intern .number

/-- The type that a function returns: declared, or that of an expression body. -/
def returnType (decl : NodeId) : Resolve TypeId := do
  match p.field? decl "return_type" with
  | some declared => calls.evalType declared []
  | none =>
    let inner ← match p.field? decl "body" with
      | some body => if p.kind body = "statement_block" then anyType else calls.valueType body
      | none => anyType
    if p.hasToken decl "async" then builtinType "Promise" [inner] else return inner

/-- The type of a call. -/
def inferCall (node : NodeId) : Resolve TypeId := do
  match p.field? node "function" with
  | none => anyType
  | some callee =>
    match ← data (← calls.valueType callee) with
    | .function (some decl) => returnType p calls decl
    | _ => anyType

/-- The type of a construction. -/
def inferNew (node : NodeId) : Resolve TypeId := do
  match p.field? node "constructor" with
  | none => anyType
  | some callee =>
    let args ← typeArgumentsAt p calls [] node
    if p.kind callee = "identifier" then
      let name := p.text callee
      match Names.lookup p .value name callee with
      | some binding => symbolInstanceType p calls (← bindingSymbol p binding) name args
      | none => builtinType name args
    else anyType

/-- The first symbol of a list with a name. -/
def findNamed (name : String) : List SymbolId → Resolve (Option SymbolId)
  | [] => return none
  | s :: rest => do
    if (← symbol s).name = name then return some s else findNamed name rest

/-- The property of a type with a name. -/
def findProperty (t : TypeId) (name : String) : Resolve (Option SymbolId) := do
  findNamed name (← calls.membersOf t)

/-- The symbol of a member expression: an export of a namespace, or a property of the object. -/
def memberSymbol (member : NodeId) : Resolve (Option SymbolId) := do
  match p.field? member "object", p.field? member "property" with
  | some object, some property =>
    let name := p.text property
    let unit := if p.kind object = "identifier" then namespaceUnit? p object else none
    match unit with
    | some unit => exportSymbol? p unit name
    | none => findProperty calls (← calls.valueType object) name
  | _, _ => return none

/-- The type of a member expression. -/
def inferMember (node : NodeId) : Resolve TypeId := do
  match ← memberSymbol p calls node with
  | some s => calls.symbolType s
  | none =>
    match p.field? node "object", p.field? node "property" with
    | some object, some property =>
      calls.propertyType (← calls.valueType object) (p.text property)
    | _, _ => anyType

/-- The type of an element of a type, by an index or a quoted name. -/
def inferSubscript (node : NodeId) : Resolve TypeId := do
  match p.field? node "object", p.field? node "index" with
  | some object, some index =>
    let object ← calls.valueType object
    match ← data object with
    | .array element => return element
    | .tuple elements =>
      if p.kind index = "number" then
        match (Text.unsigned? 10 Text.bits64 (p.text index).toList).bind fun i => elements[i]? with
        | some t => return t
        | none => anyType
      else quotedProperty object index
    | _ => quotedProperty object index
  | _, _ => anyType
where
  quotedProperty (object : TypeId) (index : NodeId) : Resolve TypeId :=
    if p.kind index = "string" then
      match p.stringValue? index with
      | some key => calls.propertyType object key
      | none => anyType
    else anyType

/-- The type of an expression, from its form. -/
def infer (node : NodeId) : Resolve TypeId := do
  match ValueForm.ofKind (p.kind node) with
  | .name =>
    match Names.lookup p .value (p.text node) node with
    | some binding => calls.symbolType (← bindingSymbol p binding)
    | none => if p.text node = "undefined" then intern .undefined else anyType
  | .string =>
    match p.stringValue? node with
    | some value => intern (.stringLit value)
    | none => intern .string
  | .number => intern (.numberLit (canonicalNumeral (p.text node)))
  | .yes => intern (.booleanLit true)
  | .no => intern (.booleanLit false)
  | .null => intern .null
  | .undefined => intern .undefined
  | .regex => builtinType "RegExp" []
  | .object =>
    let s ← builtinSymbol "__object"
    intern (.object (.value node) s none)
  | .array =>
    let elements := (p.namedChildren node).filter fun e => p.kind e != "spread_element"
    let types ← elements.mapM fun e => do widen (← calls.valueType e)
    intern (.array (← if types.isEmpty then anyType else makeUnion types))
  | .wrapper => innerType p calls node pure
  | .nonNull => innerType p calls node nonNullable
  | .cast =>
    match p.namedChildren node with
    | _ :: type :: _ => calls.evalType type []
    | [inner] => calls.valueType inner
    | [] => anyType
  | .assertion =>
    match p.childOfKind? node "type_arguments" with
    | some args => calls.evalType args []
    | none => anyType
  | .await => innerType p calls node awaited
  | .call => inferCall p calls node
  | .construction => inferNew p calls node
  | .member => inferMember p calls node
  | .subscript => inferSubscript p calls node
  | .binary => inferBinary p calls node
  | .unary => inferUnary p node
  | .update => intern .number
  | .conditional =>
    let branches := (p.field? node "consequence").toList ++ (p.field? node "alternative").toList
    makeUnion (← branches.mapM calls.valueType)
  | .assignment => childType p calls node "right"
  | .sequence =>
    match (p.namedChildren node).getLast? with
    | some last => calls.valueType last
    | none => anyType
  | .function => intern (.function (some node))
  | .other => anyType

/-- The type of an expression, remembered. -/
def valueType (node : NodeId) : Resolve TypeId := do
  let memory ← get
  match memory.nodeTypes.lookup node with
  | some known => return known
  | none =>
    if memory.inferring.contains node then anyType
    else
      set { memory with inferring := node :: memory.inferring }
      let t ← infer p calls node
      modify fun memory =>
        { memory with
          inferring := memory.inferring.erase node
          nodeTypes := (node, t) :: memory.nodeTypes }
      return t

/-- The type of a property of a type. -/
def propertyType (t : TypeId) (name : String) : Resolve TypeId := do
  let byMember : Resolve TypeId := do
    match ← findProperty calls t name with
    | some s => calls.symbolType s
    | none => anyType
  let sized : Resolve TypeId := if name = "length" then intern .number else byMember
  match ← data t with
  | .array _ => sized
  | .tuple _ => sized
  | .string => sized
  | .stringLit _ => sized
  | .union members =>
    let found ← (← presentMembers members).mapM fun m => calls.propertyType m name
    makeUnion found
  | _ => byMember

/-- The key that a name bound by a pattern takes its value from, and the node of the pattern's
element that holds it. -/
def destructuredElement? (element : NodeId) : Option (String × NodeId) :=
  if p.kind element = "shorthand_property_identifier_pattern" then some (p.text element, element)
  else do
    let pair ← (p.parent? element).filter fun a => p.kind a = "pair_pattern"
    let key ← p.field? pair "key"
    return (Names.spelled p key, pair)

/-- The key that a name bound by a pattern takes its value from, and the pattern. -/
def destructuredKey? (element : NodeId) : Option (String × NodeId) := do
  let (key, child) ← destructuredElement? p element
  let parent ← p.parent? child
  let pattern ← if p.kind parent = "object_assignment_pattern" then p.parent? parent
    else some parent
  if p.kind pattern = "object_pattern" then some (key, pattern) else none

/-- The type of a name that a pattern binds. -/
def destructuredType (element : NodeId) : Resolve TypeId := do
  match destructuredKey? p element with
  | none => anyType
  | some (key, pattern) =>
    match p.parent? pattern with
    | none => anyType
    | some holder =>
      match p.kind holder with
      | "variable_declarator" =>
        match p.field? holder "type", p.field? holder "value" with
        | some declared, _ => calls.propertyType (← calls.evalType declared []) key
        | none, some value => calls.propertyType (← calls.valueType value) key
        | none, none => anyType
      | "required_parameter" => ofParameter holder key
      | "optional_parameter" => ofParameter holder key
      | _ => anyType
where
  ofParameter (holder : NodeId) (key : String) : Resolve TypeId := do
    match p.field? holder "type" with
    | some declared => calls.propertyType (← calls.evalType declared []) key
    | none => anyType

/-- The widened type of the child of a node in a role. -/
def widenedChild (node : NodeId) (role : String) : Resolve TypeId :=
  match p.field? node role with
  | some n => do widen (← calls.valueType n)
  | none => anyType

/-- The type of the value that a declaration names. -/
def declarationType (decl : NodeId) (s : SymbolId) : Resolve TypeId := do
  match p.kind decl with
  | "variable_declarator" =>
    match p.field? decl "type", p.field? decl "value" with
    | some declared, _ => calls.evalType declared []
    | none, some value =>
      let t ← calls.valueType value
      let isConst := match p.parent? decl with
        | some d => p.hasToken d "const"
        | none => false
      if isConst then return t else widen t
    | none, none => anyType
  | "required_parameter" => ofParameter
  | "optional_parameter" => ofParameter
  | "assignment_pattern" => widenedChild p calls decl "right"
  | "shorthand_property_identifier_pattern" => destructuredType p calls decl
  | "identifier" => destructuredType p calls decl
  | "class_declaration" => intern (.function (some decl))
  | "abstract_class_declaration" => intern (.function (some decl))
  | "enum_declaration" => intern (.enum s)
  | "interface_declaration" => declaredType p calls decl s []
  | "type_alias_declaration" => declaredType p calls decl s []
  | "internal_module" => anyType
  | "module" => anyType
  | kind =>
    if functionKinds.contains kind then intern (.function (some decl)) else calls.valueType decl
where
  ofParameter : Resolve TypeId :=
    match p.field? decl "type" with
    | some declared => calls.evalType declared []
    | none => widenedChild p calls decl "value"

/-- The type of the value that a symbol names. -/
def symbolType (s : SymbolId) : Resolve TypeId := do
  match (← symbol s).kind with
  | .declared decl => declarationType p calls decl s
  | .imported _ _ _ =>
    match ← followAlias? p s with
    | some target => if target = s then anyType else calls.symbolType target
    | none => anyType
  | .module _ => anyType
  | .builtin => anyType
  | .property _ _ source _ =>
    match source with
    | .typeNode node env => calls.evalType node env
    | .value node => do widen (← calls.valueType node)
    | .method node => intern (.function (some node))
    | .fixed t => return t
  | .enumMember _ value => return value

end RouteContract.Types
