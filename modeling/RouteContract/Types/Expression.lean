import RouteContract.Types.Form
import RouteContract.Types.Numeral
import RouteContract.Types.Tables

/-!
# What type expressions denote

`evalType` evaluates a type expression, given the types that the type parameters around it stand
for. A name stands for a type parameter, else for a declaration in scope, else for a library type.
A parameter without an argument stands for its default, else for its constraint. An alias that is
met again while it is being evaluated says nothing.
-/

namespace RouteContract.Types

variable (p : Program) (calls : Calls)

/-- The type of a literal. -/
def literalType (node : NodeId) : Resolve TypeId := do
  match p.kind node with
  | "string" =>
    match p.stringValue? node with
    | some value => intern (.stringLit value)
    | none => intern .string
  | "number" => intern (.numberLit (canonicalNumeral (p.text node)))
  | "true" => intern (.booleanLit true)
  | "false" => intern (.booleanLit false)
  | "null" => intern .null
  | "undefined" => intern .undefined
  | "unary_expression" =>
    let negative := ((p.field? node "operator").map p.text) == some "-"
    match p.field? node "argument" with
    | some arg =>
      if p.kind arg = "number" then
        let text := canonicalNumeral (p.text arg)
        intern (.numberLit (if negative then "-" ++ text else text))
      else intern .number
    | none => intern .number
  | _ => anyType

/-- The type of a predefined name. -/
def predefinedType (name : String) : Resolve TypeId :=
  match name with
  | "string" => intern .string
  | "number" => intern .number
  | "bigint" => intern .number
  | "boolean" => intern .boolean
  | "unknown" => intern .unknown
  | "never" => intern .never
  | "void" => intern .void
  | "undefined" => intern .undefined
  | "null" => intern .null
  | "object" => builtinType "Object" []
  | "symbol" => builtinType "Symbol" []
  | _ => anyType

/-- Fill up type arguments with the defaults of their parameters, from the first missing one on. -/
def fillArgs (args : List TypeId) : List NodeId → Resolve (List TypeId)
  | [] => return args
  | param :: rest => do
    let fallback := (p.field? param "value").bind fun v => (p.namedChildren v).head?
    let arg ← match fallback with
      | some v => calls.evalType v []
      | none => intern .unknown
    fillArgs (args ++ [arg]) rest

/-- The type arguments of a declaration: as many as it has parameters. -/
def completeArgs (decl : NodeId) (args : List TypeId) : Resolve (List TypeId) := do
  let params := Names.typeParameters p decl
  let filled ← fillArgs p calls args (params.drop args.length)
  return filled.take params.length

/-- The parameters of a declaration with the types they stand for. -/
def bindEnv (decl : NodeId) (args : List TypeId) : Resolve Env := do
  let unknown ← intern .unknown
  return (Names.typeParameters p decl).zipIdx.filterMap fun (param, i) =>
    (p.field? param "name").map fun name => (p.text name, args.getD i unknown)

/-- The type that an alias declaration stands for with type arguments; an object type keeps the
symbol of the alias. -/
def aliasValue (decl : NodeId) (s : SymbolId) (args : List TypeId) : Resolve TypeId := do
  let env ← bindEnv p decl args
  match p.field? decl "value" with
  | some value =>
    if p.kind value = "object_type" then
      let literalSymbol ← builtinSymbol "__type"
      intern (.object (.literal value env) literalSymbol (some s))
    else calls.evalType value env
  | none => anyType

/-- The type of an alias declaration with type arguments, remembered. -/
def aliasType (decl : NodeId) (s : SymbolId) (args : List TypeId) : Resolve TypeId := do
  let args ← completeArgs p calls decl args
  let key : AliasKey := (decl, args)
  let memory ← get
  match memory.aliases.lookup key with
  | some known => return known
  | none =>
    if memory.resolving.contains key then anyType
    else
      set { memory with resolving := key :: memory.resolving }
      let result ← aliasValue p calls decl s args
      modify fun memory =>
        { memory with
          resolving := memory.resolving.erase key
          aliases := (key, result) :: memory.aliases }
      return result

/-- The type of the instances of a declaration. -/
def declaredType (decl : NodeId) (s : SymbolId) (args : List TypeId) : Resolve TypeId := do
  match p.kind decl with
  | "interface_declaration" =>
    intern (.object (.declared decl (← completeArgs p calls decl args)) s none)
  | "class_declaration" =>
    intern (.object (.declared decl (← completeArgs p calls decl args)) s none)
  | "abstract_class_declaration" =>
    intern (.object (.declared decl (← completeArgs p calls decl args)) s none)
  | "class" => intern (.object (.declared decl (← completeArgs p calls decl args)) s none)
  | "type_alias_declaration" => aliasType p calls decl s args
  | "enum_declaration" => intern (.enum s)
  | _ => anyType

/-- The type that a symbol denotes in the position of a type. -/
def symbolInstanceType (s : SymbolId) (name : String) (args : List TypeId) : Resolve TypeId := do
  let denoted (target : SymbolId) : Resolve TypeId := do
    match (← symbol target).kind with
    | .declared decl => declaredType p calls decl target args
    | _ => builtinType name args
  match (← symbol s).kind with
  | .imported _ _ imported =>
    match ← followAlias? p s with
    | some target => denoted target
    | none => builtinType (if imported = "default" ∨ imported = "*" then name else imported) args
  | _ => denoted s

/-- The type of a qualified name. -/
def qualifiedType (node : NodeId) (args : List TypeId) : Resolve TypeId := do
  let name := ((p.field? node "name").map p.text).getD ""
  let unit := (p.field? node "module").bind fun m =>
    if p.kind m = "identifier" then namespaceUnit? p m else none
  match unit with
  | some unit =>
    match ← exportSymbol? p unit name with
    | some s => symbolInstanceType p calls s name args
    | none => builtinType name args
  | none => builtinType name args

/-- The type of a name, as seen from a node. -/
def namedType (name : String) (origin : NodeId) (env : Env) (args : List TypeId) :
    Resolve TypeId := do
  match env.reverse.lookup name with
  | some bound => return bound
  | none =>
    match Names.lookup p .type name origin with
    | none => builtinType name args
    | some binding =>
      if p.kind binding = "type_parameter" then
        match (p.field? binding "value").or (p.field? binding "constraint") with
        | some n => calls.evalType ((p.namedChildren n).head?.getD n) []
        | none => intern .unknown
      else symbolInstanceType p calls (← bindingSymbol p binding) name args

/-- The types of type expressions, in order. -/
def evalAll (env : Env) (nodes : List NodeId) : Resolve (List TypeId) :=
  nodes.mapM fun n => calls.evalType n env

/-- The type of the first type expression below a node. -/
def evalFirst (env : Env) (node : NodeId) : Resolve TypeId :=
  match (p.namedChildren node).head? with
  | some inner => calls.evalType inner env
  | none => anyType

/-- The types of the type arguments below a node. -/
def typeArgumentsAt (env : Env) (node : NodeId) : Resolve (List TypeId) :=
  match p.field? node "type_arguments" with
  | some list => evalAll calls env (p.namedChildren list)
  | none => return []

/-- The type of an element of a tuple. -/
def tupleElement (env : Env) (element : NodeId) : Resolve TypeId :=
  if p.kind element = "optional_type" ∨ p.kind element = "rest_type" then
    evalFirst p calls env element
  else calls.evalType ((p.field? element "type").getD element) env

/-- The type of a property that a type expression looks up. -/
def lookupType (env : Env) (node : NodeId) : Resolve TypeId := do
  match p.namedChildren node with
  | object :: index :: _ =>
    let object ← calls.evalType object env
    let key := if p.kind index = "literal_type" then
      (p.namedChildren index).head?.bind p.stringValue? else none
    match key with
    | some key => calls.propertyType object key
    | none => anyType
  | _ => anyType

/-- The type that a type expression denotes. -/
def evalType (node : NodeId) (env : Env) : Resolve TypeId := do
  match TypeForm.ofKind (p.kind node) with
  | .wrapper => evalFirst p calls env node
  | .predefined => predefinedType (p.text node)
  | .literal =>
    match (p.namedChildren node).head? with
    | some inner => literalType p inner
    | none => anyType
  | .bareLiteral => literalType p node
  | .text => intern .string
  | .name => namedType p calls (p.text node) node env []
  | .qualifiedName => qualifiedType p calls node []
  | .generic =>
    let args ← typeArgumentsAt p calls env node
    match p.field? node "name" with
    | some name =>
      if p.kind name = "nested_type_identifier" then qualifiedType p calls name args
      else namedType p calls (p.text name) node env args
    | none => anyType
  | .array => intern (.array (← evalFirst p calls env node))
  | .tuple => intern (.tuple (← (p.namedChildren node).mapM (tupleElement p calls env)))
  | .union => makeUnion (← evalAll calls env (p.namedChildren node))
  | .intersection => makeIntersection (← evalAll calls env (p.namedChildren node))
  | .object =>
    let s ← builtinSymbol "__type"
    intern (.object (.literal node env) s none)
  | .function => intern (.function (some node))
  | .query =>
    match (p.namedChildren node).head? with
    | some target => calls.valueType target
    | none => anyType
  | .lookup => lookupType p calls env node
  | .predicate => intern .boolean
  | .assertion => intern .void
  | .other => anyType

end RouteContract.Types
