import RouteContract.Types.Members

/-!
# The resolver

The steps of the resolver are tied together by a bound on how deep they may call each other:
`calls n` are the steps that may nest `n` deep. The bound of a program grows with its size, and the
resolver of a program is the oracle whose answers stay below it.
-/

namespace RouteContract.Types

/-- The steps of the resolver, nested to a bound. -/
def calls (p : Program) : Nat → Calls
  | 0 => .none
  | bound + 1 =>
    { evalType := fun node env => evalType p (calls p bound) node env
      valueType := fun node => valueType p (calls p bound) node
      membersOf := fun t => membersOf p (calls p bound) t
      symbolType := fun s => symbolType p (calls p bound) s
      propertyType := fun t name => propertyType (calls p bound) t name }

/-- How deep the steps of the resolver of a program may nest. -/
def nestingBound (p : Program) : Nat := 32 * p.totalSize + 1048576

/-- The kinds of declarations whose name stands for what they declare. -/
def namedDeclarationKinds : List String :=
  ["variable_declarator", "function_declaration", "class_declaration", "interface_declaration",
    "type_alias_declaration", "enum_declaration"]

/-- The declaration that a node is the name of. -/
def namedDeclaration? (p : Program) (node : NodeId) : Option NodeId :=
  if (p.node node).field = some "name" then
    (p.parent? node).filter fun a => namedDeclarationKinds.contains (p.kind a)
  else none

/-- The type of an expression, of the name of a declaration, or of a type expression. -/
def typeAt (p : Program) (calls : Calls) (node : NodeId) : Resolve TypeId := do
  if typeKinds.contains (p.kind node) then evalType p calls node []
  else match namedDeclaration? p node with
    | some decl => declarationType p calls decl (← bindingSymbol p decl)
    | none => valueType p calls node

/-- The symbol of the binding of a name. -/
def nameSymbol (p : Program) (space : Names.Space) (node : NodeId) : Resolve (Option SymbolId) := do
  match Names.lookup p space (p.text node) node with
  | some binding => return some (← bindingSymbol p binding)
  | none => return none

/-- The expression inside parentheses and non-null marks. -/
def unwrapped? (p : Program) (node : NodeId) : Option NodeId :=
  if p.kind node = "parenthesized_expression" ∨ p.kind node = "non_null_expression" then
    match _h : (p.namedChildren node).head? with
    | some child => unwrapped? p child
    | none => none
  else some node
termination_by p.size node.unit - node.index
decreasing_by exact Names.namedChild_descends (List.mem_of_head? _h)

/-- The symbol that a node refers to. -/
def symbolAt (p : Program) (calls : Calls) (node : NodeId) : Resolve (Option SymbolId) :=
  match unwrapped? p node with
  | none => return none
  | some node =>
    match p.kind node with
    | "identifier" => nameSymbol p .value node
    | "shorthand_property_identifier" => nameSymbol p .value node
    | "type_identifier" => nameSymbol p .type node
    | "property_identifier" =>
      match p.parent? node with
      | some a => if p.kind a = "member_expression" then memberSymbol p calls a else return none
      | none => return none
    | "member_expression" => memberSymbol p calls node
    | _ => return none

/-- The declarations of a symbol. -/
def declarations (s : SymbolId) : Resolve (List NodeId) := do
  match (← symbol s).kind with
  | .declared decl => return [decl]
  | .imported decl _ _ => return [decl]
  | .enumMember decl _ => return [decl]
  | .property _ decl _ _ => return decl.toList
  | .module unit => return [.root unit]
  | .builtin => return []

/-- Whether a symbol is that of an optional property or parameter. -/
def isOptional (p : Program) (s : SymbolId) : Resolve Bool := do
  match (← symbol s).kind with
  | .property _ _ _ isOptional => return isOptional
  | .declared decl => return p.kind decl == "optional_parameter"
  | _ => return false

/-- The name of the type that owns a property. -/
def containerName (s : SymbolId) : Resolve (Option String) := do
  match (← symbol s).kind with
  | .property owner _ _ _ =>
    match ← data owner with
    | .object _ s through => return some (← symbol (through.getD s)).name
    | .named s _ => return some (← symbol s).name
    | .enum s => return some (← symbol s).name
    | _ => return none
  | _ => return none

/-- The kinds of declarations whose documentation also counts for what they hold. -/
def documentedHolders : List String :=
  ["variable_declarator", "lexical_declaration", "variable_declaration", "export_statement"]

/-- The documentation of a node or of one of the declarations around it. -/
def docTextWithin? (p : Program) : Nat → NodeId → Option String
  | 0, _ => none
  | left + 1, node =>
    match p.docComment? node with
    | some doc => doc.text
    | none =>
      ((p.parent? node).filter fun a => documentedHolders.contains (p.kind a)).bind
        (docTextWithin? p left)

/-- The documentation of a symbol. -/
def docText (p : Program) (s : SymbolId) : Resolve (Option String) := do
  return (← declarations s).head?.bind (docTextWithin? p 3)

/-- The shape of a type. -/
def shapeOf : TypeData → TypeShape
  | .any => .any
  | .unknown => .unknown
  | .never => .never
  | .void => .void
  | .undefined => .undefined
  | .null => .null
  | .string => .string
  | .number => .number
  | .boolean => .boolean
  | .stringLit s => .stringLiteral s
  | .numberLit text => .numberLiteral ((Decimal.number? text.toList).getD ⟨0⟩)
  | .booleanLit b => .booleanLiteral b
  | .enum _ => .enum
  | .union _ => .union
  | .intersection _ => .intersection
  | .array _ => .object
  | .tuple _ => .object
  | .object _ _ _ => .object
  | .named _ _ => .object
  | .function _ => .function

/-- The symbol that names a type. -/
def typeSymbol (t : TypeId) : Resolve (Option SymbolId) := do
  match ← data t with
  | .object _ s _ => return some s
  | .named s _ => return some s
  | .enum s => return some s
  | .array _ => return some (← builtinSymbol "Array")
  | .function _ => return some (← builtinSymbol "__function")
  | _ => return none

/-- The symbol of the alias through which an object type was reached. -/
def aliasSymbol (t : TypeId) : Resolve (Option SymbolId) := do
  match ← data t with
  | .object _ _ through => return through
  | _ => return none

/-- The arguments of a generic type, the elements of an array or tuple. -/
def typeArguments : TypeData → List TypeId
  | .array element => [element]
  | .tuple elements => elements
  | .named _ args => args
  | .object (.declared _ args) _ _ => args
  | _ => []

/-- The members of a union or intersection. -/
def constituents : TypeData → List TypeId
  | .union members => members
  | .intersection members => members
  | _ => []

/-- The number of call signatures in a body. -/
def callSignatures (p : Program) (body : NodeId) : Nat :=
  ((p.namedChildren body).filter fun m => p.kind m == "call_signature").length

/-- The number of ways in which a type can be called. -/
def callSignatureCount (p : Program) : TypeData → Nat
  | .function _ => 1
  | .object (.literal node _) _ _ => callSignatures p node
  | .object (.declared decl _) _ _ =>
    match p.field? decl "body" with
    | some body => callSignatures p body
    | none => 0
  | _ => 0

/-- The values of an enum. -/
def enumLiterals (p : Program) (calls : Calls) (t : TypeId) : Resolve (List LiteralValue) := do
  match ← data t with
  | .enum s => return (← enumMembers p calls s).map EnumMember.value
  | _ => return []

/-- The oracle of the resolver of a program, nested to a bound. -/
def oracleWithin (p : Program) (bound : Nat) : Oracle Resolve where
  typeAt := typeAt p (calls p bound)
  typeOfTypeNode node := evalType p (calls p bound) node []
  symbolAt := symbolAt p (calls p bound)
  symbolName s := do return (← symbol s).name
  isAlias s := do
    match (← symbol s).kind with
    | .imported _ _ _ => return true
    | _ => return false
  aliasedSymbol := followAlias? p
  declarations := declarations
  typeOfSymbol := symbolType p (calls p bound)
  isOptional := isOptional p
  containerName := containerName
  docText := docText p
  shape t := do return shapeOf (← data t)
  typeSymbol := typeSymbol
  aliasSymbol := aliasSymbol
  typeArguments t := do return typeArguments (← data t)
  isTuple t := do
    match ← data t with
    | .tuple _ => return true
    | _ => return false
  constituents t := do return constituents (← data t)
  properties := membersOf p (calls p bound)
  callSignatureCount t := do return callSignatureCount p (← data t)
  enumLiterals := enumLiterals p (calls p bound)
  promiseDepth t := t

/-- The oracle of the resolver of a program. -/
def oracle (p : Program) : Oracle Resolve := oracleWithin p (nestingBound p)

/-- A type in words, to a number of nested types. -/
def describeWithin : Nat → TypeId → Resolve String
  | 0, _ => return "..."
  | left + 1, t => do
    let joined (types : List TypeId) (separator : String) : Resolve String := do
      return String.intercalate separator (← types.mapM (describeWithin left))
    match ← data t with
    | .any => return "any"
    | .unknown => return "unknown"
    | .never => return "never"
    | .void => return "void"
    | .undefined => return "undefined"
    | .null => return "null"
    | .string => return "string"
    | .number => return "number"
    | .boolean => return "boolean"
    | .stringLit s => return "\"" ++ s ++ "\""
    | .numberLit text => return text
    | .booleanLit b => return if b then "true" else "false"
    | .array element => return (← describeWithin left element) ++ "[]"
    | .tuple elements => return "[" ++ (← joined elements ", ") ++ "]"
    | .union members => joined members " | "
    | .intersection members => joined members " & "
    | .object key s through =>
      let name := (← symbol (through.getD s)).name
      match key with
      | .declared _ (arg :: args) => return name ++ "<" ++ (← joined (arg :: args) ", ") ++ ">"
      | _ => return name
    | .enum s => return (← symbol s).name
    | .function _ => return "function"
    | .named s [] => return (← symbol s).name
    | .named s args => return (← symbol s).name ++ "<" ++ (← joined args ", ") ++ ">"

/-- A type in words. -/
def describe (t : TypeId) : Resolve String := describeWithin 5 t

end RouteContract.Types
