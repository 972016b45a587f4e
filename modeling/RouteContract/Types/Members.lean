import RouteContract.Json.Printer
import RouteContract.Types.Inference

/-!
# The members of types

The members of an object type, in order of first occurrence of their names; a later member of the
same name takes the place of the earlier one. Inherited and spread members come before the own ones
as they stand in the source. A type that is met again while its members are being collected has
none.
-/

namespace RouteContract.Types

variable (p : Program) (calls : Calls)

/-- The name of a property, from the node that spells it. -/
def propertyName? (node : NodeId) : Option String :=
  match p.kind node with
  | "property_identifier" => some (p.text node)
  | "private_property_identifier" => some (p.text node)
  | "identifier" => some (p.text node)
  | "string" => p.stringValue? node
  | "number" => some (canonicalNumeral (p.text node))
  | _ => none

/-- The name of a member, from the child that spells it. -/
def memberName? (member : NodeId) (role : String) : Option String :=
  (p.field? member role).bind (propertyName? p)

/-- The symbol of a property. -/
def propertySymbol (owner : TypeId) (name : String) (decl : Option NodeId) (source : PropSource)
    (isOptional : Bool) : Resolve SymbolId :=
  internSymbol ⟨.property owner name, name, .property owner decl source isOptional⟩

/-- Replace the first symbol of a name, or add the symbol at the end. -/
def placeNamed (name : String) (s : SymbolId) : List SymbolId → Resolve (List SymbolId)
  | [] => return [s]
  | old :: rest => do
    if (← symbol old).name = name then return s :: rest
    else return old :: (← placeNamed name s rest)

/-- Add a member: in the place of a member of the same name, else at the end. -/
def pushMember (members : List SymbolId) (s : SymbolId) : Resolve (List SymbolId) := do
  placeNamed (← symbol s).name s members

/-- Add members in order. -/
def pushMembers (members more : List SymbolId) : Resolve (List SymbolId) :=
  more.foldlM pushMember members

/-- Where the type of a member with an optional type expression comes from. -/
def declaredSource (env : Env) (member : NodeId) : Resolve PropSource := do
  match p.field? member "type" with
  | some declared => return .typeNode declared env
  | none => return .fixed (← anyType)

/-- Add the members of an object type that is written out. -/
def literalMembers (body : NodeId) (env : Env) (owner : TypeId) (members : List SymbolId) :
    Resolve (List SymbolId) :=
  (p.namedChildren body).foldlM (fun members member => do
    let kind := p.kind member
    if kind = "property_signature" ∨ kind = "method_signature" then
      match memberName? p member "name" with
      | none => return members
      | some name =>
        let source ← if kind = "method_signature" then pure (.method member)
          else declaredSource p env member
        pushMember members
          (← propertySymbol owner name (some member) source (p.hasToken member "?"))
    else return members) members

/-- The members of an interface. -/
def interfaceMembers (decl : NodeId) (env : Env) (owner : TypeId) : Resolve (List SymbolId) := do
  let clauses := (p.namedChildren decl).filter fun c => p.kind c == "extends_type_clause"
  let bases := clauses.flatMap fun c => p.fields c "type"
  let inherited ← bases.foldlM (fun members base => do
    pushMembers members (← calls.membersOf (← calls.evalType base env))) []
  match p.field? decl "body" with
  | some body => literalMembers p body env owner inherited
  | none => return inherited

/-- The members that a class inherits. -/
def inheritedMembers (decl : NodeId) (env : Env) : Resolve (List SymbolId) := do
  let extends_ := (p.childOfKind? decl "class_heritage").bind fun h =>
    p.childOfKind? h "extends_clause"
  match extends_ with
  | none => return []
  | some clause =>
    match p.field? clause "value" with
    | none => return []
    | some base =>
      if p.kind base = "identifier" then
        let args ← typeArgumentsAt p calls env clause
        let t ← namedType p calls (p.text base) base env args
        pushMembers [] (← calls.membersOf t)
      else return []

/-- Add the properties that the parameters of a constructor declare. -/
def constructorMembers (constructor : NodeId) (env : Env) (owner : TypeId)
    (members : List SymbolId) : Resolve (List SymbolId) :=
  let params := match p.field? constructor "parameters" with
    | some params => p.namedChildren params
    | none => []
  params.foldlM (fun members param => do
    if (p.childOfKind? param "accessibility_modifier").isSome || p.hasToken param "readonly" then
      match p.field? param "pattern" with
      | none => return members
      | some pattern =>
        let source ← declaredSource p env param
        pushMember members (← propertySymbol owner (p.text pattern) (some param) source
          (p.kind param == "optional_parameter"))
    else return members) members

/-- Add a member of the body of a class. -/
def classMember (env : Env) (owner : TypeId) (members : List SymbolId) (member : NodeId) :
    Resolve (List SymbolId) := do
  if p.hasToken member "static" then return members
  match p.kind member with
  | "public_field_definition" =>
    match memberName? p member "name" with
    | none => return members
    | some name =>
      let source ← match p.field? member "type", p.field? member "value" with
        | some declared, _ => pure (.typeNode declared env)
        | none, some value => pure (.value value)
        | none, none => do pure (.fixed (← anyType))
      pushMember members
        (← propertySymbol owner name (some member) source (p.hasToken member "?"))
  | "method_definition" =>
    match memberName? p member "name" with
    | none => return members
    | some name =>
      if name = "constructor" then constructorMembers p member env owner members
      else pushMember members (← propertySymbol owner name (some member) (.method member) false)
  | _ => return members

/-- The members of a class. -/
def classMembers (decl : NodeId) (env : Env) (owner : TypeId) : Resolve (List SymbolId) := do
  let inherited ← inheritedMembers p calls decl env
  match p.field? decl "body" with
  | some body => (p.namedChildren body).foldlM (classMember p env owner) inherited
  | none => return inherited

/-- Add a member of an object expression. -/
def objectMember (owner : TypeId) (members : List SymbolId) (member : NodeId) :
    Resolve (List SymbolId) := do
  match p.kind member with
  | "pair" =>
    match memberName? p member "key", p.field? member "value" with
    | some name, some value =>
      pushMember members (← propertySymbol owner name (some member) (.value value) false)
    | _, _ => return members
  | "shorthand_property_identifier" =>
    pushMember members
      (← propertySymbol owner (p.text member) (some member) (.value member) false)
  | "method_definition" =>
    match memberName? p member "name" with
    | some name =>
      pushMember members (← propertySymbol owner name (some member) (.method member) false)
    | none => return members
  | "spread_element" =>
    match (p.namedChildren member).head? with
    | some inner => pushMembers members (← calls.membersOf (← calls.valueType inner))
    | none => return members
  | _ => return members

/-- The members of an object expression. -/
def objectMembers (node : NodeId) (owner : TypeId) : Resolve (List SymbolId) :=
  (p.namedChildren node).foldlM (objectMember p calls owner) []

/-- The members of a type, each made optional. -/
def optionalMembers (inner owner : TypeId) : Resolve (List SymbolId) := do
  (← calls.membersOf inner).mapM fun base => do
    let s ← symbol base
    let decl := match s.kind with
      | .property _ decl _ _ => decl
      | _ => none
    let t ← calls.symbolType base
    propertySymbol owner s.name decl (.fixed t) true

/-- An enum member: its name, its node and its value. -/
structure EnumMember where
  name : String
  node : NodeId
  value : LiteralValue
deriving Repr, Inhabited

/-- The value of an enum member and the value that the next member counts from. -/
def enumValue (next : Binary64) (valueNode : Option NodeId) :
    Resolve (LiteralValue × Binary64) := do
  match valueNode with
  | none => return (.number next, next.plusOne)
  | some node =>
    match ← data (← calls.valueType node) with
    | .stringLit s => return (.text s, next)
    | .numberLit text =>
      let n := (Decimal.number? text.toList).getD next
      return (.number n, n.plusOne)
    | _ => return (.number next, next.plusOne)

/-- The members of an enum body; a member without a value counts on from the number before it. -/
def enumMembersFrom (next : Binary64) : List NodeId → Resolve (List EnumMember)
  | [] => return []
  | member :: rest => do
    let (nameNode, valueNode) := if p.kind member = "enum_assignment" then
        (p.field? member "name", p.field? member "value")
      else (some member, none)
    match nameNode.bind (propertyName? p) with
    | none => enumMembersFrom next rest
    | some name =>
      let (value, next) ← enumValue calls next valueNode
      return ⟨name, member, value⟩ :: (← enumMembersFrom next rest)

/-- The members of an enum. -/
def enumMembers (s : SymbolId) : Resolve (List EnumMember) := do
  match (← symbol s).kind with
  | .declared decl =>
    match p.field? decl "body" with
    | some body => enumMembersFrom p calls ⟨0⟩ (p.namedChildren body)
    | none => return []
  | _ => return []

/-- The symbol of an enum member. -/
def enumMemberSymbol (s : SymbolId) (node : NodeId) : Resolve SymbolId := do
  let found := (← enumMembers p calls s).find? fun m => m.node = node
  let (name, value) := match found with
    | some m => (m.name, m.value)
    | none => ("", .number ⟨0⟩)
  let t ← match value with
    | .text text => intern (.stringLit text)
    | .number x => intern (.numberLit (Json.ofBinary64 x).compact)
  internSymbol ⟨.decl node, name, .enumMember node t⟩

/-- The members of a type that is not being collected. -/
def collectMembers (t : TypeId) : Resolve (List SymbolId) := do
  match ← data t with
  | .object (.declared decl args) _ _ =>
    let env ← bindEnv p decl args
    if p.kind decl = "interface_declaration" then interfaceMembers p calls decl env t
    else classMembers p calls decl env t
  | .object (.literal node env) _ _ => literalMembers p node env t []
  | .object (.value node) _ _ => objectMembers p calls node t
  | .object (.allOptional inner) _ _ => optionalMembers calls inner t
  | .enum s => (← enumMembers p calls s).mapM fun m => enumMemberSymbol p calls s m.node
  | _ => return []

/-- The members of a type, remembered. -/
def membersOf (t : TypeId) : Resolve (List SymbolId) := do
  let memory ← get
  match memory.members.lookup t with
  | some known => return known
  | none =>
    if memory.collecting.contains t then return []
    else
      set { memory with collecting := t :: memory.collecting }
      let members ← collectMembers p calls t
      modify fun memory =>
        { memory with
          collecting := memory.collecting.erase t
          members := (t, members) :: memory.members }
      return members

end RouteContract.Types
