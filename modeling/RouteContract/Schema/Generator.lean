import RouteContract.Oracle
import RouteContract.Schema.Basic

/-!
# Schemas of types

`ofType` describes a type by a schema. A named object type goes into the table of named schemas,
once, and is described by a reference. Before its members are described an empty entry stands in
the table, so that a member of the same type refers to it.

The recursion is on the number of nested descriptions that are still allowed: arrays, unions,
intersections and properties use one up, promises and named definitions none.
-/

namespace RouteContract.Schema

/-- The nesting of schemas that a type is described to. -/
def maxNesting : Nat := 11

/-- Names of object types that are never entered into the table. -/
def inlineNames : List String :=
  ["Object", "Promise", "Array", "Function", "Request", "Response", "Record", "Partial", "Map",
    "Set", "__type", "__object", "__function"]

/-- Names of library types that are described by their name only. -/
def opaqueNames : List String :=
  ["ReactElement", "ReactPortal", "CSSProperties", "Element", "HTMLElement", "Buffer", "Readable"]

/-- Generation: the table of named schemas over the answers of an oracle. -/
abbrev Gen (m : Type → Type) := StateT (Entries Schema) m

section

variable {m : Type → Type} [Monad m]

/-- Ask an oracle. -/
def ask {α : Type} (query : m α) : Gen m α := StateT.lift query

/-- The name of a symbol that may be absent. -/
def symbolName? (o : Oracle m) : Option SymbolId → m (Option String)
  | none => pure none
  | some s => do return some (← o.symbolName s)

/-- The name of the symbol of a type. -/
def typeName? (o : Oracle m) (t : TypeId) : m (Option String) := do
  symbolName? o (← o.typeSymbol t)

/-- Whether a name is that of a promise. -/
def isPromise (name : Option String) : Bool := name == some "Promise" || name == some "PromiseLike"

/-- Take the promises off a type; a promise of nothing leaves no type. -/
def settle (o : Oracle m) : Nat → TypeId → m (Option (TypeId × Option String))
  | 0, _ => pure none
  | fuel + 1, t => do
    let name ← typeName? o t
    if isPromise name then
      match (← o.typeArguments t).head? with
      | some inner => settle o fuel inner
      | none => pure none
    else pure (some (t, name))

/-- The schema of a shape that needs no further question. -/
def ofShape? : TypeShape → Option Schema
  | .string => some (typed "string")
  | .number => some (typed "number")
  | .boolean => some (typed "boolean")
  | .any => some {}
  | .unknown => some {}
  | .never => some {}
  | .void => some {}
  | .undefined => some { typed "string" with format := some "nullable" }
  | .null => some { typed "string" with format := some "nullable" }
  | _ => none

/-- The schema of an enum with these values. -/
def ofEnum (values : List Json) : Schema :=
  match values with
  | [] => {}
  | first :: _ =>
    { typed (if first.text?.isSome then "string" else "number") with enumValues := values }

/-- The text of a string literal type. -/
def stringLiteral? : TypeShape → Option Json
  | .stringLiteral s => some (.str s)
  | _ => none

/-- A union of string literals as an enum, any other as alternatives. -/
def ofUnion (o : Oracle m) (sub : TypeId → Gen m Schema) (t : TypeId) : Gen m Schema := do
  let members ← ask (o.constituents t)
  let shapes ← ask (members.mapM o.shape)
  match shapes.mapM stringLiteral? with
  | some (first :: rest) => return { typed "string" with enumValues := first :: rest }
  | _ => return { anyOf := ← members.mapM sub }

/-- Add the schema of a property to an object schema, unless it is no part of the data. -/
def addProperty (o : Oracle m) (sub : TypeId → Gen m Schema) (s : Schema) (property : SymbolId) :
    Gen m Schema := do
  let name ← ask (o.symbolName property)
  if (Text.afterPrefix? ['_', '_'] name.toList).isSome then return s
  let container ← ask (o.containerName property)
  if container = some "Object" ∨ container = some "Function" then return s
  let t ← ask (o.typeOfSymbol property)
  if 0 < (← ask (o.callSignatureCount t)) then return s
  if (← ask (o.shape t)) = .function then return s
  let isOptional ← ask (o.isOptional property)
  let required := if isOptional then s.required else s.required ++ [name]
  let described ← sub t
  let doc ← ask (o.docText property)
  let described := match doc with
    | some text => if text = "" then described else { described with description := some text }
    | none => described
  return { s with required, properties := Entries.put name described s.properties }

/-- The members of an object type. -/
def ofObject (o : Oracle m) (sub : TypeId → Gen m Schema) (t : TypeId) : Gen m Schema := do
  (← ask (o.properties t)).foldlM (addProperty o sub) (typed "object")

/-- Enter a named object type into the table, unless it is there, and refer to it. -/
def ofNamed (o : Oracle m) (sub : TypeId → Gen m Schema) (name : String) (t : TypeId) :
    Gen m Schema := do
  if Entries.has name (← get) then return referring name
  modify (Entries.put name {})
  let definition ← ofObject o sub t
  modify (Entries.put name definition)
  return referring name

/-- The name under which an object type is described: that of its alias, else its own. -/
def schemaName? (o : Oracle m) (t : TypeId) : m (Option String) := do
  match ← o.aliasSymbol t with
  | some s => symbolName? o (some s)
  | none => symbolName? o (← o.typeSymbol t)

/-- The schema of an object or function type, by its name when it has one. -/
def ofObjectLike (o : Oracle m) (sub : TypeId → Gen m Schema) (t : TypeId) : Gen m Schema := do
  match ← ask (schemaName? o t) with
  | some name =>
    if opaqueNames.contains name then return { typed "object" with description := some name }
    else if inlineNames.contains name then ofObject o sub t
    else ofNamed o sub name t
  | none => ofObject o sub t

/-- The schema of a type whose promises are taken off. -/
def ofSettled (o : Oracle m) (sub : TypeId → Gen m Schema) (t : TypeId) (name : Option String) :
    Gen m Schema := do
  let shape ← ask (o.shape t)
  if let some s := ofShape? shape then return s
  if name = some "Date" then return { typed "string" with format := some "date-time" }
  if (← ask (o.isTuple t)) || name == some "Array" || name == some "ReadonlyArray" then
    let items ← match (← ask (o.typeArguments t)).head? with
      | some element => sub element
      | none => pure {}
    return { typed "array" with items := some items }
  match shape with
  | .enum => return ofEnum ((← ask (o.enumLiterals t)).map LiteralValue.toJson)
  | .union => ofUnion o sub t
  | .intersection => return { allOf := ← (← ask (o.constituents t)).mapM sub }
  | .stringLiteral s => return { typed "string" with enumValues := [.str s] }
  | .numberLiteral x => return { typed "number" with enumValues := [.ofBinary64 x] }
  | .booleanLiteral b => return { typed "boolean" with enumValues := [.bool b] }
  | .object => ofObjectLike o sub t
  | .function => ofObjectLike o sub t
  | _ => return typed "object"

/-- The schema of a type, to a number of nested descriptions. -/
def ofTypeWithin (o : Oracle m) : Nat → TypeId → Gen m Schema
  | 0, _ => return {}
  | left + 1, t => do
    match ← ask (settle o (o.promiseDepth t + 1) t) with
    | some (t, name) => ofSettled o (ofTypeWithin o left) t name
    | none => return {}

/-- The schema of a type. -/
def ofType (o : Oracle m) (t : TypeId) : Gen m Schema := ofTypeWithin o maxNesting t

end

end RouteContract.Schema
