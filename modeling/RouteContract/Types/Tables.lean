import RouteContract.File.PathName
import RouteContract.Names.Exports
import RouteContract.Types.Data

/-!
# The tables of types and symbols, and the types made of other types

`intern` gives the handle of a type, `internSymbol` that of a symbol; both add an entry only when
there is none. On top of them stand unions and intersections, which are flattened, the widening of
literal types, and the library types that are known by name.
-/

namespace RouteContract.Types

/-- The handle of a type. -/
def intern (d : TypeData) : Resolve TypeId := do
  let memory ← get
  match memory.types.findIdx? (· = d) with
  | some id => return id
  | none =>
    set { memory with types := memory.types.push d }
    return memory.types.size

/-- The data of a type. -/
def data (t : TypeId) : Resolve TypeData := do
  return (← get).types.getD t .any

/-- The handle of a symbol; an entry that is there for its key is kept. -/
def internSymbol (s : Symbol) : Resolve SymbolId := do
  let memory ← get
  match memory.symbols.findIdx? (·.key = s.key) with
  | some id => return id
  | none =>
    set { memory with symbols := memory.symbols.push s }
    return memory.symbols.size

/-- A symbol. -/
def symbol (id : SymbolId) : Resolve Symbol := do
  return (← get).symbols.getD id ⟨.builtin "", "", .builtin⟩

/-- The type that says nothing. -/
def anyType : Resolve TypeId := intern .any

/-- The symbol of a library name. -/
def builtinSymbol (name : String) : Resolve SymbolId :=
  internSymbol ⟨.builtin name, name, .builtin⟩

/-- The symbol of a binding. -/
def bindingSymbol (p : Program) (binding : NodeId) : Resolve SymbolId :=
  let (name, kind) := Names.describe p binding
  internSymbol ⟨.decl binding, name, match kind with
    | .declared => .declared binding
    | .importBinding source imported => .imported binding source imported
    | .module unit => .module unit⟩

/-- The symbol of a whole unit. -/
def moduleSymbol (p : Program) (unit : Nat) : Resolve SymbolId :=
  internSymbol ⟨.module unit, (PathName.stem? (p.unit unit).path).getD "", .module unit⟩

/-- The symbol of the end of a chain of exports or aliases. -/
def targetSymbol (p : Program) : Names.Target → Resolve SymbolId
  | .binding id => bindingSymbol p id
  | .module unit => moduleSymbol p unit

/-- The symbol of what a unit exports under a name. -/
def exportSymbol? (p : Program) (unit : Nat) (name : String) : Resolve (Option SymbolId) := do
  match Names.resolve? p unit name with
  | some target => return some (← targetSymbol p target)
  | none => return none

/-- The symbol behind an import binding; any other symbol stands for itself. -/
def followAlias? (p : Program) (s : SymbolId) : Resolve (Option SymbolId) := do
  match (← symbol s).kind with
  | .imported decl _ _ =>
    match Names.follow? p decl with
    | some target => return some (← targetSymbol p target)
    | none => return none
  | _ => return some s

/-- The unit that an identifier stands for as a whole. -/
def namespaceUnit? (p : Program) (identifier : NodeId) : Option Nat :=
  ((Names.lookup p .value (p.text identifier) identifier).bind (Names.follow? p)).bind fun
    | .module unit => some unit
    | .binding id =>
      match (Names.describe p id).2 with
      | .module unit => some unit
      | _ => none

/-- Add an element to a list, unless it is there. -/
def addNew (list : List TypeId) (t : TypeId) : List TypeId :=
  if t ∈ list then list else list ++ [t]

/-- The members of a union of types: unions are flattened, `never` is dropped, each stands once. -/
def flatten (members : List TypeId) : Resolve (List TypeId) :=
  members.foldlM (fun flat t => do
    match ← data t with
    | .union inner => return inner.foldl addNew flat
    | .never => return flat
    | _ => return addNew flat t) []

/-- Replace the first of two boolean literals by the boolean type and drop the other. -/
def mergeBooleans (yes no both : TypeId) (flat : List TypeId) : List TypeId :=
  if yes ∈ flat ∧ no ∈ flat then (flat.replace yes both).filter (· ≠ no) else flat

/-- The union of types. -/
def makeUnion (members : List TypeId) : Resolve TypeId := do
  let flat ← flatten members
  let datas ← flat.mapM data
  if .any ∈ datas then anyType
  else
    let yes ← intern (.booleanLit true)
    let no ← intern (.booleanLit false)
    let flat ← if yes ∈ flat ∧ no ∈ flat then
        pure (mergeBooleans yes no (← intern .boolean) flat)
      else pure flat
    match flat with
    | [] => intern .never
    | [t] => return t
    | _ => intern (.union flat)

/-- Drop each element that equals the one before it. -/
def dropRepeats : List TypeId → List TypeId
  | [] => []
  | [t] => [t]
  | a :: b :: rest => if a = b then dropRepeats (b :: rest) else a :: dropRepeats (b :: rest)

/-- The intersection of types. -/
def makeIntersection (members : List TypeId) : Resolve TypeId := do
  let flat ← members.foldlM (fun flat t => do
    match ← data t with
    | .intersection inner => return flat ++ inner
    | _ => return flat ++ [t]) []
  match dropRepeats flat with
  | [] => intern .unknown
  | [t] => return t
  | flat => intern (.intersection flat)

/-- The primitive type of a literal type; any other type stays. -/
def widenLiteral (t : TypeId) : Resolve TypeId := do
  match ← data t with
  | .stringLit _ => intern .string
  | .numberLit _ => intern .number
  | .booleanLit _ => intern .boolean
  | _ => return t

/-- The type in which literal types, also those of a union, are their primitive types. -/
def widen (t : TypeId) : Resolve TypeId := do
  match ← data t with
  | .union members => makeUnion (← members.mapM widenLiteral)
  | _ => widenLiteral t

/-- The members of a union other than `null` and `undefined`. -/
def presentMembers (members : List TypeId) : Resolve (List TypeId) :=
  members.filterM fun m => do
    match ← data m with
    | .null => return false
    | .undefined => return false
    | _ => return true

/-- The type without `null` and `undefined`. -/
def nonNullable (t : TypeId) : Resolve TypeId := do
  match ← data t with
  | .union members => makeUnion (← presentMembers members)
  | _ => return t

/-- What a promise promises; any other type stays. -/
def awaited (t : TypeId) : Resolve TypeId := do
  match ← data t with
  | .named s args =>
    let name := (← symbol s).name
    if name = "Promise" ∨ name = "PromiseLike" then
      match args.head? with
      | some inner => return inner
      | none => anyType
    else return t
  | _ => return t

/-- The first type argument. -/
def firstArgument (args : List TypeId) (use : TypeId → Resolve TypeId) : Resolve TypeId :=
  match args.head? with
  | some inner => use inner
  | none => anyType

/-- A library type, by its name. -/
def builtinType (name : String) (args : List TypeId) : Resolve TypeId := do
  if name = "Array" ∨ name = "ReadonlyArray" then
    intern (.array (← firstArgument args pure))
  else if name = "Readonly" ∨ name = "Required" then firstArgument args pure
  else if name = "NonNullable" then firstArgument args nonNullable
  else if name = "Awaited" then firstArgument args awaited
  else if name = "Partial" then
    firstArgument args fun inner => do
      let s ← builtinSymbol "Partial"
      intern (.object (.allOptional inner) s none)
  else if name = "String" then intern .string
  else if name = "Number" then intern .number
  else if name = "Boolean" then intern .boolean
  else if name = "Function" then intern (.function none)
  else
    let s ← builtinSymbol name
    intern (.named s args)

end RouteContract.Types
