import RouteContract.Oracle

/-!
# Types, symbols and the memory of a resolver

Types and symbols are kept in two tables and addressed by their positions. A type is in the table
once, so equal data means equal handles; a symbol is in the table once for its key.

The memory also holds the answers already found (types of expressions, aliases, members), and which
of them are being looked for, which is how circular definitions are noticed.

Resolving runs in `Resolve`: it changes the memory, and it gives no answer when its bound on nested
steps is used up.
-/

namespace RouteContract.Types

/-- Type parameters with the types they stand for; the last entry of a name counts. -/
abbrev Env := List (String × TypeId)

/-- The identity of an object type; its members are found when they are asked for. -/
inductive ObjectKey where
  /-- An interface or class with its type arguments. -/
  | declared (decl : NodeId) (args : List TypeId)
  /-- An object type written out. -/
  | literal (node : NodeId) (env : Env)
  /-- An object expression. -/
  | value (node : NodeId)
  /-- A type with every property optional. -/
  | allOptional (inner : TypeId)
deriving DecidableEq, Repr, Inhabited

/-- The data of a type. -/
inductive TypeData where
  | any
  | unknown
  | never
  | void
  | undefined
  | null
  | string
  | number
  | boolean
  | stringLit (value : String)
  /-- A number in its canonical decimal text. -/
  | numberLit (text : String)
  | booleanLit (value : Bool)
  | array (element : TypeId)
  | tuple (elements : List TypeId)
  | union (members : List TypeId)
  | intersection (members : List TypeId)
  | object (key : ObjectKey) (symbol : SymbolId) (through : Option SymbolId)
  | enum (symbol : SymbolId)
  | function (decl : Option NodeId)
  /-- A library type or an unresolved one, known by its name. -/
  | named (symbol : SymbolId) (args : List TypeId)
deriving DecidableEq, Repr, Inhabited

/-- Where the type of a property comes from. -/
inductive PropSource where
  | typeNode (node : NodeId) (env : Env)
  /-- An expression; its literal types are widened. -/
  | value (node : NodeId)
  | method (node : NodeId)
  | fixed (type : TypeId)
deriving DecidableEq, Repr, Inhabited

/-- What a symbol stands for. -/
inductive SymbolKind where
  | declared (decl : NodeId)
  /-- An import binding: the unit it imports from, and the name there. -/
  | imported (decl : NodeId) (source : Option Nat) (name : String)
  | module (unit : Nat)
  | property (owner : TypeId) (decl : Option NodeId) (source : PropSource) (isOptional : Bool)
  | enumMember (decl : NodeId) (value : TypeId)
  /-- A library name or a made-up one. -/
  | builtin
deriving DecidableEq, Repr, Inhabited

/-- The identity of a symbol. -/
inductive SymbolKey where
  | decl (node : NodeId)
  | builtin (name : String)
  | property (owner : TypeId) (name : String)
  | module (unit : Nat)
deriving DecidableEq, Repr, Inhabited

/-- A symbol. -/
structure Symbol where
  key : SymbolKey
  name : String
  kind : SymbolKind
deriving DecidableEq, Repr, Inhabited

/-- An alias declaration with its type arguments. -/
abbrev AliasKey := NodeId × List TypeId

/-- The memory of a resolver. -/
structure Memory where
  types : Array TypeData := #[]
  symbols : Array Symbol := #[]
  /-- The members of object types that are known. -/
  members : List (TypeId × List SymbolId) := []
  /-- The types of aliases that are known. -/
  aliases : List (AliasKey × TypeId) := []
  /-- The types of expressions that are known. -/
  nodeTypes : List (NodeId × TypeId) := []
  /-- The expressions whose type is being looked for. -/
  inferring : List NodeId := []
  /-- The aliases whose type is being looked for. -/
  resolving : List AliasKey := []
  /-- The types whose members are being collected. -/
  collecting : List TypeId := []
deriving Repr, Inhabited

/-- Resolving with memory; no answer when the bound on nested steps is used up. -/
abbrev Resolve := StateT Memory Option

/-- No answer: the bound is used up. -/
def exhausted {α : Type} : Resolve α := fun _ => none

/-- The steps of the resolver that call each other. -/
structure Calls where
  /-- The type that a type expression denotes. -/
  evalType : NodeId → Env → Resolve TypeId
  /-- The type of an expression. -/
  valueType : NodeId → Resolve TypeId
  /-- The members of a type. -/
  membersOf : TypeId → Resolve (List SymbolId)
  /-- The type of the value that a symbol names. -/
  symbolType : SymbolId → Resolve TypeId
  /-- The type of a property of a type. -/
  propertyType : TypeId → String → Resolve TypeId

/-- Calls that give no answer. -/
def Calls.none : Calls where
  evalType _ _ := exhausted
  valueType _ := exhausted
  membersOf _ := exhausted
  symbolType _ := exhausted
  propertyType _ _ := exhausted

end RouteContract.Types
