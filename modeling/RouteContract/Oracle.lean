import RouteContract.Json.Basic
import RouteContract.Program.Basic

/-!
# Type queries

The questions that schema generation, usage analysis and the crawl ask about the types and symbols
of a program. They never look at type expressions themselves. An oracle answers in a monad: an
oracle in `Id` is a fixed function of its arguments, a resolver with memory answers in a state
monad.
-/

namespace RouteContract

/-- A handle of a type; equal handles denote the same type. -/
abbrev TypeId := Nat

/-- A handle of a symbol: a named declaration, a property or an import binding. -/
abbrev SymbolId := Nat

/-- The coarse classification of a type. -/
inductive TypeShape where
  | any
  | unknown
  | never
  | void
  | undefined
  | null
  | string
  | number
  | boolean
  | stringLiteral (value : String)
  | numberLiteral (value : Binary64)
  | booleanLiteral (value : Bool)
  | enum
  | union
  | intersection
  | object
  | function
  | other
deriving DecidableEq, Repr, Inhabited

/-- The value of an enum member. -/
inductive LiteralValue where
  | text (value : String)
  | number (value : Binary64)
deriving DecidableEq, Repr, Inhabited

/-- The value of an enum member as JSON. -/
def LiteralValue.toJson : LiteralValue → Json
  | .text s => .str s
  | .number x => .ofBinary64 x

/-- The answers to type and symbol queries over a program. -/
structure Oracle (m : Type → Type) where
  /-- The type of an expression, of the name of a declaration, or of a type expression. -/
  typeAt : NodeId → m TypeId
  /-- The type that a type expression denotes. -/
  typeOfTypeNode : NodeId → m TypeId
  /-- The symbol that an identifier or member name refers to. -/
  symbolAt : NodeId → m (Option SymbolId)
  symbolName : SymbolId → m String
  /-- Whether a symbol is an import binding. -/
  isAlias : SymbolId → m Bool
  /-- The symbol at the end of a chain of aliases. -/
  aliasedSymbol : SymbolId → m (Option SymbolId)
  /-- The declarations of a symbol, in source order. -/
  declarations : SymbolId → m (List NodeId)
  typeOfSymbol : SymbolId → m TypeId
  isOptional : SymbolId → m Bool
  /-- The name of the declaration that owns a member. -/
  containerName : SymbolId → m (Option String)
  /-- The documentation of the declaration of a symbol. -/
  docText : SymbolId → m (Option String)
  shape : TypeId → m TypeShape
  /-- The symbol that names a type. -/
  typeSymbol : TypeId → m (Option SymbolId)
  /-- The symbol of the type alias through which a type was reached. -/
  aliasSymbol : TypeId → m (Option SymbolId)
  /-- The arguments of a generic type, the elements of a tuple. -/
  typeArguments : TypeId → m (List TypeId)
  isTuple : TypeId → m Bool
  /-- The members of a union or an intersection. -/
  constituents : TypeId → m (List TypeId)
  /-- The properties of an object type. -/
  properties : TypeId → m (List SymbolId)
  callSignatureCount : TypeId → m Nat
  /-- The values of an enum. -/
  enumLiterals : TypeId → m (List LiteralValue)
  /-- A bound on the number of promises around a type, which are taken off one by one. -/
  promiseDepth : TypeId → Nat

end RouteContract
