import RouteContract.Oracle
import RouteContract.Program.Comments

/-!
# What references lead to

A route path is a text, or a reference whose type is one text. A handler is a function, or a
reference that leads through imports to a function, to a variable, field or object property that
holds one. The target of a mount is the unit of the declaration that a reference leads to.
References are followed into units of the project only.
-/

namespace RouteContract.Crawl

/-- The kinds of function expressions. -/
def functionLiterals : List String :=
  ["arrow_function", "function_expression", "function", "generator_function"]

/-- Whether a node is a function expression. -/
def isFunctionLiteral (p : Program) (id : NodeId) : Bool := functionLiterals.contains (p.kind id)

variable {m : Type → Type} [Monad m] (p : Program) (o : Oracle m)

/-- The text of a path argument. -/
def resolvePath (node : NodeId) : m (Option String) := do
  let node := p.skipParens node
  let kind := p.kind node
  if kind = "string" ∨ kind = "template_string" then return p.stringValue? node
  else if kind = "identifier" ∨ kind = "member_expression" then
    match ← o.shape (← o.typeAt node) with
    | .stringLiteral value => return some value
    | _ => return none
  else return none

/-- The symbol that a reference leads to, behind an alias when it is one. -/
def referredSymbol (node : NodeId) : m (Option SymbolId) := do
  match ← o.symbolAt node with
  | none => return none
  | some s => if ← o.isAlias s then o.aliasedSymbol s else return some s

/-- The first declaration that a reference leads to, when it is in a unit of the project. -/
def declarationOf (node : NodeId) : m (Option NodeId) := do
  match ← referredSymbol o node with
  | none => return none
  | some s =>
    return (← o.declarations s).head?.filter fun d => p.origin d == .project

/-- The function that a declaration defines. -/
def functionOf? (declaration : NodeId) : Option NodeId :=
  let kind := p.kind declaration
  if ["function_declaration", "generator_function_declaration", "method_definition"].contains kind
      || functionLiterals.contains kind then some declaration
  else if ["variable_declarator", "public_field_definition", "pair"].contains kind then
    ((p.field? declaration "value").map p.skipParens).filter (isFunctionLiteral p)
  else none

/-- The function that a handler argument leads to. -/
def resolveHandler (node : NodeId) : m (Option NodeId) := do
  let node := p.skipParens node
  if isFunctionLiteral p node then return some node
  else if p.kind node = "identifier" ∨ p.kind node = "member_expression" then
    return (← declarationOf p o node).bind (functionOf? p)
  else return none

/-- The unit that a mount argument leads to. -/
def resolveMount (node : NodeId) : m (Option Nat) := do
  return (← declarationOf p o (p.skipParens node)).map NodeId.unit

end RouteContract.Crawl
