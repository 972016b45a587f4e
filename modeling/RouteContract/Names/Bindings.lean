import RouteContract.Program.Comments

/-!
# Scopes and the names they declare

A scope declares names in two spaces, values and types. A program or a block declares the names of
its statements, any other scope its type parameters and parameters. The first declaration of a name
counts. `lookup` finds the innermost scope around a node that declares a name.
-/

namespace RouteContract.Names

/-- The space in which a name is looked up. -/
inductive Space where
  | value | type
deriving DecidableEq, Repr, Inhabited

/-- Names with the nodes that bind them, first declarations first. -/
structure Bindings where
  values : Entries NodeId := []
  types : Entries NodeId := []
deriving Repr, Inhabited

namespace Bindings

/-- All names of a list of bindings, in order. -/
def join (all : List Bindings) : Bindings where
  values := all.flatMap Bindings.values
  types := all.flatMap Bindings.types

/-- A name in the space of values. -/
def value (name : String) (node : NodeId) : Bindings := { values := [(name, node)] }

/-- A name in the space of types. -/
def type (name : String) (node : NodeId) : Bindings := { types := [(name, node)] }

/-- A name in both spaces. -/
def both (name : String) (node : NodeId) : Bindings :=
  { values := [(name, node)], types := [(name, node)] }

/-- The node that binds a name in a space. -/
def get? (b : Bindings) (space : Space) (name : String) : Option NodeId :=
  match space with
  | .value => Entries.get? name b.values
  | .type => Entries.get? name b.types

end Bindings

variable (p : Program)

/-- The kinds of nodes that open a scope. -/
def scopeKinds : List String :=
  ["program", "statement_block", "function_declaration", "generator_function_declaration",
    "function_expression", "function", "generator_function", "arrow_function",
    "method_definition", "method_signature", "function_signature", "interface_declaration",
    "type_alias_declaration", "class_declaration", "abstract_class_declaration", "class"]

/-- The type parameters of a declaration. -/
def typeParameters (decl : NodeId) : List NodeId :=
  match p.field? decl "type_parameters" with
  | some list => (p.namedChildren list).filter fun c => p.kind c == "type_parameter"
  | none => []

/-- A child in a role has a larger index, inside the arena of its unit. -/
theorem field?_descends {p : Program} {id c : NodeId} {role : String}
    (h : p.field? id role = some c) : p.size c.unit - c.index < p.size id.unit - id.index := by
  have hm := Program.mem_children (List.mem_of_find?_eq_some h)
  rw [hm.1]
  omega

/-- A named child has a larger index, inside the arena of its unit. -/
theorem namedChild_descends {p : Program} {id c : NodeId} (h : c ∈ p.namedChildren id) :
    p.size c.unit - c.index < p.size id.unit - id.index := by
  have hm := Program.mem_children (Program.mem_children_of_mem_namedChildren h)
  rw [hm.1]
  omega

/-- The names that an element of a pattern binds. -/
def elementNames (element : NodeId) : Entries NodeId :=
  let kind := p.kind element
  if kind = "identifier" ∨ kind = "shorthand_property_identifier_pattern" then
    [(p.text element, element)]
  else if kind = "pair_pattern" then
    match _h : p.field? element "value" with
    | some value => elementNames value
    | none => []
  else if kind = "object_assignment_pattern" ∨ kind = "assignment_pattern" then
    match _h : p.field? element "left" with
    | some left => elementNames left
    | none => []
  else if kind = "rest_pattern" then
    match p.childOfKind? element "identifier" with
    | some name => [(p.text name, name)]
    | none => []
  else if kind = "object_pattern" ∨ kind = "array_pattern" then
    (p.namedChildren element).attach.flatMap fun c => elementNames c.1
  else []
termination_by p.size element.unit - element.index
decreasing_by
  · exact field?_descends _h
  · exact field?_descends _h
  · exact namedChild_descends c.2

/-- The names that the pattern of a declarator binds; a plain name is bound by the declarator. -/
def patternNames (pattern declarator : NodeId) : Entries NodeId :=
  let kind := p.kind pattern
  if kind = "identifier" then [(p.text pattern, declarator)]
  else if kind = "object_pattern" ∨ kind = "array_pattern" then
    (p.namedChildren pattern).flatMap (elementNames p)
  else []

/-- The names that the declarators of a statement bind. -/
def declaratorNames (statement : NodeId) : Entries NodeId :=
  ((p.namedChildren statement).filter fun d => p.kind d == "variable_declarator").flatMap
    fun declarator =>
      match p.field? declarator "name" with
      | some pattern => patternNames p pattern declarator
      | none => []

/-- The local names of one part of an import clause. -/
def importNames (part : NodeId) : Entries NodeId :=
  let kind := p.kind part
  if kind = "identifier" then [(p.text part, part)]
  else if kind = "named_imports" then
    ((p.namedChildren part).filter fun s => p.kind s == "import_specifier").filterMap
      fun specifier =>
        ((p.field? specifier "alias").or (p.field? specifier "name")).map
          fun name => (p.text name, specifier)
  else if kind = "namespace_import" then
    match p.childOfKind? part "identifier" with
    | some name => [(p.text name, part)]
    | none => []
  else []

/-- The names that a statement declares. -/
def statementBindings (statement : NodeId) : Bindings :=
  let kind := p.kind statement
  let ownName := (p.field? statement "name").map p.text
  if kind = "export_statement" then
    match _h : p.field? statement "declaration" with
    | some declaration => statementBindings declaration
    | none => {}
  else if kind = "ambient_declaration" then
    .join ((p.namedChildren statement).attach.map fun c => statementBindings c.1)
  else if kind = "lexical_declaration" ∨ kind = "variable_declaration" then
    { values := declaratorNames p statement }
  else if ["function_declaration", "generator_function_declaration", "function_signature",
      "internal_module", "module"].contains kind then
    match ownName with
    | some name => .value name statement
    | none => {}
  else if ["class_declaration", "abstract_class_declaration", "enum_declaration"].contains kind then
    match ownName with
    | some name => .both name statement
    | none => {}
  else if kind = "interface_declaration" ∨ kind = "type_alias_declaration" then
    match ownName with
    | some name => .type name statement
    | none => {}
  else if kind = "import_statement" then
    match p.childOfKind? statement "import_clause" with
    | some clause =>
      let names := (p.namedChildren clause).flatMap (importNames p)
      { values := names, types := names }
    | none => {}
  else {}
termination_by p.size statement.unit - statement.index
decreasing_by
  · exact field?_descends _h
  · exact namedChild_descends c.2

/-- The names that a parameter binds; a plain name is bound by the parameter. -/
def parameterNames (param : NodeId) : Entries NodeId :=
  let plain (role : String) : Entries NodeId :=
    match p.field? param role with
    | some pattern =>
      if p.kind pattern = "identifier" then [(p.text pattern, param)]
      else elementNames p pattern
    | none => []
  let kind := p.kind param
  if kind = "required_parameter" ∨ kind = "optional_parameter" then plain "pattern"
  else if kind = "assignment_pattern" then plain "left"
  else elementNames p param

/-- The names that a scope declares. -/
def scopeBindings (scope : NodeId) : Bindings :=
  if p.kind scope = "program" ∨ p.kind scope = "statement_block" then
    .join ((p.namedChildren scope).map (statementBindings p))
  else
    { types := (typeParameters p scope).filterMap fun param =>
        (p.field? param "name").map fun name => (p.text name, param)
      values :=
        (match p.field? scope "parameters" with
          | some params => (p.namedChildren params).flatMap (parameterNames p)
          | none => [])
        ++ (match p.field? scope "parameter" with
          | some param => parameterNames p param
          | none => []) }

/-- The node that binds a name, as seen from a node. -/
def lookup (space : Space) (name : String) (origin : NodeId) : Option NodeId :=
  let found := if scopeKinds.contains (p.kind origin) then
    (scopeBindings p origin).get? space name else none
  match found with
  | some binding => some binding
  | none =>
    match _h : p.parent? origin with
    | some a => lookup space name a
    | none => none
termination_by origin.index
decreasing_by exact Program.parent?_index_lt _h

end RouteContract.Names
