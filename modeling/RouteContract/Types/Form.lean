/-!
# Forms of type expressions and of expressions

The kinds of nodes that the resolver tells apart, each with its name in the grammar.
-/

namespace RouteContract.Types

/-- The form of a type expression. -/
inductive TypeForm where
  /-- A node around one type expression. -/
  | wrapper
  | predefined
  | literal
  /-- A literal without a node around it. -/
  | bareLiteral
  /-- A type whose values are texts. -/
  | text
  | name
  | qualifiedName
  | generic
  | array
  | tuple
  | union
  | intersection
  | object
  | function
  | query
  | lookup
  | predicate
  | assertion
  | other
deriving DecidableEq, Repr, Inhabited

/-- The form of a kind of node. -/
def TypeForm.ofKind : String → TypeForm
  | "type_annotation" => .wrapper
  | "opting_type_annotation" => .wrapper
  | "omitting_type_annotation" => .wrapper
  | "parenthesized_type" => .wrapper
  | "readonly_type" => .wrapper
  | "type_arguments" => .wrapper
  | "predefined_type" => .predefined
  | "literal_type" => .literal
  | "string" => .bareLiteral
  | "number" => .bareLiteral
  | "true" => .bareLiteral
  | "false" => .bareLiteral
  | "null" => .bareLiteral
  | "undefined" => .bareLiteral
  | "template_literal_type" => .text
  | "index_type_query" => .text
  | "type_identifier" => .name
  | "identifier" => .name
  | "nested_type_identifier" => .qualifiedName
  | "generic_type" => .generic
  | "array_type" => .array
  | "tuple_type" => .tuple
  | "union_type" => .union
  | "intersection_type" => .intersection
  | "object_type" => .object
  | "interface_body" => .object
  | "function_type" => .function
  | "constructor_type" => .function
  | "type_query" => .query
  | "lookup_type" => .lookup
  | "type_predicate" => .predicate
  | "type_predicate_annotation" => .predicate
  | "asserts" => .assertion
  | "asserts_annotation" => .assertion
  | _ => .other

/-- The kinds of nodes that stand in the position of a type only. -/
def typeKinds : List String :=
  ["type_annotation", "predefined_type", "type_identifier", "generic_type",
    "nested_type_identifier", "object_type", "union_type", "intersection_type", "array_type",
    "tuple_type", "literal_type", "function_type", "parenthesized_type", "readonly_type",
    "type_query", "lookup_type", "template_literal_type", "index_type_query"]

/-- The kinds of functions. -/
def functionKinds : List String :=
  ["function_declaration", "generator_function_declaration", "function_expression", "function",
    "generator_function", "arrow_function", "method_definition", "method_signature",
    "function_signature"]

/-- The form of an expression. -/
inductive ValueForm where
  | name
  | string
  | number
  | yes
  | no
  | null
  | undefined
  | regex
  | object
  | array
  /-- An expression around another one of the same type. -/
  | wrapper
  | nonNull
  | cast
  | assertion
  | await
  | call
  | construction
  | member
  | subscript
  | binary
  | unary
  | update
  | conditional
  | assignment
  | sequence
  | function
  | other
deriving DecidableEq, Repr, Inhabited

/-- The form of a kind of node. -/
def ValueForm.ofKind (kind : String) : ValueForm :=
  match kind with
  | "identifier" => .name
  | "shorthand_property_identifier" => .name
  | "shorthand_property_identifier_pattern" => .name
  | "string" => .string
  | "template_string" => .string
  | "number" => .number
  | "true" => .yes
  | "false" => .no
  | "null" => .null
  | "undefined" => .undefined
  | "regex" => .regex
  | "object" => .object
  | "array" => .array
  | "parenthesized_expression" => .wrapper
  | "satisfies_expression" => .wrapper
  | "non_null_expression" => .nonNull
  | "as_expression" => .cast
  | "type_assertion" => .assertion
  | "await_expression" => .await
  | "call_expression" => .call
  | "new_expression" => .construction
  | "member_expression" => .member
  | "subscript_expression" => .subscript
  | "binary_expression" => .binary
  | "unary_expression" => .unary
  | "update_expression" => .update
  | "ternary_expression" => .conditional
  | "assignment_expression" => .assignment
  | "sequence_expression" => .sequence
  | kind => if functionKinds.contains kind then .function else .other

end RouteContract.Types
