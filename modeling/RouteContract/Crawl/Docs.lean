import RouteContract.Document.Update
import RouteContract.Program.Comments

/-!
# Documentation of routes and handlers

The documentation of a registration stands on the call or on the statement around it, that of a
handler on the function or on the declaration that holds it. The directives of a handler stand in
the comments in front of the statements of its body.
-/

namespace RouteContract.Crawl

variable (p : Program)

/-- The documentation of a node or of the nearest node around it, through nodes of some kinds. -/
def docsThrough (kinds : List String) (node : NodeId) : DocMetadata :=
  match p.docComment? node with
  | some doc => .ofDoc doc
  | none =>
    match _h : p.parent? node with
    | some a => if kinds.contains (p.kind a) then docsThrough kinds a else {}
    | none => {}
termination_by node.index
decreasing_by exact Program.parent?_index_lt _h

/-- The documentation of a registration. -/
def callSiteDocs (call : NodeId) : DocMetadata :=
  docsThrough p ["expression_statement", "await_expression"] call

/-- The documentation of a handler. -/
def handlerDocs (handler : NodeId) : DocMetadata :=
  docsThrough p ["variable_declarator", "lexical_declaration", "variable_declaration",
    "export_statement", "pair", "public_field_definition"] handler

/-- The comments in front of the statements of a body, in order. -/
def bodyComments (body : NodeId) : List String :=
  if p.kind body = "statement_block" then
    (p.namedChildren body).flatMap p.leadingComments
  else []

/-- Apply the directives of a list of comments. -/
def applyComments (markers : List String) (o : Operation) :
    List String → Operation × List Warning
  | [] => (o, [])
  | comment :: rest =>
    let (o, warnings) := Directive.applyComment markers o comment
    let (o, more) := applyComments markers o rest
    (o, warnings ++ more)

/-- Apply the directives in the body of a handler. -/
def applyDirectives (markers : List String) (o : Operation) (handler : NodeId) :
    Operation × List Warning :=
  match p.field? handler "body" with
  | some body => applyComments markers o (bodyComments p body)
  | none => (o, [])

end RouteContract.Crawl
