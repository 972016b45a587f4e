import RouteContract.Comment.Doc
import RouteContract.Literal.Escape
import RouteContract.Program.Basic

/-!
# Comments and strings of a program

The comments in front of a node belong to it, except one that starts on the line where the named
sibling before it ends: that one trails the sibling. The documentation of a node is the last block
among its comments.
-/

namespace RouteContract.Program

variable (p : Program)

/-- Whether a comment trails the sibling before it. -/
def trails (comment before : NodeId) : Bool :=
  (p.node before).endLine == (p.node comment).startLine && p.kind before != "comment"
    && (p.node before).named

/-- The comments at the front of a list of siblings that goes backwards. -/
def commentRun : List NodeId → List NodeId
  | [] => []
  | [s] => if p.kind s = "comment" then [s] else []
  | s :: before :: rest =>
    if p.kind s ≠ "comment" then []
    else if p.trails s before then []
    else s :: commentRun (before :: rest)

/-- The comments that belong to a node, in source order. -/
def leadingCommentNodes (id : NodeId) : List NodeId :=
  match p.parent? id with
  | none => []
  | some a =>
    let siblings := p.children a
    if siblings.contains id then
      (p.commentRun (siblings.takeWhile (· ≠ id)).reverse).reverse
    else []

/-- The texts of the comments that belong to a node, in source order. -/
def leadingComments (id : NodeId) : List String := (p.leadingCommentNodes id).map p.text

/-- The documentation block of a node. -/
def docComment? (id : NodeId) : Option DocComment :=
  (p.leadingComments id).reverse.findSome? DocComment.parse?

/-- The body of a text in quotes; a text of less than two bytes has none. -/
def quotedBody? (text : String) : Option String :=
  if Text.byteSize text.toList < 2 then none
  else some (Literal.unescape (String.ofList (text.toList.drop 1).dropLast))

/-- The value of a string, or of a template without substitutions. -/
def stringValue? (id : NodeId) : Option String :=
  if p.kind id = "string" then quotedBody? (p.text id)
  else if p.kind id = "template_string" then
    if (p.children id).any fun c => p.kind c == "template_substitution" then none
    else quotedBody? (p.text id)
  else none

end RouteContract.Program
