import RouteContract.Comment.Doc
import RouteContract.Comment.Directive
import RouteContract.Document.Operation
import RouteContract.Json.Path

/-!
# Updates of operations by comments

Documentation merges into an operation: present texts replace, tags are added. A directive sets a
field: the documentation fields directly, every other field through the JSON form of the
operation, which stays as it was when the edited form is no operation.
-/

namespace RouteContract

/-- What an update by a comment reports. -/
inductive Warning where
  | unreadableDirective (directive : Directive.Unreadable)
  | tagIgnored (value : Json)
  | tagsIgnored (value : Json)
  | textExpected (key : String) (value : Json)
  | doesNotFit (key : String)
deriving Repr, Inhabited

/-- The wording of a warning. -/
def Warning.message : Warning → String
  | .unreadableDirective d =>
    "Failed to parse directive `" ++ d.source ++ "`: "
      ++ (match d.error with
        | some e => e.message
        | none => "")
  | .tagIgnored value => "Ignoring non-string tag " ++ value.compact
  | .tagsIgnored value => "Ignoring tags directive with value " ++ value.compact
  | .textExpected key value => "Directive `" ++ key ++ "` expects text, got " ++ value.compact
  | .doesNotFit key => "Directive `" ++ key ++ "` does not fit the operation"

/-- Merge documentation into an operation. -/
def DocMetadata.mergeInto (doc : DocMetadata) (o : Operation) : Operation :=
  { o with
    summary := doc.summary.or o.summary
    description := doc.description.or o.description
    operationId := doc.operationId.or o.operationId
    deprecated := doc.deprecated || o.deprecated }.addTags doc.tags

namespace Directive

/-- The text that a scalar value stands for. -/
def scalarText (key : String) : Json → Option String × List Warning
  | .str s => (some s, [])
  | .null => (none, [])
  | .num n => (some n.text, [])
  | .bool b => (some (if b then "true" else "false"), [])
  | value => (none, [.textExpected key value])

/-- Whether a value counts as true. -/
def truthy : Json → Bool
  | .null => false
  | .bool b => b
  | .num (.int n) => n ≠ 0
  | .num (.float x) => !x.isZero
  | .str s => s ≠ ""
  | .arr _ => true
  | .obj _ => true

/-- The tags that a value lists. -/
def tagsOf : Json → List String × List Warning
  | .str tag => ([tag], [])
  | .arr items =>
    (items.filterMap Json.text?,
      items.filterMap fun item => if item.text?.isSome then none else some (.tagIgnored item))
  | value => ([], [.tagsIgnored value])

/-- Set a field through the JSON form of an operation. -/
def setField (o : Operation) (key : String) (value : Json) : Operation × List Warning :=
  match Operation.ofJson? (o.toJson.set key value) with
  | some updated => (updated, [])
  | none => (o, [.doesNotFit key])

/-- Set the field named by the key of a directive. -/
def apply (o : Operation) (d : Directive) : Operation × List Warning :=
  if d.key = "tags" then
    let (tags, warnings) := tagsOf d.value
    (o.addTags tags, warnings)
  else if d.key = "summary" then
    let (text, warnings) := scalarText d.key d.value
    ({ o with summary := text }, warnings)
  else if d.key = "description" then
    let (text, warnings) := scalarText d.key d.value
    ({ o with description := text }, warnings)
  else if d.key = "operationId" then
    let (text, warnings) := scalarText d.key d.value
    ({ o with operationId := text }, warnings)
  else if d.key = "deprecated" then ({ o with deprecated := truthy d.value }, [])
  else setField o d.key d.value

/-- The readable directives of a comment. -/
def readable (found : List (Except Unreadable Directive)) : List Directive :=
  found.filterMap Except.toOption

/-- The reports on the unreadable directives of a comment. -/
def complaints (found : List (Except Unreadable Directive)) : List Warning :=
  found.filterMap fun
    | .ok _ => none
    | .error d => some (.unreadableDirective d)

/-- Apply directives in order. -/
def applyAll (o : Operation) : List Directive → Operation × List Warning
  | [] => (o, [])
  | d :: rest =>
    let (o, warnings) := apply o d
    let (o, more) := applyAll o rest
    (o, warnings ++ more)

/-- Apply the directives of a comment: all are read before the first is applied. -/
def applyComment (markers : List String) (o : Operation) (comment : String) :
    Operation × List Warning :=
  let found := parse markers comment
  let (o, warnings) := applyAll o (readable found)
  (o, complaints found ++ warnings)

end Directive

end RouteContract
