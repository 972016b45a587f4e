import RouteContract.Document.Method
import RouteContract.Schema.Basic

/-!
# Operations

The contract of one path and method: its documentation, parameters, request body and responses.
Updates only ever add: a parameter with a new name and location, a tag that is not there yet, a
response for a new status code. Each type has a JSON form, written with its fields in a fixed
order and read back from fields in any order.
-/

namespace RouteContract

/-- The schema of one media type of a body. -/
structure MediaType where
  schema : Schema := {}
deriving Repr, Inhabited, BEq

/-- A parameter of an operation. -/
structure Parameter where
  name : String
  location : Location
  required : Bool := false
  schema : Schema := {}
  description : Option String := none
deriving Repr, Inhabited, BEq

/-- The body of a request, by media type. -/
structure RequestBody where
  description : Option String := none
  required : Bool := false
  content : Entries MediaType := []
deriving Repr, Inhabited, BEq

/-- A response, by media type. -/
structure Response where
  description : String := ""
  content : Entries MediaType := []
  extensions : Entries Json := []
deriving Repr, Inhabited, BEq

/-- The scopes required of each security scheme. -/
abbrev SecurityRequirement := Entries (List String)

/-- The contract of one path and method. -/
structure Operation where
  summary : Option String := none
  description : Option String := none
  operationId : Option String := none
  tags : List String := []
  deprecated : Bool := false
  parameters : List Parameter := []
  requestBody : Option RequestBody := none
  responses : Entries Response := []
  security : Option (List SecurityRequirement) := none
  extensions : Entries Json := []
deriving Repr, Inhabited, BEq

/-- The media type of every inferred body. -/
def jsonMediaType : String := "application/json"

namespace MediaType

/-- A media type as JSON. -/
def toJson (m : MediaType) : Json := .obj [("schema", m.schema.toJson)]

/-- Read a media type. -/
def ofJson? (v : Json) : Option MediaType := do
  let r ← Record.closed? ["schema"] v
  return { schema := ← r.getD "schema" Schema.ofJson? {} }

end MediaType

namespace Parameter

/-- Whether a parameter has a name and location; names of headers are equal in any case. -/
def sameAs (p : Parameter) (name : String) (location : Location) : Bool :=
  p.location == location
    && (if location = .header then Text.sameAscii p.name name else p.name == name)

/-- A parameter as JSON. -/
def toJson (p : Parameter) : Json :=
  .obj (Json.field "name" (.str p.name)
    ++ Json.field "in" (.str p.location.key)
    ++ Json.field "required" (.bool p.required)
    ++ Json.field "schema" p.schema.toJson
    ++ Json.optionalField "description" .str p.description)

/-- Read a parameter. -/
def ofJson? (v : Json) : Option Parameter := do
  let r ← Record.closed? ["name", "in", "required", "schema", "description"] v
  return {
    name := ← r.get "name" Json.text?
    location := ← r.get "in" fun v => v.case?.bind Location.ofKey?
    required := ← r.getD "required" Json.flag? false
    schema := ← r.getD "schema" Schema.ofJson? {}
    description := ← r.get? "description" Json.text? }

end Parameter

namespace RequestBody

/-- A request body of the JSON media type. -/
def json (schema : Schema) : RequestBody := { content := [(jsonMediaType, ⟨schema⟩)] }

/-- A request body as JSON. -/
def toJson (b : RequestBody) : Json :=
  .obj (Json.optionalField "description" .str b.description
    ++ Json.flagField "required" b.required
    ++ Json.field "content" (Json.ofTable MediaType.toJson b.content))

/-- Read a request body. -/
def ofJson? (v : Json) : Option RequestBody := do
  let r ← Record.closed? ["description", "required", "content"] v
  return {
    description := ← r.get? "description" Json.text?
    required := ← r.getD "required" Json.flag? false
    content := ← r.getD "content" (Json.tableOf MediaType.ofJson?) [] }

end RequestBody

namespace Response

/-- A response as JSON. -/
def toJson (response : Response) : Json :=
  .obj (Json.field "description" (.str response.description)
    ++ Json.tableField "content" MediaType.toJson response.content
    ++ response.extensions)

/-- Read a response. -/
def ofJson? (v : Json) : Option Response := do
  let r ← Record.open? ["description", "content"] v
  return {
    description := ← r.getD "description" Json.text? ""
    content := ← r.getD "content" (Json.tableOf MediaType.ofJson?) []
    extensions := r.others }

end Response

namespace SecurityRequirement

/-- A security requirement as JSON. -/
def toJson (s : SecurityRequirement) : Json :=
  Json.ofTable (fun scopes => .arr (scopes.map .str)) s

/-- Read a security requirement. -/
def ofJson? (v : Json) : Option SecurityRequirement := Json.tableOf (Json.listOf Json.text?) v

end SecurityRequirement

namespace Operation

/-- A fresh operation, with the default response. -/
def fresh : Operation := { responses := [("200", { description := statusDescription "200" })] }

/-- Whether a parameter with a name and location is there. -/
def hasParameter (o : Operation) (name : String) (location : Location) : Bool :=
  o.parameters.any fun p => p.sameAs name location

/-- Add a parameter, unless one with the same name and location is there. -/
def addParameter (o : Operation) (p : Parameter) : Operation :=
  if o.hasParameter p.name p.location then o else { o with parameters := o.parameters ++ [p] }

/-- Ensure a response for a status code. -/
def ensureResponse (o : Operation) (code : String) : Operation :=
  if o.responses.has code then o
  else { o with responses := o.responses.put code { description := statusDescription code } }

/-- Add a tag, unless it is empty or there already. -/
def addTag (o : Operation) (tag : String) : Operation :=
  if tag = "" ∨ tag ∈ o.tags then o else { o with tags := o.tags ++ [tag] }

/-- Add tags in order. -/
def addTags (o : Operation) (tags : List String) : Operation := tags.foldl addTag o

/-- The names of the declared fields. -/
def fieldNames : List String :=
  ["summary", "description", "operationId", "tags", "deprecated", "parameters", "requestBody",
    "responses", "security"]

/-- An operation as JSON. -/
def toJson (o : Operation) : Json :=
  .obj (Json.optionalField "summary" .str o.summary
    ++ Json.optionalField "description" .str o.description
    ++ Json.optionalField "operationId" .str o.operationId
    ++ Json.listField "tags" .str o.tags
    ++ Json.flagField "deprecated" o.deprecated
    ++ Json.listField "parameters" Parameter.toJson o.parameters
    ++ Json.optionalField "requestBody" RequestBody.toJson o.requestBody
    ++ Json.field "responses" (Json.ofTable Response.toJson o.responses)
    ++ Json.optionalField "security" (fun s => .arr (s.map SecurityRequirement.toJson)) o.security
    ++ o.extensions)

/-- Read an operation. -/
def ofJson? (v : Json) : Option Operation := do
  let r ← Record.open? fieldNames v
  return {
    summary := ← r.get? "summary" Json.text?
    description := ← r.get? "description" Json.text?
    operationId := ← r.get? "operationId" Json.text?
    tags := ← r.getD "tags" (Json.listOf Json.text?) []
    deprecated := ← r.getD "deprecated" Json.flag? false
    parameters := ← r.getD "parameters" (Json.listOf Parameter.ofJson?) []
    requestBody := ← r.get? "requestBody" RequestBody.ofJson?
    responses := ← r.getD "responses" (Json.tableOf Response.ofJson?) []
    security := ← r.get? "security" (Json.listOf SecurityRequirement.ofJson?)
    extensions := r.others }

end Operation

end RouteContract
