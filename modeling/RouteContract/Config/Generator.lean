import RouteContract.Document.Basic
import RouteContract.Failure
import RouteContract.Json.Reader
import RouteContract.Yaml.Value

/-!
# Generator configuration

What a user supplies for a document in a file of JSON or YAML: the general information, servers,
security schemes, schemas, the requirements that hold everywhere, and the markers of directives.
-/

namespace RouteContract

/-- What a user supplies in a file. -/
structure GeneratorConfig where
  info : Option Info := none
  servers : List Server := []
  securitySchemes : Entries Json := []
  schemas : Entries Schema := []
  security : List SecurityRequirement := []
  directiveMarkers : List String := []
deriving Repr, Inhabited

namespace GeneratorConfig

/-- Read a configuration. -/
def ofJson? (v : Json) : Option GeneratorConfig := do
  let r ← Record.closed? ["info", "servers", "components", "security", "directiveMarkers"] v
  let components ← r.getD "components" (Record.closed? ["securitySchemes", "schemas"]) ⟨[], []⟩
  return {
    info := ← r.get? "info" Info.ofJson?
    servers := ← r.getD "servers" (Json.listOf Server.ofJson?) []
    securitySchemes := ← components.getD "securitySchemes" (Json.tableOf fun v => some v.merged) []
    schemas := ← components.getD "schemas" (Json.tableOf Schema.ofJson?) []
    security := ← r.getD "security" (Json.listOf SecurityRequirement.ofJson?) []
    directiveMarkers := ← r.getD "directiveMarkers" (Json.listOf Json.text?) [] }

/-- What is expected of a configuration. -/
def shape : Json.Shape :=
  .record
    [("info", .optional (.record
        [("title", .text), ("version", .text), ("description", .optional .text)])),
      ("servers", .list (.record [("url", .text), ("description", .optional .text)])),
      ("components", .record [("securitySchemes", .table .any), ("schemas", .table .schema)]),
      ("security", .list (.table (.list .text))),
      ("directiveMarkers", .list .text)]

/-- Whether the file of a path holds YAML. -/
def isYaml (path : String) : Bool :=
  PathName.extension? path = some "yaml" || PathName.extension? path = some "yml"

/-- Read the text of the file of a path. -/
def parse? (path text : String) : Option GeneratorConfig :=
  (if isYaml path then Yaml.parse? shape text else Json.parse? shape text).bind ofJson?

/-- Read the configuration in a file. -/
def load (fs : FileSystem) (path : String) : Except Failure GeneratorConfig :=
  match fs.readText path with
  | .error e => .error (.config path (.file e))
  | .ok text =>
    match parse? path text with
    | some config => .ok config
    | none => .error (.config path (.malformed "not a generator configuration"))

end GeneratorConfig

end RouteContract
