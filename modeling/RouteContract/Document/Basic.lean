import RouteContract.Document.Operation
import RouteContract.Json.Printer

/-!
# Documents

A document holds the operations of every path, the named schemas and security schemes, and the
general information of an API. `Parts.build` puts a document together from the crawled routes and
schemas and from what the user supplies; a schema of the user replaces a crawled one of its name.
-/

namespace RouteContract

/-- The general information of an API. -/
structure Info where
  title : String := "Auto Generated API"
  version : String := "1.0.0"
  description : Option String := none
deriving DecidableEq, Repr, Inhabited

/-- A server of an API. -/
structure Server where
  url : String
  description : Option String := none
deriving DecidableEq, Repr, Inhabited

/-- The operations of a path, in order of registration. -/
abbrev PathItem := List (Method × Operation)

/-- The operations of every path, in order of registration. -/
abbrev Routes := Entries PathItem

/-- The named parts of a document. -/
structure Components where
  schemas : Entries Schema := []
  securitySchemes : Entries Json := []
deriving Repr, Inhabited, BEq

/-- An API document. -/
structure Document where
  openapi : String
  info : Info
  servers : List Server := []
  paths : Routes
  components : Components := {}
  security : List SecurityRequirement := []
deriving Repr, Inhabited

namespace Info

/-- The general information as JSON. -/
def toJson (i : Info) : Json :=
  .obj (Json.field "title" (.str i.title)
    ++ Json.field "version" (.str i.version)
    ++ Json.optionalField "description" .str i.description)

/-- Read the general information. -/
def ofJson? (v : Json) : Option Info := do
  let r ← Record.closed? ["title", "version", "description"] v
  return {
    title := ← r.get "title" Json.text?
    version := ← r.get "version" Json.text?
    description := ← r.get? "description" Json.text? }

end Info

namespace Server

/-- A server as JSON. -/
def toJson (s : Server) : Json :=
  .obj (Json.field "url" (.str s.url) ++ Json.optionalField "description" .str s.description)

/-- Read a server. -/
def ofJson? (v : Json) : Option Server := do
  let r ← Record.closed? ["url", "description"] v
  return { url := ← r.get "url" Json.text?, description := ← r.get? "description" Json.text? }

end Server

namespace PathItem

/-- Put an operation under a method: in place when the method is there, else at the end. -/
def put (method : Method) (o : Operation) : PathItem → PathItem
  | [] => [(method, o)]
  | (m, old) :: rest => if m = method then (m, o) :: rest else (m, old) :: put method o rest

/-- The operation under a method. -/
def get? (method : Method) : PathItem → Option Operation
  | [] => none
  | (m, o) :: rest => if m = method then some o else get? method rest

/-- The operations of a path as JSON. -/
def toJson (item : PathItem) : Json := .obj (item.map fun (m, o) => (m.key, o.toJson))

/-- Read the operations of a path. -/
def ofJson? : Json → Option PathItem
  | .obj fields => do
    let pairs ← fields.mapM fun entry => do
      return (← Method.ofKey? entry.1, ← Operation.ofJson? entry.2)
    return pairs.foldl (fun item pair => PathItem.put pair.1 pair.2 item) []
  | _ => none

end PathItem

namespace Routes

/-- Register an operation: a path keeps its position, a method its position in the path. -/
def register (routes : Routes) (path : String) (method : Method) (o : Operation) : Routes :=
  Entries.put path (PathItem.put method o ((Entries.get? path routes).getD [])) routes

/-- The routes as JSON. -/
def toJson (routes : Routes) : Json := Json.ofTable PathItem.toJson routes

/-- Read routes. -/
def ofJson? (v : Json) : Option Routes := Json.tableOf PathItem.ofJson? v

end Routes

namespace Components

/-- The named parts as JSON. -/
def toJson (c : Components) : Json :=
  .obj (Json.field "schemas" (Schema.tableToJson c.schemas)
    ++ Json.tableField "securitySchemes" id c.securitySchemes)

/-- Read the named parts. -/
def ofJson? (v : Json) : Option Components := do
  let r ← Record.closed? ["schemas", "securitySchemes"] v
  return {
    schemas := ← r.getD "schemas" (Json.tableOf Schema.ofJson?) []
    securitySchemes := ← r.getD "securitySchemes" (Json.tableOf fun v => some v.merged) [] }

end Components

/-- The version of the document format. -/
def formatVersion : String := "3.0.0"

namespace Document

/-- A document as JSON. -/
def toJson (d : Document) : Json :=
  .obj (Json.field "openapi" (.str d.openapi)
    ++ Json.field "info" d.info.toJson
    ++ Json.field "servers" (.arr (d.servers.map Server.toJson))
    ++ Json.field "paths" (Routes.toJson d.paths)
    ++ Json.field "components" d.components.toJson
    ++ Json.listField "security" SecurityRequirement.toJson d.security)

/-- Read a document. -/
def ofJson? (v : Json) : Option Document := do
  let r ← Record.closed? ["openapi", "info", "servers", "paths", "components", "security"] v
  return {
    openapi := ← r.get "openapi" Json.text?
    info := ← r.get "info" Info.ofJson?
    servers := ← r.getD "servers" (Json.listOf Server.ofJson?) []
    paths := ← r.get "paths" Routes.ofJson?
    components := ← r.getD "components" Components.ofJson? {}
    security := ← r.getD "security" (Json.listOf SecurityRequirement.ofJson?) [] }

end Document

/-- What a crawl finds: the routes, and the named schemas that they refer to. -/
structure Crawled where
  routes : Routes := []
  schemas : Entries Schema := []
deriving Repr, Inhabited

/-- What a user supplies for a document. -/
structure Parts where
  info : Info := {}
  servers : List Server := []
  securitySchemes : Entries Json := []
  security : List SecurityRequirement := []
  schemas : Entries Schema := []
deriving Repr, Inhabited

/-- The document of a crawl; the user's schemas replace crawled ones of their names. -/
def Parts.build (parts : Parts) (crawled : Crawled) : Document where
  openapi := formatVersion
  info := parts.info
  servers := parts.servers
  paths := crawled.routes
  components :=
    { schemas := Entries.putAll crawled.schemas parts.schemas
      securitySchemes := parts.securitySchemes }
  security := parts.security

end RouteContract
