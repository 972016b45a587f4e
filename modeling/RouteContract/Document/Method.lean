import RouteContract.Text.Basic

/-!
# Methods, locations and status codes

The request methods a route can be registered for, the places a parameter is read from, and the
default description of a status code.
-/

namespace RouteContract

/-- A request method. -/
inductive Method where
  | get | post | put | delete | patch | options | head
deriving DecidableEq, Repr, Inhabited

namespace Method

/-- Every method. -/
def all : List Method := [.get, .post, .put, .delete, .patch, .options, .head]

/-- The name in lower case, under which a document holds the operation. -/
def key : Method → String
  | .get => "get"
  | .post => "post"
  | .put => "put"
  | .delete => "delete"
  | .patch => "patch"
  | .options => "options"
  | .head => "head"

/-- The name in upper case. -/
def name : Method → String
  | .get => "GET"
  | .post => "POST"
  | .put => "PUT"
  | .delete => "DELETE"
  | .patch => "PATCH"
  | .options => "OPTIONS"
  | .head => "HEAD"

/-- The method with a lower case name. -/
def ofKey? (key : String) : Option Method := all.find? fun m => m.key == key

/-- The method that a router function registers, in any case. -/
def ofVerb? (verb : String) : Option Method := ofKey? (Text.lowerAscii verb)

end Method

/-- Where a parameter is read from. -/
inductive Location where
  | query | header | path | cookie
deriving DecidableEq, Repr, Inhabited

namespace Location

/-- The name of a location in a document. -/
def key : Location → String
  | .query => "query"
  | .header => "header"
  | .path => "path"
  | .cookie => "cookie"

/-- The location with a name. -/
def ofKey? (key : String) : Option Location :=
  [Location.query, .header, .path, .cookie].find? fun l => l.key == key

end Location

/-- The default description of a status code. -/
def statusDescription : String → String
  | "200" => "OK"
  | "201" => "Created"
  | "204" => "No Content"
  | "400" => "Bad Request"
  | "401" => "Unauthorized"
  | "403" => "Forbidden"
  | "404" => "Not Found"
  | "500" => "Internal Server Error"
  | code => "Status " ++ code

end RouteContract
