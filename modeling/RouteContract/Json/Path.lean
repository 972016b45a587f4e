import RouteContract.Json.Basic
import RouteContract.Text.Integer

/-!
# Dotted paths into JSON values

A dotted path names a place inside a value by the keys of objects and the indices of arrays; empty
segments are dropped. `set` writes a value at a path: an index selects an item of an array, a key a
field of an object, and anything else on the way becomes an object. `read?` reads a path.
-/

namespace RouteContract.Json

/-- The segments of a dotted path. -/
def pathSegments (path : String) : List String :=
  (Text.splitOn '.' path).filter fun segment => segment ≠ ""

/-- The index that a segment denotes. -/
def index? (segment : String) : Option Nat := Text.unsigned? 10 Text.bits64 segment.toList

/-- The index that a segment denotes within an array. -/
def itemIndex? (items : List Json) (segment : String) : Option Nat :=
  (index? segment).filter (· < items.length)

/-- The fields of a value; anything but an object has none. -/
def fieldsOf : Json → List (String × Json)
  | .obj fields => fields
  | _ => []

/-- Write a value at a list of segments. -/
def setAt (value : Json) : List String → Json → Json
  | [], _ => value
  | segment :: rest, target =>
    let asObject :=
      let fields := fieldsOf target
      let child := (Entries.get? segment fields).getD .null
      Json.obj (Entries.put segment (setAt value rest child) fields)
    match target with
    | .arr items =>
      match itemIndex? items segment with
      | some i => .arr (items.set i (setAt value rest ((items[i]?).getD .null)))
      | none => asObject
    | _ => asObject

/-- Write a value at a dotted path; a path without segments changes nothing. -/
def set (target : Json) (path : String) (value : Json) : Json :=
  match pathSegments path with
  | [] => target
  | segments => setAt value segments target

/-- Read the value at a list of segments. -/
def readAt? : List String → Json → Option Json
  | [], target => some target
  | segment :: rest, .obj fields => (Entries.get? segment fields).bind (readAt? rest)
  | segment :: rest, .arr items =>
    ((itemIndex? items segment).bind fun i => items[i]?).bind (readAt? rest)
  | _ :: _, _ => none

/-- Read the value at a dotted path. -/
def read? (target : Json) (path : String) : Option Json := readAt? (pathSegments path) target

end RouteContract.Json
