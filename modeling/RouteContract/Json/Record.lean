import RouteContract.Json.Basic

/-!
# Reading records out of JSON

A record is read from an object by the names of its fields, or, when it is closed, from an array
of its fields in their order. A closed record ignores unknown names; an open one keeps them, in
order, beside its fields. A name of a field may occur only once.

Writing goes through lists of fields: `field` always writes, `optionalField` skips an absent value.
-/

namespace RouteContract

namespace Json

/-- The text of a string. -/
def text? : Json → Option String
  | .str s => some s
  | _ => none

/-- The value of a boolean. -/
def flag? : Json → Option Bool
  | .bool b => some b
  | _ => none

/-- Read a value that may be null. -/
def nullable {α : Type} (read : Json → Option α) : Json → Option (Option α)
  | .null => some none
  | v => (read v).map some

/-- Read each item of an array. -/
def listOf {α : Type} (read : Json → Option α) : Json → Option (List α)
  | .arr items => items.mapM read
  | _ => none

/-- Read each value of an object; a repeated name keeps its position and takes its last value. -/
def tableOf {α : Type} (read : Json → Option α) : Json → Option (Entries α)
  | .obj fields =>
    (fields.mapM fun entry => (read entry.2).map fun a => (entry.1, a)).map (Entries.putAll [])
  | _ => none

/-- The name of a case: a string, or an object whose only field has that name and is null. -/
def case? : Json → Option String
  | .str s => some s
  | .obj [(name, .null)] => some name
  | _ => none

mutual

/-- The value in which a repeated name of an object keeps its position and takes its last value. -/
def merged : Json → Json
  | .arr items => .arr (mergedItems items)
  | .obj fields => .obj (Entries.putAll [] (mergedFields fields))
  | .null => .null
  | .bool b => .bool b
  | .num n => .num n
  | .str s => .str s

/-- The items of an array, each merged. -/
def mergedItems : List Json → List Json
  | [] => []
  | item :: rest => merged item :: mergedItems rest

/-- The fields of an object, each value merged. -/
def mergedFields : List (String × Json) → List (String × Json)
  | [] => []
  | (name, value) :: rest => (name, merged value) :: mergedFields rest

end

/-- A field that is always written. -/
def field (name : String) (value : Json) : List (String × Json) := [(name, value)]

/-- A field that is written when it is present. -/
def optionalField {α : Type} (name : String) (write : α → Json) : Option α → List (String × Json)
  | none => []
  | some a => [(name, write a)]

/-- A list that is written when it is not empty. -/
def listField {α : Type} (name : String) (write : α → Json) (items : List α) :
    List (String × Json) :=
  if items.isEmpty then [] else [(name, .arr (items.map write))]

/-- An object with the entries of a table. -/
def ofTable {α : Type} (write : α → Json) (entries : Entries α) : Json :=
  .obj (entries.map fun (name, a) => (name, write a))

/-- A table that is written when it is not empty. -/
def tableField {α : Type} (name : String) (write : α → Json) (entries : Entries α) :
    List (String × Json) :=
  if entries.isEmpty then [] else [(name, ofTable write entries)]

/-- A flag that is written when it is set. -/
def flagField (name : String) (flag : Bool) : List (String × Json) :=
  if flag then [(name, .bool true)] else []

end Json

/-- The fields of a record by name, and the other entries of the object it was read from. -/
structure Record where
  known : Entries Json
  others : Entries Json

namespace Record

/-- Whether no name of the list occurs twice among the entries. -/
def distinct (names : List String) (fields : List (String × Json)) : Bool :=
  names.all fun name => ((fields.filter fun (key, _) => key = name).length ≤ 1)

/-- Split the entries of an object into known fields and others. -/
def ofFields? (names : List String) (fields : List (String × Json)) : Option Record :=
  if distinct names fields then
    some
      { known := fields.filter fun (key, _) => names.contains key
        others := Entries.putAll []
          ((fields.filter fun (key, _) => !names.contains key).map
            fun (key, v) => (key, v.merged)) }
  else none

/-- An open record: an object whose unknown entries are kept. -/
def open? (names : List String) : Json → Option Record
  | .obj fields => ofFields? names fields
  | _ => none

/-- A closed record: an object, or an array of the fields in their order. -/
def closed? (names : List String) : Json → Option Record
  | .obj fields => ofFields? names fields
  | .arr items => if items.length ≤ names.length then some ⟨names.zip items, []⟩ else none
  | _ => none

/-- A field that must be there. -/
def get {α : Type} (r : Record) (name : String) (read : Json → Option α) : Option α :=
  (r.known.get? name).bind read

/-- A field that has a default. -/
def getD {α : Type} (r : Record) (name : String) (read : Json → Option α) (default : α) :
    Option α :=
  match r.known.get? name with
  | some v => read v
  | none => some default

/-- A field that may be absent or null. -/
def get? {α : Type} (r : Record) (name : String) (read : Json → Option α) : Option (Option α) :=
  r.getD name (Json.nullable read) none

end Record

end RouteContract
