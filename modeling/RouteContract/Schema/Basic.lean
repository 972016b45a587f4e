import RouteContract.Json.Record

/-!
# Schemas

A schema describes the values of a type: its keyword fields, and any other keyword kept as it is.
`toJson` writes the fields that are present in a fixed order, the other keywords after them;
`ofJson?` reads an object back, in any order of its keys.
-/

namespace RouteContract

/-- A schema of an API document. -/
structure Schema where
  typeName : Option String := none
  format : Option String := none
  description : Option String := none
  properties : List (String × Schema) := []
  required : List String := []
  items : Option Schema := none
  enumValues : List Json := []
  reference : Option String := none
  anyOf : List Schema := []
  allOf : List Schema := []
  oneOf : List Schema := []
  extensions : List (String × Json) := []
deriving Repr, Inhabited, BEq

namespace Schema

/-- A schema with only a type. -/
def typed (name : String) : Schema := { typeName := some name }

/-- Where the named schemas of a document stand. -/
def referencePath (name : String) : String := "#/components/schemas/" ++ name

/-- A reference to a named schema. -/
def referring (name : String) : Schema := { reference := some (referencePath name) }

/-- A value whose shape is only known from its use. -/
def inferredObject : Schema :=
  { typeName := some "object", description := some "Inferred from usage" }

/-- Whether a schema tells nothing about the structure of a value. -/
def isEmpty (s : Schema) : Bool :=
  (s.typeName == none || s.typeName == some "object")
    && s.properties.isEmpty && s.reference.isNone && s.anyOf.isEmpty && s.allOf.isEmpty
    && s.oneOf.isEmpty && s.items.isNone && s.enumValues.isEmpty

/-- Whether a schema has no field at all. -/
def isBlank (s : Schema) : Bool :=
  s.typeName.isNone && s.format.isNone && s.description.isNone && s.properties.isEmpty
    && s.required.isEmpty && s.items.isNone && s.enumValues.isEmpty && s.reference.isNone
    && s.anyOf.isEmpty && s.allOf.isEmpty && s.oneOf.isEmpty && s.extensions.isEmpty

/-- The names of the keyword fields. -/
def keywords : List String :=
  ["type", "format", "description", "properties", "required", "items", "enum", "$ref", "anyOf",
    "allOf", "oneOf"]

mutual

/-- A schema as JSON. -/
def toJson : Schema → Json
  | ⟨typeName, format, description, properties, required, items, enumValues, reference, anyOf,
      allOf, oneOf, extensions⟩ =>
    .obj (Json.optionalField "type" .str typeName
      ++ Json.optionalField "format" .str format
      ++ Json.optionalField "description" .str description
      ++ (match properties with
        | [] => []
        | properties => [("properties", .obj (propertiesToJson properties))])
      ++ Json.listField "required" .str required
      ++ itemsToJson items
      ++ Json.listField "enum" id enumValues
      ++ Json.optionalField "$ref" .str reference
      ++ (match anyOf with
        | [] => []
        | anyOf => [("anyOf", .arr (listToJson anyOf))])
      ++ (match allOf with
        | [] => []
        | allOf => [("allOf", .arr (listToJson allOf))])
      ++ (match oneOf with
        | [] => []
        | oneOf => [("oneOf", .arr (listToJson oneOf))])
      ++ extensions)

/-- Named schemas as the fields of an object. -/
def propertiesToJson : List (String × Schema) → List (String × Json)
  | [] => []
  | (name, s) :: rest => (name, toJson s) :: propertiesToJson rest

/-- The schema of the items as an optional field. -/
def itemsToJson : Option Schema → List (String × Json)
  | none => []
  | some s => [("items", toJson s)]

/-- Schemas as the items of an array. -/
def listToJson : List Schema → List Json
  | [] => []
  | s :: rest => toJson s :: listToJson rest

end

mutual

/-- Read a schema. -/
def ofJson? : Json → Option Schema
  | .obj fields => if Record.distinct keywords fields then ofFields? {} fields else none
  | _ => none

/-- Read the fields of a schema onto those already read. -/
def ofFields? (s : Schema) : List (String × Json) → Option Schema
  | [] => some s
  | (name, value) :: rest =>
    if name = "type" then
      match Json.nullable Json.text? value with
      | some v => ofFields? { s with typeName := v } rest
      | none => none
    else if name = "format" then
      match Json.nullable Json.text? value with
      | some v => ofFields? { s with format := v } rest
      | none => none
    else if name = "description" then
      match Json.nullable Json.text? value with
      | some v => ofFields? { s with description := v } rest
      | none => none
    else if name = "properties" then
      match value with
      | .obj fields =>
        match tableOfFields? fields with
        | some v => ofFields? { s with properties := Entries.putAll [] v } rest
        | none => none
      | _ => none
    else if name = "required" then
      match Json.listOf Json.text? value with
      | some v => ofFields? { s with required := v } rest
      | none => none
    else if name = "items" then
      match value with
      | .null => ofFields? { s with items := none } rest
      | value =>
        match ofJson? value with
        | some v => ofFields? { s with items := some v } rest
        | none => none
    else if name = "enum" then
      match value with
      | .arr values => ofFields? { s with enumValues := values.map Json.merged } rest
      | _ => none
    else if name = "$ref" then
      match Json.nullable Json.text? value with
      | some v => ofFields? { s with reference := v } rest
      | none => none
    else if name = "anyOf" then
      match value with
      | .arr items =>
        match listOfItems? items with
        | some v => ofFields? { s with anyOf := v } rest
        | none => none
      | _ => none
    else if name = "allOf" then
      match value with
      | .arr items =>
        match listOfItems? items with
        | some v => ofFields? { s with allOf := v } rest
        | none => none
      | _ => none
    else if name = "oneOf" then
      match value with
      | .arr items =>
        match listOfItems? items with
        | some v => ofFields? { s with oneOf := v } rest
        | none => none
      | _ => none
    else ofFields? { s with extensions := Entries.put name value.merged s.extensions } rest

/-- Read named schemas. -/
def tableOfFields? : List (String × Json) → Option (List (String × Schema))
  | [] => some []
  | (name, value) :: rest =>
    match ofJson? value, tableOfFields? rest with
    | some s, some more => some ((name, s) :: more)
    | _, _ => none

/-- Read the schemas of an array. -/
def listOfItems? : List Json → Option (List Schema)
  | [] => some []
  | value :: rest =>
    match ofJson? value, listOfItems? rest with
    | some s, some more => some (s :: more)
    | _, _ => none

end

/-- A table of named schemas as JSON. -/
def tableToJson (table : Entries Schema) : Json := .obj (propertiesToJson table)

end Schema

end RouteContract
