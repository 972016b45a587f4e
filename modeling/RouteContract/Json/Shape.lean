import RouteContract.Json.Basic

/-!
# Expected shapes

What is expected of a value before its text is read. Two readings depend on it: where a text is
expected, the scalar `1.0` of a YAML document is that text, and elsewhere a number; and what a
record does not know is not looked at, so that it only has to be well formed.

`item?` and `entry?` say what is expected inside a sequence and under a key.
-/

namespace RouteContract.Json

/-- What is expected of a value. -/
inductive Shape where
  /-- A text: any scalar. -/
  | text
  /-- A value or nothing. -/
  | optional (shape : Shape)
  | list (shape : Shape)
  /-- A mapping with any keys. -/
  | table (shape : Shape)
  /-- A mapping with some known keys. -/
  | record (fields : List (String × Shape))
  /-- The schema of a type, which is a mapping. -/
  | schema
  /-- Any value. -/
  | any
  /-- Any value in which the keys of mappings are texts by themselves. -/
  | strict
deriving Repr, Inhabited

namespace Shape

/-- What is expected of the keywords of a schema. -/
def schemaFields : List (String × Shape) :=
  [("type", .optional .text), ("format", .optional .text), ("description", .optional .text),
    ("properties", .table .schema), ("required", .list .text), ("items", .optional .schema),
    ("enum", .list .any), ("$ref", .optional .text), ("anyOf", .list .schema),
    ("allOf", .list .schema), ("oneOf", .list .schema)]

/-- What is expected of a value that is there. -/
def present : Shape → Shape
  | .optional shape => shape.present
  | shape => shape

/-- Whether nothing may stand for a value. -/
def isOptional : Shape → Bool
  | .optional _ => true
  | _ => false

/-- What is expected of the items of a sequence; none where no sequence is expected. -/
def item? : Shape → Option Shape
  | .list shape => some shape
  | .any => some .any
  | .strict => some .strict
  | _ => none

/-- What is expected of the value of a key; the outer none where no mapping is expected, the inner
one where the value is not looked at. -/
def entry? (key : String) : Shape → Option (Option Shape)
  | .table shape => some (some shape)
  | .any => some (some .any)
  | .strict => some (some .strict)
  | .record fields => some (Entries.get? key fields)
  | .schema => some (some ((Entries.get? key schemaFields).getD .strict))
  | _ => none

end Shape

end RouteContract.Json
