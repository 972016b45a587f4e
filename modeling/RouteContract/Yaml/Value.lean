import RouteContract.Json.Record
import RouteContract.Json.Shape
import RouteContract.Yaml.Scalar
import RouteContract.Yaml.Tree

/-!
# The values of document trees

What a scalar of a document denotes depends on what is expected of it: where a text is expected, the
scalar `1.0` is that text, and elsewhere a number. `fit?` gives the JSON value of a tree in an
expected shape. An empty plain scalar fits every list, table and record, and what a record does not
know is not looked at.
-/

namespace RouteContract.Yaml

/-- Whether a tree is a plain scalar that denotes null. -/
def isNull : Tree → Bool
  | .scalar text true => plain text = .null
  | _ => false

/-- The value of a plain scalar; a whole number has at most 64 bits. -/
def plainValue? (text : String) : Option Json :=
  match plain text with
  | .null => some .null
  | .bool b => some (.bool b)
  | .int n =>
    if -(Text.bits63 : Int) ≤ n ∧ n < (Text.bits64 : Int) then some (.num (.int n)) else none
  | .float x => some (if x.isFinite then .num (.float x) else .null)
  | .text => some (.str text)

/-- The text of a key. -/
def keyText? (shape : Json.Shape) : Tree → Option String
  | .scalar text isPlain =>
    match shape with
    | .strict => if isPlain ∧ plain text ≠ .text then none else some text
    | _ => some text
  | _ => none

/-- The value of a scalar. -/
def scalar? (text : String) (isPlain : Bool) : Json.Shape → Option Json
  | .text => some (.str text)
  | .optional _ => none
  | .list _ => if isPlain ∧ text.isEmpty then some (.arr []) else none
  | .any => if isPlain then plainValue? text else some (.str text)
  | .strict => if isPlain then plainValue? text else some (.str text)
  | _ => if isPlain ∧ text.isEmpty then some (.obj []) else none

mutual

/-- The JSON value of a tree in a shape, with at most so many nested sequences and mappings. -/
def fit? : Nat → Tree → Json.Shape → Option Json
  | depth, tree, shape =>
    if shape.isOptional ∧ isNull tree then some .null
    else match tree, depth with
      | .scalar text isPlain, _ => scalar? text isPlain shape.present
      | .seq items, depth + 1 => do
        return .arr (← fitItems? depth items (← shape.present.item?))
      | .map entries, depth + 1 => do
        return .obj (← fitEntries? depth entries shape.present)
      | _, 0 => none

/-- The values of the items of a sequence. -/
def fitItems? : Nat → List Tree → Json.Shape → Option (List Json)
  | _, [], _ => some []
  | depth, item :: items, shape => do
    let v ← fit? depth item shape
    return v :: (← fitItems? depth items shape)

/-- The values of the entries of a mapping. -/
def fitEntries? : Nat → List (Tree × Tree) → Json.Shape → Option (List (String × Json))
  | _, [], shape => (shape.entry? "").map fun _ => []
  | depth, (key, value) :: rest, shape => do
    let name ← keyText? shape key
    let v ← match ← shape.entry? name with
      | some inner => fit? depth value inner
      | none => some .null
    return (name, v) :: (← fitEntries? depth rest shape)

end

/-- The largest number of sequences and mappings inside one another. -/
def nestingLimit : Nat := 128

/-- Read a text as the JSON value of a shape. -/
def parse? (shape : Json.Shape) (text : String) : Option Json := do
  fit? nestingLimit (← Tree.parse? text) shape

end RouteContract.Yaml
