import RouteContract.Text.Basic

/-!
# Documentation blocks

A documentation block is a comment that opens with two stars. Its lines, less the star in front,
are free text up to the first line that starts with `@`; from there on every such line opens a tag,
and other lines continue the value of the tag before them.
-/

namespace RouteContract

/-- A tag of a documentation block. -/
structure DocTag where
  name : String
  value : Option String := none
deriving DecidableEq, Repr, Inhabited

/-- The free text of a documentation block and its tags. -/
structure DocComment where
  text : Option String := none
  tags : List DocTag := []
deriving DecidableEq, Repr, Inhabited

/-- Continue the value of a tag by a line. -/
def DocTag.continueBy (tag : DocTag) (line : List Char) : DocTag :=
  if line.isEmpty then tag
  else
    { tag with value := some (match tag.value with
        | some v => v ++ " " ++ String.ofList line
        | none => String.ofList line) }

namespace DocComment

/-- A text, or nothing when it is empty. -/
def nonEmpty (cs : List Char) : Option String :=
  if cs.isEmpty then none else some (String.ofList cs)

/-- Drop one star in front. -/
def dropStar : List Char → List Char
  | '*' :: rest => rest
  | cs => cs

/-- The content of a line: trimmed, less one star in front. -/
def lineContent (line : List Char) : List Char := Text.trimChars (dropStar (Text.trimChars line))

/-- The tag that a line opens, given the text after its `@`. -/
def openTag (cs : List Char) : DocTag where
  name := String.ofList (cs.takeWhile fun c => !Text.isBlank c)
  value := nonEmpty (Text.trimChars (cs.dropWhile fun c => !Text.isBlank c))

/-- Change the last element of a list. -/
def changeLast {α : Type} (f : α → α) : List α → List α
  | [] => []
  | [a] => [f a]
  | a :: rest => a :: changeLast f rest

/-- The lines of free text read so far, and the tags. -/
structure Reading where
  lines : List (List Char) := []
  tags : List DocTag := []

/-- Read the content of one more line. -/
def Reading.next (r : Reading) (line : List Char) : Reading :=
  match line with
  | '@' :: rest => { r with tags := r.tags ++ [openTag rest] }
  | line =>
    if r.tags.isEmpty then { r with lines := r.lines ++ [line] }
    else { r with tags := changeLast (fun tag => tag.continueBy line) r.tags }

/-- The block that was read. -/
def Reading.finish (r : Reading) : DocComment where
  text := nonEmpty (Text.trimChars (List.intercalate ['\n'] r.lines))
  tags := r.tags

/-- The text between the delimiters of a documentation block. -/
def inner? (raw : List Char) : Option (List Char) :=
  (Text.afterPrefix? ['/', '*', '*'] (Text.trimChars raw)).bind (Text.beforeSuffix? ['*', '/'])

/-- Read a documentation block; any other comment is none. -/
def parse? (raw : String) : Option DocComment :=
  (inner? raw.toList).map fun inner =>
    (((Text.lineChars inner).map lineContent).foldl Reading.next {}).finish

/-- The first tag of a name. -/
def tag? (doc : DocComment) (name : String) : Option DocTag :=
  doc.tags.find? fun t => t.name == name

/-- Whether a tag of a name is there. -/
def hasTag (doc : DocComment) (name : String) : Bool := (doc.tag? name).isSome

/-- The value of the first tag of a name. -/
def tagValue? (doc : DocComment) (name : String) : Option String :=
  (doc.tag? name).bind DocTag.value

end DocComment

/-- What a documentation block says about an operation. -/
structure DocMetadata where
  summary : Option String := none
  description : Option String := none
  operationId : Option String := none
  deprecated : Bool := false
  tags : List String := []
deriving DecidableEq, Repr, Inhabited

/-- The metadata in the tags of a block; the value of `@tags` is a list with commas. -/
def DocMetadata.ofDoc (doc : DocComment) : DocMetadata where
  summary := doc.tagValue? "summary"
  description := doc.tagValue? "description"
  operationId := doc.tagValue? "operationId"
  deprecated := doc.hasTag "deprecated"
  tags := match doc.tagValue? "tags" with
    | some value => ((Text.splitOn ',' value).map Text.trim).filter fun tag => tag ≠ ""
    | none => []

end RouteContract
