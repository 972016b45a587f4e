import RouteContract.Text.Basic

/-!
# Path names

A path name is kept as text and read as a row of components: an optional root, then names, `.` and
`..`, divided by slashes. Repeated slashes count as one, and `.` counts only at the front of a
relative path.

* `join` puts a path behind another and changes neither; an absolute path replaces what is before
  it;
* `parent?` drops the last component, `withExtension` replaces the end of the last name;
* `normalize` works on the components alone: `.` is dropped, `..` takes back the component before
  it, and is kept where nothing is left to take back.
-/

namespace RouteContract.PathName

/-- A component of a path. -/
inductive Component where
  | root
  | current
  | parent
  | name (text : List Char)
deriving DecidableEq, Repr, Inhabited

/-- The component that a piece between slashes stands for; an empty piece stands for none. -/
def ofPiece (piece : List Char) : Option Component :=
  if piece = [] then none
  else if piece = ['.'] then some .current
  else if piece = ['.', '.'] then some .parent
  else some (.name piece)

/-- Whether a path starts at the root. -/
def isAbsolute (path : List Char) : Bool := path.head? = some '/'

/-- The components of a path. -/
def components (path : List Char) : List Component :=
  let pieces := (Text.splitChars '/' path).filterMap ofPiece
  if isAbsolute path then .root :: pieces.filter (· ≠ .current)
  else match pieces with
    | [] => []
    | first :: rest => first :: rest.filter (· ≠ .current)

/-- Text with slashes between its pieces. -/
def joinPieces : List (List Char) → List Char
  | [] => []
  | [piece] => piece
  | piece :: rest => piece ++ '/' :: joinPieces rest

/-- The text of a component between slashes; the root has none. -/
def Component.piece : Component → List Char
  | .root => []
  | .current => ['.']
  | .parent => ['.', '.']
  | .name text => text

/-- The path with the given components. -/
def render : List Component → List Char
  | .root :: rest => '/' :: joinPieces (rest.map Component.piece)
  | parts => joinPieces (parts.map Component.piece)

/-- Put a path behind another. -/
def joinChars (base path : List Char) : List Char :=
  if isAbsolute path ∨ base = [] then path
  else if base.getLast? = some '/' then base ++ path
  else base ++ '/' :: path

/-- Put a path behind another; an absolute path stands for itself. -/
def join (base path : String) : String := String.ofList (joinChars base.toList path.toList)

/-- Whether a piece counts for nothing behind another. -/
def isIdle (piece : List Char) : Bool := piece = [] || piece = ['.']

/-- Drop the pieces at the back that count for nothing; `.` counts at the front of a relative
path. -/
def dropIdle (relative : Bool) : List (List Char) → List (List Char)
  | [] => []
  | first :: rest =>
    match (rest.reverse.dropWhile isIdle).reverse with
    | [] => if first = [] ∨ (first = ['.'] ∧ !relative) then [] else [first]
    | rest => first :: rest

/-- The pieces of a path after its root, without idle ones at the back. -/
def body (path : List Char) : List (List Char) :=
  if isAbsolute path then dropIdle false (Text.splitChars '/' path.tail)
  else dropIdle true (Text.splitChars '/' path)

/-- The path of pieces, at the root of another path if that has one. -/
def withBody (path : List Char) (pieces : List (List Char)) : List Char :=
  if isAbsolute path then '/' :: joinPieces pieces else joinPieces pieces

/-- The path without its last component; the root and the empty path have none to drop. -/
def parentChars? (path : List Char) : Option (List Char) :=
  match body path with
  | [] => none
  | pieces => some (withBody path (dropIdle (!isAbsolute path) pieces.dropLast))

/-- The path without its last component. -/
def parent? (path : String) : Option String := (parentChars? path.toList).map String.ofList

theorem length_dropIdle_le (relative : Bool) (pieces : List (List Char)) :
    (dropIdle relative pieces).length ≤ pieces.length := by
  cases pieces with
  | nil => simp [dropIdle]
  | cons first rest =>
    have h := (List.dropWhile_sublist isIdle (l := rest.reverse)).length_le
    simp only [dropIdle]
    split
    · split <;> simp
    · next kept _ =>
      simp only [List.length_cons, List.length_reverse] at h ⊢
      simpa using h

/-- The pieces of a path, then those of each path above it. -/
def bodiesAbove (relative : Bool) (pieces : List (List Char)) : List (List (List Char)) :=
  match pieces with
  | [] => [[]]
  | first :: rest =>
    (first :: rest) :: bodiesAbove relative (dropIdle relative (first :: rest).dropLast)
termination_by pieces.length
decreasing_by
  have := length_dropIdle_le relative (first :: rest).dropLast
  simp only [List.length_dropLast, List.length_cons] at *
  omega

/-- A path, then each path above it. -/
def ancestors (path : String) : List String :=
  path :: ((bodiesAbove (!isAbsolute path.toList) (body path.toList)).tail.map
    fun pieces => String.ofList (withBody path.toList pieces))

/-- The last component, when it is a name. -/
def fileNameChars? (path : List Char) : Option (List Char) :=
  match (components path).getLast? with
  | some (.name text) => some text
  | _ => none

/-- The last component, when it is a name. -/
def fileName? (path : String) : Option String := (fileNameChars? path.toList).map String.ofList

/-- A file name before and after its last dot; a name that only starts with a dot has no end. -/
def splitAtDot (name : List Char) : List Char × Option (List Char) :=
  let ending := (name.reverse.takeWhile (· ≠ '.')).reverse
  match (name.reverse.dropWhile (· ≠ '.')).reverse.dropLast with
  | [] => (name, none)
  | stem => (stem, some ending)

/-- The file name without its extension. -/
def stem? (path : String) : Option String :=
  (fileNameChars? path.toList).map fun name => String.ofList (splitAtDot name).1

/-- The extension of the file name. -/
def extension? (path : String) : Option String :=
  (fileNameChars? path.toList).bind fun name => (splitAtDot name).2.map String.ofList

/-- The path with another extension; a path that does not end in a name is unchanged. -/
def withExtension (extension path : String) : String :=
  match fileNameChars? path.toList with
  | none => path
  | some name =>
    String.ofList (withBody path.toList
      ((body path.toList).dropLast ++ [(splitAtDot name).1 ++ '.' :: extension.toList]))

/-- Read one more component onto a stack of components, the last on top. -/
def push (stack : List Component) : Component → List Component
  | .current => stack
  | .root => [.root]
  | .name text => .name text :: stack
  | .parent =>
    match stack with
    | [] => [.parent]
    | .root :: rest => .parent :: .root :: rest
    | _ :: rest => rest

/-- The components of the normal form. -/
def normal (parts : List Component) : List Component := (parts.foldl push []).reverse

/-- The path with `.` and `..` resolved on its text alone. -/
def normalize (path : String) : String :=
  String.ofList (render (normal (components path.toList)))

end RouteContract.PathName
