import RouteContract.Text.Basic

/-!
# Route paths

* `join` puts a route path behind a base path and normalizes the whole: backslashes count as
  slashes, empty and `.` segments are dropped, and `..` removes the segment before it. The result
  starts with a slash and ends with one only when it is the root.
* `braced` turns the parameters `:name` and `:name?` of a router into placeholders in braces.
* `placeholders` lists the names of the placeholders of a path, each once.
-/

namespace RouteContract.Route

/-- Read one segment onto the segments before it. -/
def pushSegment (segments : List (List Char)) (segment : List Char) : List (List Char) :=
  if segment = [] ∨ segment = ['.'] then segments
  else if segment = ['.', '.'] then segments.dropLast
  else segments ++ [segment]

/-- A backslash counts as a slash. -/
def slashed (cs : List Char) : List Char := cs.map fun c => if c = '\\' then '/' else c

/-- The segments that are left of a path. -/
def segments (cs : List Char) : List (List Char) :=
  (Text.splitChars '/' (slashed cs)).foldl pushSegment []

/-- The path of a list of segments. -/
def ofSegments (segments : List (List Char)) : List Char :=
  '/' :: List.intercalate ['/'] segments

/-- The normalized path behind a base path. -/
def joinChars (base path : List Char) : List Char := ofSegments (segments (base ++ '/' :: path))

/-- The normalized path behind a base path. -/
def join (base path : String) : String := String.ofList (joinChars base.toList path.toList)

/-- A character of a parameter's name. -/
def isNameChar (c : Char) : Bool := c.isAlphanum || c = '_'

/-- Drop the mark of an optional parameter. -/
def dropOptional : List Char → List Char
  | '?' :: rest => rest
  | cs => cs

/-- Dropping the mark leaves no more text. -/
theorem dropOptional_length (cs : List Char) : (dropOptional cs).length ≤ cs.length := by
  unfold dropOptional
  split <;> simp

/-- The path with its parameters in braces. -/
def bracedChars : List Char → List Char
  | [] => []
  | c :: cs =>
    if c ≠ ':' then c :: bracedChars cs
    else
      let name := cs.takeWhile isNameChar
      if name.isEmpty then ':' :: bracedChars cs
      else '{' :: (name ++ '}' :: bracedChars (dropOptional (cs.dropWhile isNameChar)))
termination_by cs => cs.length
decreasing_by
  · simp
  · simp
  · have h := dropOptional_length (cs.dropWhile isNameChar)
    have := (List.dropWhile_sublist isNameChar (l := cs)).length_le
    simp only [List.length_cons]
    omega

/-- The path with its parameters in braces. -/
def braced (path : String) : String := String.ofList (bracedChars path.toList)

/-- The texts between braces, in order. -/
def bracedNames : List Char → List (List Char)
  | [] => []
  | c :: cs =>
    if c ≠ '{' then bracedNames cs
    else match _h : Text.cutAt? ['}'] cs with
      | none => []
      | some (name, rest) => name :: bracedNames rest
termination_by cs => cs.length
decreasing_by
  · simp
  · have := Text.cutAt?_length _h
    simp only [List.length_cons]
    omega

/-- Add a text to a list, unless it is empty or there already. -/
def addName (names : List (List Char)) (name : List Char) : List (List Char) :=
  if name = [] ∨ name ∈ names then names else names ++ [name]

/-- The names of the placeholders of a path, each once, in order of first occurrence. -/
def placeholderChars (cs : List Char) : List (List Char) := (bracedNames cs).foldl addName []

/-- The names of the placeholders of a path. -/
def placeholders (path : String) : List String :=
  (placeholderChars path.toList).map String.ofList

end RouteContract.Route
