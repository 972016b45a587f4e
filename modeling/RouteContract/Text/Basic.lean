import RouteContract.Text.Classes

/-!
# Text as lists of characters

Cutting and trimming of text. Each operation is defined on lists of characters, where the laws
are stated, and then on strings.

* `splitOn` cuts at every separator, so a text with `n` separators has `n + 1` pieces;
* `lines` cuts at line feeds, drops one carriage return before each, and gives no last empty line;
* `trim` drops white space at both ends.
-/

namespace RouteContract.Text

/-- The pieces of a text between the occurrences of a separator; there is always at least one. -/
def splitChars (sep : Char) : List Char → List (List Char)
  | [] => [[]]
  | c :: rest =>
    if c = sep then [] :: splitChars sep rest
    else match splitChars sep rest with
      | [] => [[c]]
      | piece :: more => (c :: piece) :: more

/-- The pieces of a text between the occurrences of a separator. -/
def splitOn (sep : Char) (s : String) : List String :=
  (splitChars sep s.toList).map String.ofList

/-- Drop the white space at the front. -/
def trimFront (cs : List Char) : List Char := cs.dropWhile isBlank

/-- Drop the white space at the back. -/
def trimBack (cs : List Char) : List Char := (cs.reverse.dropWhile isBlank).reverse

/-- Drop the white space at both ends. -/
def trimChars (cs : List Char) : List Char := trimBack (trimFront cs)

/-- Drop the white space at both ends. -/
def trim (s : String) : String := String.ofList (trimChars s.toList)

/-- Drop one carriage return at the back. -/
def dropReturn (cs : List Char) : List Char :=
  if cs.getLast? = some '\r' then cs.dropLast else cs

/-- The lines of a text: a line feed ends a line, with or without a carriage return before it. -/
def lineChars (cs : List Char) : List (List Char) :=
  let pieces := splitChars '\n' cs
  let last := pieces.getLastD []
  pieces.dropLast.map dropReturn ++ (if last.isEmpty then [] else [last])

/-- The lines of a text. -/
def lines (s : String) : List String := (lineChars s.toList).map String.ofList

/-- What follows a given beginning, if the text has it. -/
def afterPrefix? : List Char → List Char → Option (List Char)
  | [], cs => some cs
  | p :: ps, c :: cs => if p = c then afterPrefix? ps cs else none
  | _ :: _, [] => none

/-- What precedes a given end, if the text has it. -/
def beforeSuffix? (suffix cs : List Char) : Option (List Char) :=
  (afterPrefix? suffix.reverse cs.reverse).map List.reverse

/-- The text before and after the first occurrence of a pattern. -/
def cutAt? (pattern : List Char) : List Char → Option (List Char × List Char)
  | [] => if pattern = [] then some ([], []) else none
  | c :: cs =>
    match afterPrefix? pattern (c :: cs) with
    | some rest => some ([], rest)
    | none => (cutAt? pattern cs).map fun (before, after) => (c :: before, after)

/-- Whether a pattern occurs in a text. -/
def contains (pattern : String) (s : String) : Bool :=
  (cutAt? pattern.toList s.toList).isSome

/-- Replace every occurrence of a character by a text. -/
def replaceChar (c : Char) (text : List Char) (cs : List Char) : List Char :=
  cs.flatMap fun d => if d = c then text else [d]

/-- The sum of numbers. -/
def total : List Nat → Nat
  | [] => 0
  | n :: rest => n + total rest

@[simp] theorem total_nil : total [] = 0 := rfl

@[simp] theorem total_cons (n : Nat) (rest : List Nat) : total (n :: rest) = n + total rest := rfl

@[simp] theorem total_append (xs ys : List Nat) : total (xs ++ ys) = total xs + total ys := by
  induction xs with
  | nil => simp
  | cons x xs ih => simp [ih, Nat.add_assoc]

/-- The number of bytes of a text in UTF-8. -/
def byteSize (cs : List Char) : Nat := total (cs.map Char.utf8Size)

/-- Lower case of the letters `A` to `Z`, other characters unchanged. -/
def lowerAscii (s : String) : String := s.map Char.toLower

/-- Equality up to the case of the letters `A` to `Z`. -/
def sameAscii (s t : String) : Bool := lowerAscii s == lowerAscii t

theorem splitChars_ne_nil (sep : Char) (cs : List Char) : splitChars sep cs ≠ [] := by
  cases cs with
  | nil => simp [splitChars]
  | cons c rest =>
    unfold splitChars
    split
    · simp
    · split <;> simp

/-- What follows a beginning is no longer than the text. -/
theorem afterPrefix?_length {pattern cs rest : List Char}
    (h : afterPrefix? pattern cs = some rest) : rest.length ≤ cs.length := by
  fun_induction afterPrefix? pattern cs with
  | case1 => simp_all
  | case2 p ps cs ih =>
    have := ih h
    simp only [List.length_cons]
    omega
  | case3 => simp at h
  | case4 => simp at h

/-- What follows a pattern is no longer than the text. -/
theorem cutAt?_length {pattern cs before after : List Char}
    (h : cutAt? pattern cs = some (before, after)) : after.length ≤ cs.length := by
  induction cs generalizing before with
  | nil =>
    unfold cutAt? at h
    split at h <;> simp_all
  | cons c cs ih =>
    unfold cutAt? at h
    split at h
    · next rest hr =>
      have := afterPrefix?_length hr
      simp_all
    · obtain ⟨⟨b, a⟩, hb, hab⟩ := Option.map_eq_some_iff.1 h
      obtain ⟨rfl, rfl⟩ := Prod.mk.injEq .. ▸ hab
      have := ih hb
      simp only [List.length_cons]
      omega

end RouteContract.Text
