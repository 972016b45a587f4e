import RouteContract.File.PathName

/-!
# Kinds of files

The language of a source file and the format of an output file, told by the name of the file. A
language is told by the exact extension, a format by the extension in any case.
-/

namespace RouteContract

/-- The language of a source file. -/
inductive Language where
  | typeScript | tsx | javaScript
deriving DecidableEq, Repr, Inhabited

/-- The format of an output file. -/
inductive Format where
  | json | yaml
deriving DecidableEq, Repr, Inhabited

/-- Whether a file name is that of a declaration file. -/
def isDeclarationName (name : String) : Bool :=
  [".d.ts", ".d.mts", ".d.cts"].any fun ending =>
    (Text.beforeSuffix? ending.toList name.toList).isSome

/-- The language of the file of a path, if it is a source file. -/
def Language.ofPath? (path : String) : Option Language := do
  let name ← PathName.fileName? path
  if isDeclarationName name then return .typeScript
  let extension ← PathName.extension? path
  if ["ts", "mts", "cts"].contains extension then some .typeScript
  else if extension = "tsx" then some .tsx
  else if ["js", "jsx", "mjs", "cjs"].contains extension then some .javaScript
  else none

/-- The format that the name of an output file asks for. -/
def Format.ofPath (path : String) : Format :=
  match PathName.extension? path with
  | some extension =>
    if Text.sameAscii extension "yaml" || Text.sameAscii extension "yml" then .yaml else .json
  | none => .json

end RouteContract
