import RouteContract.Config.Project
import RouteContract.File.Kind
import RouteContract.Program.Comments

/-!
# Module specifiers

The specifiers that a source unit imports from, and the files that they lead to. A specifier that
starts with a dot or a slash is a path, seen from the directory of the importing file; any other one
is looked up in the settings of the project, and leads nowhere without them.

A path leads to the source file of that name, else to a file with one of the source extensions
added, an extension of a script giving way to them, else to an index file in the directory of that
name.
-/

namespace RouteContract

namespace SourceUnit

/-- The node that holds the specifier of an import, a re-export or a dynamic import. -/
def specifierNode? (p : Program) (node : NodeId) : Option NodeId :=
  if p.kind node = "import_statement" ∨ p.kind node = "export_statement" then
    p.field? node "source"
  else if p.kind node = "call_expression" ∧
      ((p.field? node "function").any fun f => p.kind f = "import") then
    (p.field? node "arguments").bind fun arguments => (p.namedChildren arguments).head?
  else none

/-- The specifiers of a unit, in source order, each once. -/
def specifiers (unit : SourceUnit) : List String :=
  let p : Program := ⟨#[unit]⟩
  ((List.range unit.nodes.size).filterMap fun i =>
    (specifierNode? p ⟨0, i⟩).bind p.stringValue?).eraseDups

end SourceUnit

namespace Load

/-- The extensions that are tried for a specifier without one, in order. -/
def sourceExtensions : List String := ["ts", "tsx", "d.ts", "js", "jsx", "mjs", "cjs", "mts"]

/-- The extensions of scripts that a specifier may name for a source of another extension. -/
def scriptExtensions : List String := [".js", ".jsx", ".mjs", ".cjs"]

/-- A path without the extension of a script. -/
def withoutScriptExtension (path : String) : String :=
  ((scriptExtensions.findSome? fun ending =>
    Text.beforeSuffix? ending.toList path.toList).map String.ofList).getD path

/-- A path with each of the source extensions. -/
def withExtensions (path : String) : List String :=
  sourceExtensions.map fun extension => path ++ "." ++ extension

/-- The paths that may be meant by a path in normal form, the preferred one first. -/
def alternatives (fs : FileSystem) (path : String) : List String :=
  (if (Language.ofPath? path).isSome then [path] else [])
    ++ withExtensions (withoutScriptExtension path)
    ++ (if fs.isDirectory path then withExtensions (PathName.join path "index") else [])

/-- The source file that is meant by a path. -/
def probe? (fs : FileSystem) (path : String) : Option String :=
  (alternatives fs (PathName.normalize path)).find? fs.isFile

/-- Whether a specifier is a path. -/
def isPath (specifier : String) : Bool :=
  specifier.toList.head? = some '.' || specifier.toList.head? = some '/'

/-- The source file that a specifier in a file leads to. -/
def resolve? (fs : FileSystem) (project : Option ProjectConfig) (file specifier : String) :
    Option String := do
  let dir ← PathName.parent? file
  if isPath specifier then probe? fs (PathName.join dir specifier)
  else (← project).candidates specifier |>.findSome? (probe? fs)

/-- Where the file of a path comes from. -/
def originOf (path : String) : Origin :=
  if (PathName.components path.toList).contains (.name "node_modules".toList) then .external
  else if isDeclarationName ((PathName.fileName? path).getD "") then .ambient
  else .project

end Load

end RouteContract
