import RouteContract.Failure
import RouteContract.Json.Record

/-!
# Project configuration

How a project finds its modules: a base directory, and patterns of module names with the paths that
stand for them. A configuration file is data with comments; it may extend another file, whose
settings hold where it has none of its own. A pattern has at most one star that counts, which stands
for any text; of several patterns that fit a name, the one with the longest text before the star
comes first.
-/

namespace RouteContract

/-- The module settings of a project. -/
structure ProjectConfig where
  /-- The file that the settings were read from. -/
  configPath : String
  baseUrl : Option String := none
  /-- The patterns, each with the paths that stand for it. -/
  paths : Entries (List String) := []
  /-- The directory from which those paths are followed. -/
  pathsBase : String
deriving DecidableEq, Repr, Inhabited

namespace ProjectConfig

/-- The names of a configuration file, the preferred one first. -/
def fileNames : List String := ["tsconfig.json", "jsconfig.json"]

/-- The longest chain of files that extend one another. -/
def extensionLimit : Nat := 8

/-- The directory of a path; the empty path has none but itself. -/
def directory (path : String) : String := (PathName.parent? path).getD ""

/-- The value of a field, if a value has it. -/
def field? (name : String) : Json → Option Json
  | .obj fields => Entries.get? name fields
  | _ => none

/-- The text of a field, if a value has it. -/
def textField? (name : String) (v : Json) : Option String := (field? name v).bind Json.text?

/-- The texts among the items of an array. -/
def texts : Json → List String
  | .arr items => items.filterMap Json.text?
  | _ => []

/-- The file that a value extends, seen from a directory; only a relative path counts. -/
def extended? (dir : String) (v : Json) : Option String := do
  let target ← textField? "extends" v
  if target.toList.head? = some '.' then
    let path := PathName.join dir target
    return if (PathName.extension? path).isNone then PathName.withExtension "json" path else path
  else none

/-- Put the settings of a file of a directory over others. -/
def override (config : ProjectConfig) (dir : String) (v : Json) : ProjectConfig :=
  match field? "compilerOptions" v with
  | none => config
  | some options =>
    let config := match textField? "baseUrl" options with
      | some base =>
        { config with
          baseUrl := some (PathName.join dir base), pathsBase := PathName.join dir base }
      | none => config
    match field? "paths" options with
    | some (.obj patterns) =>
      { config with
        pathsBase := if config.baseUrl.isNone then dir else config.pathsBase
        paths := patterns.map fun (pattern, targets) => (pattern, texts targets) }
    | _ => config

/-- The value in a configuration file. -/
def readFile (fs : FileSystem) (path : String) : Except Failure Json :=
  match fs.readText path with
  | .error e => .error (.config path (.file e))
  | .ok text =>
    match Literal.parse text with
    | .error e => .error (.config path (.literal e))
    | .ok v => .ok v

/-- Put the settings of a file, over those of the files that it extends, over others. -/
def extend (fs : FileSystem) : Nat → ProjectConfig → String → Except Failure ProjectConfig
  | 0, config, path => do
    let v ← readFile fs path
    return config.override (directory path) v
  | left + 1, config, path => do
    let v ← readFile fs path
    let config ← match extended? (directory path) v with
      | some target => extend fs left config target
      | none => .ok config
    return config.override (directory path) v

/-- The settings of a configuration file. -/
def load (fs : FileSystem) (path : String) : Except Failure ProjectConfig :=
  extend fs extensionLimit { configPath := path, pathsBase := directory path } path

/-- The configuration file of a directory. -/
def findIn? (fs : FileSystem) (dir : String) : Option String :=
  (fileNames.map (PathName.join dir)).find? fs.isFile

/-- The configuration file of a directory, or else of the nearest directory above that has one. -/
def find? (fs : FileSystem) (dir : String) : Option String :=
  (PathName.ancestors dir).findSome? (findIn? fs)

/-- What the star of a pattern stands for in a name, when the pattern fits it. -/
def captured? (pattern name : List Char) : Option (List Char) :=
  match Text.cutAt? ['*'] pattern with
  | none => if pattern = name then some [] else none
  | some (before, after) => (Text.afterPrefix? before name).bind (Text.beforeSuffix? after)

/-- The number of bytes of a pattern before its star, or of the whole pattern. -/
def weight (pattern : List Char) : Nat := Text.byteSize (pattern.takeWhile (· ≠ '*'))

/-- The patterns that fit a name, with what the star stands for; the weightiest first. -/
def fitting (config : ProjectConfig) (name : List Char) :
    List (List Char × List Char × List String) :=
  (config.paths.filterMap fun (pattern, targets) =>
    (captured? pattern.toList name).map fun capture => (pattern.toList, capture, targets)).mergeSort
    fun a b => weight b.1 ≤ weight a.1

/-- The paths, without an extension, that a module name may stand for. -/
def candidates (config : ProjectConfig) (name : String) : List String :=
  ((config.fitting name.toList).flatMap fun (_, capture, targets) =>
    targets.map fun target =>
      PathName.join config.pathsBase (String.ofList (Text.replaceChar '*' capture target.toList)))
    ++ (config.baseUrl.map fun base => PathName.join base name).toList

end ProjectConfig

end RouteContract
