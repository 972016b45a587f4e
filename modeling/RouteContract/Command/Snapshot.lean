import RouteContract.Json.Reader
import RouteContract.Json.Record
import RouteContract.Load.Reachable

/-!
# Snapshots

A snapshot is a project as data: its root directory, the files below it, and the trees of the source
files as a parser of their languages gives them. It is one JSON object with the path `root` and the
list `files`; a file has a `path` below the root and a `text`, or `dir` if it is a directory, and a
source file has the rows of its `tree` and, if there are any, `errors`. A row is an array of the
index of the parent or `-1`, the kind, the role or an empty text, `1` if the node has a name, and
the first byte and the byte after the last.
-/

namespace RouteContract

/-- A project with the trees of its source files. -/
structure Snapshot where
  files : FileSystem
  trees : List (Language × String × ParsedSource)
deriving Inhabited

namespace Snapshot

/-- The parser that knows the trees of a snapshot. -/
def parser (s : Snapshot) : SourceParser := fun language source =>
  (s.trees.find? fun (l, text, _) => l = language ∧ text = source).map fun (_, _, parsed) => parsed

/-- The names of a path. -/
def namesOf (path : String) : FileLocation :=
  (PathName.components path.toList).filterMap fun
    | .name text => some text
    | _ => none

/-- Read a whole number. -/
def whole? : Json → Option Int
  | .num (.int n) => some n
  | _ => none

/-- Read a row of a tree. -/
def row? : Json → Option Row
  | .arr [parent, kind, role, named, start, stop] => do
    let parent ← whole? parent
    let role ← role.text?
    return {
      parent := if parent < 0 then none else some parent.toNat
      kind := ← kind.text?
      field := if role.isEmpty then none else some role
      named := (← whole? named) = 1
      start := (← whole? start).toNat
      stop := (← whole? stop).toNat }
  | _ => none

/-- A file of a snapshot: its path, its content, and its tree if it has one. -/
structure File where
  path : String
  content : FileContent
  tree : Option ParsedSource
deriving Inhabited

/-- Read a file of a snapshot. -/
def file? (v : Json) : Option File := do
  let r ← Record.open? ["path", "text", "dir", "tree", "errors"] v
  let isDirectory ← r.getD "dir" Json.flag? false
  let text ← r.getD "text" Json.text? ""
  let rows ← r.get? "tree" (Json.listOf row?)
  let hasErrors ← r.getD "errors" Json.flag? false
  return {
    path := ← r.get "path" Json.text?
    content := if isDirectory then .directory else .text text
    tree := rows.map fun rows => ⟨rows.toArray, hasErrors⟩ }

/-- Read a snapshot. -/
def ofJson? (v : Json) : Option Snapshot := do
  let r ← Record.open? ["root", "files"] v
  let root := namesOf (← r.get "root" Json.text?)
  let files ← r.get "files" (Json.listOf file?)
  return {
    files :=
      { workdir := root
        entries := files.map fun f => (root ++ namesOf f.path, f.content) }
    trees := files.filterMap fun f =>
      match Language.ofPath? f.path, f.content, f.tree with
      | some language, .text source, some tree => some (language, source, tree)
      | _, _, _ => none }

/-- Read the text of a snapshot. -/
def parse? (text : String) : Option Snapshot := (Json.parse? .any text).bind ofJson?

end Snapshot

end RouteContract
