import RouteContract.Program.Basic

/-!
# Trees from rows

A tree is given as the rows of its nodes in pre-order, each with the index of its parent and its
range of bytes in the source. The text of a node is that range of the source, or nothing when the
range does not fall between characters; its lines are counted by the line feeds before its ends.
-/

namespace RouteContract

/-- One node of a tree as a row. -/
structure Row where
  parent : Option Nat
  kind : String
  field : Option String
  named : Bool
  start : Nat
  stop : Nat
deriving Repr, Inhabited

namespace SourceUnit

/-- The number of line feeds before each byte, and before the end. -/
def lineFeedsBefore (bytes : ByteArray) : Array Nat :=
  (bytes.foldl (fun (counts, n) b =>
    let n := if b = 10 then n + 1 else n
    (counts.push n, n)) ((#[0] : Array Nat), 0)).1

/-- A range of bytes as text; nothing when it does not fall between characters. -/
def slice (bytes : ByteArray) (start stop : Nat) : String :=
  if start ≤ stop ∧ stop ≤ bytes.size then
    (String.fromUTF8? (bytes.extract start stop)).getD ""
  else ""

/-- The children of each node, in the order of the rows. -/
def childLists (rows : Array Row) : Array (List Nat) :=
  rows.size.fold (fun i _ lists =>
    let i := rows.size - 1 - i
    match (rows.getD i default).parent with
    | some a => lists.modify a (i :: ·)
    | none => lists) (Array.replicate rows.size [])

/-- The unit with the tree of the rows. -/
def ofRows (path : String) (origin : Origin) (source : String) (rows : Array Row)
    (imports : Entries Nat) : SourceUnit :=
  let bytes := source.toUTF8
  let feeds := lineFeedsBefore bytes
  let lists := childLists rows
  let line (offset : Nat) : Nat := 1 + feeds.getD offset (feeds.getD bytes.size 0)
  { path, origin, imports
    nodes := rows.mapIdx fun i row =>
      { kind := row.kind, field := row.field, named := row.named, parent := row.parent
        children := lists.getD i []
        text := slice bytes row.start row.stop
        startLine := line row.start, endLine := line row.stop } }

end SourceUnit

end RouteContract
