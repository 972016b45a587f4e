import RouteContract.Json.Basic

/-!
# Programs as syntax trees

A program is a list of source units, each with the arena of its syntax tree: the nodes in
pre-order, the root first. A node is addressed by its unit and its index.

A link from a node to its parent counts only when it goes to a smaller index, a link to a child
only when it goes to a larger index inside the arena. Walks along either therefore end, and in a
tree in pre-order every link counts.
-/

namespace RouteContract

/-- The address of a node: its unit and its index there. -/
structure NodeId where
  unit : Nat
  index : Nat
deriving DecidableEq, Repr, Inhabited, Hashable

/-- The root of a unit. -/
def NodeId.root (unit : Nat) : NodeId := ⟨unit, 0⟩

/-- Where a unit comes from: project source, a declaration file, or a dependency. -/
inductive Origin where
  | project | ambient | external
deriving DecidableEq, Repr, Inhabited

/-- A node of a syntax tree. -/
structure Node where
  /-- The kind in the grammar; a token has its own text as kind. -/
  kind : String := ""
  /-- The role that the node has for its parent. -/
  field : Option String := none
  /-- Whether the node has a name in the grammar; a token has none. -/
  named : Bool := false
  parent : Option Nat := none
  children : List Nat := []
  /-- The source text that the node covers. -/
  text : String := ""
  startLine : Nat := 1
  endLine : Nat := 1
deriving Repr, Inhabited

/-- A source file with its tree, and the units that its import specifiers lead to. -/
structure SourceUnit where
  path : String := ""
  origin : Origin := .project
  nodes : Array Node := #[]
  imports : Entries Nat := []
deriving Inhabited

/-- The units of a program. -/
structure Program where
  units : Array SourceUnit := #[]
deriving Inhabited

namespace Program

variable (p : Program)

/-- A unit; one that is not there is empty. -/
def unit (u : Nat) : SourceUnit := p.units.getD u {}

/-- A node; one that is not there has no kind and no links. -/
def node (id : NodeId) : Node := (p.unit id.unit).nodes.getD id.index {}

/-- The number of nodes of a unit. -/
def size (u : Nat) : Nat := (p.unit u).nodes.size

/-- The number of nodes of all units. -/
def totalSize : Nat := Text.total (p.units.toList.map fun u => u.nodes.size)

/-- The kind of a node. -/
def kind (id : NodeId) : String := (p.node id).kind

/-- The source text of a node. -/
def text (id : NodeId) : String := (p.node id).text

/-- The origin of the unit of a node. -/
def origin (id : NodeId) : Origin := (p.unit id.unit).origin

/-- The unit that an import specifier of a unit leads to. -/
def resolveImport (u : Nat) (specifier : String) : Option Nat :=
  Entries.get? specifier (p.unit u).imports

/-- The parent of a node. -/
def parent? (id : NodeId) : Option NodeId :=
  ((p.node id).parent.filter (· < id.index)).map fun i => ⟨id.unit, i⟩

/-- The children of a node, tokens and comments included. -/
def children (id : NodeId) : List NodeId :=
  ((p.node id).children.filter fun i => id.index < i ∧ i < p.size id.unit).map
    fun i => ⟨id.unit, i⟩

/-- The named children of a node other than comments. -/
def namedChildren (id : NodeId) : List NodeId :=
  (p.children id).filter fun c => (p.node c).named && p.kind c != "comment"

/-- The first child in a role. -/
def field? (id : NodeId) (role : String) : Option NodeId :=
  (p.children id).find? fun c => (p.node c).field == some role

/-- Every child in a role. -/
def fields (id : NodeId) (role : String) : List NodeId :=
  (p.children id).filter fun c => (p.node c).field == some role

/-- The first named child of a kind. -/
def childOfKind? (id : NodeId) (kind : String) : Option NodeId :=
  (p.namedChildren id).find? fun c => p.kind c == kind

/-- Whether a node has a token among its children. -/
def hasToken (id : NodeId) (token : String) : Bool :=
  (p.children id).any fun c => !(p.node c).named && p.kind c == token

variable {p}

/-- A parent has a smaller index. -/
theorem parent?_index_lt {id a : NodeId} (h : p.parent? id = some a) : a.index < id.index := by
  unfold parent? at h
  obtain ⟨i, hi, rfl⟩ := Option.map_eq_some_iff.1 h
  simpa using (Option.filter_eq_some_iff.1 hi).2

/-- A child has a larger index, inside the arena of its unit. -/
theorem mem_children {id c : NodeId} (h : c ∈ p.children id) :
    c.unit = id.unit ∧ id.index < c.index ∧ c.index < p.size id.unit := by
  unfold children at h
  obtain ⟨i, hi, rfl⟩ := List.mem_map.1 h
  simpa using (List.mem_filter.1 hi).2

/-- A named child is a child. -/
theorem mem_children_of_mem_namedChildren {id c : NodeId} (h : c ∈ p.namedChildren id) :
    c ∈ p.children id := (List.mem_filter.1 h).1

variable (p)

/-- The nearest ancestor with one of the kinds. -/
def ancestorOfKind? (id : NodeId) (kinds : List String) : Option NodeId :=
  match _h : p.parent? id with
  | none => none
  | some a => if kinds.contains (p.kind a) then some a else ancestorOfKind? a kinds
termination_by id.index
decreasing_by exact parent?_index_lt _h

/-- The node inside parentheses, non-null marks and `satisfies` clauses. -/
def skipParens (id : NodeId) : NodeId :=
  if ["parenthesized_expression", "non_null_expression", "satisfies_expression"].contains
      (p.kind id) then
    match _h : (p.namedChildren id).head? with
    | some inner => skipParens inner
    | none => id
  else id
termination_by p.size id.unit - id.index
decreasing_by
  have hm := mem_children (mem_children_of_mem_namedChildren (List.mem_of_head? _h))
  rw [hm.1]
  omega

end Program

end RouteContract
