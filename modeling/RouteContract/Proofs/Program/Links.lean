import Mathlib
import RouteContract.Program.Basic

/-!
# Links of trees

A node is linked to its parent and to its children. In a tree the two belong together: `p.Linked`
says that every child of a node has the node as its parent, and is its child only once. That can be
decided, since only the nodes that are there have children.
-/

namespace RouteContract.Program

/-- The links of nodes to their children are those of the children to their parents, each once. -/
structure Linked (p : Program) : Prop where
  parent?_eq : ∀ {id c : NodeId}, c ∈ p.children id → p.parent? c = some id
  nodup_children : ∀ id : NodeId, (p.children id).Nodup

variable {p : Program}

/-- A node that has children is there. -/
theorem index_lt_of_mem_children {id c : NodeId} (h : c ∈ p.children id) :
    id.index < p.size id.unit :=
  (mem_children h).2.1.trans (mem_children h).2.2

theorem unit_lt_of_mem_children {id c : NodeId} (h : c ∈ p.children id) :
    id.unit < p.units.size := by
  by_contra hunit
  have hempty : p.size id.unit = 0 := by
    rw [size, unit, Array.getD_eq_getD_getElem?, Array.getElem?_eq_none (Nat.le_of_not_lt hunit)]
    rfl
  have := index_lt_of_mem_children h
  omega

theorem linked_iff : p.Linked ↔ ∀ u < p.units.size, ∀ i < p.size u,
    (∀ c ∈ p.children ⟨u, i⟩, p.parent? c = some ⟨u, i⟩) ∧ (p.children ⟨u, i⟩).Nodup := by
  constructor
  · exact fun h u _ i _ => ⟨fun c hc => h.parent?_eq hc, h.nodup_children _⟩
  · intro h
    refine ⟨fun {id c} hc => ?_, fun id => ?_⟩
    · exact (h _ (unit_lt_of_mem_children hc) _ (index_lt_of_mem_children hc)).1 c hc
    · cases hchildren : p.children id with
      | nil => exact List.nodup_nil
      | cons c rest =>
        have hc : c ∈ p.children id := hchildren ▸ List.mem_cons_self
        rw [← hchildren]
        exact (h _ (unit_lt_of_mem_children hc) _ (index_lt_of_mem_children hc)).2

instance (p : Program) : Decidable p.Linked := decidable_of_iff' _ linked_iff

end RouteContract.Program
