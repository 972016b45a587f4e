import RouteContract.Names.Bindings

/-!
# Walks over trees

`walkM` visits nodes from a stack of pending nodes: it takes the first, visits it, and puts its
named children in front of the rest. The number of visits still to come is the weight of the
pending nodes. `preorder` lists a node and then, child by child, the nodes below it.
-/

namespace RouteContract.Program

variable (p : Program)

/-- The number of nodes at and below a node, along named children. -/
def weight (id : NodeId) : Nat :=
  1 + Text.total ((p.namedChildren id).attach.map fun c => weight c.1)
termination_by p.size id.unit - id.index
decreasing_by exact Names.namedChild_descends c.2

/-- The nodes at and below a node, along named children, each before the nodes below it. -/
def preorder (id : NodeId) : List NodeId :=
  id :: (p.namedChildren id).attach.flatMap fun c => preorder c.1
termination_by p.size id.unit - id.index
decreasing_by exact Names.namedChild_descends c.2

/-- A node weighs one more than its children together. -/
theorem weight_eq (id : NodeId) :
    p.weight id = 1 + Text.total ((p.namedChildren id).map p.weight) := by
  rw [weight]
  simp

/-- Visit the pending nodes and the nodes below them. -/
def walkM {m : Type → Type} [Monad m] (visit : NodeId → m Unit) : List NodeId → m Unit
  | [] => pure ()
  | node :: pending => do
    visit node
    walkM visit (p.namedChildren node ++ pending)
termination_by pending => Text.total (pending.map p.weight)
decreasing_by
  simp only [List.map_append, Text.total_append, List.map_cons, Text.total_cons]
  rw [weight_eq p node]
  omega

end RouteContract.Program
