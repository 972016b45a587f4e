import Mathlib
import RouteContract.Crawl.Walk

/-!
# Walks are pre-order traversals

The walk with a stack of pending nodes visits the nodes in the order of the recursive pre-order
listing, whatever a visit does in between. `preorder_eq` and `walkM_eq_forM` are what later proofs
use of the two definitions.
-/

namespace RouteContract.Program

variable (p : Program)

/-- A node comes before the nodes below it, child by child. -/
theorem preorder_eq (id : NodeId) :
    p.preorder id = id :: (p.namedChildren id).flatMap p.preorder := by
  rw [preorder]
  simp [List.flatMap]

/-- A walk visits the pending nodes and all below them in pre-order. -/
theorem walkM_eq_forM {m : Type → Type} [Monad m] [LawfulMonad m] (visit : NodeId → m Unit)
    (pending : List NodeId) :
    p.walkM visit pending = (pending.flatMap p.preorder).forM visit := by
  fun_induction walkM p visit pending with
  | case1 => rfl
  | case2 node pending ih =>
    rw [List.flatMap_cons, preorder_eq, List.cons_append, List.forM_eq_forM, List.forM_cons]
    simp only [ih, List.flatMap_append, List.forM_eq_forM]

/-- A walk from one node. -/
theorem walkM_singleton {m : Type → Type} [Monad m] [LawfulMonad m] (visit : NodeId → m Unit)
    (id : NodeId) : p.walkM visit [id] = (p.preorder id).forM visit := by
  rw [walkM_eq_forM, List.flatMap_singleton]

end RouteContract.Program
