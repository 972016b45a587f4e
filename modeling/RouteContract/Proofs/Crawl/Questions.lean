import Mathlib
import RouteContract.Crawl.Usage
import RouteContract.Proofs.Schema.Questions

/-!
# References ask their oracle only

What the crawl and usage analysis find out about references and casts is made of questions to the
oracle. `o.Inquiry q` says so of a computation: every family that holds the questions, and what is
made of them, holds it.
-/

namespace RouteContract

variable {m : Type → Type} [Monad m]

/-- A computation is made of questions to an oracle. -/
def Oracle.Inquiry (o : Oracle m) {α : Type} (q : m α) : Prop :=
  ∀ K : (∀ {β : Type}, m β → Prop), o.Closed K → K q

namespace Oracle.Closed

variable {o : Oracle m} {K : ∀ {α : Type}, m α → Prop} (hK : o.Closed K) (p : Program)
include hK

theorem referredSymbol (node : NodeId) : K (Crawl.referredSymbol o node) := by
  refine hK.bind (hK.symbolAt node) fun s => ?_
  cases s with
  | none => exact hK.pure _
  | some s =>
    refine hK.bind (hK.isAlias s) fun isAlias => ?_
    split
    · exact hK.aliasedSymbol s
    · exact hK.pure _

theorem declarationOf (node : NodeId) : K (Crawl.declarationOf p o node) := by
  refine hK.bind (hK.referredSymbol node) fun s => ?_
  cases s with
  | none => exact hK.pure _
  | some s => exact hK.bind (hK.declarations s) fun _ => hK.pure _

theorem resolvePath (node : NodeId) : K (Crawl.resolvePath p o node) := by
  unfold Crawl.resolvePath
  dsimp only
  split
  · exact hK.pure _
  · split
    · refine hK.bind (hK.typeAt _) fun t => hK.bind (hK.shape t) fun shape => ?_
      split <;> exact hK.pure _
    · exact hK.pure _

theorem resolveHandler (node : NodeId) : K (Crawl.resolveHandler p o node) := by
  unfold Crawl.resolveHandler
  dsimp only
  split
  · exact hK.pure _
  · split
    · exact hK.bind (hK.declarationOf p _) fun _ => hK.pure _
    · exact hK.pure _

theorem resolveMount (node : NodeId) : K (Crawl.resolveMount p o node) :=
  hK.bind (hK.declarationOf p _) fun _ => hK.pure _

theorem castType (cast : NodeId) : K (Crawl.castType p o cast) := by
  unfold Crawl.castType
  split
  · exact hK.typeOfTypeNode _
  · exact hK.typeAt cast

theorem propertyNamed (name : String) (properties : List SymbolId) :
    K (Crawl.propertyNamed o name properties) := by
  induction properties with
  | nil => exact hK.pure _
  | cons s rest ih =>
    refine hK.bind (hK.symbolName s) fun found => ?_
    split
    · exact hK.pure _
    · exact ih

/-- What names a request parameter names its type arguments. -/
theorem argumentsAt (node : NodeId) : K (do o.typeArguments (← o.typeAt node)) :=
  hK.bind (hK.typeAt node) fun t => hK.typeArguments t

end Oracle.Closed

end RouteContract
