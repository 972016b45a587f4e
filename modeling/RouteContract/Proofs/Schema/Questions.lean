import Mathlib
import RouteContract.Schema.Generator

/-!
# Generation asks its oracle only

What generation does in the monad of its oracle is made of questions to the oracle. `o.Closed K`
says that a family `K` of computations holds every question and what is made of them;
`Oracle.Closed.ofType` that it then holds the description of a type, from any table.

A session is a list of requests to an oracle and to one table of named schemas: questions, and types
to describe. It may ask about anything at any time, so that every use of a generator is one.
-/

namespace RouteContract

variable {m : Type → Type} [Monad m]

/-- A family of computations that holds every question to an oracle, and what is made of them. -/
structure Oracle.Closed (o : Oracle m) (K : ∀ {α : Type}, m α → Prop) : Prop where
  pure {α : Type} (a : α) : K (pure a)
  bind {α β : Type} {x : m α} {f : α → m β} (hx : K x) (hf : ∀ a, K (f a)) : K (x >>= f)
  typeAt (node : NodeId) : K (o.typeAt node)
  typeOfTypeNode (node : NodeId) : K (o.typeOfTypeNode node)
  symbolAt (node : NodeId) : K (o.symbolAt node)
  symbolName (s : SymbolId) : K (o.symbolName s)
  isAlias (s : SymbolId) : K (o.isAlias s)
  aliasedSymbol (s : SymbolId) : K (o.aliasedSymbol s)
  declarations (s : SymbolId) : K (o.declarations s)
  typeOfSymbol (s : SymbolId) : K (o.typeOfSymbol s)
  isOptional (s : SymbolId) : K (o.isOptional s)
  containerName (s : SymbolId) : K (o.containerName s)
  docText (s : SymbolId) : K (o.docText s)
  shape (t : TypeId) : K (o.shape t)
  typeSymbol (t : TypeId) : K (o.typeSymbol t)
  aliasSymbol (t : TypeId) : K (o.aliasSymbol t)
  typeArguments (t : TypeId) : K (o.typeArguments t)
  isTuple (t : TypeId) : K (o.isTuple t)
  constituents (t : TypeId) : K (o.constituents t)
  properties (t : TypeId) : K (o.properties t)
  callSignatureCount (t : TypeId) : K (o.callSignatureCount t)
  enumLiterals (t : TypeId) : K (o.enumLiterals t)

namespace Oracle.Closed

variable {o : Oracle m} {K : ∀ {α : Type}, m α → Prop} (hK : o.Closed K)
include hK

/-! ### Questions in a row -/

theorem mapM [LawfulMonad m] {α β : Type} {f : α → m β} (l : List α) (hf : ∀ a, K (f a)) :
    K (l.mapM f) := by
  induction l with
  | nil =>
    rw [List.mapM_nil]
    exact hK.pure _
  | cons a l ih =>
    rw [List.mapM_cons]
    exact hK.bind (hf a) fun _ => hK.bind ih fun _ => hK.pure _

theorem symbolName? (s : Option SymbolId) : K (Schema.symbolName? o s) := by
  cases s with
  | none => exact hK.pure _
  | some s => exact hK.bind (hK.symbolName s) fun _ => hK.pure _

theorem typeName? (t : TypeId) : K (Schema.typeName? o t) :=
  hK.bind (hK.typeSymbol t) fun _ => hK.symbolName? _

theorem schemaName? (t : TypeId) : K (Schema.schemaName? o t) := by
  refine hK.bind (hK.aliasSymbol t) fun s => ?_
  split
  · exact hK.symbolName? _
  · exact hK.bind (hK.typeSymbol t) fun _ => hK.symbolName? _

theorem settle (fuel : Nat) (t : TypeId) : K (Schema.settle o fuel t) := by
  induction fuel generalizing t with
  | zero => exact hK.pure _
  | succ fuel ih =>
    refine hK.bind (hK.typeName? t) fun name => ?_
    split
    · refine hK.bind (hK.typeArguments t) fun arguments => ?_
      split
      · exact ih _
      · exact hK.pure _
    · exact hK.pure _

end Oracle.Closed

/-! ### Computations with a state -/

/-- A stateful computation whose part in the monad of the oracle is in a family, from every
state. -/
def Asks (K : ∀ {α : Type}, m α → Prop) {σ α : Type} (x : StateT σ m α) : Prop := ∀ s, K (x.run s)

namespace Oracle.Closed

open Schema (Gen)

variable {o : Oracle m} {K : ∀ {α : Type}, m α → Prop} (hK : o.Closed K) {σ α β : Type}
include hK

theorem asks_pure (a : α) : Asks K (Pure.pure a : StateT σ m α) := fun _ => hK.pure _

theorem asks_bind {x : StateT σ m α} {f : α → StateT σ m β} (hx : Asks K x)
    (hf : ∀ a, Asks K (f a)) : Asks K (x >>= f) := fun s => by
  rw [StateT.run_bind]
  exact hK.bind (hx s) fun r => hf r.1 r.2

theorem asks_ask {q : m α} (hq : K q) : Asks K (StateT.lift q : StateT σ m α) := fun _ =>
  hK.bind hq fun _ => hK.pure _

theorem asks_get : Asks K (get : StateT σ m σ) := fun _ => hK.pure _

theorem asks_set (s : σ) : Asks K (set s : StateT σ m PUnit) := fun _ => hK.pure _

theorem asks_modify (f : σ → σ) : Asks K (modify f : StateT σ m PUnit) := fun _ => hK.pure _

/-! ### Descriptions -/

theorem asks_foldlM {f : β → α → Gen m β} (l : List α) (hf : ∀ b a, Asks K (f b a)) (b : β) :
    Asks K (l.foldlM f b) := by
  induction l generalizing b with
  | nil => exact hK.asks_pure b
  | cons a l ih =>
    rw [List.foldlM_cons]
    exact hK.asks_bind (hf b a) fun b' => ih b'

variable {sub : TypeId → Gen m Schema} (hsub : ∀ t, Asks K (sub t))

theorem asks_mapM [LawfulMonad m] {f : α → Gen m β} (l : List α) (hf : ∀ a, Asks K (f a)) :
    Asks K (l.mapM f) := by
  induction l with
  | nil =>
    rw [List.mapM_nil]
    exact hK.asks_pure _
  | cons a l ih =>
    rw [List.mapM_cons]
    exact hK.asks_bind (hf a) fun _ => hK.asks_bind ih fun _ => hK.asks_pure _

include hsub

theorem asks_ofUnion [LawfulMonad m] (t : TypeId) : Asks K (Schema.ofUnion o sub t) := by
  refine hK.asks_bind (hK.asks_ask (hK.constituents t)) fun members => ?_
  refine hK.asks_bind (hK.asks_ask (hK.mapM members hK.shape)) fun shapes => ?_
  split
  · exact hK.asks_pure _
  · exact hK.asks_bind (hK.asks_mapM members hsub) fun _ => hK.asks_pure _

theorem asks_addProperty (s : Schema) (property : SymbolId) :
    Asks K (Schema.addProperty o sub s property) := by
  refine hK.asks_bind (hK.asks_ask (hK.symbolName property)) fun name => ?_
  split
  · exact hK.asks_pure _
  refine hK.asks_bind (hK.asks_ask (hK.containerName property)) fun container => ?_
  split
  · exact hK.asks_pure _
  refine hK.asks_bind (hK.asks_ask (hK.typeOfSymbol property)) fun t => ?_
  refine hK.asks_bind (hK.asks_ask (hK.callSignatureCount t)) fun count => ?_
  split
  · exact hK.asks_pure _
  refine hK.asks_bind (hK.asks_ask (hK.shape t)) fun shape => ?_
  split
  · exact hK.asks_pure _
  refine hK.asks_bind (hK.asks_ask (hK.isOptional property)) fun isOptional => ?_
  refine hK.asks_bind (hsub t) fun described => ?_
  exact hK.asks_bind (hK.asks_ask (hK.docText property)) fun doc => hK.asks_pure _

theorem asks_ofObject (t : TypeId) : Asks K (Schema.ofObject o sub t) :=
  hK.asks_bind (hK.asks_ask (hK.properties t)) fun properties =>
    hK.asks_foldlM properties (hK.asks_addProperty hsub) _

theorem asks_ofNamed (name : String) (t : TypeId) : Asks K (Schema.ofNamed o sub name t) := by
  refine hK.asks_bind hK.asks_get fun table => ?_
  split
  · exact hK.asks_pure _
  refine hK.asks_bind (hK.asks_modify _) fun _ => ?_
  refine hK.asks_bind (hK.asks_ofObject hsub t) fun definition => ?_
  exact hK.asks_bind (hK.asks_modify _) fun _ => hK.asks_pure _

theorem asks_ofObjectLike (t : TypeId) : Asks K (Schema.ofObjectLike o sub t) := by
  refine hK.asks_bind (hK.asks_ask (hK.schemaName? t)) fun name => ?_
  split
  · split
    · exact hK.asks_pure _
    · split
      · exact hK.asks_ofObject hsub t
      · exact hK.asks_ofNamed hsub _ t
  · exact hK.asks_ofObject hsub t

theorem asks_ofSettled [LawfulMonad m] (t : TypeId) (name : Option String) :
    Asks K (Schema.ofSettled o sub t name) := by
  refine hK.asks_bind (hK.asks_ask (hK.shape t)) fun shape => ?_
  split
  · exact hK.asks_pure _
  split
  · exact hK.asks_pure _
  refine hK.asks_bind (hK.asks_ask (hK.isTuple t)) fun isTuple => ?_
  split
  · refine hK.asks_bind (hK.asks_ask (hK.typeArguments t)) fun arguments => ?_
    split
    · exact hK.asks_bind (hsub _) fun _ => hK.asks_pure _
    · exact hK.asks_bind (hK.asks_pure _) fun _ => hK.asks_pure _
  split
  · exact hK.asks_bind (hK.asks_ask (hK.enumLiterals t)) fun _ => hK.asks_pure _
  · exact hK.asks_ofUnion hsub t
  · refine hK.asks_bind (hK.asks_ask (hK.constituents t)) fun members => ?_
    exact hK.asks_bind (hK.asks_mapM members hsub) fun _ => hK.asks_pure _
  · exact hK.asks_pure _
  · exact hK.asks_pure _
  · exact hK.asks_pure _
  · exact hK.asks_ofObjectLike hsub t
  · exact hK.asks_ofObjectLike hsub t
  · exact hK.asks_pure _

omit hsub

theorem asks_ofTypeWithin [LawfulMonad m] (left : Nat) (t : TypeId) :
    Asks K (Schema.ofTypeWithin o left t) := by
  induction left generalizing t with
  | zero => exact hK.asks_pure _
  | succ left ih =>
    refine hK.asks_bind (hK.asks_ask (hK.settle _ t)) fun settled => ?_
    split
    · exact hK.asks_ofSettled ih _ _
    · exact hK.asks_pure _

/-- The description of a type is made of questions to the oracle. -/
theorem ofType [LawfulMonad m] (t : TypeId) (T : Entries Schema) :
    K ((Schema.ofType o t).run T) :=
  hK.asks_ofTypeWithin _ t T

end Oracle.Closed

/-! ### Sessions -/

/-- A question to an oracle. -/
inductive Question where
  | typeAt (node : NodeId)
  | typeOfTypeNode (node : NodeId)
  | symbolAt (node : NodeId)
  | symbolName (s : SymbolId)
  | isAlias (s : SymbolId)
  | aliasedSymbol (s : SymbolId)
  | declarations (s : SymbolId)
  | typeOfSymbol (s : SymbolId)
  | isOptional (s : SymbolId)
  | containerName (s : SymbolId)
  | docText (s : SymbolId)
  | shape (t : TypeId)
  | typeSymbol (t : TypeId)
  | aliasSymbol (t : TypeId)
  | typeArguments (t : TypeId)
  | isTuple (t : TypeId)
  | constituents (t : TypeId)
  | properties (t : TypeId)
  | callSignatureCount (t : TypeId)
  | enumLiterals (t : TypeId)

/-- What an oracle and a generator can be asked for. -/
inductive Request where
  | ask (question : Question)
  | describe (t : TypeId)

/-- Ask a question, for what it does to the oracle. -/
def Oracle.pose (o : Oracle m) : Question → m Unit
  | .typeAt node => discard (o.typeAt node)
  | .typeOfTypeNode node => discard (o.typeOfTypeNode node)
  | .symbolAt node => discard (o.symbolAt node)
  | .symbolName s => discard (o.symbolName s)
  | .isAlias s => discard (o.isAlias s)
  | .aliasedSymbol s => discard (o.aliasedSymbol s)
  | .declarations s => discard (o.declarations s)
  | .typeOfSymbol s => discard (o.typeOfSymbol s)
  | .isOptional s => discard (o.isOptional s)
  | .containerName s => discard (o.containerName s)
  | .docText s => discard (o.docText s)
  | .shape t => discard (o.shape t)
  | .typeSymbol t => discard (o.typeSymbol t)
  | .aliasSymbol t => discard (o.aliasSymbol t)
  | .typeArguments t => discard (o.typeArguments t)
  | .isTuple t => discard (o.isTuple t)
  | .constituents t => discard (o.constituents t)
  | .properties t => discard (o.properties t)
  | .callSignatureCount t => discard (o.callSignatureCount t)
  | .enumLiterals t => discard (o.enumLiterals t)

namespace Schema

/-- Carry out a request; a type that is described is kept with its schema. -/
def perform (o : Oracle m) : Request → Gen m (List (TypeId × Schema))
  | .ask question => do
    ask (o.pose question)
    return []
  | .describe t => do return [(t, ← ofType o t)]

/-- Carry out requests in order. -/
def session (o : Oracle m) : List Request → Gen m (List (TypeId × Schema))
  | [] => return []
  | request :: rest => do return (← perform o request) ++ (← session o rest)

end Schema

theorem Oracle.Closed.pose [LawfulMonad m] {o : Oracle m} {K : ∀ {α : Type}, m α → Prop}
    (hK : o.Closed K) (question : Question) : K (o.pose question) := by
  have left : ∀ {α : Type} {x : m α}, K x → K (discard x) := by
    intro α x hx
    show K (Functor.mapConst PUnit.unit x)
    rw [map_const, Function.comp_apply, ← bind_pure_comp]
    exact hK.bind hx fun _ => hK.pure _
  cases question with
  | typeAt node => exact left (hK.typeAt node)
  | typeOfTypeNode node => exact left (hK.typeOfTypeNode node)
  | symbolAt node => exact left (hK.symbolAt node)
  | symbolName s => exact left (hK.symbolName s)
  | isAlias s => exact left (hK.isAlias s)
  | aliasedSymbol s => exact left (hK.aliasedSymbol s)
  | declarations s => exact left (hK.declarations s)
  | typeOfSymbol s => exact left (hK.typeOfSymbol s)
  | isOptional s => exact left (hK.isOptional s)
  | containerName s => exact left (hK.containerName s)
  | docText s => exact left (hK.docText s)
  | shape t => exact left (hK.shape t)
  | typeSymbol t => exact left (hK.typeSymbol t)
  | aliasSymbol t => exact left (hK.aliasSymbol t)
  | typeArguments t => exact left (hK.typeArguments t)
  | isTuple t => exact left (hK.isTuple t)
  | constituents t => exact left (hK.constituents t)
  | properties t => exact left (hK.properties t)
  | callSignatureCount t => exact left (hK.callSignatureCount t)
  | enumLiterals t => exact left (hK.enumLiterals t)

end RouteContract
