import Mathlib
import RouteContract.Proofs.Schema.Questions
import RouteContract.Proofs.Types.Members

/-!
# Queries keep the memory sound

Whatever a resolver is asked, about handles that it gave out or not, its memory stays sound and its
tables only grow (`closed_kept`). The description of a type is made of such questions, so it does
the same (`keeps_ofType`).
-/

namespace RouteContract.Types

variable {p : Program} {M : Memory} {α β : Type}

/-- A computation that keeps every memory sound. -/
def Kept (p : Program) {α : Type} (x : Resolve α) : Prop := ∀ M, Keeps p x M fun _ _ => True

theorem kept_pure (a : α) : Kept p (pure a) := fun _ => keeps_pure trivial

theorem Kept.bind {x : Resolve α} {f : α → Resolve β} (hx : Kept p x) (hf : ∀ a, Kept p (f a)) :
    Kept p (x >>= f) := fun M => (hx M).bind fun a M' _ _ => hf a M'

theorem kept_of {P : α → Memory → Prop} {x : Resolve α} (h : ∀ M, Keeps p x M P) : Kept p x :=
  fun M => (h M).imp fun _ _ _ _ _ => trivial

theorem kept_data (t : TypeId) : Kept p (data t) := fun _ => keeps_data t

theorem kept_symbol (s : SymbolId) : Kept p (symbol s) := fun _ =>
  keeps_get_bind (keeps_pure trivial)

theorem kept_builtinSymbol (name : String) : Kept p (builtinSymbol name) :=
  kept_of fun _ => keeps_builtinSymbol name

/-! ### Questions about nodes -/

theorem isBinding_of_namedDeclaration? {node decl : NodeId}
    (h : namedDeclaration? p node = some decl) : IsBinding p decl := by
  unfold namedDeclaration? at h
  split at h
  · have hk := (Option.filter_eq_some_iff.1 h).2
    exact Or.inr (Or.inr (List.contains_iff_mem.1 hk))
  · cases h

section Nodes

variable {calls : Calls} (hc : calls.Keep p)
include hc

theorem kept_typeAt (node : NodeId) : Kept p (typeAt p calls node) := by
  refine kept_of (P := TypeIn) fun M => ?_
  unfold typeAt
  split
  · exact keeps_evalType hc node envIn_nil
  · split
    · next decl hd =>
      exact (keeps_bindingSymbol (isBinding_of_namedDeclaration? hd)).bind
        fun s M' _ hs => keeps_declarationType hc hs
    · exact keeps_valueType hc node

omit hc in
theorem kept_nameSymbol (space : Names.Space) (node : NodeId) :
    Kept p (nameSymbol p space node) := by
  unfold nameSymbol
  split
  · next d hd =>
    have hb : IsBinding p d := Or.inl ⟨_, _, _, hd⟩
    exact Kept.bind (kept_of fun M => keeps_bindingSymbol hb) fun _ => kept_pure _
  · exact kept_pure _

theorem kept_memberSymbol (node : NodeId) : Kept p (memberSymbol p calls node) :=
  kept_of fun _ => keeps_memberSymbol hc node

theorem kept_symbolAt (node : NodeId) : Kept p (symbolAt p calls node) := by
  unfold symbolAt
  split
  · exact kept_pure _
  split
  · exact kept_nameSymbol _ _
  · exact kept_nameSymbol _ _
  · exact kept_nameSymbol _ _
  · split
    · split
      · exact kept_memberSymbol hc _
      · exact kept_pure _
    · exact kept_pure _
  · exact kept_memberSymbol hc _
  · exact kept_pure _

theorem kept_enumLiterals (t : TypeId) : Kept p (enumLiterals p calls t) := by
  refine fun M => keeps_of_sound fun hM => keeps_data_bind ?_
  split
  · next s hd =>
    obtain ⟨-, d, hs, hk⟩ := hM.fits hd TypeData.noConfusion
    exact (keeps_enumMembers hc hs hk).bind fun _ _ _ _ => keeps_pure trivial
  · exact keeps_pure trivial

end Nodes

/-! ### Questions about symbols and types -/

/-- A symbol that is not in the table is followed to itself. -/
theorem kept_followAlias? (s : SymbolId) : Kept p (followAlias? p s) := by
  intro M
  by_cases hs : SymbolIn s M
  · exact (keeps_followAlias? hs).imp fun _ _ _ _ _ => trivial
  · refine keeps_symbol_bind ?_
    have hb : (M.symbolOf s).kind = .builtin := by
      by_contra h
      exact hs (Array.getElem?_eq_some_iff.1 (Memory.getElem?_of_symbolOf h)).1
    rw [hb]
    exact keeps_pure trivial

theorem kept_declarations (s : SymbolId) : Kept p (declarations s) := by
  refine (kept_symbol s).bind fun sym => ?_
  split <;> exact kept_pure _

theorem kept_containerName (s : SymbolId) : Kept p (containerName s) := by
  refine (kept_symbol s).bind fun sym => ?_
  split
  · refine (kept_data _).bind fun d => ?_
    split
    · exact (kept_symbol _).bind fun _ => kept_pure _
    · exact (kept_symbol _).bind fun _ => kept_pure _
    · exact (kept_symbol _).bind fun _ => kept_pure _
    · exact kept_pure _
  · exact kept_pure _

theorem kept_typeSymbol (t : TypeId) : Kept p (typeSymbol t) := by
  refine (kept_data t).bind fun d => ?_
  split
  · exact kept_pure _
  · exact kept_pure _
  · exact kept_pure _
  · exact (kept_builtinSymbol _).bind fun _ => kept_pure _
  · exact (kept_builtinSymbol _).bind fun _ => kept_pure _
  · exact kept_pure _

/-- Every question to the resolver of a program keeps its memory sound. -/
theorem closed_kept (p : Program) (bound : Nat) :
    (oracleWithin p bound).Closed fun x => Kept p x := by
  have hc := keeps_calls p bound
  constructor
  case pure => exact kept_pure
  case bind => exact Kept.bind
  case typeAt => exact kept_typeAt hc
  case typeOfTypeNode => exact fun node => kept_of fun _ => keeps_evalType hc node envIn_nil
  case symbolAt => exact kept_symbolAt hc
  case symbolName => exact fun s => (kept_symbol s).bind fun _ => kept_pure _
  case isAlias =>
    refine fun s => (kept_symbol s).bind fun sym => ?_
    split <;> exact kept_pure _
  case aliasedSymbol => exact kept_followAlias?
  case declarations => exact kept_declarations
  case typeOfSymbol => exact fun s => kept_of fun _ => keeps_symbolType hc s
  case isOptional =>
    refine fun s => (kept_symbol s).bind fun sym => ?_
    split <;> exact kept_pure _
  case containerName => exact kept_containerName
  case docText => exact fun s => (kept_declarations s).bind fun _ => kept_pure _
  case shape => exact fun t => (kept_data t).bind fun _ => kept_pure _
  case typeSymbol => exact kept_typeSymbol
  case aliasSymbol =>
    refine fun t => (kept_data t).bind fun d => ?_
    split <;> exact kept_pure _
  case typeArguments => exact fun t => (kept_data t).bind fun _ => kept_pure _
  case isTuple =>
    refine fun t => (kept_data t).bind fun d => ?_
    split <;> exact kept_pure _
  case constituents => exact fun t => (kept_data t).bind fun _ => kept_pure _
  case properties => exact fun t => kept_of fun _ => keeps_membersOf hc t
  case callSignatureCount => exact fun t => (kept_data t).bind fun _ => kept_pure _
  case enumLiterals => exact kept_enumLiterals hc

end RouteContract.Types
