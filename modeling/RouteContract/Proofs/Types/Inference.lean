import Mathlib
import RouteContract.Proofs.Types.Evaluation

/-!
# Inference keeps a memory sound

The types of expressions, of properties and of the values that symbols name, function by function
as in the definitions.
-/

namespace RouteContract.Types

variable {p : Program} {M M' : Memory} {calls : Calls}

theorem keeps_isText (t : TypeId) : Keeps p (isText t) M fun _ _ => True := by
  refine keeps_data_bind ?_
  split <;> exact keeps_pure trivial

theorem keeps_inferUnary (node : NodeId) : Keeps p (inferUnary p node) M TypeIn := by
  unfold inferUnary
  split
  case h_5 =>
    split
    · split <;> exact keeps_type trivial
    · exact keeps_type trivial
  all_goals exact keeps_type trivial

theorem keeps_findNamed (name : String) (symbols : List SymbolId) :
    Keeps p (findNamed name symbols) M fun found _ => ∀ s, found = some s → s ∈ symbols := by
  induction symbols with
  | nil => exact keeps_pure fun s hs => absurd hs (by simp)
  | cons s rest ih =>
    refine keeps_symbol_bind ?_
    split
    · refine keeps_pure fun r hr => ?_
      cases hr
      exact List.mem_cons_self
    · exact ih.imp fun found _ _ _ h r hr => List.mem_cons_of_mem _ (h r hr)

section Values

variable (hc : calls.Keep p)
include hc

theorem keeps_childType (node : NodeId) (role : String) :
    Keeps p (childType p calls node role) M TypeIn := by
  unfold childType
  split
  · exact hc.valueType _
  · exact keeps_anyType

theorem keeps_innerType (node : NodeId) {step : TypeId → Resolve TypeId}
    (hstep : ∀ {M} t, TypeIn t M → Keeps p (step t) M TypeIn) :
    Keeps p (innerType p calls node step) M TypeIn := by
  unfold innerType
  split
  · exact (hc.valueType _).bind fun t _ _ ht => hstep t ht
  · exact keeps_anyType

theorem keeps_inferBinary (node : NodeId) : Keeps p (inferBinary p calls node) M TypeIn := by
  unfold inferBinary
  dsimp only
  split
  · refine (keeps_childType hc node "left").bind fun left M₁ _ _ => ?_
    refine (keeps_isText left).bind fun isLeft M₂ _ _ => ?_
    split
    · exact keeps_type trivial
    · refine (keeps_childType hc node "right").bind fun right M₃ _ _ => ?_
      refine (keeps_isText right).bind fun isRight M₄ _ _ => ?_
      split <;> exact keeps_type trivial
  split
  · exact keeps_type trivial
  split
  · refine (keeps_childType hc node "left").bind fun left M₁ _ hl => ?_
    refine (keeps_childType hc node "right").bind fun right M₂ h₂ hr => ?_
    split
    · refine (keeps_nonNullable (hl.mono h₂)).bind fun left M₃ h₃ hl => keeps_makeUnion ?_
      exact typesIn_cons.2 ⟨hl, typesIn_cons.2 ⟨hr.mono h₃, typesIn_nil⟩⟩
    · rw [pure_bind]
      refine keeps_makeUnion ?_
      exact typesIn_cons.2 ⟨hl.mono h₂, typesIn_cons.2 ⟨hr, typesIn_nil⟩⟩
  · exact keeps_type trivial

theorem keeps_returnType (decl : NodeId) : Keeps p (returnType p calls decl) M TypeIn := by
  have promised : ∀ {M} inner, TypeIn inner M → Keeps p (if p.hasToken decl "async" then
      builtinType "Promise" [inner] else pure inner) M TypeIn := by
    intro M inner h
    split
    · exact keeps_builtinType "Promise" (typesIn_cons.2 ⟨h, typesIn_nil⟩)
    · exact keeps_pure h
  unfold returnType
  split
  · exact hc.evalType _ envIn_nil
  · dsimp only
    split
    · split
      · exact keeps_anyType.bind fun inner M₁ _ h => promised inner h
      · exact (hc.valueType _).bind fun inner M₁ _ h => promised inner h
    · exact keeps_anyType.bind fun inner M₁ _ h => promised inner h

theorem keeps_inferCall (node : NodeId) : Keeps p (inferCall p calls node) M TypeIn := by
  unfold inferCall
  split
  · exact keeps_anyType
  · refine (hc.valueType _).bind fun callee M₁ _ _ => keeps_data_bind ?_
    split
    · exact keeps_returnType hc _
    · exact keeps_anyType

theorem keeps_inferNew (node : NodeId) : Keeps p (inferNew p calls node) M TypeIn := by
  unfold inferNew
  split
  · exact keeps_anyType
  · refine (keeps_typeArgumentsAt hc envIn_nil node).bind fun args M₁ _ hargs => ?_
    split
    · dsimp only
      split
      · next binding hb =>
        refine (keeps_bindingSymbol (Or.inl ⟨_, _, _, hb⟩)).bind fun s M₂ h₂ hs => ?_
        exact keeps_symbolInstanceType hc (symbolIn_of_keyOf? hs) _ (hargs.mono h₂)
      · exact keeps_builtinType _ hargs
    · exact keeps_anyType

theorem keeps_findProperty (t : TypeId) (name : String) :
    Keeps p (findProperty calls t name) M fun found M' =>
      ∀ s, found = some s → MemberIn p s M' := by
  refine (hc.membersOf t).bind fun members M₁ _ hm => ?_
  exact (keeps_findNamed name members).imp fun found M₂ _ h₂ h s hs => (hm s (h s hs)).mono h₂

theorem keeps_memberSymbol (member : NodeId) :
    Keeps p (memberSymbol p calls member) M SymbolIn? := by
  unfold memberSymbol
  split
  · dsimp only
    split
    · exact keeps_exportSymbol? _ _
    · exact (hc.valueType _).bind fun t M₁ _ _ => (keeps_findProperty hc t _).imp
        fun found M₂ _ _ h s hs => (h s hs).symbolIn
  · exact keeps_pure symbolIn?_none

theorem keeps_inferMember (node : NodeId) : Keeps p (inferMember p calls node) M TypeIn := by
  refine (keeps_memberSymbol hc node).bind fun s M₁ _ _ => ?_
  split
  · exact hc.symbolType _
  · split
    · exact (hc.valueType _).bind fun t M₂ _ _ => hc.propertyType t _
    · exact keeps_anyType

theorem keeps_inferSubscript (node : NodeId) : Keeps p (inferSubscript p calls node) M TypeIn := by
  have quoted : ∀ {M} object index,
      Keeps p (inferSubscript.quotedProperty p calls object index) M TypeIn := by
    intro M object index
    unfold inferSubscript.quotedProperty
    split
    · split
      · exact hc.propertyType _ _
      · exact keeps_anyType
    · exact keeps_anyType
  unfold inferSubscript
  split
  · refine (hc.valueType _).bind fun object M₁ _ ho => keeps_of_sound fun hM₁ =>
      keeps_data_bind ?_
    split
    · next element hd => exact keeps_pure (lt_trans (hM₁.fits hd TypeData.noConfusion).2 ho)
    · next elements hd =>
      split
      · split
        · next t ht =>
          obtain ⟨i, -, hi⟩ := Option.bind_eq_some_iff.1 ht
          exact keeps_pure (typesIn_of_lt ho (hM₁.fits hd TypeData.noConfusion).2 t
            (List.mem_of_getElem? hi))
        · exact keeps_anyType
      · exact quoted _ _
    · exact quoted _ _
  · exact keeps_anyType

theorem keeps_infer (node : NodeId) : Keeps p (infer p calls node) M TypeIn := by
  unfold infer
  split
  · split
    · next binding hb =>
      exact (keeps_bindingSymbol (Or.inl ⟨_, _, _, hb⟩)).bind fun s M₁ _ _ => hc.symbolType s
    · split
      · exact keeps_type trivial
      · exact keeps_anyType
  · split <;> exact keeps_type trivial
  · exact keeps_type trivial
  · exact keeps_type trivial
  · exact keeps_type trivial
  · exact keeps_type trivial
  · exact keeps_type trivial
  · exact keeps_builtinType _ typesIn_nil
  · exact (keeps_builtinSymbol "__object").bind fun s M₁ _ hs => keeps_type ⟨rfl, hs⟩
  · dsimp only
    refine (keeps_mapM (Q := TypeIn) TypeIn.mono _ fun e _ M' _ =>
      (hc.valueType e).bind fun t M'' _ ht => keeps_widen ht).bind fun types M₁ _ h => ?_
    split
    · exact keeps_anyType.bind fun t M₂ _ ht => keeps_type ht
    · exact (keeps_makeUnion h).bind fun t M₂ _ ht => keeps_type ht
  · exact keeps_innerType hc node fun t ht => keeps_pure ht
  · exact keeps_innerType hc node fun t ht => keeps_nonNullable ht
  · split
    · exact hc.evalType _ envIn_nil
    · exact hc.valueType _
    · exact keeps_anyType
  · split
    · exact hc.evalType _ envIn_nil
    · exact keeps_anyType
  · exact keeps_innerType hc node fun t ht => keeps_awaited ht
  · exact keeps_inferCall hc node
  · exact keeps_inferNew hc node
  · exact keeps_inferMember hc node
  · exact keeps_inferSubscript hc node
  · exact keeps_inferBinary hc node
  · exact keeps_inferUnary node
  · exact keeps_type trivial
  · dsimp only
    exact (keeps_mapM (Q := TypeIn) TypeIn.mono _ fun branch _ M' _ => hc.valueType branch).bind
      fun types M₁ _ h => keeps_makeUnion h
  · exact keeps_childType hc node "right"
  · split
    · exact hc.valueType _
    · exact keeps_anyType
  · exact keeps_type trivial
  · exact keeps_anyType

theorem keeps_valueType (node : NodeId) : Keeps p (valueType p calls node) M TypeIn := by
  refine keeps_of_sound fun hM => keeps_get_bind ?_
  split
  · next known hknown => exact keeps_pure (hM.nodeTypes _ (mem_of_lookup hknown))
  next hnone =>
  split
  · exact keeps_anyType
  next hmark =>
  refine keeps_marked (P := TypeIn) (fun hM => ?_) (Memory.extends_of_tables rfl rfl)
    (keeps_infer hc node) ?_
  · exact hM.remember rfl rfl (fun _ => Or.inl) (fun _ => Or.inl) (fun _ => Or.inl)
  · intro t M₁ hM₁ h₁ hr₁ ht
    refine ⟨hM₁.remember rfl rfl (fun _ => Or.inl) (fun _ => Or.inl) (mem_or_of_mem_cons ht),
      ⟨Memory.extends_of_tables rfl rfl, hr₁.members, hr₁.aliases, ?_, ?_, hr₁.resolving,
        hr₁.collecting⟩, ht⟩
    · exact hr₁.nodeTypes.answer (fun h => hmark (List.contains_iff_mem.2 h))
        (notMem_keys_of_lookup_eq_none hnone) t
    · show M₁.inferring.erase node = M.inferring
      rw [hr₁.inferring, List.erase_cons_head]

/-- The type of the member with a name. -/
theorem keeps_foundType (t : TypeId) (name : String) : Keeps p (do
    match ← findProperty calls t name with
    | some s => calls.symbolType s
    | none => anyType) M TypeIn := by
  refine (keeps_findProperty hc t name).bind fun s M₁ _ _ => ?_
  split
  · exact hc.symbolType _
  · exact keeps_anyType

theorem keeps_propertyType (t : TypeId) (name : String) :
    Keeps p (propertyType calls t name) M TypeIn := by
  have sized : ∀ {x : Resolve TypeId}, Keeps p x M TypeIn →
      Keeps p (if name = "length" then intern .number else x) M TypeIn := by
    intro x hx
    split
    · exact keeps_type trivial
    · exact hx
  unfold propertyType
  dsimp only
  refine keeps_data_bind ?_
  split
  · exact sized (keeps_foundType hc t name)
  · exact sized (keeps_foundType hc t name)
  · exact sized (keeps_foundType hc t name)
  · exact sized (keeps_foundType hc t name)
  · refine (keeps_presentMembers _).bind fun present M₁ _ _ => ?_
    exact (keeps_mapM (Q := TypeIn) TypeIn.mono _ fun m _ M' _ => hc.propertyType m name).bind
      fun types M₂ _ h => keeps_makeUnion h
  · exact keeps_foundType hc t name

theorem keeps_destructuredType (element : NodeId) :
    Keeps p (destructuredType p calls element) M TypeIn := by
  have parameter : ∀ {M} holder key,
      Keeps p (destructuredType.ofParameter p calls holder key) M TypeIn := by
    intro M holder key
    unfold destructuredType.ofParameter
    split
    · exact (hc.evalType _ envIn_nil).bind fun t M₁ _ _ => hc.propertyType t key
    · exact keeps_anyType
  unfold destructuredType
  split
  · exact keeps_anyType
  split
  · exact keeps_anyType
  split
  · split
    · exact (hc.evalType _ envIn_nil).bind fun t M₁ _ _ => hc.propertyType t _
    · exact (hc.valueType _).bind fun t M₁ _ _ => hc.propertyType t _
    · exact keeps_anyType
  · exact parameter _ _
  · exact parameter _ _
  · exact keeps_anyType

theorem keeps_widenedChild (node : NodeId) (role : String) :
    Keeps p (widenedChild p calls node role) M TypeIn := by
  unfold widenedChild
  split
  · exact (hc.valueType _).bind fun t M₁ _ ht => keeps_widen ht
  · exact keeps_anyType

theorem keeps_declarationType {decl : NodeId} {s : SymbolId}
    (hs : M.keyOf? s = some (.decl decl)) : Keeps p (declarationType p calls decl s) M TypeIn := by
  have parameter : Keeps p (declarationType.ofParameter p calls decl) M TypeIn := by
    unfold declarationType.ofParameter
    split
    · exact hc.evalType _ envIn_nil
    · exact keeps_widenedChild hc decl "value"
  unfold declarationType
  split
  · split
    · exact hc.evalType _ envIn_nil
    · refine (hc.valueType _).bind fun t M₁ _ ht => ?_
      have widened : ∀ isConst : Bool, Keeps p (if isConst then pure t else widen t) M₁ TypeIn := by
        intro isConst
        split
        · exact keeps_pure ht
        · exact keeps_widen ht
      exact widened _
    · exact keeps_anyType
  · exact parameter
  · exact parameter
  · exact keeps_widenedChild hc decl "right"
  · exact keeps_destructuredType hc decl
  · exact keeps_destructuredType hc decl
  · exact keeps_type trivial
  · exact keeps_type trivial
  · next hk => exact keeps_type ⟨decl, hs, hk⟩
  · exact keeps_declaredType hc typesIn_nil hs
  · exact keeps_declaredType hc typesIn_nil hs
  · exact keeps_anyType
  · exact keeps_anyType
  · split
    · exact keeps_type trivial
    · exact hc.valueType decl

theorem keeps_symbolType (s : SymbolId) : Keeps p (symbolType p calls s) M TypeIn := by
  refine keeps_of_sound fun hM => keeps_symbol_bind ?_
  split
  · next decl hk => exact keeps_declarationType hc (hM.declared hk)
  · next hk =>
    have hs : SymbolIn s M := (Array.getElem?_eq_some_iff.1
      (Memory.getElem?_of_symbolOf (by rw [hk]; exact SymbolKind.noConfusion))).1
    refine (keeps_followAlias? hs).bind fun target M₁ _ _ => ?_
    split
    · split
      · exact keeps_anyType
      · exact hc.symbolType _
    · exact keeps_anyType
  · exact keeps_anyType
  · exact keeps_anyType
  · next hk =>
    have hsource := hM.property hk
    split
    · exact hc.evalType _ hsource.1
    · exact (hc.valueType _).bind fun t M₁ _ ht => keeps_widen ht
    · exact keeps_type trivial
    · exact keeps_pure hsource
  · next hk => exact keeps_pure (hM.enumMember hk)

end Values

end RouteContract.Types
