import Mathlib
import RouteContract.Proofs.Types.Following.Expressions

/-!
# Following the inference of types

The types of expressions, of properties and of the values that symbols name, function by function as
in the definitions.
-/

namespace RouteContract.Types

variable {p : Program} {C : Course p} {own : Side → Option TypeId} {steps : Calls}
  {M M' : Side → Memory} {α : Type}

/-- A value that has no handles and is the same in both runs. -/
def Same (a : Side → α) (_ : Side → Memory) : Prop := ∃ value, a = fun _ => value

theorem follows_isText {t : Side → TypeId} (ht : AlikeType t M) :
    Follows C own steps (fun s _ => isText (t s)) M Same := by
  refine follows_data_bind ht fun d hd => ?_
  cases hd with
  | atom d hd =>
    dsimp only
    split <;> exact follows_pure ⟨_, rfl⟩
  | _ => exact follows_pure ⟨_, rfl⟩

theorem follows_inferUnary (node : NodeId) :
    Follows C own steps (fun _ _ => inferUnary p node) M AlikeType := by
  unfold inferUnary
  split
  case h_5 =>
    split
    · split <;> exact follows_atom _ trivial
    · exact follows_atom _ trivial
  all_goals exact follows_atom _ trivial

theorem follows_findNamed (name : String) {symbols : List (Side → SymbolId)}
    (h : ∀ r ∈ symbols, AlikeSymbol r M) :
    Follows C own steps (fun s _ => findNamed name (symbols.map (· s))) M (Both AlikeSymbol) := by
  induction symbols with
  | nil => exact follows_pure both_none
  | cons r rest ih =>
    simp only [List.map_cons, findNamed]
    refine follows_symbol_bind (h r List.mem_cons_self) fun sym hsym _ => ?_
    obtain ⟨symName, hname⟩ := hsym.name_eq
    simp only [hname]
    split
    · exact follows_pure (both_some (h r List.mem_cons_self))
    · exact ih fun q hq => h q (List.mem_cons_of_mem _ hq)

section Values

variable [steps.Moving (Drift.moves p)] (hc : steps.Follow C own)
include hc

omit [steps.Moving (Drift.moves p)] in
theorem follows_childType (node : NodeId) (role : String) :
    Follows C own steps (fun _ c => childType p c node role) M AlikeType := by
  unfold childType
  split
  · exact hc.valueType _
  · exact follows_anyType

omit [steps.Moving (Drift.moves p)] in
theorem follows_innerType (node : NodeId) {step : TypeId → Resolve TypeId}
    (hstep : ∀ {M : Side → Memory} {t : Side → TypeId}, AlikeType t M →
      Follows C own steps (fun s _ => step (t s)) M AlikeType)
    (hg : ∀ t, Growing p (own .known) (step t)) :
    Follows C own steps (fun _ c => innerType p c node step) M AlikeType := by
  unfold innerType
  split
  · exact (hc.valueType _).bind_of_growing (fun t _ _ ht => hstep ht) hg
  · exact follows_anyType

theorem follows_inferBinary (node : NodeId) :
    Follows C own steps (fun _ c => inferBinary p c node) M AlikeType := by
  unfold inferBinary
  dsimp only
  split
  · refine (follows_childType hc node "left").bind fun left M₁ _ hl => ?_
    refine (follows_isText hl).bind ?_
    rintro _ M₂ _ ⟨isLeft, rfl⟩
    cases isLeft with
    | true => exact follows_atom .string trivial
    | false =>
      simp only [Bool.false_eq_true, if_false]
      refine (follows_childType hc node "right").bind fun right M₃ _ hr => ?_
      refine (follows_isText hr).bind ?_
      rintro _ M₄ _ ⟨isRight, rfl⟩
      cases isRight with
      | true => exact follows_atom .string trivial
      | false => exact follows_atom .number trivial
  split
  · exact follows_atom _ trivial
  split
  · have both : ∀ {M : Side → Memory} {left right : Side → TypeId}, AlikeType left M →
        AlikeType right M →
        Follows C own steps (fun s _ => makeUnion [left s, right s]) M AlikeType :=
      fun hl hr => follows_makeUnion (List.forall_mem_cons.2 ⟨hl, List.forall_mem_singleton.2 hr⟩)
    refine (follows_childType hc node "left").bind fun left M₁ _ hl => ?_
    refine (follows_childType hc node "right").bind fun right M₂ h₂ hr => ?_
    split
    · exact (follows_nonNullable (hl.mono h₂)).bind fun left M₃ h₃ hl => both hl (hr.mono h₃)
    · simp only [pure_bind]
      exact both (hl.mono h₂) hr
  · exact follows_atom _ trivial

omit [steps.Moving (Drift.moves p)] in
theorem follows_returnType (decl : NodeId) :
    Follows C own steps (fun _ c => returnType p c decl) M AlikeType := by
  have promised : ∀ {M : Side → Memory} {inner : Side → TypeId}, AlikeType inner M →
      Follows C own steps (fun s _ => if p.hasToken decl "async" then
        builtinType "Promise" [inner s] else pure (inner s)) M AlikeType := by
    intro M inner h
    split
    · exact follows_builtinType "Promise" (List.forall_mem_singleton.2 h)
    · exact follows_pure h
  unfold returnType
  split
  · exact hc.evalType _ alikeEnv_nil
  · dsimp only
    split
    · split
      · exact follows_anyType.bind fun inner M₁ _ h => promised h
      · exact (hc.valueType _).bind fun inner M₁ _ h => promised h
    · exact follows_anyType.bind fun inner M₁ _ h => promised h

theorem follows_inferCall (node : NodeId) :
    Follows C own steps (fun _ c => inferCall p c node) M AlikeType := by
  unfold inferCall
  split
  · exact follows_anyType
  · refine (hc.valueType _).bind_of_growing
      (fun callee M₁ _ ht => follows_data_bind ht fun d hd => ?_)
      fun _ => .bind inferInstance fun _ => by split <;> infer_instance
    cases hd with
    | atom d hd =>
      dsimp only
      split
      · exact follows_returnType hc _
      · exact follows_anyType
    | _ => exact follows_anyType

theorem follows_inferNew (hk : steps.Keep p) (node : NodeId) :
    Follows C own steps (fun _ c => inferNew p c node) M AlikeType := by
  unfold inferNew
  split
  · exact follows_anyType
  · refine (follows_typeArgumentsAt hc alikeEnv_nil node).bind_of_growing ?_ fun _ => by
        repeat' first | infer_instance | dsimp only | split
    rintro _ M₁ _ ⟨args, rfl, hargs⟩
    split
    · dsimp only
      split
      · next binding hb =>
        refine (follows_bindingSymbol (Or.inl ⟨_, _, _, hb⟩)).bind fun r M₂ h₂ hr => ?_
        exact follows_symbolInstanceType hc hk hr.1 _ fun t ht => (hargs t ht).mono h₂
      · exact follows_builtinType _ hargs
    · exact follows_anyType

omit [steps.Moving (Drift.moves p)] in
theorem follows_findProperty {t : Side → TypeId} (ht : AlikeType t M) (name : String) :
    Follows C own steps (fun s c => findProperty c (t s) name) M (Both AlikeSymbol) := by
  refine (hc.membersOf ht).bind ?_
  rintro _ M₁ _ ⟨symbols, rfl, h⟩
  exact follows_findNamed name h

theorem follows_memberSymbol (member : NodeId) :
    Follows C own steps (fun _ c => memberSymbol p c member) M (Both AlikeSymbol) := by
  unfold memberSymbol
  split
  · dsimp only
    split
    · exact follows_exportSymbol? _ _
    · exact (hc.valueType _).bind fun t M₁ _ ht => follows_findProperty hc ht _
  · exact follows_pure both_none

theorem follows_inferMember (node : NodeId) :
    Follows C own steps (fun _ c => inferMember p c node) M AlikeType := by
  refine (follows_memberSymbol hc node).bind_of_growing ?_ fun _ => by
      repeat' first | infer_instance | dsimp only | split
  rintro _ M₁ _ ⟨both, rfl, hboth⟩
  cases both with
  | some r => exact hc.symbolType (hboth r rfl)
  | none =>
    dsimp only [Option.map_none]
    split
    · exact (hc.valueType _).bind fun t M₂ _ ht => hc.propertyType ht _
    · exact follows_anyType

theorem follows_inferSubscript (node : NodeId) :
    Follows C own steps (fun _ c => inferSubscript p c node) M AlikeType := by
  have quoted : ∀ {M : Side → Memory} {object : Side → TypeId} (index : NodeId),
      AlikeType object M → Follows C own steps
        (fun s c => inferSubscript.quotedProperty p c (object s) index) M AlikeType := by
    intro M object index ho
    unfold inferSubscript.quotedProperty
    split
    · split
      · exact hc.propertyType ho _
      · exact follows_anyType
    · exact follows_anyType
  have quotedGrows : ∀ object index,
      Growing p (own .known) (inferSubscript.quotedProperty p steps object index) := by
    intro object index
    unfold inferSubscript.quotedProperty
    split
    · split <;> infer_instance
    · infer_instance
  unfold inferSubscript
  split
  · refine (hc.valueType _).bind_of_growing
      (fun object M₁ _ ho => follows_data_bind ho fun d hd => ?_) fun _ => by
        repeat' first | infer_instance | dsimp only | split | refine .bind ?_ fun _ => ?_
    cases hd with
    | array h => exact follows_pure h
    | @tuple elements h =>
      dsimp only
      split
      · simp only [List.getElem?_map]
        cases Text.unsigned? 10 Text.bits64 (p.text _).toList with
        | none => exact follows_anyType
        | some i =>
          simp only [Option.bind_some]
          cases hi : elements[i]? with
          | none => exact follows_anyType
          | some t => exact follows_pure (h t (List.mem_of_getElem? hi))
      · exact quoted _ ho
    | atom d hd =>
      dsimp only
      split
      · exact hd.elim
      · exact hd.elim
      · exact quoted _ ho
    | _ => exact quoted _ ho
  · exact follows_anyType

theorem follows_infer (hk : steps.Keep p) (node : NodeId) :
    Follows C own steps (fun _ c => infer p c node) M AlikeType := by
  unfold infer
  split
  · split
    · next binding hb =>
      exact (follows_bindingSymbol (Or.inl ⟨_, _, _, hb⟩)).bind fun r M₁ _ hr => hc.symbolType hr.1
    · split
      · exact follows_atom _ trivial
      · exact follows_anyType
  · split <;> exact follows_atom _ trivial
  · exact follows_atom _ trivial
  · exact follows_atom _ trivial
  · exact follows_atom _ trivial
  · exact follows_atom _ trivial
  · exact follows_atom _ trivial
  · exact follows_builtinType "RegExp" alike_nil
  · refine (follows_builtinSymbol "__object").bind fun r M₁ _ hr => ?_
    exact follows_intern (.plain (.value node) (sameKey_builtin hr) fun s => ⟨rfl, hr s⟩)
  · dsimp only
    refine (follows_mapM (Q := AlikeType) AlikeType.mono _ fun e _ M' _ =>
      (hc.valueType e).bind fun t M'' _ ht => follows_widen ht).bind ?_
    rintro _ M₁ _ ⟨types, rfl, htypes⟩
    cases types with
    | nil => exact follows_anyType.bind fun t M₂ _ ht => follows_intern (.array ht)
    | cons t types =>
      exact (follows_makeUnion htypes).bind fun t M₂ _ ht => follows_intern (.array ht)
  · exact follows_innerType hc node (fun ht => follows_pure ht) inferInstance
  · exact follows_innerType hc node (fun ht => follows_nonNullable ht) inferInstance
  · split
    · exact hc.evalType _ alikeEnv_nil
    · exact hc.valueType _
    · exact follows_anyType
  · split
    · exact hc.evalType _ alikeEnv_nil
    · exact follows_anyType
  · exact follows_innerType hc node (fun ht => follows_awaited ht) inferInstance
  · exact follows_inferCall hc node
  · exact follows_inferNew hc hk node
  · exact follows_inferMember hc node
  · exact follows_inferSubscript hc node
  · exact follows_inferBinary hc node
  · exact follows_inferUnary node
  · exact follows_atom _ trivial
  · dsimp only
    refine (follows_mapM (Q := AlikeType) AlikeType.mono _ fun branch _ M' _ =>
      hc.valueType branch).bind ?_
    rintro _ M₁ _ ⟨types, rfl, htypes⟩
    exact follows_makeUnion htypes
  · exact follows_childType hc node "right"
  · split
    · exact hc.valueType _
    · exact follows_anyType
  · exact follows_atom _ trivial
  · exact follows_anyType

/-- The type of the member with a name. -/
theorem follows_foundType {t : Side → TypeId} (ht : AlikeType t M) (name : String) :
    Follows C own steps (fun s c => do
      match ← findProperty c (t s) name with
      | some r => c.symbolType r
      | none => anyType) M AlikeType := by
  refine (follows_findProperty hc ht name).bind_of_growing ?_ fun _ => by split <;> infer_instance
  rintro _ M₁ _ ⟨both, rfl, hboth⟩
  cases both with
  | some r => exact hc.symbolType (hboth r rfl)
  | none => exact follows_anyType

theorem follows_propertyType {t : Side → TypeId} (ht : AlikeType t M) (name : String) :
    Follows C own steps (fun s c => propertyType c (t s) name) M AlikeType := by
  have found := follows_foundType hc ht name
  have sized : ∀ {x : Side → Calls → Resolve TypeId}, Follows C own steps x M AlikeType →
      Follows C own steps (fun s c => if name = "length" then intern .number else x s c) M
        AlikeType := by
    intro x hx
    split
    · exact follows_atom _ trivial
    · exact hx
  unfold propertyType
  dsimp only
  refine follows_data_bind ht fun d hd => ?_
  cases hd with
  | array _ => exact sized found
  | tuple _ => exact sized found
  | union h =>
    refine (follows_presentMembers h).bind ?_
    rintro _ M₁ _ ⟨present, rfl, hpresent⟩
    simp only [List.mapM_map]
    refine (follows_mapM (Q := AlikeType) AlikeType.mono _ fun m hm M' hE =>
      hc.propertyType ((hpresent m hm).mono hE) name).bind ?_
    rintro _ M₂ _ ⟨types, rfl, htypes⟩
    exact follows_makeUnion htypes
  | atom d hd =>
    dsimp only
    split
    · exact hd.elim
    · exact hd.elim
    · exact sized found
    · exact sized found
    · exact hd.elim
    · exact found
  | _ => exact found

theorem follows_destructuredType (element : NodeId) :
    Follows C own steps (fun _ c => destructuredType p c element) M AlikeType := by
  have parameter : ∀ {M : Side → Memory} holder key,
      Follows C own steps (fun _ c => destructuredType.ofParameter p c holder key) M
        AlikeType := by
    intro M holder key
    unfold destructuredType.ofParameter
    split
    · exact (hc.evalType _ alikeEnv_nil).bind fun t M₁ _ ht => hc.propertyType ht key
    · exact follows_anyType
  unfold destructuredType
  split
  · exact follows_anyType
  split
  · exact follows_anyType
  split
  · split
    · exact (hc.evalType _ alikeEnv_nil).bind fun t M₁ _ ht => hc.propertyType ht _
    · exact (hc.valueType _).bind fun t M₁ _ ht => hc.propertyType ht _
    · exact follows_anyType
  · exact parameter _ _
  · exact parameter _ _
  · exact follows_anyType

omit [steps.Moving (Drift.moves p)] in
theorem follows_widenedChild (node : NodeId) (role : String) :
    Follows C own steps (fun _ c => widenedChild p c node role) M AlikeType := by
  unfold widenedChild
  split
  · exact (hc.valueType _).bind fun t M₁ _ ht => follows_widen ht
  · exact follows_anyType

theorem follows_declarationType (hk : steps.Keep p) {decl : NodeId} {r : Side → SymbolId}
    (hr : ∀ s, (M s).keyOf? (r s) = some (.decl decl)) :
    Follows C own steps (fun s c => declarationType p c decl (r s)) M AlikeType := by
  have parameter : Follows C own steps (fun _ c => declarationType.ofParameter p c decl) M
      AlikeType := by
    unfold declarationType.ofParameter
    split
    · exact hc.evalType _ alikeEnv_nil
    · exact follows_widenedChild hc decl "value"
  have declared := follows_declaredType hc hk (alike_nil (M := M)) hr
  unfold declarationType
  split
  · split
    · exact hc.evalType _ alikeEnv_nil
    · refine (hc.valueType _).bind_of_growing (fun t M₁ _ ht => ?_) fun t => ?_
      · have widened : ∀ isConst : Bool, Follows C own steps
            (fun s _ => if isConst then pure (t s) else widen (t s)) M₁ AlikeType := by
          intro isConst
          split
          · exact follows_pure ht
          · exact follows_widen ht
        exact widened _
      · exact growing_ite
    · exact follows_anyType
  · exact parameter
  · exact parameter
  · exact follows_widenedChild hc decl "right"
  · exact follows_destructuredType hc decl
  · exact follows_destructuredType hc decl
  · exact follows_atom _ trivial
  · exact follows_atom _ trivial
  · next hd => exact follows_intern (.enum hr hd)
  · exact declared
  · exact declared
  · exact follows_anyType
  · exact follows_anyType
  · split
    · exact follows_atom _ trivial
    · exact hc.valueType decl

theorem follows_symbolType (hk : steps.Keep p) {r : Side → SymbolId} (hr : AlikeSymbol r M) :
    Follows C own steps (fun s c => symbolType p c (r s)) M AlikeType := by
  refine follows_of_tied fun hM => follows_symbol_bind hr fun sym hsym heq => ?_
  cases hsym with
  | plain sym hsym =>
    dsimp only
    split
    · next decl hkind =>
      exact follows_declarationType hc hk fun s =>
        (hM.sound s).declared (by rw [heq, hkind])
    · refine (follows_followAlias? hr).bind_of_growing ?_ fun _ => by split <;> infer_instance
      rintro _ M₁ h₁ ⟨both, rfl, hboth⟩
      cases both with
      | none => exact follows_anyType
      | some target =>
        refine follows_of_tied fun hM₁ => ?_
        have ht := hboth target rfl
        by_cases hself : target = r
        · refine follows_anyType.congr fun s c => ?_
          simp only [Option.map_some, hself, if_true]
        · have hne : ∀ s, ¬ target s = r s := fun s h =>
            hself (ht.eq_of_eq hM₁.sound (hr.mono h₁) h)
          simp only [Option.map_some, hne, if_false]
          exact hc.symbolType ht
    · exact follows_anyType
    · exact follows_anyType
    · next hkind => exact absurd (by rw [hkind]; trivial) hsym
    · next hkind => exact absurd (by rw [hkind]; trivial) hsym
  | property name decl isOptional ho hs =>
    cases hs with
    | typeNode node h => exact hc.evalType node ⟨_, rfl, h⟩
    | value node => exact (hc.valueType node).bind fun t M₁ _ ht => follows_widen ht
    | method node => exact follows_atom _ trivial
    | fixed h => exact follows_pure h
  | enumMember node name hv => exact follows_pure hv

end Values

end RouteContract.Types
