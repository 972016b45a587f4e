import Mathlib
import RouteContract.Proofs.Types.Following.Lookups

/-!
# Following the evaluation of type expressions

Function by function: type expressions are followed when the calls that they make are.
-/

namespace RouteContract.Types

variable {p : Program} {C : Course p} {own : Side → Option TypeId} {steps : Calls}
  {M M' : Side → Memory}

/-- Calls that are followed. -/
structure Calls.Follow (C : Course p) (own : Side → Option TypeId) (steps : Calls) : Prop where
  evalType {M : Side → Memory} (node : NodeId) {env : Side → Env} (henv : AlikeEnv env M) :
    Follows C own steps (fun s c => c.evalType node (env s)) M AlikeType
  valueType {M : Side → Memory} (node : NodeId) :
    Follows C own steps (fun _ c => c.valueType node) M AlikeType
  membersOf {M : Side → Memory} {t : Side → TypeId} (ht : AlikeType t M) :
    Follows C own steps (fun s c => c.membersOf (t s)) M (Each AlikeSymbol)
  symbolType {M : Side → Memory} {r : Side → SymbolId} (hr : AlikeSymbol r M) :
    Follows C own steps (fun s c => c.symbolType (r s)) M AlikeType
  propertyType {M : Side → Memory} {t : Side → TypeId} (ht : AlikeType t M) (name : String) :
    Follows C own steps (fun s c => c.propertyType (t s) name) M AlikeType

theorem alikeEnv_nil : AlikeEnv (fun _ => []) M :=
  ⟨[], rfl, fun _ h => absurd h List.not_mem_nil⟩

theorem alike_nil : ∀ t ∈ ([] : List (Side → TypeId)), AlikeType t M :=
  fun _ h => absurd h List.not_mem_nil

theorem follows_literalType (node : NodeId) :
    Follows C own steps (fun _ _ => literalType p node) M AlikeType := by
  unfold literalType
  split
  · split <;> exact follows_atom _ trivial
  · exact follows_atom _ trivial
  · exact follows_atom _ trivial
  · exact follows_atom _ trivial
  · exact follows_atom _ trivial
  · exact follows_atom _ trivial
  · dsimp only
    split
    · split <;> exact follows_atom _ trivial
    · exact follows_atom _ trivial
  · exact follows_anyType

theorem follows_predefinedType (name : String) :
    Follows C own steps (fun _ _ => predefinedType name) M AlikeType := by
  unfold predefinedType
  split
  case h_10 => exact (follows_builtinType "Object" alike_nil :)
  case h_11 => exact (follows_builtinType "Symbol" alike_nil :)
  all_goals exact follows_atom _ trivial

/-- The type that a parameter stands for, in environments that are alike. -/
theorem exists_lookup_of_alike (name : String) {env : List (String × (Side → TypeId))}
    (h : ∀ e ∈ env, AlikeType e.2 M) : ∃ found : Option (Side → TypeId),
      (∀ s, (env.map fun e => (e.1, e.2 s)).lookup name = found.map (· s)) ∧
        ∀ t ∈ found, AlikeType t M := by
  induction env with
  | nil => exact ⟨none, fun _ => rfl, fun _ h => by cases h⟩
  | cons e env ih =>
    obtain ⟨found, hfound, hall⟩ := ih fun a ha => h a (List.mem_cons_of_mem _ ha)
    by_cases heq : name = e.1
    · refine ⟨some e.2, fun s => ?_, fun t ht => ?_⟩
      · rw [List.map_cons, heq]
        exact List.lookup_cons_self
      · cases ht
        exact h e List.mem_cons_self
    · refine ⟨found, fun s => ?_, hall⟩
      rw [List.map_cons, List.lookup_cons, beq_false_of_ne heq]
      exact hfound s

/-- The parameters of a declaration are bound to the same types, by their names. -/
theorem follows_bindEnv (decl : NodeId) {args : List (Side → TypeId)}
    (h : ∀ t ∈ args, AlikeType t M) :
    Follows C own steps (fun s _ => bindEnv p decl (args.map (· s))) M fun env M' =>
      AlikeEnv env M' ∧ ∀ s, (env s).map Prod.fst = parameterNames p decl := by
  refine (follows_atom .unknown trivial).bind fun unknown M₁ h₁ hu => ?_
  refine follows_pure ⟨⟨(Names.typeParameters p decl).zipIdx.filterMap fun e =>
    (p.field? e.1 "name").map fun name => (p.text name, args.getD e.2 unknown),
    funext fun s => ?_, ?_⟩, fun s => ?_⟩
  · rw [List.map_filterMap]
    refine congrArg (List.filterMap · _) (funext fun e => ?_)
    rw [Option.map_map]
    refine congrArg (Option.map · _) (funext fun name => ?_)
    exact congrArg (Prod.mk _) (List.getD_map args unknown fun t : Side → TypeId => t s)
  · intro e he
    obtain ⟨⟨param, i⟩, -, he⟩ := List.mem_filterMap.1 he
    obtain ⟨name, -, rfl⟩ := Option.map_eq_some_iff.1 he
    show AlikeType (args.getD i unknown) M₁
    rw [List.getD_eq_getElem?_getD]
    cases ha : args[i]? with
    | none => exact hu
    | some arg => exact (h arg (List.mem_of_getElem? ha)).mono h₁
  · have hmap := map_fst_filterMap_zipIdx (l := Names.typeParameters p decl) 0
      (fun param => (p.field? param "name").map p.text)
      fun i => (args.map (· s)).getD i (unknown s)
    simp only [Option.map_map] at hmap
    exact hmap

section Expressions

variable [steps.Moving (Drift.moves p)] (hc : steps.Follow C own)
include hc

theorem follows_fillArgs (params : List NodeId) {args : List (Side → TypeId)}
    (h : ∀ t ∈ args, AlikeType t M) :
    Follows C own steps (fun s c => fillArgs p c (args.map (· s)) params) M fun filled M' =>
      Each AlikeType filled M' ∧ ∀ s, (filled s).length = args.length + params.length := by
  induction params generalizing M args with
  | nil => exact follows_pure ⟨⟨args, rfl, h⟩, fun s => List.length_map _⟩
  | cons param params ih =>
    have next : ∀ {M : Side → Memory} {arg : Side → TypeId}, (∀ t ∈ args, AlikeType t M) →
        AlikeType arg M → Follows C own steps
          (fun s c => fillArgs p c (args.map (· s) ++ [arg s]) params) M fun filled M' =>
            Each AlikeType filled M' ∧
              ∀ s, (filled s).length = args.length + (param :: params).length := by
      intro M arg h ha
      have hmap : ∀ s, args.map (· s) ++ [arg s] = (args ++ [arg]).map (· s) := fun s => by
        rw [List.map_append]
        rfl
      simp only [hmap]
      refine (ih (List.forall_mem_append.2 ⟨h, List.forall_mem_singleton.2 ha⟩)).imp
        fun filled M' _ _ ⟨hf, hlength⟩ => ⟨hf, fun s => ?_⟩
      rw [hlength, List.length_append, List.length_singleton, List.length_cons]
      omega
    simp only [fillArgs]
    split
    · exact (hc.evalType _ alikeEnv_nil).bind fun arg M' hE ha =>
        next (fun t ht => (h t ht).mono hE) ha
    · exact (follows_atom .unknown trivial).bind fun arg M' hE ha =>
        next (fun t ht => (h t ht).mono hE) ha

/-- A declaration gets as many type arguments as it has parameters. -/
theorem follows_completeArgs (decl : NodeId) {args : List (Side → TypeId)}
    (h : ∀ t ∈ args, AlikeType t M) :
    Follows C own steps (fun s c => completeArgs p c decl (args.map (· s))) M fun args M' =>
      Each AlikeType args M' ∧ ∀ s, (args s).length = (Names.typeParameters p decl).length := by
  unfold completeArgs
  simp only [List.length_map]
  refine (follows_fillArgs hc _ h).bind ?_
  rintro _ M₁ h₁ ⟨⟨filled, rfl, hfilled⟩, hlength⟩
  refine follows_pure ⟨⟨filled.take (Names.typeParameters p decl).length,
    funext fun s => List.map_take.symm, fun t ht => hfilled t (List.mem_of_mem_take ht)⟩,
    fun s => ?_⟩
  have hs := hlength s
  rw [List.length_drop] at hs
  rw [List.length_take, hs]
  omega

theorem follows_aliasValue {decl : NodeId} {r : Side → SymbolId} {args : List (Side → TypeId)}
    (h : ∀ t ∈ args, AlikeType t M) (hr : ∀ s, (M s).keyOf? (r s) = some (.decl decl))
    (hd : p.kind decl = "type_alias_declaration") :
    Follows C own steps (fun s c => aliasValue p c decl (r s) (args.map (· s))) M AlikeType := by
  refine (follows_bindEnv decl h).bind_of_growing ?_ fun _ => by split <;> infer_instance
  rintro _ M₁ h₁ ⟨⟨env, rfl, henv⟩, hnames⟩
  have hr₁ : ∀ s, (M₁ s).keyOf? (r s) = some (.decl decl) := fun s => (h₁.tables s).keyOf? (hr s)
  split
  · next value hv =>
    split
    · -- an object type written out is reached through the alias, and remembers its symbol
      refine (follows_builtinSymbol "__type").bind fun q M₂ h₂ hq => ?_
      have henv₂ : ∀ e ∈ env, AlikeType e.2 M₂ := fun e he => (henv e he).mono h₂
      have hr₂ : ∀ s, (M₂ s).keyOf? (r s) = some (.decl decl) := fun s =>
        (h₂.tables s).keyOf? (hr₁ s)
      have hsame : SameKey p r M₂ :=
        ⟨.decl decl, not_isEnumMember (by rw [hd]; exact List.mem_cons_self), hr₂⟩
      refine follows_intern (@AlikeData.object _ _ _ _ (some r) (.literal value henv₂)
        (sameKey_builtin hq) (fun a ha => by cases ha; exact hsame) fun s => ?_)
      refine ⟨envIn_of_alike henv₂ s, hq s, fun a ha => ?_⟩
      cases ha
      exact ⟨decl, hr₂ s, hd, hv, hnames s⟩
    · exact hc.evalType value ⟨env, rfl, henv⟩
  · exact follows_anyType

theorem follows_aliasType (hk : steps.Keep p) {decl : NodeId} {r : Side → SymbolId}
    {args : List (Side → TypeId)} (h : ∀ t ∈ args, AlikeType t M)
    (hr : ∀ s, (M s).keyOf? (r s) = some (.decl decl))
    (hd : p.kind decl = "type_alias_declaration") :
    Follows C own steps (fun s c => aliasType p c decl (r s) (args.map (· s))) M AlikeType := by
  simp only [aliasType_eq]
  refine (follows_completeArgs hc decl h).bind ?_
  rintro _ M₁ h₁ ⟨⟨args, rfl, hargs⟩, -⟩
  exact follows_knownAlias hk hargs (fun s => (h₁.tables s).keyOf? (hr s)) hd

/-- The type of the instances of a declaration has the symbol of the declaration. -/
theorem follows_declaredType (hk : steps.Keep p) {decl : NodeId} {r : Side → SymbolId}
    {args : List (Side → TypeId)} (h : ∀ t ∈ args, AlikeType t M)
    (hr : ∀ s, (M s).keyOf? (r s) = some (.decl decl)) :
    Follows C own steps (fun s c => declaredType p c decl (r s) (args.map (· s))) M AlikeType := by
  have object : p.kind decl ∈ objectDeclarationKinds → Follows C own steps (fun s c => do
      intern (.object (.declared decl (← completeArgs p c decl (args.map (· s)))) (r s) none)) M
        AlikeType := by
    intro hd
    refine (follows_completeArgs hc decl h).bind ?_
    rintro _ M₁ h₁ ⟨⟨args, rfl, hargs⟩, hlength⟩
    have hr₁ : ∀ s, (M₁ s).keyOf? (r s) = some (.decl decl) := fun s =>
      (h₁.tables s).keyOf? (hr s)
    have hsame : SameKey p r M₁ := ⟨.decl decl,
      not_isEnumMember (List.mem_cons_of_mem _ (List.mem_cons_of_mem _ hd)), hr₁⟩
    exact follows_intern (.plain (.declared decl hargs) hsame fun s =>
      ⟨rfl, typesIn_of_alike hargs s, hr₁ s, hd, hlength s⟩)
  unfold declaredType
  split
  · next hd => exact object (by rw [hd]; decide)
  · next hd => exact object (by rw [hd]; decide)
  · next hd => exact object (by rw [hd]; decide)
  · next hd => exact object (by rw [hd]; decide)
  · next hd => exact follows_aliasType hc hk h hr hd
  · next hd => exact follows_intern (.enum hr hd)
  · exact follows_anyType

/-- The type that a symbol denotes: that of its declaration, else a library type. -/
theorem follows_denoted (hk : steps.Keep p) {target : Side → SymbolId}
    (ht : AlikeSymbol target M) (name : String) {args : List (Side → TypeId)}
    (h : ∀ t ∈ args, AlikeType t M) : Follows C own steps (fun s c => do
      match (← symbol (target s)).kind with
      | .declared decl => declaredType p c decl (target s) (args.map (· s))
      | _ => builtinType name (args.map (· s))) M AlikeType := by
  refine follows_of_tied fun hM => follows_symbol_bind ht fun sym hsym heq => ?_
  cases hsym with
  | plain sym _ =>
    dsimp only
    split
    · next decl hkind =>
      exact follows_declaredType hc hk h fun s => (hM.sound s).declared (by rw [heq, hkind])
    · exact follows_builtinType name h
  | property _ _ _ _ _ => exact follows_builtinType name h
  | enumMember _ _ _ => exact follows_builtinType name h

theorem follows_symbolInstanceType (hk : steps.Keep p) {r : Side → SymbolId}
    (hr : AlikeSymbol r M) (name : String) {args : List (Side → TypeId)}
    (h : ∀ t ∈ args, AlikeType t M) :
    Follows C own steps (fun s c => symbolInstanceType p c (r s) name (args.map (· s))) M
      AlikeType := by
  have denoted := follows_denoted hc hk hr name h
  refine follows_symbol_bind hr fun sym hsym _ => ?_
  cases hsym with
  | plain sym _ =>
    dsimp only
    split
    · refine (follows_followAlias? hr).bind_of_growing ?_ fun _ => by
        repeat' first | infer_instance | dsimp only | split | refine .bind ?_ fun _ => ?_
      rintro _ M₁ h₁ ⟨both, rfl, hboth⟩
      have hargs : ∀ t ∈ args, AlikeType t M₁ := fun t ht => (h t ht).mono h₁
      cases both with
      | none => exact follows_builtinType _ hargs
      | some target => exact follows_denoted hc hk (hboth target rfl) name hargs
    · exact denoted
  | property _ _ _ _ _ => exact denoted
  | enumMember _ _ _ => exact denoted

theorem follows_qualifiedType (hk : steps.Keep p) (node : NodeId)
    {args : List (Side → TypeId)} (h : ∀ t ∈ args, AlikeType t M) :
    Follows C own steps (fun s c => qualifiedType p c node (args.map (· s))) M AlikeType := by
  unfold qualifiedType
  dsimp only
  split
  · refine (follows_exportSymbol? _ _).bind_of_growing ?_ fun _ => by split <;> infer_instance
    rintro _ M₁ h₁ ⟨both, rfl, hboth⟩
    have hargs : ∀ t ∈ args, AlikeType t M₁ := fun t ht => (h t ht).mono h₁
    cases both with
    | none => exact follows_builtinType _ hargs
    | some r => exact follows_symbolInstanceType hc hk (hboth r rfl) _ hargs
  · exact follows_builtinType _ h

theorem follows_namedType (hk : steps.Keep p) (name : String) (origin : NodeId)
    {env : Side → Env} (henv : AlikeEnv env M) {args : List (Side → TypeId)}
    (h : ∀ t ∈ args, AlikeType t M) :
    Follows C own steps (fun s c => namedType p c name origin (env s) (args.map (· s))) M
      AlikeType := by
  obtain ⟨env, rfl, henv⟩ := henv
  obtain ⟨found, hfound, hall⟩ := exists_lookup_of_alike name fun e he =>
    henv e (List.mem_reverse.1 he)
  unfold namedType
  simp only [← List.map_reverse, hfound]
  cases found with
  | some t => exact follows_pure (hall t rfl)
  | none =>
    dsimp only [Option.map_none]
    split
    · exact follows_builtinType name h
    · next binding hb =>
      split
      · split
        · exact hc.evalType _ alikeEnv_nil
        · exact follows_atom _ trivial
      · refine (follows_bindingSymbol (Or.inl ⟨_, _, _, hb⟩)).bind fun r M₁ h₁ hr => ?_
        exact follows_symbolInstanceType hc hk hr.1 name fun t ht => (h t ht).mono h₁

theorem follows_evalAll {env : Side → Env} (henv : AlikeEnv env M) (nodes : List NodeId) :
    Follows C own steps (fun s c => evalAll c (env s) nodes) M (Each AlikeType) :=
  follows_mapM (Q := AlikeType) AlikeType.mono nodes fun node _ _ hE =>
    hc.evalType node (henv.mono hE)

omit [steps.Moving (Drift.moves p)] in
theorem follows_evalFirst {env : Side → Env} (henv : AlikeEnv env M) (node : NodeId) :
    Follows C own steps (fun s c => evalFirst p c (env s) node) M AlikeType := by
  unfold evalFirst
  split
  · exact hc.evalType _ henv
  · exact follows_anyType

theorem follows_typeArgumentsAt {env : Side → Env} (henv : AlikeEnv env M) (node : NodeId) :
    Follows C own steps (fun s c => typeArgumentsAt p c (env s) node) M (Each AlikeType) := by
  unfold typeArgumentsAt
  split
  · exact follows_evalAll hc henv _
  · exact follows_pure ⟨[], rfl, alike_nil⟩

omit [steps.Moving (Drift.moves p)] in
theorem follows_tupleElement {env : Side → Env} (henv : AlikeEnv env M) (element : NodeId) :
    Follows C own steps (fun s c => tupleElement p c (env s) element) M AlikeType := by
  unfold tupleElement
  split
  · exact follows_evalFirst hc henv element
  · exact hc.evalType _ henv

theorem follows_lookupType {env : Side → Env} (henv : AlikeEnv env M) (node : NodeId) :
    Follows C own steps (fun s c => lookupType p c (env s) node) M AlikeType := by
  unfold lookupType
  split
  · refine (hc.evalType _ henv).bind_of_growing (fun object M₁ _ hobject => ?_) fun _ => by
      dsimp only
      split <;> infer_instance
    dsimp only
    split
    · exact hc.propertyType hobject _
    · exact follows_anyType
  · exact follows_anyType

theorem follows_evalType (hk : steps.Keep p) (node : NodeId) {env : Side → Env}
    (henv : AlikeEnv env M) :
    Follows C own steps (fun s c => evalType p c node (env s)) M AlikeType := by
  have types : ∀ {x : Side → Calls → Resolve (List TypeId)} {f : List TypeId → Resolve TypeId},
      Follows C own steps x M (Each AlikeType) →
      (∀ {M : Side → Memory} {types : List (Side → TypeId)}, (∀ t ∈ types, AlikeType t M) →
        Follows C own steps (fun s _ => f (types.map (· s))) M AlikeType) →
      (∀ l, Growing p (own .known) (f l)) →
      Follows C own steps (fun s c => x s c >>= f) M AlikeType := by
    intro x f hx hf hg
    refine hx.bind_of_growing ?_ hg
    rintro _ M₁ _ ⟨types, rfl, htypes⟩
    exact hf htypes
  have named := follows_namedType hc hk (p.text node) node henv alike_nil
  have qualified := follows_qualifiedType hc hk node (alike_nil (M := M))
  unfold evalType
  split
  · exact follows_evalFirst hc henv node
  · exact follows_predefinedType _
  · split
    · exact follows_literalType _
    · exact follows_anyType
  · exact follows_literalType node
  · exact follows_atom _ trivial
  · exact named
  · exact qualified
  · refine (follows_typeArgumentsAt hc henv node).bind_of_growing ?_
      fun _ => by split <;> infer_instance
    rintro _ M₁ h₁ ⟨args, rfl, hargs⟩
    split
    · split
      · exact follows_qualifiedType hc hk _ hargs
      · exact follows_namedType hc hk _ node (henv.mono h₁) hargs
    · exact follows_anyType
  · exact (follows_evalFirst hc henv node).bind fun t M₁ _ ht => follows_intern (.array ht)
  · exact types (follows_mapM (Q := AlikeType) AlikeType.mono _ fun element _ _ hE =>
      follows_tupleElement hc (henv.mono hE) element) (fun h => follows_intern (.tuple h))
      inferInstance
  · exact types (follows_evalAll hc henv _) follows_makeUnion inferInstance
  · exact types (follows_evalAll hc henv _) follows_makeIntersection inferInstance
  · obtain ⟨env, rfl, henv⟩ := henv
    refine (follows_builtinSymbol "__type").bind fun r M₁ h₁ hr => ?_
    have henv₁ : ∀ e ∈ env, AlikeType e.2 M₁ := fun e he => (henv e he).mono h₁
    exact follows_intern (.plain (.literal node henv₁) (sameKey_builtin hr) fun s =>
      ⟨envIn_of_alike henv₁ s, hr s, fun a ha => absurd ha (by simp)⟩)
  · exact follows_atom _ trivial
  · split
    · exact hc.valueType _
    · exact follows_anyType
  · exact follows_lookupType hc henv node
  · exact follows_atom _ trivial
  · exact follows_atom _ trivial
  · exact follows_anyType

end Expressions

end RouteContract.Types
