import Mathlib
import RouteContract.Proofs.Types.Tables

/-!
# Evaluation keeps a memory sound

Type expressions, expressions and members are evaluated by steps that call each other through
`Calls`. Here it is shown, function by function, that a step keeps the memory sound when the calls
that it makes do (`Calls.Keep`); the bound on nested steps then gives it for all of them.
-/

namespace RouteContract.Types

variable {p : Program} {M M' : Memory}

/-- Calls that keep a memory sound. -/
structure Calls.Keep (p : Program) (calls : Calls) : Prop where
  evalType {M : Memory} (node : NodeId) {env : Env} (henv : EnvIn env M) :
    Keeps p (calls.evalType node env) M TypeIn
  valueType {M : Memory} (node : NodeId) : Keeps p (calls.valueType node) M TypeIn
  membersOf {M : Memory} (t : TypeId) : Keeps p (calls.membersOf t) M (MembersIn p)
  symbolType {M : Memory} (s : SymbolId) : Keeps p (calls.symbolType s) M TypeIn
  propertyType {M : Memory} (t : TypeId) (name : String) :
    Keeps p (calls.propertyType t name) M TypeIn

variable {calls : Calls}

/-! ### Type expressions -/

theorem keeps_literalType (node : NodeId) : Keeps p (literalType p node) M TypeIn := by
  unfold literalType
  split
  · split <;> exact keeps_type trivial
  · exact keeps_type trivial
  · exact keeps_type trivial
  · exact keeps_type trivial
  · exact keeps_type trivial
  · exact keeps_type trivial
  · dsimp only
    split
    · split <;> exact keeps_type trivial
    · exact keeps_type trivial
  · exact keeps_anyType

theorem keeps_predefinedType (name : String) : Keeps p (predefinedType name) M TypeIn := by
  unfold predefinedType
  split
  case h_10 => exact keeps_builtinType "Object" typesIn_nil
  case h_11 => exact keeps_builtinType "Symbol" typesIn_nil
  all_goals exact keeps_type trivial

section Expressions

variable (hc : calls.Keep p)
include hc

theorem keeps_fillArgs (params : List NodeId) {args : List TypeId} (h : TypesIn args M) :
    Keeps p (fillArgs p calls args params) M fun filled M' =>
      TypesIn filled M' ∧ filled.length = args.length + params.length := by
  induction params generalizing M args with
  | nil => exact keeps_pure ⟨h, rfl⟩
  | cons param params ih =>
    have next : ∀ {M} {arg}, TypesIn args M → TypeIn arg M →
        Keeps p (fillArgs p calls (args ++ [arg]) params) M fun filled M' =>
          TypesIn filled M' ∧ filled.length = args.length + (param :: params).length := by
      intro M arg h ha
      refine (ih (typesIn_append.2 ⟨h, typesIn_cons.2 ⟨ha, typesIn_nil⟩⟩)).imp
        fun filled M' _ _ ⟨hf, hlength⟩ => ⟨hf, ?_⟩
      rw [hlength, List.length_append, List.length_singleton, List.length_cons]
      omega
    rw [fillArgs]
    dsimp only
    split
    · exact (hc.evalType _ envIn_nil).bind fun arg M' hE ha => next (h.mono hE) ha
    · exact (keeps_type (d := .unknown) trivial).bind fun arg M' hE ha => next (h.mono hE) ha

/-- A declaration gets as many type arguments as it has parameters. -/
theorem keeps_completeArgs (decl : NodeId) {args : List TypeId} (h : TypesIn args M) :
    Keeps p (completeArgs p calls decl args) M fun args M' =>
      TypesIn args M' ∧ args.length = (Names.typeParameters p decl).length := by
  refine (keeps_fillArgs hc _ h).bind fun filled M' _ ⟨hf, hlength⟩ => keeps_pure ⟨?_, ?_⟩
  · exact fun t ht => hf t (List.mem_of_mem_take ht)
  · rw [List.length_drop] at hlength
    rw [List.length_take, hlength]
    omega

end Expressions

theorem map_fst_filterMap_zipIdx {l : List NodeId} (first : Nat) (name : NodeId → Option String)
    (value : Nat → TypeId) :
    ((l.zipIdx first).filterMap fun (a, i) => (name a).map fun n => (n, value i)).map Prod.fst =
      l.filterMap name := by
  have hname : (fun e : NodeId × Nat => Option.map Prod.fst
      ((name e.1).map fun n => (n, value e.2))) = name ∘ Prod.fst := by
    funext e
    simp [Function.comp_def]
  rw [List.map_filterMap]
  exact (congrArg (List.filterMap · _) hname).trans
    (by rw [← List.filterMap_map, List.zipIdx_map_fst])

/-- The parameters of a declaration are bound by their names, in order. -/
theorem keeps_bindEnv (decl : NodeId) {args : List TypeId} (h : TypesIn args M) :
    Keeps p (bindEnv p decl args) M fun env M' =>
      EnvIn env M' ∧ env.map Prod.fst = parameterNames p decl := by
  refine (keeps_type (d := .unknown) trivial).bind fun unknown M' hE hu => keeps_pure ⟨?_, ?_⟩
  · intro e he
    obtain ⟨⟨param, i⟩, -, he⟩ := List.mem_filterMap.1 he
    obtain ⟨name, -, rfl⟩ := Option.map_eq_some_iff.1 he
    show TypeIn (args.getD i unknown) M'
    rw [List.getD_eq_getElem?_getD]
    cases ha : args[i]? with
    | none => exact hu
    | some arg => exact (h arg (List.mem_of_getElem? ha)).mono hE
  · have hmap := map_fst_filterMap_zipIdx (l := Names.typeParameters p decl) 0
      (fun param => (p.field? param "name").map p.text) fun i => args.getD i unknown
    simp only [Option.map_map] at hmap
    exact hmap

/-- The type of an alias with its arguments, once they are complete. -/
def knownAlias (p : Program) (calls : Calls) (decl : NodeId) (s : SymbolId) (args : List TypeId) :
    Resolve TypeId := do
  let memory ← get
  match memory.aliases.lookup (decl, args) with
  | some known => return known
  | none =>
    if memory.resolving.contains (decl, args) then anyType
    else
      set { memory with resolving := (decl, args) :: memory.resolving }
      let result ← aliasValue p calls decl s args
      modify fun memory =>
        { memory with
          resolving := memory.resolving.erase (decl, args)
          aliases := ((decl, args), result) :: memory.aliases }
      return result

theorem aliasType_eq (decl : NodeId) (s : SymbolId) (args : List TypeId) :
    aliasType p calls decl s args = completeArgs p calls decl args >>= knownAlias p calls decl s :=
  rfl

section Expressions

variable (hc : calls.Keep p)
include hc

theorem keeps_aliasValue {decl : NodeId} {s : SymbolId} {args : List TypeId} (h : TypesIn args M)
    (hs : M.keyOf? s = some (.decl decl)) (hk : p.kind decl = "type_alias_declaration") :
    Keeps p (aliasValue p calls decl s args) M TypeIn := by
  refine (keeps_bindEnv decl h).bind fun env M₁ h₁ henv => ?_
  split
  · next value hv =>
    split
    · -- an object type written out is reached through the alias, and remembers its symbol
      refine (keeps_builtinSymbol "__type").bind fun r M₂ h₂ hr => keeps_type ?_
      refine ⟨henv.1.mono h₂, hr, fun a ha => ?_⟩
      cases ha
      exact ⟨decl, (h₁.trans h₂).keyOf? hs, hk, hv, henv.2⟩
    · exact hc.evalType value henv.1
  · exact keeps_anyType

theorem keeps_knownAlias {decl : NodeId} {s : SymbolId} {args : List TypeId} (h : TypesIn args M)
    (hs : M.keyOf? s = some (.decl decl)) (hk : p.kind decl = "type_alias_declaration") :
    Keeps p (knownAlias p calls decl s args) M TypeIn := by
  refine keeps_of_sound fun hM => keeps_get_bind ?_
  split
  · next known hknown => exact keeps_pure (hM.aliases _ (mem_of_lookup hknown))
  next hnone =>
  split
  · exact keeps_anyType
  next hmark =>
  -- the alias is marked while its value is looked for, so that a circular one is noticed
  refine keeps_marked (P := TypeIn) (fun hM => ?_) (Memory.extends_of_tables rfl rfl) ?_ ?_
  · exact hM.remember rfl rfl (fun _ => Or.inl) (fun _ => Or.inl) (fun _ => Or.inl)
  · exact keeps_aliasValue hc h hs hk
  · intro t M₁ hM₁ h₁ hr₁ ht
    refine ⟨hM₁.remember rfl rfl (fun _ => Or.inl) (mem_or_of_mem_cons ht) (fun _ => Or.inl),
      ⟨Memory.extends_of_tables rfl rfl, hr₁.members, ?_, hr₁.nodeTypes, hr₁.inferring, ?_,
        hr₁.collecting⟩, ht⟩
    · exact hr₁.aliases.answer (fun h => hmark (List.contains_iff_mem.2 h))
        (notMem_keys_of_lookup_eq_none hnone) t
    · show M₁.resolving.erase _ = M.resolving
      rw [hr₁.resolving, List.erase_cons_head]

theorem keeps_aliasType {decl : NodeId} {s : SymbolId} {args : List TypeId} (h : TypesIn args M)
    (hs : M.keyOf? s = some (.decl decl)) (hk : p.kind decl = "type_alias_declaration") :
    Keeps p (aliasType p calls decl s args) M TypeIn :=
  (keeps_completeArgs hc decl h).bind fun _ _ h₁ ⟨hargs, _⟩ =>
    keeps_knownAlias hc hargs (h₁.keyOf? hs) hk

/-- The type of the instances of a declaration has the symbol of the declaration. -/
theorem keeps_declaredType {decl : NodeId} {s : SymbolId} {args : List TypeId}
    (h : TypesIn args M) (hs : M.keyOf? s = some (.decl decl)) :
    Keeps p (declaredType p calls decl s args) M TypeIn := by
  have object : p.kind decl ∈ objectDeclarationKinds → Keeps p (do
      intern (.object (.declared decl (← completeArgs p calls decl args)) s none)) M TypeIn :=
    fun hk => (keeps_completeArgs hc decl h).bind fun args M₁ h₁ hargs =>
      keeps_type ⟨rfl, hargs.1, h₁.keyOf? hs, hk, hargs.2⟩
  unfold declaredType
  split
  · next hk => exact object (by rw [hk]; decide)
  · next hk => exact object (by rw [hk]; decide)
  · next hk => exact object (by rw [hk]; decide)
  · next hk => exact object (by rw [hk]; decide)
  · next hk => exact keeps_aliasType hc h hs hk
  · next hk => exact keeps_type ⟨decl, hs, hk⟩
  · exact keeps_anyType

/-- The type that a symbol denotes: that of its declaration, else a library type. -/
theorem keeps_denoted (target : SymbolId) (name : String) {args : List TypeId}
    (h : TypesIn args M) : Keeps p (do
      match (← symbol target).kind with
      | .declared decl => declaredType p calls decl target args
      | _ => builtinType name args) M TypeIn := by
  refine keeps_of_sound fun hM => keeps_symbol_bind ?_
  split
  · next decl hk => exact keeps_declaredType hc h (hM.declared hk)
  · exact keeps_builtinType name h

theorem keeps_symbolInstanceType {s : SymbolId} (hs : SymbolIn s M) (name : String)
    {args : List TypeId} (h : TypesIn args M) :
    Keeps p (symbolInstanceType p calls s name args) M TypeIn := by
  refine keeps_symbol_bind ?_
  split
  · refine (keeps_followAlias? hs).bind fun target M₁ h₁ _ => ?_
    split
    · exact keeps_denoted hc _ name (h.mono h₁)
    · exact keeps_builtinType _ (h.mono h₁)
  · exact keeps_denoted hc s name h

theorem keeps_qualifiedType (node : NodeId) {args : List TypeId} (h : TypesIn args M) :
    Keeps p (qualifiedType p calls node args) M TypeIn := by
  unfold qualifiedType
  dsimp only
  split
  · refine (keeps_exportSymbol? _ _).bind fun s M₁ h₁ hs => ?_
    split
    · next s => exact keeps_symbolInstanceType hc (hs s rfl) _ (h.mono h₁)
    · exact keeps_builtinType _ (h.mono h₁)
  · exact keeps_builtinType _ h

theorem keeps_namedType (name : String) (origin : NodeId) {env : Env} (henv : EnvIn env M)
    {args : List TypeId} (h : TypesIn args M) :
    Keeps p (namedType p calls name origin env args) M TypeIn := by
  unfold namedType
  split
  · next bound hb =>
    exact keeps_pure (henv _ (List.mem_reverse.1 (mem_of_lookup hb)))
  split
  · exact keeps_builtinType name h
  · next binding hb =>
    split
    · split
      · exact hc.evalType _ envIn_nil
      · exact keeps_type trivial
    · refine (keeps_bindingSymbol (Or.inl ⟨_, _, _, hb⟩)).bind fun s M₁ h₁ hs => ?_
      exact keeps_symbolInstanceType hc (symbolIn_of_keyOf? hs) name (h.mono h₁)

theorem keeps_evalAll {env : Env} (henv : EnvIn env M) (nodes : List NodeId) :
    Keeps p (evalAll calls env nodes) M TypesIn :=
  keeps_mapM (Q := TypeIn) TypeIn.mono nodes fun node _ _ hE => hc.evalType node (henv.mono hE)

theorem keeps_evalFirst {env : Env} (henv : EnvIn env M) (node : NodeId) :
    Keeps p (evalFirst p calls env node) M TypeIn := by
  unfold evalFirst
  split
  · exact hc.evalType _ henv
  · exact keeps_anyType

theorem keeps_typeArgumentsAt {env : Env} (henv : EnvIn env M) (node : NodeId) :
    Keeps p (typeArgumentsAt p calls env node) M TypesIn := by
  unfold typeArgumentsAt
  split
  · exact keeps_evalAll hc henv _
  · exact keeps_pure typesIn_nil

theorem keeps_tupleElement {env : Env} (henv : EnvIn env M) (element : NodeId) :
    Keeps p (tupleElement p calls env element) M TypeIn := by
  unfold tupleElement
  split
  · exact keeps_evalFirst hc henv element
  · exact hc.evalType _ henv

theorem keeps_lookupType {env : Env} (henv : EnvIn env M) (node : NodeId) :
    Keeps p (lookupType p calls env node) M TypeIn := by
  unfold lookupType
  split
  · refine (hc.evalType _ henv).bind fun object M₁ _ _ => ?_
    dsimp only
    split
    · exact hc.propertyType _ _
    · exact keeps_anyType
  · exact keeps_anyType

theorem keeps_evalType (node : NodeId) {env : Env} (henv : EnvIn env M) :
    Keeps p (evalType p calls node env) M TypeIn := by
  unfold evalType
  split
  · exact keeps_evalFirst hc henv node
  · exact keeps_predefinedType _
  · split
    · exact keeps_literalType _
    · exact keeps_anyType
  · exact keeps_literalType node
  · exact keeps_type trivial
  · exact keeps_namedType hc _ node henv typesIn_nil
  · exact keeps_qualifiedType hc node typesIn_nil
  · refine (keeps_typeArgumentsAt hc henv node).bind fun args M₁ h₁ hargs => ?_
    split
    · split
      · exact keeps_qualifiedType hc _ hargs
      · exact keeps_namedType hc _ node (henv.mono h₁) hargs
    · exact keeps_anyType
  · exact (keeps_evalFirst hc henv node).bind fun t M₁ _ ht => keeps_type ht
  · exact (keeps_mapM (Q := TypeIn) TypeIn.mono _ fun element _ _ hE =>
      keeps_tupleElement hc (henv.mono hE) element).bind fun types M₁ _ h => keeps_type h
  · exact (keeps_evalAll hc henv _).bind fun types M₁ _ h => keeps_makeUnion h
  · exact (keeps_evalAll hc henv _).bind fun types M₁ _ h => keeps_makeIntersection h
  · refine (keeps_builtinSymbol "__type").bind fun s M₁ h₁ hs => keeps_type ?_
    exact ⟨henv.mono h₁, hs, fun a ha => absurd ha (by simp)⟩
  · exact keeps_type trivial
  · split
    · exact hc.valueType _
    · exact keeps_anyType
  · exact keeps_lookupType hc henv node
  · exact keeps_type trivial
  · exact keeps_type trivial
  · exact keeps_anyType

end Expressions

end RouteContract.Types
