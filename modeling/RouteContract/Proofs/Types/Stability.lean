import Mathlib
import RouteContract.Proofs.Types.Naming
import RouteContract.Proofs.Types.Replay

/-!
# Answers are stable

The steps of the resolver give again what they gave (`repeats_calls`): the types of expressions, of
aliases and the members of types because they are remembered, all others because they are made of
such steps. So a question that was answered has the same answer in every later memory.
-/

namespace RouteContract.Types

variable {p : Program} {M M' : Memory}

/-- Calls that give again what they gave. -/
structure Calls.Repeat (p : Program) (calls : Calls) : Prop where
  evalType {M : Memory} (node : NodeId) {env : Env} (henv : EnvIn env M) :
    Repeats p (calls.evalType node env) M TypeIn
  valueType {M : Memory} (node : NodeId) : Repeats p (calls.valueType node) M TypeIn
  membersOf {M : Memory} (t : TypeId) : Repeats p (calls.membersOf t) M (MembersIn p)
  symbolType {M : Memory} {s : SymbolId} (hs : SymbolIn s M) :
    Repeats p (calls.symbolType s) M TypeIn
  propertyType {M : Memory} {t : TypeId} (ht : TypeIn t M) (name : String) :
    Repeats p (calls.propertyType t name) M TypeIn

/-! ### What is remembered -/

section Remembered

variable {calls : Calls}

variable (hk : calls.Keep p)
include hk

theorem repeats_valueType (node : NodeId) : Repeats p (valueType p calls node) M TypeIn := by
  refine (keeps_valueType hk node).repeats fun _ hidle t M' hrun _ K _ hwithin => ?_
  have hknown := hwithin.nodeTypes node t (lookup_of_run_valueType (by simp [hidle.inferring]) hrun)
  refine reads_get.bind ?_
  rw [hknown]
  exact reads_pure t

theorem repeats_membersOf (t : TypeId) : Repeats p (membersOf p calls t) M (MembersIn p) := by
  refine (keeps_membersOf hk t).repeats fun _ hidle members M' hrun _ K _ hwithin => ?_
  have hknown := hwithin.members t members
    (lookup_of_run_membersOf (by simp [hidle.collecting]) hrun)
  refine reads_get.bind ?_
  rw [hknown]
  exact reads_pure members

theorem repeats_knownAlias {decl : NodeId} {s : SymbolId} {args : List TypeId}
    (h : TypesIn args M) (hs : M.keyOf? s = some (.decl decl))
    (hd : p.kind decl = "type_alias_declaration") :
    Repeats p (knownAlias p calls decl s args) M TypeIn := by
  refine (keeps_knownAlias hk h hs hd).repeats fun _ hidle t M' hrun _ K _ hwithin => ?_
  have hknown := hwithin.aliases (decl, args) t
    (lookup_of_run_knownAlias (by simp [hidle.resolving]) hrun)
  refine reads_get.bind ?_
  rw [hknown]
  exact reads_pure t

end Remembered

/-! ### Type expressions -/

theorem repeats_literalType (node : NodeId) : Repeats p (literalType p node) M TypeIn := by
  unfold literalType
  split
  case h_1 => split <;> exact repeats_type trivial
  case h_7 =>
    dsimp only
    split
    · split <;> exact repeats_type trivial
    · exact repeats_type trivial
  all_goals exact repeats_type trivial

theorem repeats_predefinedType (name : String) : Repeats p (predefinedType name) M TypeIn := by
  unfold predefinedType
  split
  case h_10 => exact repeats_builtinType "Object" typesIn_nil
  case h_11 => exact repeats_builtinType "Symbol" typesIn_nil
  all_goals exact repeats_type trivial

section Expressions

variable {calls : Calls} (hk : calls.Keep p) (hc : calls.Repeat p)
include hc

theorem repeats_fillArgs (params : List NodeId) {args : List TypeId} (h : TypesIn args M) :
    Repeats p (fillArgs p calls args params) M fun filled M' =>
      TypesIn filled M' ∧ filled.length = args.length + params.length := by
  induction params generalizing M args with
  | nil => exact repeats_pure ⟨h, rfl⟩
  | cons param params ih =>
    have next : ∀ {M} {arg}, TypesIn args M → TypeIn arg M →
        Repeats p (fillArgs p calls (args ++ [arg]) params) M fun filled M' =>
          TypesIn filled M' ∧ filled.length = args.length + (param :: params).length := by
      intro M arg h ha
      refine (ih (typesIn_append.2 ⟨h, typesIn_cons.2 ⟨ha, typesIn_nil⟩⟩)).imp
        fun filled M' _ _ ⟨hf, hlength⟩ => ⟨hf, ?_⟩
      rw [hlength, List.length_append, List.length_singleton, List.length_cons]
      omega
    rw [fillArgs]
    dsimp only
    split
    · exact (hc.evalType _ envIn_nil).bind fun arg M' hE ha => next (h.mono hE) ha
    · exact (repeats_type (d := .unknown) trivial).bind fun arg M' hE ha => next (h.mono hE) ha

theorem repeats_completeArgs (decl : NodeId) {args : List TypeId} (h : TypesIn args M) :
    Repeats p (completeArgs p calls decl args) M fun args M' =>
      TypesIn args M' ∧ args.length = (Names.typeParameters p decl).length := by
  refine (repeats_fillArgs hc _ h).bind fun filled M' _ ⟨hf, hlength⟩ => repeats_pure ⟨?_, ?_⟩
  · exact fun t ht => hf t (List.mem_of_mem_take ht)
  · rw [List.length_drop] at hlength
    rw [List.length_take, hlength]
    omega

include hk

theorem repeats_aliasType {decl : NodeId} {s : SymbolId} {args : List TypeId}
    (h : TypesIn args M) (hs : M.keyOf? s = some (.decl decl))
    (hd : p.kind decl = "type_alias_declaration") :
    Repeats p (aliasType p calls decl s args) M TypeIn :=
  (repeats_completeArgs hc decl h).bind fun _ _ h₁ ⟨hargs, _⟩ =>
    repeats_knownAlias hk hargs (h₁.keyOf? hs) hd

theorem repeats_declaredType {decl : NodeId} {s : SymbolId} {args : List TypeId}
    (h : TypesIn args M) (hs : M.keyOf? s = some (.decl decl)) :
    Repeats p (declaredType p calls decl s args) M TypeIn := by
  have object : p.kind decl ∈ objectDeclarationKinds → Repeats p (do
      intern (.object (.declared decl (← completeArgs p calls decl args)) s none)) M TypeIn :=
    fun hd => (repeats_completeArgs hc decl h).bind fun args M₁ h₁ hargs =>
      repeats_type ⟨rfl, hargs.1, h₁.keyOf? hs, hd, hargs.2⟩
  unfold declaredType
  split
  · next hd => exact object (by rw [hd]; decide)
  · next hd => exact object (by rw [hd]; decide)
  · next hd => exact object (by rw [hd]; decide)
  · next hd => exact object (by rw [hd]; decide)
  · next hd => exact repeats_aliasType hk hc h hs hd
  · next hd => exact repeats_type ⟨decl, hs, hd⟩
  · exact repeats_anyType

theorem repeats_denoted {target : SymbolId} (ht : SymbolIn target M) (name : String)
    {args : List TypeId} (h : TypesIn args M) : Repeats p (do
      match (← symbol target).kind with
      | .declared decl => declaredType p calls decl target args
      | _ => builtinType name args) M TypeIn := by
  refine repeats_of_sound fun hM => repeats_symbol_bind ht ?_
  split
  · next decl hd => exact repeats_declaredType hk hc h (hM.declared hd)
  · exact repeats_builtinType name h

theorem repeats_symbolInstanceType {s : SymbolId} (hs : SymbolIn s M) (name : String)
    {args : List TypeId} (h : TypesIn args M) :
    Repeats p (symbolInstanceType p calls s name args) M TypeIn := by
  refine repeats_symbol_bind hs ?_
  split
  · refine (repeats_followAlias? hs).bind fun target M₁ h₁ htarget => ?_
    split
    · next target => exact repeats_denoted hk hc (htarget target rfl) name (h.mono h₁)
    · exact repeats_builtinType _ (h.mono h₁)
  · exact repeats_denoted hk hc hs name h

theorem repeats_qualifiedType (node : NodeId) {args : List TypeId} (h : TypesIn args M) :
    Repeats p (qualifiedType p calls node args) M TypeIn := by
  unfold qualifiedType
  dsimp only
  split
  · refine (repeats_exportSymbol? _ _).bind fun s M₁ h₁ hs => ?_
    split
    · next s => exact repeats_symbolInstanceType hk hc (hs s rfl) _ (h.mono h₁)
    · exact repeats_builtinType _ (h.mono h₁)
  · exact repeats_builtinType _ h

theorem repeats_namedType (name : String) (origin : NodeId) {env : Env} (henv : EnvIn env M)
    {args : List TypeId} (h : TypesIn args M) :
    Repeats p (namedType p calls name origin env args) M TypeIn := by
  unfold namedType
  split
  · next bound hb =>
    exact repeats_pure (henv _ (List.mem_reverse.1 (mem_of_lookup hb)))
  split
  · exact repeats_builtinType name h
  · next binding hb =>
    split
    · split
      · exact hc.evalType _ envIn_nil
      · exact repeats_type trivial
    · refine (repeats_bindingSymbol (Or.inl ⟨_, _, _, hb⟩)).bind fun s M₁ h₁ hs => ?_
      exact repeats_symbolInstanceType hk hc (symbolIn_of_keyOf? hs) name (h.mono h₁)

omit hk

theorem repeats_evalAll {env : Env} (henv : EnvIn env M) (nodes : List NodeId) :
    Repeats p (evalAll calls env nodes) M TypesIn :=
  repeats_mapM (Q := TypeIn) TypeIn.mono nodes fun node _ _ hE => hc.evalType node (henv.mono hE)

theorem repeats_evalFirst {env : Env} (henv : EnvIn env M) (node : NodeId) :
    Repeats p (evalFirst p calls env node) M TypeIn := by
  unfold evalFirst
  split
  · exact hc.evalType _ henv
  · exact repeats_anyType

theorem repeats_typeArgumentsAt {env : Env} (henv : EnvIn env M) (node : NodeId) :
    Repeats p (typeArgumentsAt p calls env node) M TypesIn := by
  unfold typeArgumentsAt
  split
  · exact repeats_evalAll hc henv _
  · exact repeats_pure typesIn_nil

theorem repeats_tupleElement {env : Env} (henv : EnvIn env M) (element : NodeId) :
    Repeats p (tupleElement p calls env element) M TypeIn := by
  unfold tupleElement
  split
  · exact repeats_evalFirst hc henv element
  · exact hc.evalType _ henv

theorem repeats_lookupType {env : Env} (henv : EnvIn env M) (node : NodeId) :
    Repeats p (lookupType p calls env node) M TypeIn := by
  unfold lookupType
  split
  · refine (hc.evalType _ henv).bind fun object M₁ _ hobject => ?_
    dsimp only
    split
    · exact hc.propertyType hobject _
    · exact repeats_anyType
  · exact repeats_anyType

include hk

theorem repeats_evalType (node : NodeId) {env : Env} (henv : EnvIn env M) :
    Repeats p (evalType p calls node env) M TypeIn := by
  unfold evalType
  split
  · exact repeats_evalFirst hc henv node
  · exact repeats_predefinedType _
  · split
    · exact repeats_literalType _
    · exact repeats_anyType
  · exact repeats_literalType node
  · exact repeats_type trivial
  · exact repeats_namedType hk hc _ node henv typesIn_nil
  · exact repeats_qualifiedType hk hc node typesIn_nil
  · refine (repeats_typeArgumentsAt hc henv node).bind fun args M₁ h₁ hargs => ?_
    split
    · split
      · exact repeats_qualifiedType hk hc _ hargs
      · exact repeats_namedType hk hc _ node (henv.mono h₁) hargs
    · exact repeats_anyType
  · exact (repeats_evalFirst hc henv node).bind fun t M₁ _ ht => repeats_type ht
  · exact (repeats_mapM (Q := TypeIn) TypeIn.mono _ fun element _ _ hE =>
      repeats_tupleElement hc (henv.mono hE) element).bind fun types M₁ _ h => repeats_type h
  · exact (repeats_evalAll hc henv _).bind fun types M₁ _ h => repeats_makeUnion h
  · exact (repeats_evalAll hc henv _).bind fun types M₁ _ h => repeats_makeIntersection h
  · refine (repeats_builtinSymbol "__type").bind fun s M₁ h₁ hs => repeats_type ?_
    exact ⟨henv.mono h₁, hs, fun a ha => absurd ha (by simp)⟩
  · exact repeats_type trivial
  · split
    · exact hc.valueType _
    · exact repeats_anyType
  · exact repeats_lookupType hc henv node
  · exact repeats_type trivial
  · exact repeats_type trivial
  · exact repeats_anyType

end Expressions

/-! ### Properties and declarations -/

theorem repeats_findNamed (name : String) {symbols : List SymbolId}
    (h : ∀ s ∈ symbols, SymbolIn s M) :
    Repeats p (findNamed name symbols) M fun found _ => ∀ s, found = some s → s ∈ symbols := by
  induction symbols with
  | nil => exact repeats_pure fun s hs => absurd hs (by simp)
  | cons s rest ih =>
    refine repeats_symbol_bind (h s (by simp)) ?_
    split
    · refine repeats_pure fun r hr => ?_
      cases hr
      exact List.mem_cons_self
    · exact (ih fun r hr => h r (List.mem_cons_of_mem _ hr)).imp
        fun found _ _ _ h r hr => List.mem_cons_of_mem _ (h r hr)

section Values

variable {calls : Calls} (hk : calls.Keep p) (hc : calls.Repeat p)
include hc

theorem repeats_findProperty (t : TypeId) (name : String) :
    Repeats p (findProperty calls t name) M SymbolIn? := by
  refine (hc.membersOf t).bind fun members M₁ _ hm => ?_
  refine (repeats_findNamed name fun s hs => (hm s hs).symbolIn).imp
    fun found M₂ _ h₂ h s hs => ?_
  exact ((hm s (h s hs)).mono h₂).symbolIn

theorem repeats_memberSymbol (member : NodeId) :
    Repeats p (memberSymbol p calls member) M SymbolIn? := by
  unfold memberSymbol
  split
  · dsimp only
    split
    · exact repeats_exportSymbol? _ _
    · exact (hc.valueType _).bind fun t M₁ _ _ => repeats_findProperty hc t _
  · exact repeats_pure symbolIn?_none

theorem repeats_foundType (t : TypeId) (name : String) : Repeats p (do
    match ← findProperty calls t name with
    | some s => calls.symbolType s
    | none => anyType) M TypeIn := by
  refine (repeats_findProperty hc t name).bind fun s M₁ _ hs => ?_
  split
  · next s => exact hc.symbolType (hs s rfl)
  · exact repeats_anyType

theorem repeats_propertyType {t : TypeId} (ht : TypeIn t M) (name : String) :
    Repeats p (propertyType calls t name) M TypeIn := by
  have sized : ∀ {x : Resolve TypeId}, Repeats p x M TypeIn →
      Repeats p (if name = "length" then intern .number else x) M TypeIn := by
    intro x hx
    split
    · exact repeats_type trivial
    · exact hx
  unfold propertyType
  dsimp only
  refine repeats_of_sound fun hM => repeats_data_bind ht ?_
  split
  · exact sized (repeats_foundType hc t name)
  · exact sized (repeats_foundType hc t name)
  · exact sized (repeats_foundType hc t name)
  · exact sized (repeats_foundType hc t name)
  · next members hd =>
    have hmembers : TypesIn members M := typesIn_of_lt ht (hM.fits hd TypeData.noConfusion).2
    refine (repeats_presentMembers hmembers).bind fun present M₁ h₁ hp => ?_
    refine (repeats_mapM (Q := TypeIn) TypeIn.mono _ fun m hm M' hE => ?_).bind
      fun types M₂ _ h => repeats_makeUnion h
    exact hc.propertyType ((hmembers m (hp hm)).mono (h₁.trans hE)) name
  · exact repeats_foundType hc t name

theorem repeats_destructuredType (element : NodeId) :
    Repeats p (destructuredType p calls element) M TypeIn := by
  have parameter : ∀ {M} holder key,
      Repeats p (destructuredType.ofParameter p calls holder key) M TypeIn := by
    intro M holder key
    unfold destructuredType.ofParameter
    split
    · exact (hc.evalType _ envIn_nil).bind fun t M₁ _ ht => hc.propertyType ht key
    · exact repeats_anyType
  unfold destructuredType
  split
  · exact repeats_anyType
  split
  · exact repeats_anyType
  split
  · split
    · exact (hc.evalType _ envIn_nil).bind fun t M₁ _ ht => hc.propertyType ht _
    · exact (hc.valueType _).bind fun t M₁ _ ht => hc.propertyType ht _
    · exact repeats_anyType
  · exact parameter _ _
  · exact parameter _ _
  · exact repeats_anyType

theorem repeats_widenedChild (node : NodeId) (role : String) :
    Repeats p (widenedChild p calls node role) M TypeIn := by
  unfold widenedChild
  split
  · exact (hc.valueType _).bind fun t M₁ _ ht => repeats_widen ht
  · exact repeats_anyType

include hk

theorem repeats_declarationType {decl : NodeId} {s : SymbolId}
    (hs : M.keyOf? s = some (.decl decl)) :
    Repeats p (declarationType p calls decl s) M TypeIn := by
  have parameter : Repeats p (declarationType.ofParameter p calls decl) M TypeIn := by
    unfold declarationType.ofParameter
    split
    · exact hc.evalType _ envIn_nil
    · exact repeats_widenedChild hc decl "value"
  unfold declarationType
  split
  · split
    · exact hc.evalType _ envIn_nil
    · refine (hc.valueType _).bind fun t M₁ _ ht => ?_
      have widened : ∀ isConst : Bool,
          Repeats p (if isConst then pure t else widen t) M₁ TypeIn := by
        intro isConst
        split
        · exact repeats_pure ht
        · exact repeats_widen ht
      exact widened _
    · exact repeats_anyType
  · exact parameter
  · exact parameter
  · exact repeats_widenedChild hc decl "right"
  · exact repeats_destructuredType hc decl
  · exact repeats_destructuredType hc decl
  · exact repeats_type trivial
  · exact repeats_type trivial
  · next hd => exact repeats_type ⟨decl, hs, hd⟩
  · exact repeats_declaredType hk hc typesIn_nil hs
  · exact repeats_declaredType hk hc typesIn_nil hs
  · exact repeats_anyType
  · exact repeats_anyType
  · split
    · exact repeats_type trivial
    · exact hc.valueType decl

theorem repeats_symbolType {s : SymbolId} (hs : SymbolIn s M) :
    Repeats p (symbolType p calls s) M TypeIn := by
  refine repeats_of_sound fun hM => repeats_symbol_bind hs ?_
  split
  · next decl hd => exact repeats_declarationType hk hc (hM.declared hd)
  · refine (repeats_followAlias? hs).bind fun target M₁ _ htarget => ?_
    split
    · next target =>
      split
      · exact repeats_anyType
      · exact hc.symbolType (htarget target rfl)
    · exact repeats_anyType
  · exact repeats_anyType
  · exact repeats_anyType
  · next hkind =>
    have hsource := hM.property hkind
    split
    · exact hc.evalType _ hsource.1
    · exact (hc.valueType _).bind fun t M₁ _ ht => repeats_widen ht
    · exact repeats_type trivial
    · exact repeats_pure hsource
  · next hkind => exact repeats_pure (hM.enumMember hkind)

end Values

/-- The steps of the resolver give again what they gave, however deep they call each other. -/
theorem repeats_calls (p : Program) (bound : Nat) : (calls p bound).Repeat p := by
  induction bound with
  | zero =>
    constructor
    all_goals intros; exact repeats_exhausted
  | succ bound ih =>
    have hk := keeps_calls p bound
    constructor
    · intro M node env henv
      exact repeats_evalType hk ih node henv
    · exact fun node => repeats_valueType hk node
    · exact fun t => repeats_membersOf hk t
    · exact fun hs => repeats_symbolType hk ih hs
    · exact fun ht name => repeats_propertyType ih ht name

/-! ### Questions -/

section Questions

variable {calls : Calls} (hk : calls.Keep p) (hc : calls.Repeat p)
include hk hc

theorem repeats_typeAt (node : NodeId) : Repeats p (typeAt p calls node) M TypeIn := by
  unfold typeAt
  split
  · exact repeats_evalType hk hc node envIn_nil
  · split
    · next decl hd =>
      exact (repeats_bindingSymbol (isBinding_of_namedDeclaration? hd)).bind
        fun s M' _ hs => repeats_declarationType hk hc hs
    · exact repeats_valueType hk node

omit hk hc in
theorem repeats_nameSymbol (space : Names.Space) (node : NodeId) :
    Repeats p (nameSymbol p space node) M SymbolIn? := by
  unfold nameSymbol
  split
  · next d hd =>
    have hb : IsBinding p d := Or.inl ⟨_, _, _, hd⟩
    exact (repeats_bindingSymbol hb).bind
      fun s M' _ hs => repeats_pure (symbolIn?_some (symbolIn_of_keyOf? hs))
  · exact repeats_pure symbolIn?_none

omit hk in
theorem repeats_symbolAt (node : NodeId) : Repeats p (symbolAt p calls node) M SymbolIn? := by
  unfold symbolAt
  split
  · exact repeats_pure symbolIn?_none
  split
  · exact repeats_nameSymbol _ _
  · exact repeats_nameSymbol _ _
  · exact repeats_nameSymbol _ _
  · split
    · split
      · exact repeats_memberSymbol hc _
      · exact repeats_pure symbolIn?_none
    · exact repeats_pure symbolIn?_none
  · exact repeats_memberSymbol hc _
  · exact repeats_pure symbolIn?_none

end Questions

/-- What is found from a memory is found again, without a change, in every memory that questions
lead to from there. -/
def Settles (p : Program) (M : Memory) {α : Type} (x : Resolve α) : Prop :=
  ∀ a M₁, x.run M = some (a, M₁) → ∀ M₂, Later p M₁ M₂ → Reads x M₂ a

theorem Repeats.settles {α : Type} {x : Resolve α} {P : α → Memory → Prop} (hx : Repeats p x M P)
    (hM : Sound p M) (hidle : M.Idle) : Settles p M x := by
  intro a M₁ hrun M₂ hlater
  obtain ⟨⟨hM₁, -, -⟩, hagain⟩ := hx hM hidle a M₁ hrun
  obtain ⟨hM₂, hE, hR⟩ := hlater.keeps hM₁
  exact hagain M₂ hM₂ (Memory.within_of_resumes hE hR)

/-- **Answers are stable.** In every memory that questions lead to, nothing is being looked for;
what is remembered of members, aliases and expressions stays the same in all later memories; and a
question about the type of a node, of a type expression or of a symbol, about the symbol of a node
or about the properties of a type has the same answer whenever it is asked again later. -/
theorem reached_answers_stable (p : Program) {M : Memory} (h : Reached p M) :
    (M.inferring = [] ∧ M.resolving = [] ∧ M.collecting = []) ∧
    (∀ M', Later p M M' →
      (∀ node t, M.nodeTypes.lookup node = some t → M'.nodeTypes.lookup node = some t) ∧
      (∀ key t, M.aliases.lookup key = some t → M'.aliases.lookup key = some t) ∧
      ∀ t members, M.members.lookup t = some members → M'.members.lookup t = some members) ∧
    ∀ bound,
      (∀ node, Settles p M ((oracleWithin p bound).typeAt node)) ∧
      (∀ node, Settles p M ((oracleWithin p bound).typeOfTypeNode node)) ∧
      (∀ node, Settles p M ((oracleWithin p bound).symbolAt node)) ∧
      (∀ s, SymbolIn s M → Settles p M ((oracleWithin p bound).typeOfSymbol s)) ∧
      ∀ t, Settles p M ((oracleWithin p bound).properties t) := by
  have hM := h.sound
  have hidle := h.idle
  refine ⟨⟨hidle.inferring, hidle.resolving, hidle.collecting⟩, fun M' hM' => ?_, fun bound => ?_⟩
  · have hwithin := h.within hM'
    exact ⟨hwithin.nodeTypes, hwithin.aliases, hwithin.members⟩
  · have hk := keeps_calls p bound
    have hc := repeats_calls p bound
    refine ⟨fun node => ?_, fun node => ?_, fun node => ?_, fun s hs => ?_, fun t => ?_⟩
    · exact (repeats_typeAt hk hc node).settles hM hidle
    · exact (repeats_evalType hk hc node envIn_nil).settles hM hidle
    · exact (repeats_symbolAt hc node).settles hM hidle
    · exact (repeats_symbolType hk hc hs).settles hM hidle
    · exact (repeats_membersOf hk t).settles hM hidle

/-- The properties of a box and the type of its interface in a memory that a question led to, and
what is in the memory after one more question. -/
theorem boxProgram_properties :
    (((oracle boxProgram).pose (.typeOfTypeNode ⟨0, 25⟩)).run {}).bind (fun r =>
      (((oracle boxProgram).typeOfSymbol 1).run r.2).bind fun r₁ =>
      (((oracle boxProgram).properties 2).run r.2).bind fun r₂ =>
      (((oracle boxProgram).pose (.typeOfTypeNode ⟨0, 19⟩)).run r₂.2).map fun r₃ =>
        (r.2.symbols.size, r.2.aliases.lookup (⟨0, 11⟩, []), r₁.1, r₂.1, r₃.2.types.size)) =
    some (3, some 2, 4, [3], 6) := by
  decide +kernel

/-- The properties of a box are the same when they are asked for again after another question, and
so is the type of its interface; the type of the alias that led to the box is still known. -/
theorem reached_answers_stable_boxes : ∃ M M₁ M₂ N, Reached boxProgram M ∧
    ((oracle boxProgram).properties 2).run M = some ([3], M₁) ∧ Later boxProgram M₁ M₂ ∧
    ((oracle boxProgram).properties 2).run M₂ = some ([3], M₂) ∧
    M₁.aliases.lookup (⟨0, 11⟩, []) = some 2 ∧
    ((oracle boxProgram).typeOfSymbol 1).run M = some (4, N) ∧
    ((oracle boxProgram).typeOfSymbol 1).run N = some (4, N) := by
  obtain ⟨⟨_, M⟩, hrun, h⟩ := Option.bind_eq_some_iff.1 boxProgram_properties
  obtain ⟨⟨t, N⟩, htype, h⟩ := Option.bind_eq_some_iff.1 h
  obtain ⟨⟨members, M₁⟩, hmembers, h⟩ := Option.bind_eq_some_iff.1 h
  obtain ⟨⟨_, M₂⟩, hnext, h⟩ := Option.map_eq_some_iff.1 h
  simp only [Prod.mk.injEq] at h
  obtain ⟨hsymbols, halias, rfl, rfl, -⟩ := h
  have hreached : Reached boxProgram M :=
    Relation.ReflTransGen.single ⟨nestingBound boxProgram, .typeOfTypeNode ⟨0, 25⟩, hrun⟩
  have hlater : Later boxProgram M₁ M₂ :=
    Relation.ReflTransGen.single ⟨nestingBound boxProgram, .typeOfTypeNode ⟨0, 19⟩, hnext⟩
  have hasked : Later boxProgram M M₁ :=
    Relation.ReflTransGen.single ⟨nestingBound boxProgram, .properties 2, run_discard hmembers⟩
  obtain ⟨-, hknown, hquestions⟩ := reached_answers_stable boxProgram hreached
  obtain ⟨-, -, -, htypes, hproperties⟩ := hquestions (nestingBound boxProgram)
  have hsymbol : SymbolIn 1 M := by
    show 1 < M.symbols.size
    rw [hsymbols]
    decide
  exact ⟨M, M₁, M₂, N, hreached, hmembers, hlater, hproperties 2 _ M₁ hmembers M₂ hlater,
    (hknown M₁ hasked).2.1 _ 2 halias, htype, htypes 1 hsymbol _ N htype N .refl⟩

end RouteContract.Types
