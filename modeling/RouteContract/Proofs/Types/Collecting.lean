import Mathlib
import RouteContract.Proofs.Types.Guards

/-!
# The members of a type are always found

With so many marks left, and with the type expressions below a rank evaluated, the members of every
type are found (`halts_membersOf`) and so is the type of each of its properties
(`halts_propertyType`), provided that all steps get their answers with fewer marks left. A class or
an interface without type parameters and an object expression have a mark of their own; one with
type parameters inherits from those of a lower rank; every other type has its members from types
before it.
-/

namespace RouteContract.Types

variable {p : Program} {M M' : Memory} {rank : NodeId → Nat} {k : Nat}

/-! ### Members that need no calls -/

theorem answers_placeNamed (name : String) (s : SymbolId) (members : List SymbolId) :
    Answers (placeNamed name s members) := by
  induction members with
  | nil => exact answers_pure _
  | cons old rest ih =>
    refine (answers_symbol old).bind fun sym => ?_
    split
    · exact answers_pure _
    · exact ih.bind fun _ => answers_pure _

theorem answers_pushMember (members : List SymbolId) (s : SymbolId) :
    Answers (pushMember members s) :=
  (answers_symbol s).bind fun _ => answers_placeNamed _ s members

theorem answers_pushMembers (members more : List SymbolId) : Answers (pushMembers members more) :=
  answers_foldlM more answers_pushMember members

theorem answers_pushProperty (members : List SymbolId) (owner : TypeId) (name : String)
    (decl : Option NodeId) (source : PropSource) (isOptional : Bool) :
    Answers (do pushMember members (← propertySymbol owner name decl source isOptional)) :=
  (answers_internSymbol _).bind fun _ => answers_pushMember members _

theorem answers_declaredSource (env : Env) (member : NodeId) :
    Answers (declaredSource p env member) := by
  unfold declaredSource
  split
  · exact answers_pure _
  · exact (answers_intern _).bind fun _ => answers_pure _

theorem answers_literalMembers (body : NodeId) (env : Env) (owner : TypeId)
    (members : List SymbolId) : Answers (literalMembers p body env owner members) := by
  refine answers_foldlM _ (fun members member => ?_) members
  dsimp only
  split
  · split
    · exact answers_pure _
    · split
      · exact (answers_pure _).bind fun _ => answers_pushProperty _ _ _ _ _ _
      · exact (answers_declaredSource env member).bind fun _ => answers_pushProperty _ _ _ _ _ _
  · exact answers_pure _

theorem answers_constructorMembers (constructor : NodeId) (env : Env) (owner : TypeId)
    (members : List SymbolId) : Answers (constructorMembers p constructor env owner members) := by
  unfold constructorMembers
  refine answers_foldlM _ (fun members param => ?_) members
  split
  · split
    · exact answers_pure _
    · exact (answers_declaredSource env param).bind fun _ => answers_pushProperty _ _ _ _ _ _
  · exact answers_pure _

theorem answers_classMember (env : Env) (owner : TypeId) (members : List SymbolId)
    (member : NodeId) : Answers (classMember p env owner members member) := by
  unfold classMember
  split
  · exact answers_pure _
  split
  · split
    · exact answers_pure _
    · dsimp only
      split
      · exact (answers_pure _).bind fun _ => answers_pushProperty _ _ _ _ _ _
      · exact (answers_pure _).bind fun _ => answers_pushProperty _ _ _ _ _ _
      · exact (answers_intern _).bind fun _ => (answers_pure _).bind
          fun _ => answers_pushProperty _ _ _ _ _ _
  · split
    · exact answers_pure _
    · split
      · exact answers_constructorMembers member env owner members
      · exact answers_pushProperty _ _ _ _ _ _
  · exact answers_pure _

theorem answers_findNamed (name : String) (symbols : List SymbolId) :
    Answers (findNamed name symbols) := by
  induction symbols with
  | nil => exact answers_pure _
  | cons s rest ih =>
    refine (answers_symbol s).bind fun sym => ?_
    split
    · exact answers_pure _
    · exact ih

/-! ### What a base denotes -/

/-- A type is that of the instances of a declaration. -/
def Memory.IsInstance (M : Memory) (t : TypeId) (decl : NodeId) : Prop :=
  ∃ args s through, M.types[t]? = some (.object (.declared decl args) s through)

section Instances

variable {calls : Calls} (hc : calls.Keep p) {e : NodeId} (he : p.kind e ∈ objectDeclarationKinds)
include hc he

theorem keeps_declaredType_instance {s : SymbolId} (hs : M.keyOf? s = some (.decl e))
    {args : List TypeId} (hargs : TypesIn args M) :
    Keeps p (declaredType p calls e s args) M fun t M' => M'.IsInstance t e := by
  have object : Keeps p (do
      intern (.object (.declared e (← completeArgs p calls e args)) s none)) M
        fun t M' => M'.IsInstance t e :=
    (keeps_completeArgs hc e hargs).bind fun args M₁ h₁ hargs =>
      have hfits : Fits p M₁ M₁.types.size (.object (.declared e args) s none) :=
        ⟨rfl, hargs.1, h₁.keyOf? hs, he, hargs.2⟩
      (keeps_intern hfits).imp fun t M₂ _ _ ht => ⟨args, s, none, ht⟩
  unfold declaredType
  split
  · exact object
  · exact object
  · exact object
  · exact object
  · next hk => exact absurd he (by rw [hk]; decide)
  · next hk => exact absurd he (by rw [hk]; decide)
  · next h₁ h₂ h₃ h₄ _ _ =>
    simp only [objectDeclarationKinds, List.mem_cons, List.not_mem_nil, or_false] at he
    tauto

theorem keeps_denoted_instance {target : SymbolId} (ht : M.keyOf? target = some (.decl e))
    (name : String) {args : List TypeId} (hargs : TypesIn args M) : Keeps p (do
      match (← symbol target).kind with
      | .declared decl => declaredType p calls decl target args
      | _ => builtinType name args) M fun t M' => M'.IsInstance t e := by
  refine keeps_of_sound fun hM => keeps_symbol_bind ?_
  rw [hM.symbolOf_declaration ht (List.mem_cons_of_mem _ he)]
  exact keeps_declaredType_instance hc he ht hargs

theorem keeps_symbolInstanceType_instance (hg : Guarded p rank) {s : SymbolId} {b : NodeId}
    (hs : M.keyOf? s = some (.decl b)) (hb : declarationBehind? p b = some e) (name : String)
    {args : List TypeId} (hargs : TypesIn args M) :
    Keeps p (symbolInstanceType p calls s name args) M fun t M' => M'.IsInstance t e := by
  refine keeps_of_sound fun hM => keeps_symbol_bind ?_
  split
  · next b' _ _ hk =>
    cases hs.symm.trans (hM.imported hk).2
    refine (keeps_followAlias?_found hk hb).bind fun found M₁ h₁ ⟨r, hfound, hr⟩ => ?_
    rw [hfound]
    exact keeps_denoted_instance hc he hr name (hargs.mono h₁)
  · next hk =>
    -- a symbol that is no import is that of its own declaration
    have hself : declarationBehind? p b = some b := by
      obtain ⟨sym, hsym, hkey⟩ := Option.map_eq_some_iff.1 hs
      have hfits := hM.symbols s sym hsym
      rw [SymbolFits, hkey] at hfits
      rcases hfits with ⟨-, rfl⟩ | ⟨hmember, -⟩
      · refine declarationBehind?_self fun source imported hd => ?_
        refine hk b source imported ?_
        rw [Memory.symbolOf_of_getElem? hsym, bindingEntry, hd]
      · exact declarationBehind?_declared (hg.describe_enumMember hmember)
    cases hself.symm.trans hb
    exact keeps_denoted_instance hc he hs name hargs

theorem keeps_qualifiedType_instance (hg : Guarded p rank) {node b : NodeId}
    (hnode : qualifiedBinding? p node = some b) (hb : declarationBehind? p b = some e)
    {args : List TypeId} (hargs : TypesIn args M) :
    Keeps p (qualifiedType p calls node args) M fun t M' => M'.IsInstance t e := by
  obtain ⟨target, htarget, hbinding⟩ := Option.bind_eq_some_iff.1 hnode
  obtain ⟨unit, hunit, hresolve⟩ := Option.bind_eq_some_iff.1 htarget
  cases target with
  | module unit => cases hbinding
  | binding d =>
    cases hbinding
    unfold qualifiedType exportSymbol?
    simp only [hunit, hresolve]
    have hd : IsBinding p b := Or.inr (Or.inl ⟨_, _, hresolve⟩)
    rw [bind_assoc]
    refine (keeps_bindingSymbol hd).bind fun s M₁ h₁ hs => ?_
    rw [pure_bind]
    exact keeps_symbolInstanceType_instance hc he hg hs hb _ (hargs.mono h₁)

theorem keeps_namedType_instance (hg : Guarded p rank) {name : String} {origin b : NodeId}
    (hname : Names.lookup p .type name origin = some b) (hb : declarationBehind? p b = some e)
    {env : Env} (henv : name ∉ env.map Prod.fst) {args : List TypeId} (hargs : TypesIn args M) :
    Keeps p (namedType p calls name origin env args) M fun t M' => M'.IsInstance t e := by
  have hnone : env.reverse.lookup name = none := by
    rw [List.lookup_eq_none_iff]
    intro a ha
    simp only [bne_iff_ne, ne_eq]
    rintro rfl
    exact henv (List.mem_map_of_mem (List.mem_reverse.1 ha))
  -- a type parameter would be behind itself
  have hparam : p.kind b ≠ "type_parameter" := fun hk => by
    cases (declarationBehind?_declared (describe_declared (by rw [hk]; decide))).symm.trans hb
    exact absurd he (by rw [hk]; decide)
  unfold namedType
  simp only [hnone, hname, if_neg hparam]
  refine (keeps_bindingSymbol (Or.inl ⟨_, _, _, hname⟩)).bind fun s M₁ h₁ hs => ?_
  exact keeps_symbolInstanceType_instance hc he hg hs hb name (hargs.mono h₁)

/-- A type expression that names a class or an interface denotes the type of its instances. -/
theorem keeps_evalType_instance (hg : Guarded p rank) {node : NodeId}
    (hnode : declarationNamed? p node = some e) {env : Env} (henv : EnvIn env M)
    (hname : nameText p node ∉ env.map Prod.fst) :
    Keeps p (evalType p calls node env) M fun t M' => M'.IsInstance t e := by
  obtain ⟨b, hb, hbe⟩ := Option.bind_eq_some_iff.1 hnode
  unfold namedBinding? at hb
  unfold nameText at hname
  unfold evalType
  split at hb
  · next hform =>
    rw [hform] at hname ⊢
    exact keeps_namedType_instance hc he hg hb hbe hname typesIn_nil
  · next hform =>
    rw [hform]
    exact keeps_qualifiedType_instance hc he hg hb hbe typesIn_nil
  · next hform =>
    rw [hform] at hname ⊢
    obtain ⟨name, hn, hb⟩ := Option.bind_eq_some_iff.1 hb
    dsimp only at hname ⊢
    rw [hn] at hname ⊢
    refine (keeps_typeArgumentsAt hc henv node).bind fun args M₁ h₁ hargs => ?_
    dsimp only
    split at hb
    · next hk =>
      rw [if_pos hk]
      exact keeps_qualifiedType_instance hc he hg hb hbe hargs
    · next hk =>
      rw [if_neg hk]
      exact keeps_namedType_instance hc he hg hb hbe hname hargs
  · cases hb

end Instances

theorem keeps_calls_evalType_instance (hg : Guarded p rank) {node e : NodeId}
    (he : p.kind e ∈ objectDeclarationKinds) (hnode : declarationNamed? p node = some e) {env : Env}
    (henv : EnvIn env M) (hname : nameText p node ∉ env.map Prod.fst) (bound : Nat) :
    Keeps p ((calls p bound).evalType node env) M fun t M' => M'.IsInstance t e := by
  cases bound with
  | zero => exact keeps_exhausted
  | succ bound => exact keeps_evalType_instance (keeps_calls p bound) he hg hnode henv hname

/-! ### What a class or an interface inherits -/

/-- The members of all that a class or an interface inherits from are found. -/
structure Inherits (p : Program) (k : Nat) (decl : NodeId) (env : Env) (M : Memory) : Prop where
  fromInterface : ∀ base ∈ bases p decl,
    Halts p k (fun c => c.evalType base env >>= c.membersOf) M
  fromClass : ∀ clause base, extendsClause? p decl = some clause →
    p.field? clause "value" = some base → p.kind base = "identifier" → Halts p k (fun c => do
      let args ← typeArgumentsAt p c env clause
      c.membersOf (← namedType p c (p.text base) base env args)) M

theorem halts_interfaceMembers {decl : NodeId} {env : Env} {owner : TypeId} (henv : EnvIn env M)
    (h : ∀ M', M.Extends M' → Inherits p k decl env M') :
    Halts p k (fun c => interfaceMembers p c decl env owner) M := by
  refine Halts.last (halts_foldlM (Q := MembersIn p) _ membersIn_nil
    (fun members base hbase M₁ h₁ _ => ?_) fun members base _ M₁ h₁ hm bound => ?_)
    fun inherited => ?_
  · have hassoc : ∀ c : Calls, (do pushMembers members (← c.membersOf (← c.evalType base env))) =
        (c.evalType base env >>= c.membersOf) >>= pushMembers members := by
      intro c
      rw [bind_assoc]
    simp only [hassoc]
    exact ((h M₁ h₁).fromInterface base (List.mem_append_left _ hbase)).last
      (answers_pushMembers members)
  · have hc := keeps_calls p bound
    refine (hc.evalType base (henv.mono h₁)).bind fun t M₂ h₂ _ => ?_
    exact (hc.membersOf t).bind fun more M₃ h₃ hmore =>
      keeps_pushMembers (hm.mono (h₂.trans h₃)) hmore
  · split
    · exact answers_literalMembers _ _ _ _
    · exact answers_pure _

theorem halts_inheritedMembers {decl : NodeId} {env : Env} (h : Inherits p k decl env M) :
    Halts p k (fun c => inheritedMembers p c decl env) M := by
  unfold inheritedMembers
  dsimp only
  split
  · exact halts_pure _
  next clause hclause =>
  split
  · exact halts_pure _
  next base hbase =>
  split
  · next hk =>
    have hassoc : ∀ c : Calls, (do
        let args ← typeArgumentsAt p c env clause
        let t ← namedType p c (p.text base) base env args
        pushMembers [] (← c.membersOf t)) = (do
          let args ← typeArgumentsAt p c env clause
          c.membersOf (← namedType p c (p.text base) base env args)) >>= pushMembers [] := by
      intro c
      simp only [bind_assoc]
    simp only [hassoc]
    exact (h.fromClass clause base hclause hbase hk).last (answers_pushMembers [])
  · exact halts_pure _

theorem halts_classMembers {decl : NodeId} {env : Env} {owner : TypeId}
    (h : Inherits p k decl env M) : Halts p k (fun c => classMembers p c decl env owner) M := by
  refine (halts_inheritedMembers h).last fun members => ?_
  split
  · exact answers_foldlM _ (answers_classMember env owner) members
  · exact answers_pure _

/-- The members of a class or an interface are found when those it inherits from are. -/
theorem halts_declaredMembers {t : TypeId} {decl : NodeId} {args : List TypeId} {s : SymbolId}
    {through : Option SymbolId} (ht : M.types[t]? = some (.object (.declared decl args) s through))
    (h : ∀ M' env, EnvIn env M' → env.map Prod.fst = parameterNames p decl →
      Inherits p k decl env M') : Halts p k (fun c => collectMembers p c t) M := by
  refine halts_of_sound fun hM => halts_data_bind ?_
  rw [Memory.dataOf_of_getElem? ht]
  have hargs : TypesIn args M := typesIn_of_lt (typeIn_of_getElem? ht) (hM.types t _ ht).2.1
  refine (answers_bindEnv decl args).halts_bind (keeps_bindEnv decl hargs)
    fun env M₁ h₁ ⟨henv, hnames⟩ => ?_
  split
  · exact halts_interfaceMembers henv fun M₂ h₂ => h M₂ env (henv.mono h₂) hnames
  · exact halts_classMembers (h M₁ env henv hnames)

/-! ### All steps with fewer marks left -/

/-- Every step gets its answer, from every memory with so many marks left. -/
structure Halting (p : Program) (k : Nat) : Prop where
  evalType (x : NodeId) : Evaluates p k x
  valueType (M : Memory) (node : NodeId) : Halts p k (fun c => c.valueType node) M
  membersOf (M : Memory) (t : TypeId) : Halts p k (fun c => c.membersOf t) M
  symbolType (M : Memory) (s : SymbolId) : Halts p k (fun c => c.symbolType s) M
  propertyType (M : Memory) (t : TypeId) (name : String) :
    Halts p k (fun c => c.propertyType t name) M

/-- With fewer marks left, type expressions get their types as well. -/
theorem Halting.evalType_lt (h : Halting p k) : ∀ j < k, ∀ x, Evaluates p j x :=
  fun _ hj x => (h.evalType x).mono hj.le

theorem Halting.inherits (h : Halting p k) {decl : NodeId} {env : Env} (henv : EnvIn env M) :
    Inherits p k decl env M where
  fromInterface base _ := (h.evalType base M env henv).bind
    (fun bound => (keeps_calls p bound).evalType base henv) fun t M₁ _ _ => h.membersOf M₁ t
  fromClass clause base _ _ _ := by
    refine (halts_typeArgumentsAt henv fun x _ => h.evalType x).bind
      (fun bound => keeps_typeArgumentsAt (keeps_calls p bound) henv clause)
      fun args M₁ h₁ hargs => ?_
    refine (halts_namedType h.evalType_lt (fun _ _ _ _ x _ => h.evalType x) env hargs).bind
      (fun bound => keeps_namedType (keeps_calls p bound) _ _ (henv.mono h₁) hargs)
      fun t M₂ _ _ => h.membersOf M₂ t

theorem Halting.halts_objectMember (h : Halting p k) {owner : TypeId} (members : List SymbolId)
    (member : NodeId) : Halts p k (fun c => objectMember p c owner members member) M := by
  unfold objectMember
  split
  · split
    · exact (answers_pushProperty _ _ _ _ _ _).halts
    · exact halts_pure _
  · exact (answers_pushProperty _ _ _ _ _ _).halts
  · split
    · exact (answers_pushProperty _ _ _ _ _ _).halts
    · exact halts_pure _
  · split
    · next inner _ =>
      refine (h.valueType M inner).bind (fun bound => (keeps_calls p bound).valueType inner)
        fun t M₁ _ _ => ?_
      exact (h.membersOf M₁ t).last (answers_pushMembers members)
    · exact halts_pure _
  · exact halts_pure _

theorem halts_valueMembers {t : TypeId} {node : NodeId} {s : SymbolId} {through : Option SymbolId}
    (ht : M.types[t]? = some (.object (.value node) s through))
    (h : ∀ member ∈ p.namedChildren node, Halting p k) :
    Halts p k (fun c => collectMembers p c t) M := by
  refine halts_data_bind ?_
  rw [Memory.dataOf_of_getElem? ht]
  refine halts_foldlM (Q := MembersIn p) _ membersIn_nil
    (fun members member hm _ _ _ => (h member hm).halts_objectMember members member)
    fun members member _ M₁ h₁ hm bound => ?_
  exact keeps_objectMember (keeps_calls p bound) member (TypeIn.mono (typeIn_of_getElem? ht) h₁) hm

/-! ### Types with a mark of their own -/

/-- An object type other than one written out is in the table once for its key. -/
theorem Sound.object_once (hM : Sound p M) {t u : TypeId} {key : ObjectKey} {s r : SymbolId}
    {through through' : Option SymbolId} (hkey : ∀ v env, key ≠ .literal v env)
    (ht : M.types[t]? = some (.object key s through))
    (hu : M.types[u]? = some (.object key r through')) : t = u := by
  have hft := hM.types t _ ht
  have hfu := hM.types u _ hu
  have once : through = none → through' = none → ∀ symbolKey, M.keyOf? s = some symbolKey →
      M.keyOf? r = some symbolKey → t = u := by
    rintro rfl rfl symbolKey hs hr
    cases hM.keys_once s r symbolKey hs hr
    exact hM.types_once t u _ ht hu
  cases key with
  | declared d args => exact once hft.1 hfu.1 _ hft.2.2.1 hfu.2.2.1
  | literal v env => exact absurd rfl (hkey v env)
  | value v => exact once hft.1 hfu.1 _ hft.2 hfu.2
  | allOptional inner => exact once hft.1 hfu.1 _ hft.2.2 hfu.2.2

/-- The members of a type are found when collecting them gets an answer. -/
theorem halts_membersOf_marked {t : TypeId}
    (h : Sound p M → free p M ≤ k → t ∉ M.collecting →
      Halts p (free p { M with collecting := t :: M.collecting }) (fun c => collectMembers p c t)
        { M with collecting := t :: M.collecting }) :
    Halts p k (fun c => c.membersOf t) M := by
  refine Halts.call (x := fun c => membersOf p c t) (halts_get_bind ?_) fun _ => rfl
  split
  · exact halts_pure _
  split
  · exact halts_pure _
  next hnew =>
  refine halts_marked (fun hM => ?_) fun hM hfree => h hM hfree fun hmem =>
    hnew (List.contains_iff_mem.2 hmem)
  exact hM.remember rfl rfl (fun _ => Or.inl) (fun _ => Or.inl) (fun _ => Or.inl)

/-- A type without a mark of its own. -/
theorem halts_membersOf_shared {t : TypeId}
    (h : Halts p k (fun c => collectMembers p c t) { M with collecting := t :: M.collecting }) :
    Halts p k (fun c => c.membersOf t) M :=
  halts_membersOf_marked fun _ hfree _ =>
    h.mono ((free_le fun _ hm => hm.collect t).trans hfree)

/-- A type with a mark of its own collects its members with fewer marks left. -/
theorem halts_membersOf_owner {t : TypeId} {key : ObjectKey} {s : SymbolId}
    {through : Option SymbolId} (ht : M.types[t]? = some (.object key s through))
    (hmark : Mark.owner key ∈ marks p) (hkey : ∀ v env, key ≠ .literal v env)
    (h : ∀ j < k, Halts p j (fun c => collectMembers p c t)
      { M with collecting := t :: M.collecting }) : Halts p k (fun c => c.membersOf t) M := by
  refine halts_membersOf_marked fun hM hfree hnew => h _ (lt_of_lt_of_le ?_ hfree)
  refine free_collect_lt ht hmark ?_
  rintro ⟨u, hu, r, through', hd⟩
  exact hnew (hM.object_once hkey ht hd ▸ hu)

/-- A type of instances is that of a class or an interface, with as many arguments as it has
parameters. -/
theorem Sound.instance (hM : Sound p M) {t : TypeId} {e : NodeId} (h : M.IsInstance t e) :
    ∃ args s, M.types[t]? = some (.object (.declared e args) s none) ∧
      p.kind e ∈ objectDeclarationKinds ∧ args.length = (Names.typeParameters p e).length := by
  obtain ⟨args, s, through, ht⟩ := h
  obtain ⟨rfl, -, -, hk, hlength⟩ := hM.types t _ ht
  exact ⟨args, s, ht, hk, hlength⟩

theorem mem_nodes_of_object {e : NodeId} (h : p.kind e ∈ objectDeclarationKinds) : e ∈ p.nodes :=
  Program.mem_nodes fun hk => absurd h (by rw [hk]; decide)

section Members

variable (hlow : ∀ j < k, Halting p j)
include hlow

/-- A class or an interface without type parameters has a mark of its own. -/
theorem halts_membersOf_single {t : TypeId} {e : NodeId} (h : M.IsInstance t e)
    (hparams : Names.typeParameters p e = []) : Halts p k (fun c => c.membersOf t) M := by
  refine halts_of_sound fun hM => ?_
  obtain ⟨args, s, ht, hk, hlength⟩ := hM.instance h
  have hnil : args = [] := List.eq_nil_of_length_eq_zero (by rw [hlength, hparams]; rfl)
  subst hnil
  refine halts_membersOf_owner ht (mem_marks (mem_nodes_of_object hk) (by simp)) (by simp)
    fun j hj => halts_declaredMembers ht fun M' env henv _ => (hlow j hj).inherits henv

/-- An object expression has a mark of its own. -/
theorem halts_membersOf_value {t : TypeId} {node : NodeId} {s : SymbolId}
    {through : Option SymbolId} (ht : M.types[t]? = some (.object (.value node) s through)) :
    Halts p k (fun c => c.membersOf t) M := by
  cases hc : p.namedChildren node with
  | nil => exact halts_membersOf_shared (halts_valueMembers ht (by simp [hc]))
  | cons member rest =>
    -- an expression with members is a node of the program
    have hmember : member ∈ p.namedChildren node := by
      rw [hc]
      exact List.mem_cons_self
    have hnode := Program.mem_nodes_of_child (Program.mem_children_of_mem_namedChildren hmember)
    exact halts_membersOf_owner ht (mem_marks hnode (by simp)) (by simp)
      fun j hj => halts_valueMembers ht fun _ _ => hlow j hj

end Members

/-! ### Enums -/

section Enums

variable (hvalue : ∀ M node, Halts p k (fun c => c.valueType node) M)
include hvalue

theorem halts_enumValue (next : Binary64) (valueNode : Option NodeId) :
    Halts p k (fun c => enumValue c next valueNode) M := by
  unfold enumValue
  split
  · exact halts_pure _
  · next node =>
    refine (hvalue M node).last fun t => (answers_data t).bind fun d => ?_
    split <;> exact answers_pure _

theorem halts_enumMembersFrom (nodes : List NodeId) (next : Binary64) :
    Halts p k (fun c => enumMembersFrom p c next nodes) M := by
  induction nodes generalizing M next with
  | nil => exact halts_pure _
  | cons member rest ih =>
    simp only [enumMembersFrom]
    split
    · exact ih next
    · refine (halts_enumValue hvalue next _).bind
        (fun bound => keeps_enumValue (keeps_calls p bound) next _) fun r M₁ _ _ => ?_
      exact (ih r.2).last fun _ => answers_pure _

theorem halts_enumMembers (s : SymbolId) : Halts p k (fun c => enumMembers p c s) M := by
  refine halts_symbol_bind ?_
  split
  · split
    · exact halts_enumMembersFrom hvalue _ _
    · exact halts_pure _
  · exact halts_pure _

theorem halts_enumMemberSymbol (s : SymbolId) (node : NodeId) :
    Halts p k (fun c => enumMemberSymbol p c s node) M := by
  refine (halts_enumMembers hvalue s).last fun members => ?_
  dsimp only
  split
  · exact (answers_intern _).bind fun _ => answers_internSymbol _
  · exact (answers_intern _).bind fun _ => answers_internSymbol _

end Enums

/-! ### Types of members -/

/-- The type of a property is found where it comes from. -/
theorem halts_sourceType {source : PropSource} (hsource : SourceIn p M source)
    (hvalue : ∀ M node, Halts p k (fun c => c.valueType node) M)
    (heval : ∀ x, IsPropertyType p x → Evaluates p k x) : Halts p k (fun c => match source with
      | .typeNode node env => c.evalType node env
      | .value node => do widen (← c.valueType node)
      | .method node => intern (.function (some node))
      | .fixed t => return t) M := by
  split
  · next node env => exact heval node hsource.2 M env hsource.1
  · next node => exact (hvalue M node).last answers_widen
  · exact halts_intern _
  · exact halts_pure _

/-- What is known when members are collected with so many marks left: with fewer marks all steps get
their answers, expressions have types, and type expressions below a rank do. -/
structure Prepared (p : Program) (rank : NodeId → Nat) (k : Nat) : Prop where
  guarded : Guarded p rank
  low : ∀ j < k, Halting p j
  valueType (M : Memory) (node : NodeId) : Halts p k (fun c => c.valueType node) M
  collected : ∃ r, (∀ x ∈ Types.collected p, rank x < r) ∧ ∀ x, rank x < r → Evaluates p k x

namespace Prepared

variable (h : Prepared p rank k)
include h

theorem evaluates_propertyType {x : NodeId} (hx : IsPropertyType p x) : Evaluates p k x := by
  obtain ⟨r, hr, heval⟩ := h.collected
  obtain ⟨member, hm, ht⟩ := hx
  have hmember := Program.mem_nodes_of_child (List.mem_of_find?_eq_some ht)
  refine heval x (hr x (List.mem_append_left _ (List.mem_filterMap.2 ⟨member, hmember, ?_⟩)))
  rw [if_pos hm, ht]

/-- The type of a member is found: that of a property is declared or that of an expression, and an
enum member is no name that a pattern binds. -/
theorem halts_memberType {s : SymbolId} (hs : MemberIn p s M) :
    Halts p k (fun c => c.symbolType s) M := by
  refine Halts.call (x := fun c => symbolType p c s) ?_ fun _ => rfl
  refine halts_of_sound fun hM => halts_symbol_bind ?_
  -- the symbol of an enum member may be that of a declaration at its node
  have hdecl : ∀ {d}, M.keyOf? s = some (.decl d) → IsEnumMember p d := by
    intro d hd
    rcases hs with ⟨owner, name, hkey⟩ | ⟨d', hkey, hd'⟩
    · cases hd.symm.trans hkey
    · cases hd.symm.trans hkey
      exact hd'
  split
  · next d hk =>
    have hkind := h.guarded.enumMember_kind (hdecl (hM.declared hk))
    unfold declarationType
    split
    case h_14 =>
      split
      · exact halts_intern _
      · exact h.valueType M d
    all_goals next hk => exact absurd hkind (by rw [hk]; decide)
  · next d _ _ hk =>
    have hd := h.guarded.describe_enumMember (hdecl (hM.imported hk).2)
    cases hd.symm.trans (hM.describe_of_imported hk)
  · exact halts_intern _
  · exact halts_intern _
  · next hk =>
    exact halts_sourceType (hM.property hk) h.valueType fun _ => h.evaluates_propertyType
  · exact halts_pure _

/-! ### Declarations with type parameters -/

section Generic

variable {decl : NodeId} (hk : p.kind decl ∈ objectDeclarationKinds)
  (hparams : Names.typeParameters p decl ≠ [])
include hk hparams

/-- What ranks up to something that a declaration with type parameters inherits gets its type. -/
theorem evaluates_inherited {x y : NodeId} (hx : x ∈ inherited p decl) (hy : rank y ≤ rank x) :
    Evaluates p k y := by
  obtain ⟨r, hr, heval⟩ := h.collected
  have hmem : x ∈ Types.collected p := by
    refine List.mem_append_right _ (List.mem_flatMap.2 ⟨decl, mem_nodes_of_object hk, ?_⟩)
    rwa [if_neg hparams]
  exact heval y (hy.trans_lt (hr x hmem))

variable (hmembers : ∀ M t e, M.IsInstance t e →
    Names.typeParameters p e = [] ∨ rank e < rank decl → Halts p k (fun c => c.membersOf t) M)
  {env : Env} (henv : EnvIn env M) (hnames : env.map Prod.fst = parameterNames p decl)
include hmembers henv hnames

theorem halts_interfaceBase {base : NodeId} (hbase : base ∈ bases p decl) :
    Halts p k (fun c => c.evalType base env >>= c.membersOf) M := by
  obtain ⟨hname, e, he, hek, hbelow⟩ :=
    h.guarded.based decl (mem_nodes_of_object hk) hk hparams base hbase
  have hinherited : base ∈ inherited p decl := List.mem_append_left _ hbase
  refine (h.evaluates_inherited hk hparams hinherited le_rfl M env henv).bind
    (keeps_calls_evalType_instance h.guarded hek he henv (hnames ▸ hname))
    fun t M₁ _ ht => hmembers M₁ t e ht hbelow

theorem halts_classBase {clause base : NodeId} (hclause : extendsClause? p decl = some clause)
    (hbase : p.field? clause "value" = some base) (hkind : p.kind base = "identifier") :
    Halts p k (fun c => do
      let args ← typeArgumentsAt p c env clause
      c.membersOf (← namedType p c (p.text base) base env args)) M := by
  have hmem : base ∈ bases p decl := by
    refine List.mem_append_right _ (Option.mem_toList.2 ?_)
    rw [hclause]
    exact hbase
  obtain ⟨hname, e, he, hek, hbelow⟩ :=
    h.guarded.based decl (mem_nodes_of_object hk) hk hparams base hmem
  -- the name of a base stands for itself as a type expression
  have hform : TypeForm.ofKind (p.kind base) = .name := by
    rw [hkind]
    rfl
  have htext : nameText p base = p.text base := by rw [nameText, hform]
  have hbinding : namedBinding? p base = Names.lookup p .type (p.text base) base := by
    rw [namedBinding?, hform]
  have hready : ∀ b ∈ Names.lookup p .type (p.text base) base, ∀ d ∈ declarationBehind? p b,
      Ready p k d := fun b hb d hd x hx =>
    h.evaluates_inherited hk hparams (List.mem_append_left _ hmem)
      (h.guarded.rank_unmarked (hbinding.trans hb) hd hx).le
  obtain ⟨b, hb, hbe⟩ := Option.bind_eq_some_iff.1 he
  have hargument : ∀ x ∈ typeArgumentNodes p clause, Evaluates p k x := fun x hx =>
    h.evaluates_inherited hk hparams (List.mem_append_right _ (List.mem_flatMap.2
      ⟨clause, Option.mem_toList.2 hclause, hx⟩)) le_rfl
  refine (halts_typeArgumentsAt henv hargument).bind
    (fun bound => keeps_typeArgumentsAt (keeps_calls p bound) henv clause)
    fun args M₁ h₁ hargs => ?_
  exact (halts_namedType (fun j hj => (h.low j hj).evalType) hready env hargs).bind
    (fun bound => keeps_namedType_instance (keeps_calls p bound) hek h.guarded
      (hbinding ▸ hb) hbe (hnames ▸ htext ▸ hname) hargs)
    fun t M₂ _ ht => hmembers M₂ t e ht hbelow

/-- A class or an interface with type parameters inherits from those of a lower rank. -/
theorem inherits : Inherits p k decl env M where
  fromInterface _ hbase := h.halts_interfaceBase hk hparams hmembers henv hnames hbase
  fromClass _ _ hclause hbase hkind :=
    h.halts_classBase hk hparams hmembers henv hnames hclause hbase hkind

end Generic

/-- The members of a class or an interface are found, by induction on its rank. -/
theorem halts_membersOf_instance {t : TypeId} {e : NodeId} (ht : M.IsInstance t e) :
    Halts p k (fun c => c.membersOf t) M := by
  induction hrank : rank e using Nat.strong_induction_on generalizing M t e with
  | _ r ih =>
    by_cases hparams : Names.typeParameters p e = []
    · exact halts_membersOf_single h.low ht hparams
    refine halts_of_sound fun hM => ?_
    obtain ⟨args, s, hd, hk, -⟩ := hM.instance ht
    refine halts_membersOf_shared (halts_declaredMembers hd fun M₁ env henv hnames => ?_)
    refine h.inherits hk hparams (fun M₂ t' e' ht' hbelow => ?_) henv hnames
    rcases hbelow with hnone | hlt
    · exact halts_membersOf_single h.low ht' hnone
    · exact ih (rank e') (hrank ▸ hlt) ht' rfl

/-! ### All types -/

theorem halts_optionalMembers {inner owner : TypeId} (ho : TypeIn owner M)
    (hinner : Halts p k (fun c => c.membersOf inner) M) :
    Halts p k (fun c => optionalMembers c inner owner) M := by
  refine hinner.bind (fun bound => (keeps_calls p bound).membersOf inner) fun members M₁ h₁ hm => ?_
  refine halts_mapM (Q := MemberIn p) members (fun base hbase M₂ h₂ => halts_symbol_bind ?_)
    fun base _ M₂ h₂ bound => keeps_symbol_bind ?_
  · exact (h.halts_memberType ((hm base hbase).mono h₂)).last fun _ => answers_internSymbol _
  · refine ((keeps_calls p bound).symbolType base).bind fun t M₃ h₃ ht => ?_
    exact keeps_propertySymbol _ _ _ (ho.mono ((h₁.trans h₂).trans h₃)) ht

/-- A type without declaration and expression collects its members when a type before it has its. -/
theorem halts_collectMembers {t : TypeId} {d : TypeData} (hd : M.dataOf t = d)
    (hdeclared : ∀ decl args s through, d ≠ .object (.declared decl args) s through)
    (hvalue : ∀ node s through, d ≠ .object (.value node) s through)
    (hinner : ∀ inner < t, Halts p k (fun c => c.membersOf inner) M) :
    Halts p k (fun c => collectMembers p c t) M := by
  refine halts_of_sound fun hM => halts_data_bind ?_
  rw [hd]
  split
  · exact absurd rfl (hdeclared _ _ _ _)
  · exact (answers_literalMembers _ _ _ _).halts
  · exact absurd rfl (hvalue _ _ _)
  · obtain ⟨ht, -, hlt, -⟩ := hM.fits hd TypeData.noConfusion
    exact h.halts_optionalMembers ht (hinner _ hlt)
  · next s =>
    obtain ⟨-, e, hs, hk⟩ := hM.fits hd TypeData.noConfusion
    refine (halts_enumMembers h.valueType s).bind
      (fun bound => keeps_enumMembers (keeps_calls p bound) hs hk) fun members M₁ h₁ hm => ?_
    exact halts_mapM members (fun m _ M₂ _ => halts_enumMemberSymbol h.valueType s m.node)
      fun m hmem M₂ h₂ bound => keeps_enumMemberSymbol (keeps_calls p bound)
        ((h₁.trans h₂).keyOf? hs) hk (hm m hmem)
  · exact halts_pure _

/-- **The members of every type are found**, by induction on the type: one with every property
optional has the members of a type before it. -/
theorem halts_membersOf (M : Memory) (t : TypeId) : Halts p k (fun c => c.membersOf t) M := by
  induction t using Nat.strong_induction_on generalizing M with
  | _ t ih =>
    by_cases hdeclared : ∃ e, M.IsInstance t e
    · obtain ⟨e, he⟩ := hdeclared
      exact h.halts_membersOf_instance he
    by_cases hvalue : ∃ node s through, M.types[t]? = some (.object (.value node) s through)
    · obtain ⟨node, s, through, ht⟩ := hvalue
      exact halts_membersOf_value h.low ht
    refine halts_membersOf_shared (h.halts_collectMembers (d := M.dataOf t) rfl ?_ ?_
      fun inner hlt => ih inner hlt _)
    · exact fun decl args s through hd => hdeclared ⟨decl, args, s, through,
        Memory.getElem?_of_dataOf hd TypeData.noConfusion⟩
    · exact fun node s through hd => hvalue ⟨node, s, through,
        Memory.getElem?_of_dataOf hd TypeData.noConfusion⟩

/-! ### Properties -/

/-- The type of the member with a name is found. -/
theorem halts_foundType (t : TypeId) (name : String) : Halts p k (fun c => do
    match ← findProperty c t name with
    | some s => c.symbolType s
    | none => anyType) M := by
  have found : Halts p k (fun c => findProperty c t name) M :=
    (h.halts_membersOf M t).last (answers_findNamed name)
  refine found.bind (fun bound => keeps_findProperty (keeps_calls p bound) t name)
    fun found M₁ _ hfound => ?_
  split
  · next s => exact h.halts_memberType (hfound s rfl)
  · exact halts_intern _

/-- **The type of a property of every type is found**, by induction on the type: a union asks its
members. -/
theorem halts_propertyType (M : Memory) (t : TypeId) (name : String) :
    Halts p k (fun c => c.propertyType t name) M := by
  induction t using Nat.strong_induction_on generalizing M with
  | _ t ih =>
    refine Halts.call (x := fun c => propertyType c t name) ?_ fun _ => rfl
    have sized : Halts p k (fun c => if name = "length" then intern .number else do
        match ← findProperty c t name with
        | some s => c.symbolType s
        | none => anyType) M := by
      split
      · exact halts_intern _
      · exact h.halts_foundType t name
    unfold propertyType
    dsimp only
    refine halts_of_sound fun hM => halts_data_bind ?_
    split
    · exact sized
    · exact sized
    · exact sized
    · exact sized
    · next members hd =>
      have hlt := (hM.fits hd TypeData.noConfusion).2
      refine (answers_presentMembers members).halts_bind (keeps_presentMembers members)
        fun present M₁ _ hpresent => ?_
      refine (halts_mapM present (fun m hm M₂ _ => ih m (hlt m (hpresent hm)) M₂)
        fun m _ M₂ _ bound => (keeps_calls p bound).propertyType m name).last answers_makeUnion
    · exact h.halts_foundType t name

end Prepared

end RouteContract.Types
