import Mathlib
import RouteContract.Proofs.Types.Inference

/-!
# Collecting members keeps a memory sound

The members of a type are symbols of properties and enum members, and only an object type or an enum
has any. With this every step of the resolver is covered, and `keeps_calls` ties the steps together
by induction on the bound on how deep they may call each other.
-/

namespace RouteContract.Types

variable {p : Program} {M M' : Memory} {calls : Calls}

theorem keeps_propertySymbol {owner : TypeId} (name : String) (decl : Option NodeId)
    {source : PropSource} (isOptional : Bool) (ho : TypeIn owner M) (hs : SourceIn p M source) :
    Keeps p (propertySymbol owner name decl source isOptional) M (MemberIn p) := by
  refine Keeps.imp (keeps_internSymbol ?_) fun _ _ _ _ h => Or.inl ⟨owner, name, h⟩
  exact ⟨rfl, decl, source, isOptional, rfl, ho, hs⟩

theorem membersIn_cons {s : SymbolId} {symbols : List SymbolId} :
    MembersIn p (s :: symbols) M ↔ MemberIn p s M ∧ MembersIn p symbols M := List.forall_mem_cons

theorem keeps_placeNamed (name : String) {s : SymbolId} {members : List SymbolId}
    (hs : MemberIn p s M) (hm : MembersIn p members M) :
    Keeps p (placeNamed name s members) M (MembersIn p) := by
  induction members generalizing M with
  | nil => exact keeps_pure (membersIn_cons.2 ⟨hs, membersIn_nil⟩)
  | cons old rest ih =>
    rw [membersIn_cons] at hm
    refine keeps_symbol_bind ?_
    split
    · exact keeps_pure (membersIn_cons.2 ⟨hs, hm.2⟩)
    · exact (ih hs hm.2).bind fun placed M' hE h =>
        keeps_pure (membersIn_cons.2 ⟨hm.1.mono hE, h⟩)

theorem keeps_pushMember {members : List SymbolId} {s : SymbolId} (hm : MembersIn p members M)
    (hs : MemberIn p s M) : Keeps p (pushMember members s) M (MembersIn p) :=
  keeps_symbol_bind (keeps_placeNamed _ hs hm)

theorem keeps_pushMembers {members more : List SymbolId} (hm : MembersIn p members M)
    (h : MembersIn p more M) : Keeps p (pushMembers members more) M (MembersIn p) :=
  keeps_foldlM more hm fun _ s hs _ hE hb => keeps_pushMember hb ((h s hs).mono hE)

theorem keeps_pushProperty {members : List SymbolId} {owner : TypeId} (name : String)
    (decl : Option NodeId) {source : PropSource} (isOptional : Bool) (hm : MembersIn p members M)
    (ho : TypeIn owner M) (hs : SourceIn p M source) :
    Keeps p (do pushMember members (← propertySymbol owner name decl source isOptional)) M
      (MembersIn p) :=
  (keeps_propertySymbol name decl isOptional ho hs).bind fun _ _ hE h =>
    keeps_pushMember (hm.mono hE) h

theorem keeps_declaredSource {env : Env} (henv : EnvIn env M) {member : NodeId}
    (h : declaresProperty p member) :
    Keeps p (declaredSource p env member) M fun source M' => SourceIn p M' source := by
  unfold declaredSource
  split
  · next declared hd => exact keeps_pure ⟨henv, member, h, hd⟩
  · exact keeps_anyType.bind fun t M' _ ht => keeps_pure ht

theorem keeps_literalMembers (body : NodeId) {env : Env} {owner : TypeId}
    {members : List SymbolId} (henv : EnvIn env M) (ho : TypeIn owner M)
    (hm : MembersIn p members M) :
    Keeps p (literalMembers p body env owner members) M (MembersIn p) := by
  refine keeps_foldlM _ hm fun members member _ M₁ h₁ hm => ?_
  dsimp only
  split
  · next hkind =>
    split
    · exact keeps_pure hm
    · split
      · rw [pure_bind]
        exact keeps_pushProperty _ _ _ hm (ho.mono h₁) trivial
      · next hmethod =>
        have hk : p.kind member = "property_signature" := hkind.resolve_right hmethod
        have hp : declaresProperty p member := by simp [declaresProperty, hk]
        refine (keeps_declaredSource (henv.mono h₁) hp).bind fun source M₂ h₂ hs => ?_
        exact keeps_pushProperty _ _ _ (hm.mono h₂) (ho.mono (h₁.trans h₂)) hs
  · exact keeps_pure hm

theorem keeps_constructorMembers (constructor : NodeId) {env : Env} {owner : TypeId}
    {members : List SymbolId} (henv : EnvIn env M) (ho : TypeIn owner M)
    (hm : MembersIn p members M) :
    Keeps p (constructorMembers p constructor env owner members) M (MembersIn p) := by
  unfold constructorMembers
  refine keeps_foldlM _ hm fun members param _ M₁ h₁ hm => ?_
  split
  · next hmark =>
    split
    · exact keeps_pure hm
    · have hp : declaresProperty p param := by
        rw [declaresProperty, Bool.or_assoc, hmark, Bool.or_true]
      refine (keeps_declaredSource (henv.mono h₁) hp).bind fun source M₂ h₂ hs => ?_
      exact keeps_pushProperty _ _ _ (hm.mono h₂) (ho.mono (h₁.trans h₂)) hs
  · exact keeps_pure hm

theorem keeps_classMember (member : NodeId) {env : Env} {owner : TypeId}
    {members : List SymbolId} (henv : EnvIn env M) (ho : TypeIn owner M)
    (hm : MembersIn p members M) :
    Keeps p (classMember p env owner members member) M (MembersIn p) := by
  unfold classMember
  split
  · exact keeps_pure hm
  split
  · next hk =>
    split
    · exact keeps_pure hm
    · dsimp only
      split
      · next declared hd =>
        have hp : declaresProperty p member := by simp [declaresProperty, hk]
        rw [pure_bind]
        exact keeps_pushProperty _ _ _ hm ho ⟨henv, member, hp, hd⟩
      · rw [pure_bind]
        exact keeps_pushProperty _ _ _ hm ho trivial
      · refine keeps_anyType.bind fun t M₁ h₁ ht => ?_
        rw [pure_bind]
        exact keeps_pushProperty _ _ _ (hm.mono h₁) (ho.mono h₁) ht
  · split
    · exact keeps_pure hm
    · split
      · exact keeps_constructorMembers member henv ho hm
      · exact keeps_pushProperty _ _ _ hm ho trivial
  · exact keeps_pure hm

/-- A node that spells the name of an enum member has one of their kinds. -/
theorem kind_of_propertyName? {node : NodeId} {name : String}
    (h : propertyName? p node = some name) : p.kind node ∈ enumMemberKinds := by
  unfold propertyName? at h
  split at h
  · next hk => rw [hk]; decide
  · next hk => rw [hk]; decide
  · next hk => rw [hk]; decide
  · next hk => rw [hk]; decide
  · next hk => rw [hk]; decide
  · cases h

section Collecting

variable (hc : calls.Keep p)
include hc

theorem keeps_interfaceMembers (decl : NodeId) {env : Env} {owner : TypeId} (henv : EnvIn env M)
    (ho : TypeIn owner M) : Keeps p (interfaceMembers p calls decl env owner) M (MembersIn p) := by
  unfold interfaceMembers
  dsimp only
  refine Keeps.bind (P := MembersIn p) ?_ fun inherited M₁ h₁ hi => ?_
  · refine keeps_foldlM _ membersIn_nil fun members base _ M₁ h₁ hm => ?_
    refine (hc.evalType base (henv.mono h₁)).bind fun t M₂ h₂ _ => ?_
    refine (hc.membersOf t).bind fun more M₃ h₃ hmore => ?_
    exact keeps_pushMembers (hm.mono (h₂.trans h₃)) hmore
  · split
    · exact keeps_literalMembers _ (henv.mono h₁) (ho.mono h₁) hi
    · exact keeps_pure hi

theorem keeps_inheritedMembers (decl : NodeId) {env : Env} (henv : EnvIn env M) :
    Keeps p (inheritedMembers p calls decl env) M (MembersIn p) := by
  unfold inheritedMembers
  dsimp only
  split
  · exact keeps_pure membersIn_nil
  split
  · exact keeps_pure membersIn_nil
  split
  · refine (keeps_typeArgumentsAt hc henv _).bind fun args M₁ h₁ hargs => ?_
    refine (keeps_namedType hc _ _ (henv.mono h₁) hargs).bind fun t M₂ h₂ _ => ?_
    exact (hc.membersOf t).bind fun more M₃ h₃ hmore => keeps_pushMembers membersIn_nil hmore
  · exact keeps_pure membersIn_nil

theorem keeps_classMembers (decl : NodeId) {env : Env} {owner : TypeId} (henv : EnvIn env M)
    (ho : TypeIn owner M) : Keeps p (classMembers p calls decl env owner) M (MembersIn p) := by
  refine (keeps_inheritedMembers hc decl henv).bind fun inherited M₁ h₁ hi => ?_
  split
  · exact keeps_foldlM _ hi fun members member _ M₂ h₂ hm =>
      keeps_classMember member (henv.mono (h₁.trans h₂)) (ho.mono (h₁.trans h₂)) hm
  · exact keeps_pure hi

theorem keeps_objectMember (member : NodeId) {owner : TypeId} {members : List SymbolId}
    (ho : TypeIn owner M) (hm : MembersIn p members M) :
    Keeps p (objectMember p calls owner members member) M (MembersIn p) := by
  unfold objectMember
  split
  · split
    · exact keeps_pushProperty _ _ _ hm ho trivial
    · exact keeps_pure hm
  · exact keeps_pushProperty _ _ _ hm ho trivial
  · split
    · exact keeps_pushProperty _ _ _ hm ho trivial
    · exact keeps_pure hm
  · split
    · refine (hc.valueType _).bind fun t M₁ h₁ _ => ?_
      exact (hc.membersOf t).bind fun more M₂ h₂ hmore =>
        keeps_pushMembers (hm.mono (h₁.trans h₂)) hmore
    · exact keeps_pure hm
  · exact keeps_pure hm

theorem keeps_objectMembers (node : NodeId) {owner : TypeId} (ho : TypeIn owner M) :
    Keeps p (objectMembers p calls node owner) M (MembersIn p) :=
  keeps_foldlM _ membersIn_nil fun _ member _ _ h₁ hm =>
    keeps_objectMember hc member (ho.mono h₁) hm

theorem keeps_optionalMembers (inner : TypeId) {owner : TypeId} (ho : TypeIn owner M) :
    Keeps p (optionalMembers calls inner owner) M (MembersIn p) := by
  refine (hc.membersOf inner).bind fun members M₁ h₁ _ => ?_
  refine keeps_mapM (Q := MemberIn p) MemberIn.mono members fun base _ M₂ h₂ => ?_
  refine keeps_symbol_bind ?_
  dsimp only
  refine (hc.symbolType base).bind fun t M₃ h₃ ht => ?_
  exact keeps_propertySymbol _ _ _ (ho.mono ((h₁.trans h₂).trans h₃)) ht

theorem keeps_enumValue (next : Binary64) (valueNode : Option NodeId) :
    Keeps p (enumValue calls next valueNode) M fun _ _ => True := by
  unfold enumValue
  split
  · exact keeps_pure trivial
  · refine (hc.valueType _).bind fun t M₁ _ _ => keeps_data_bind ?_
    split <;> exact keeps_pure trivial

theorem keeps_enumMembersFrom (nodes : List NodeId) (next : Binary64) :
    Keeps p (enumMembersFrom p calls next nodes) M fun members _ =>
      ∀ m ∈ members, p.kind m.node ∈ enumMemberKinds ∧ m.node ∈ nodes := by
  induction nodes generalizing M next with
  | nil => exact keeps_pure (by simp)
  | cons member rest ih =>
    have later : ∀ {members : List EnumMember},
        (∀ m ∈ members, p.kind m.node ∈ enumMemberKinds ∧ m.node ∈ rest) →
        ∀ m ∈ members, p.kind m.node ∈ enumMemberKinds ∧ m.node ∈ member :: rest :=
      fun h m hm => (h m hm).imp_right (List.mem_cons_of_mem _)
    rw [enumMembersFrom]
    dsimp only
    split
    · exact (ih next).imp fun members M₁ _ _ h => later h
    · next name hname =>
      have hkind : p.kind member ∈ enumMemberKinds := by
        split at hname
        · next hk => rw [hk]; decide
        · exact kind_of_propertyName? hname
      refine (keeps_enumValue hc next _).bind fun r M₁ _ _ => ?_
      refine (ih _).bind fun more M₂ _ h => keeps_pure ?_
      exact List.forall_mem_cons.2 ⟨⟨hkind, List.mem_cons_self⟩, later h⟩

/-- The members of an enum stand in its body. -/
theorem keeps_enumMembers {s : SymbolId} {d : NodeId} (hs : M.keyOf? s = some (.decl d))
    (hd : p.kind d = "enum_declaration") :
    Keeps p (enumMembers p calls s) M fun members _ => ∀ m ∈ members, IsEnumMember p m.node := by
  refine keeps_of_sound fun hM => keeps_symbol_bind ?_
  split
  · next decl hk =>
    cases hs.symm.trans (hM.declared hk)
    split
    · next body hbody =>
      exact (keeps_enumMembersFrom hc _ _).imp fun members M₁ _ _ h m hm =>
        (h m hm).imp_right fun hmem => ⟨d, body, hd, hbody, hmem⟩
    · exact keeps_pure (by simp)
  · exact keeps_pure (by simp)

theorem keeps_enumMemberSymbol {s : SymbolId} {d node : NodeId}
    (hs : M.keyOf? s = some (.decl d)) (hd : p.kind d = "enum_declaration")
    (hnode : IsEnumMember p node) :
    Keeps p (enumMemberSymbol p calls s node) M (MemberIn p) := by
  have entered : ∀ {M} (name : String) (t : TypeId), TypeIn t M →
      Keeps p (internSymbol ⟨.decl node, name, .enumMember node t⟩) M (MemberIn p) := by
    intro M name t ht
    refine Keeps.imp (keeps_internSymbol ?_) fun _ _ _ _ h => Or.inr ⟨node, h, hnode⟩
    exact Or.inr ⟨hnode, t, rfl, ht⟩
  refine (keeps_enumMembers hc hs hd).bind fun members M₁ _ _ => ?_
  dsimp only
  split
  · exact (keeps_type (d := .stringLit _) trivial).bind fun t M₂ _ ht => entered _ t ht
  · exact (keeps_type (d := .numberLit _) trivial).bind fun t M₂ _ ht => entered _ t ht

theorem keeps_collectMembers (t : TypeId) :
    Keeps p (collectMembers p calls t) M fun members M' =>
      MembersIn p members M' ∧ (members = [] ∨ M'.HasMembers t) := by
  -- a type with members is an object type or an enum, and stays one while they are collected
  have object : ∀ {key s through} {x : Resolve (List SymbolId)},
      M.dataOf t = .object key s through → Keeps p x M (MembersIn p) →
      Keeps p x M fun members M' => MembersIn p members M' ∧ (members = [] ∨ M'.HasMembers t) := by
    intro key s through x hd hx
    refine hx.imp fun members M' _ hE h => ⟨h, Or.inr (Or.inl ⟨key, s, through, ?_⟩)⟩
    exact hE.types t _ (Memory.getElem?_of_dataOf hd TypeData.noConfusion)
  refine keeps_of_sound fun hM => keeps_data_bind ?_
  split
  · next decl args s through hd =>
    obtain ⟨ht, -, hargs, -⟩ := hM.fits hd TypeData.noConfusion
    refine object hd ((keeps_bindEnv decl (typesIn_of_lt ht hargs)).bind fun env M₁ h₁ henv => ?_)
    split
    · exact keeps_interfaceMembers hc decl henv.1 (ht.mono h₁)
    · exact keeps_classMembers hc decl henv.1 (ht.mono h₁)
  · next node env s through hd =>
    obtain ⟨ht, henv, -⟩ := hM.fits hd TypeData.noConfusion
    exact object hd (keeps_literalMembers node (fun e he => lt_trans (henv e he) ht) ht
      membersIn_nil)
  · next node s through hd =>
    exact object hd (keeps_objectMembers hc node (hM.fits hd TypeData.noConfusion).1)
  · next inner s through hd =>
    exact object hd (keeps_optionalMembers hc inner (hM.fits hd TypeData.noConfusion).1)
  · next s hd =>
    obtain ⟨-, d, hs, hk⟩ := hM.fits hd TypeData.noConfusion
    refine (keeps_enumMembers hc hs hk).bind fun members M₁ h₁ hm => ?_
    refine (keeps_mapM (Q := MemberIn p) MemberIn.mono members fun m hmem M' hE =>
      keeps_enumMemberSymbol hc ((h₁.trans hE).keyOf? hs) hk (hm m hmem)).imp
        fun symbols M₂ _ h₂ h => ⟨h, Or.inr ?_⟩
    exact Or.inr ⟨s, (h₁.trans h₂).types t _
      (Memory.getElem?_of_dataOf hd TypeData.noConfusion)⟩
  · exact keeps_pure ⟨membersIn_nil, Or.inl rfl⟩

theorem keeps_membersOf (t : TypeId) : Keeps p (membersOf p calls t) M (MembersIn p) := by
  refine keeps_of_sound fun hM => keeps_get_bind ?_
  split
  · next known hknown => exact keeps_pure (hM.members _ (mem_of_lookup hknown)).1
  next hnone =>
  split
  · exact keeps_pure membersIn_nil
  next hmark =>
  refine keeps_marked (fun hM => ?_) (Memory.extends_of_tables rfl rfl)
    (keeps_collectMembers hc t) ?_
  · exact hM.remember rfl rfl (fun _ => Or.inl) (fun _ => Or.inl) (fun _ => Or.inl)
  · intro members M₁ hM₁ h₁ hr₁ hm
    refine ⟨hM₁.remember rfl rfl (mem_or_of_mem_cons hm) (fun _ => Or.inl) (fun _ => Or.inl),
      ⟨Memory.extends_of_tables rfl rfl, ?_, hr₁.aliases, hr₁.nodeTypes, hr₁.inferring,
        hr₁.resolving, ?_⟩, hm.1⟩
    · exact hr₁.members.answer (fun h => hmark (List.contains_iff_mem.2 h))
        (notMem_keys_of_lookup_eq_none hnone) members
    · show M₁.collecting.erase t = M.collecting
      rw [hr₁.collecting, List.erase_cons_head]

end Collecting

/-- The steps of the resolver keep its memory sound, however deep they call each other. -/
theorem keeps_calls (p : Program) (bound : Nat) : (Types.calls p bound).Keep p := by
  induction bound with
  | zero =>
    constructor
    all_goals intros; exact keeps_exhausted
  | succ bound ih =>
    constructor
    · exact fun node _ henv => keeps_evalType ih node henv
    · exact fun node => keeps_valueType ih node
    · exact fun t => keeps_membersOf ih t
    · exact fun s => keeps_symbolType ih s
    · exact fun t name => keeps_propertyType ih t name

end RouteContract.Types
