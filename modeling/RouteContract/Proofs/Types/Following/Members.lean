import Mathlib
import RouteContract.Proofs.Types.Following.Values

/-!
# Following the collection of members

While the members of a type are collected, both runs enter the symbols of these members, and only
these. So each symbol that a run finds under the key of such a member was entered in the same
collection, and the symbols of the two runs are alike (`follows_ownSymbol`).

With this every step of the resolver is covered, and `follow_calls` ties the steps together by
induction on the bound on how deep those of the known run may call each other.
-/

namespace RouteContract.Types

variable {p : Program} {C : Course p} {own : Side → Option TypeId} {steps : Calls}
  {M M' : Side → Memory} {o : Side → TypeId}

/-! ### The symbols of members -/

theorem Memory.Owns.isMember {N : Memory} {t : TypeId} {sym : Symbol} (h : N.Owns p t sym) :
    sym.kind.IsMember := by
  rcases h with ⟨_, _, _, h⟩ | ⟨_, _, _, h, -⟩ <;> rw [h] <;> trivial

theorem run_internSymbol_of_new {N : Memory} {sym : Symbol}
    (h : ∀ r, N.keyOf? r ≠ some sym.key) : (internSymbol sym).run N =
      some (N.symbols.size, { N with symbols := N.symbols.push sym }) := by
  rw [run_internSymbol_eq]
  split
  · next r hr =>
    obtain ⟨hlt, heq, -⟩ := Array.findIdx?_eq_some_iff_getElem.1 hr
    refine absurd ?_ (h r)
    rw [Memory.keyOf?, Array.getElem?_eq_getElem hlt, Option.map_some, of_decide_eq_true heq]
  · rfl

/-- Both memories with the symbol of one more member. -/
theorem Tied.pushSymbol (hM : Tied C (fun s => some (o s)) M) {sym : Side → Symbol}
    (hentry : AlikeEntry M sym) (hkey : OwnKey p M o fun s => (sym s).key)
    (howns : ∀ s, (M s).Owns p (o s) (sym s)) (hfits : ∀ s, SymbolFits p (M s) (sym s))
    (hnew : ∀ s r, (M s).keyOf? r ≠ some (sym s).key)
    (hM' : M' = fun s => { M s with symbols := (M s).symbols.push (sym s) }) :
    Tied C (fun s => some (o s)) M' ∧ Onward p M M' ∧
      AlikeSymbol (fun s => (M s).symbols.size) M' := by
  have ho := hM.own o rfl
  have hsound : ∀ s, Sound p (M' s) := fun s => by
    rw [hM']
    exact ((hM.sound s).pushSymbol (hfits s) (hnew s)).1
  have hg : ∀ s, (M s).Grows p (some (o s)) (M' s) := fun s => by
    rw [hM']
    exact grows_internSymbol (run_internSymbol_of_new (hnew s)) fun _ => ⟨o s, rfl, howns s⟩
  have hE : Onward p M M' := ⟨hM.sound, fun s => (hg s).tables⟩
  have hsame : ∀ s, SameAnswers (M s) (M' s) := fun s => by
    rw [hM']
    exact ⟨rfl, rfl, rfl⟩
  have hget : ∀ s, (M' s).symbols[(M s).symbols.size]? = some (sym s) := fun s => by
    rw [hM']
    exact Array.getElem?_push_size
  have halike : AlikeSymbol (fun s => (M s).symbols.size) M' := by
    refine ⟨fun s => (Array.getElem?_eq_some_iff.1 (hget s)).1, ?_⟩
    have htree : ∀ s, (M' s).symbolTree (M s).symbols.size = (M' s).symbolTreeOf (sym s) :=
      fun s => by rw [Memory.symbolTree, Memory.symbolOf_of_getElem? (hget s)]; rfl
    rw [htree, htree]
    exact (hentry.mono hE).symbolTreeOf_eq fun s h => absurd (howns s).isMember h
  refine ⟨⟨?_, ?_, fun o' ho' => ?_⟩, hE, halike⟩
  · exact hM.known.later (hsound _) (hg _).tables (hg _).resumes
  · refine hM.shared.tables (hsound _) (hg _) (fun t ht => ?_) (hsame _)
    cases ht
    exact ho.collecting _
  · obtain rfl : o = o' := funext fun s => Option.some.inj (congrFun ho' s)
    refine ⟨fun s => ?_, ho.alike.mono hE, fun key hk => ?_⟩
    · rw [(hg s).resumes.collecting]
      exact ho.collecting s
    have hk₀ := hk.earlier hE ho.alike.1
    by_cases heq : (fun s => (sym s).key) = key
    · -- the key of the new symbol
      refine Or.inr ⟨_, fun s => ?_, halike⟩
      rw [Memory.keyOf?, hget, Option.map_some, ← heq]
    rcases ho.symbols key hk₀ with hnone | ⟨r, hr, hr'⟩
    · refine Or.inl fun s r hr => ?_
      rw [hM'] at hr
      obtain ⟨sym', hsym', hkey'⟩ := Option.map_eq_some_iff.1 hr
      rw [Array.getElem?_push] at hsym'
      split at hsym'
      · cases hsym'
        exact heq (hkey.eq_of_eq hk₀ hkey')
      · exact hnone s r (Option.map_eq_some_iff.2 ⟨sym', hsym', hkey'⟩)
    · exact Or.inr ⟨r, fun s => (hE.tables s).keyOf? (hr s), hr'.mono hE⟩

theorem follows_ownSymbol {sym : Side → Symbol} (hentry : AlikeEntry M sym)
    (hkey : OwnKey p M o fun s => (sym s).key) (howns : ∀ s, (M s).Owns p (o s) (sym s))
    (hfits : ∀ s, SymbolFits p (M s) (sym s)) :
    Follows C (fun s => some (o s)) steps (fun s _ => internSymbol (sym s)) M AlikeSymbol := by
  refine follows_of_tied fun hM => ?_
  rcases (hM.own o rfl).symbols _ hkey with hnew | ⟨r, hr, halike⟩
  · obtain ⟨htied, hE, halike⟩ := hM.pushSymbol hentry hkey howns hfits hnew rfl
    exact follows_of_run (fun s _ => run_internSymbol_of_new (hnew s)) (fun _ => ⟨htied, hE⟩)
      halike
  · exact follows_reads (fun s _ => (hM.sound s).reads_internSymbol (hr s)) halike

theorem follows_propertySymbol (name : String) (decl : Option NodeId)
    {source : Side → PropSource} (isOptional : Bool) (hs : AlikeSource M source)
    (hin : ∀ s, SourceIn p (M s) (source s)) :
    Follows C (fun s => some (o s)) steps
      (fun s _ => propertySymbol (o s) name decl (source s) isOptional) M AlikeSymbol := by
  refine follows_of_tied fun hM => ?_
  have ho := (hM.own o rfl).alike
  refine follows_ownSymbol (.property name decl isOptional ho hs) (.property name)
    (fun s => Or.inl ⟨decl, source s, isOptional, rfl⟩) fun s => ?_
  exact ⟨rfl, decl, source s, isOptional, rfl, ho.1 s, hin s⟩

theorem follows_placeNamed (name : String) {r : Side → SymbolId}
    {members : List (Side → SymbolId)} (hr : AlikeSymbol r M)
    (hm : ∀ q ∈ members, AlikeSymbol q M) :
    Follows C own steps (fun s _ => placeNamed name (r s) (members.map (· s))) M
      (Each AlikeSymbol) := by
  induction members generalizing M with
  | nil => exact follows_pure ⟨[r], rfl, List.forall_mem_singleton.2 hr⟩
  | cons old rest ih =>
    simp only [List.map_cons, placeNamed]
    have hold := hm old List.mem_cons_self
    have hrest : ∀ q ∈ rest, AlikeSymbol q M := fun q hq => hm q (List.mem_cons_of_mem _ hq)
    refine follows_symbol_bind hold fun sym hsym _ => ?_
    obtain ⟨oldName, hname⟩ := hsym.name_eq
    simp only [hname]
    split
    · exact follows_pure ⟨r :: rest, rfl, List.forall_mem_cons.2 ⟨hr, hrest⟩⟩
    · refine (ih hr hrest).bind ?_
      rintro _ M₁ h₁ ⟨placed, rfl, hplaced⟩
      exact follows_pure ⟨old :: placed, rfl, List.forall_mem_cons.2 ⟨hold.mono h₁, hplaced⟩⟩

theorem follows_pushMember {r : Side → SymbolId} {members : List (Side → SymbolId)}
    (hm : ∀ q ∈ members, AlikeSymbol q M) (hr : AlikeSymbol r M) :
    Follows C own steps (fun s _ => pushMember (members.map (· s)) (r s)) M
      (Each AlikeSymbol) := by
  refine follows_symbol_bind hr fun sym hsym _ => ?_
  obtain ⟨name, hname⟩ := hsym.name_eq
  simp only [hname]
  exact follows_placeNamed name hr hm

theorem follows_pushMembers {members more : List (Side → SymbolId)}
    (hm : ∀ q ∈ members, AlikeSymbol q M) (h : ∀ q ∈ more, AlikeSymbol q M) :
    Follows C own steps (fun s _ => pushMembers (members.map (· s)) (more.map (· s))) M
      (Each AlikeSymbol) := by
  unfold pushMembers
  simp only [List.foldlM_map]
  refine follows_foldlM more ⟨members, rfl, hm⟩ ?_
  rintro _ q hq M₁ h₁ ⟨placed, rfl, hplaced⟩
  exact follows_pushMember hplaced ((h q hq).mono h₁)

theorem follows_pushProperty {members : List (Side → SymbolId)} (name : String)
    (decl : Option NodeId) {source : Side → PropSource} (isOptional : Bool)
    (hm : ∀ q ∈ members, AlikeSymbol q M) (hs : AlikeSource M source)
    (hin : ∀ s, SourceIn p (M s) (source s)) :
    Follows C (fun s => some (o s)) steps (fun s _ => do
      pushMember (members.map (· s)) (← propertySymbol (o s) name decl (source s) isOptional)) M
      (Each AlikeSymbol) :=
  (follows_propertySymbol name decl isOptional hs hin).bind fun _ _ hE hr =>
    follows_pushMember (fun q hq => (hm q hq).mono hE) hr

theorem follows_declaredSource {env : Side → Env} (henv : AlikeEnv env M) {member : NodeId}
    (h : declaresProperty p member) :
    Follows C own steps (fun s _ => declaredSource p (env s) member) M fun source M' =>
      AlikeSource M' source ∧ ∀ s, SourceIn p (M' s) (source s) := by
  obtain ⟨env, rfl, henv⟩ := henv
  unfold declaredSource
  split
  · next declared hd =>
    exact follows_pure ⟨.typeNode declared henv, fun s => ⟨envIn_of_alike henv s, member, h, hd⟩⟩
  · exact follows_anyType.bind fun t M' _ ht => follows_pure ⟨.fixed ht, ht.1⟩

theorem follows_literalMembers (body : NodeId) {env : Side → Env} {members : Side → List SymbolId}
    (henv : AlikeEnv env M) (hm : Each AlikeSymbol members M) :
    Follows C (fun s => some (o s)) steps
      (fun s _ => literalMembers p body (env s) (o s) (members s)) M (Each AlikeSymbol) := by
  refine follows_foldlM_of_growing _ hm ?_ fun _ _ => by
      repeat' first | infer_instance | dsimp only | split
  rintro _ member _ M₁ h₁ ⟨members, rfl, hm⟩
  dsimp only
  split
  · next hkind =>
    split
    · exact follows_pure ⟨members, rfl, hm⟩
    · split
      · simp only [pure_bind]
        exact follows_pushProperty _ _ _ hm (.method member) fun _ => trivial
      · next hmethod =>
        have hk : p.kind member = "property_signature" := hkind.resolve_right hmethod
        have hp : declaresProperty p member := by simp [declaresProperty, hk]
        refine (follows_declaredSource (henv.mono h₁) hp).bind fun source M₂ h₂ hs => ?_
        exact follows_pushProperty _ _ _ (fun q hq => (hm q hq).mono h₂) hs.1 hs.2
  · exact follows_pure ⟨members, rfl, hm⟩

theorem follows_constructorMembers (constructor : NodeId) {env : Side → Env}
    {members : Side → List SymbolId} (henv : AlikeEnv env M) (hm : Each AlikeSymbol members M) :
    Follows C (fun s => some (o s)) steps
      (fun s _ => constructorMembers p constructor (env s) (o s) (members s)) M
      (Each AlikeSymbol) := by
  unfold constructorMembers
  refine follows_foldlM_of_growing _ hm ?_ fun _ _ => by
      repeat' first | infer_instance | dsimp only | split
  rintro _ param _ M₁ h₁ ⟨members, rfl, hm⟩
  split
  · next hmark =>
    split
    · exact follows_pure ⟨members, rfl, hm⟩
    · have hp : declaresProperty p param := by
        rw [declaresProperty, Bool.or_assoc, hmark, Bool.or_true]
      refine (follows_declaredSource (henv.mono h₁) hp).bind fun source M₂ h₂ hs => ?_
      exact follows_pushProperty _ _ _ (fun q hq => (hm q hq).mono h₂) hs.1 hs.2
  · exact follows_pure ⟨members, rfl, hm⟩

theorem follows_classMember (member : NodeId) {env : Side → Env} {members : Side → List SymbolId}
    (henv : AlikeEnv env M) (hm : Each AlikeSymbol members M) :
    Follows C (fun s => some (o s)) steps
      (fun s _ => classMember p (env s) (o s) (members s) member) M (Each AlikeSymbol) := by
  have hunchanged := hm
  obtain ⟨members, rfl, hm⟩ := hm
  unfold classMember
  split
  · exact follows_pure hunchanged
  split
  · next hk =>
    split
    · exact follows_pure hunchanged
    · dsimp only
      split
      · next declared hd =>
        have hp : declaresProperty p member := by simp [declaresProperty, hk]
        obtain ⟨env, rfl, henv⟩ := henv
        simp only [pure_bind]
        exact follows_pushProperty _ _ _ hm (.typeNode declared henv)
          fun s => ⟨envIn_of_alike henv s, member, hp, hd⟩
      · simp only [pure_bind]
        exact follows_pushProperty _ _ _ hm (.value _) fun _ => trivial
      · refine follows_anyType.bind fun t M₁ h₁ ht => ?_
        simp only [pure_bind]
        exact follows_pushProperty _ _ _ (fun q hq => (hm q hq).mono h₁) (.fixed ht) ht.1
  · split
    · exact follows_pure hunchanged
    · split
      · exact follows_constructorMembers member henv hunchanged
      · exact follows_pushProperty _ _ _ hm (.method member) fun _ => trivial
  · exact follows_pure hunchanged

section Collecting

variable [steps.Moving (Drift.moves p)] (hc : steps.Follow C fun s => some (o s))
include hc

theorem follows_interfaceMembers (decl : NodeId) {env : Side → Env} (henv : AlikeEnv env M) :
    Follows C (fun s => some (o s)) steps
      (fun s c => interfaceMembers p c decl (env s) (o s)) M (Each AlikeSymbol) := by
  unfold interfaceMembers
  dsimp only
  refine Follows.bind_of_growing (P := Each AlikeSymbol) ?_ (fun inherited M₁ h₁ hi => ?_)
    fun _ => by split <;> infer_instance
  · refine follows_foldlM (b := fun _ => []) _ ⟨[], rfl, fun _ h => absurd h List.not_mem_nil⟩ ?_
    rintro _ base _ M₁ h₁ ⟨members, rfl, hm⟩
    refine (hc.evalType base (henv.mono h₁)).bind fun t M₂ h₂ ht => ?_
    refine (hc.membersOf ht).bind ?_
    rintro _ M₃ h₃ ⟨more, rfl, hmore⟩
    exact follows_pushMembers (fun q hq => (hm q hq).mono (h₂.trans h₃)) hmore
  · split
    · exact follows_literalMembers _ (henv.mono h₁) hi
    · exact follows_pure hi

theorem follows_inheritedMembers (hk : steps.Keep p) (decl : NodeId) {env : Side → Env}
    (henv : AlikeEnv env M) :
    Follows C (fun s => some (o s)) steps (fun s c => inheritedMembers p c decl (env s)) M
      (Each AlikeSymbol) := by
  have none : Each AlikeSymbol (fun _ => []) M := ⟨[], rfl, fun _ h => absurd h List.not_mem_nil⟩
  unfold inheritedMembers
  dsimp only
  split
  · exact follows_pure none
  split
  · exact follows_pure none
  split
  · refine (follows_typeArgumentsAt hc henv _).bind ?_
    rintro _ M₁ h₁ ⟨args, rfl, hargs⟩
    refine (follows_namedType hc hk _ _ (henv.mono h₁) hargs).bind fun t M₂ h₂ ht => ?_
    refine (hc.membersOf ht).bind ?_
    rintro _ M₃ h₃ ⟨more, rfl, hmore⟩
    have hnone : ∀ q ∈ ([] : List (Side → SymbolId)), AlikeSymbol q M₃ := fun _ h =>
      absurd h List.not_mem_nil
    exact follows_pushMembers hnone hmore
  · exact follows_pure none

theorem follows_classMembers (hk : steps.Keep p) (decl : NodeId) {env : Side → Env}
    (henv : AlikeEnv env M) :
    Follows C (fun s => some (o s)) steps (fun s c => classMembers p c decl (env s) (o s)) M
      (Each AlikeSymbol) := by
  refine (follows_inheritedMembers hc hk decl henv).bind_of_growing
    (fun inherited M₁ h₁ hi => ?_) fun _ => by split <;> infer_instance
  split
  · exact follows_foldlM _ hi fun members member _ M₂ h₂ hm =>
      follows_classMember member (henv.mono (h₁.trans h₂)) hm
  · exact follows_pure hi

theorem follows_objectMember (member : NodeId) {members : Side → List SymbolId}
    (hm : Each AlikeSymbol members M) :
    Follows C (fun s => some (o s)) steps
      (fun s c => objectMember p c (o s) (members s) member) M (Each AlikeSymbol) := by
  have hunchanged := hm
  obtain ⟨members, rfl, hm⟩ := hm
  unfold objectMember
  split
  · split
    · exact follows_pushProperty _ _ _ hm (.value _) fun _ => trivial
    · exact follows_pure hunchanged
  · exact follows_pushProperty _ _ _ hm (.value _) fun _ => trivial
  · split
    · exact follows_pushProperty _ _ _ hm (.method _) fun _ => trivial
    · exact follows_pure hunchanged
  · split
    · refine (hc.valueType _).bind fun t M₁ h₁ ht => (hc.membersOf ht).bind ?_
      rintro _ M₂ h₂ ⟨more, rfl, hmore⟩
      exact follows_pushMembers (fun q hq => (hm q hq).mono (h₁.trans h₂)) hmore
    · exact follows_pure hunchanged
  · exact follows_pure hunchanged

theorem follows_objectMembers (node : NodeId) :
    Follows C (fun s => some (o s)) steps (fun s c => objectMembers p c node (o s)) M
      (Each AlikeSymbol) := by
  refine follows_foldlM (b := fun _ => []) _ ⟨[], rfl, fun _ h => absurd h List.not_mem_nil⟩ ?_
  exact fun members member _ M₁ _ hm => follows_objectMember hc member hm

theorem follows_optionalMembers {inner : Side → TypeId} (hi : AlikeType inner M) :
    Follows C (fun s => some (o s)) steps (fun s c => optionalMembers c (inner s) (o s)) M
      (Each AlikeSymbol) := by
  refine (hc.membersOf hi).bind ?_
  rintro _ M₁ h₁ ⟨members, rfl, hm⟩
  simp only [List.mapM_map, Function.comp_def]
  refine follows_mapM (Q := AlikeSymbol) AlikeSymbol.mono _ fun base hb M₂ h₂ => ?_
  have hbase := (hm base hb).mono h₂
  refine follows_symbol_bind hbase fun sym hsym _ => ?_
  have optional : ∀ (name : String) (decl : Option NodeId), Follows C (fun s => some (o s)) steps
      (fun s c => do propertySymbol (o s) name decl (.fixed (← c.symbolType (base s))) true) M₂
        AlikeSymbol := fun name decl =>
    (hc.symbolType hbase).bind fun t M₃ _ ht =>
      follows_propertySymbol name decl true (.fixed ht) ht.1
  cases hsym with
  | plain sym _ => exact optional _ _
  | property name decl _ _ _ => exact optional name decl
  | enumMember _ name _ => exact optional name none

end Collecting

/-! ### The members of enums -/

section Enums

variable [steps.Moving (Drift.moves p)] (hc : steps.Follow C own)
include hc

omit [steps.Moving (Drift.moves p)] in
theorem follows_enumValue (next : Binary64) (valueNode : Option NodeId) :
    Follows C own steps (fun _ c => enumValue c next valueNode) M Same := by
  unfold enumValue
  split
  · exact follows_pure ⟨_, rfl⟩
  · refine (hc.valueType _).bind_of_growing
      (fun t M₁ _ ht => follows_data_bind ht fun d hd => ?_)
      fun _ => .bind inferInstance fun _ => by split <;> infer_instance
    cases hd with
    | atom d hd =>
      dsimp only
      split <;> exact follows_pure ⟨_, rfl⟩
    | _ => exact follows_pure ⟨_, rfl⟩

theorem follows_enumMembersFrom (nodes : List NodeId) (next : Binary64) :
    Follows C own steps (fun _ c => enumMembersFrom p c next nodes) M fun members _ =>
      ∃ list : List EnumMember, (members = fun _ => list) ∧
        ∀ m ∈ list, p.kind m.node ∈ enumMemberKinds ∧ m.node ∈ nodes := by
  induction nodes generalizing M next with
  | nil => exact follows_pure ⟨[], rfl, fun _ h => absurd h List.not_mem_nil⟩
  | cons member rest ih =>
    have later : ∀ {list : List EnumMember},
        (∀ m ∈ list, p.kind m.node ∈ enumMemberKinds ∧ m.node ∈ rest) →
        ∀ m ∈ list, p.kind m.node ∈ enumMemberKinds ∧ m.node ∈ member :: rest :=
      fun h m hm => (h m hm).imp_right (List.mem_cons_of_mem _)
    simp only [enumMembersFrom]
    split
    · exact (ih next).imp fun members M₁ _ _ hm => hm.imp fun list h => ⟨h.1, later h.2⟩
    · next name hname =>
      have hkind : p.kind member ∈ enumMemberKinds := by
        split at hname
        · next hk => rw [hk]; decide
        · exact kind_of_propertyName? hname
      refine (follows_enumValue hc next _).bind ?_
      rintro _ M₁ _ ⟨⟨value, next⟩, rfl⟩
      refine (ih next).bind ?_
      rintro _ M₂ _ ⟨list, rfl, h⟩
      refine follows_pure ⟨⟨name, member, value⟩ :: list, rfl, ?_⟩
      exact List.forall_mem_cons.2 ⟨⟨hkind, List.mem_cons_self⟩, later h⟩

/-- The members of an enum have no handles, and stand in its body. -/
theorem follows_enumMembers {r : Side → SymbolId} {d : NodeId}
    (hr : ∀ s, (M s).keyOf? (r s) = some (.decl d)) (hd : p.kind d = "enum_declaration") :
    Follows C own steps (fun s c => enumMembers p c (r s)) M fun members M' =>
      ∃ list : List EnumMember, (members = fun _ => list) ∧
        ∀ m ∈ list, IsEnumMember p m.node ∧ ∀ s, (M' s).EnumNode p (r s) m.node := by
  have hnone : ∃ list : List EnumMember, ((fun _ : Side => []) = fun _ => list) ∧
      ∀ m ∈ list, IsEnumMember p m.node ∧ ∀ s, (M s).EnumNode p (r s) m.node :=
    ⟨[], rfl, fun _ h => absurd h List.not_mem_nil⟩
  have hsame : SameKey p r M :=
    ⟨.decl d, not_isEnumMember (by rw [hd]; decide), hr⟩
  refine follows_of_tied fun hM => follows_symbol_bind (hsame.alike hM.sound) fun sym hsym heq => ?_
  cases hsym with
  | plain sym _ =>
    dsimp only
    split
    · next decl hkind =>
      have hdecl : ∀ s, ((M s).symbolOf (r s)).kind = .declared decl := fun s => by
        rw [heq, hkind]
      cases (hr .known).symm.trans ((hM.sound .known).declared (hdecl _))
      split
      · next body hbody =>
        refine (follows_enumMembersFrom hc _ _).imp fun members M₁ h₁ _ hmembers =>
          hmembers.imp fun list h => ⟨h.1, fun m hm => ?_⟩
        obtain ⟨hkind, hnode⟩ := h.2 m hm
        refine ⟨⟨hkind, d, body, hd, hbody, hnode⟩, fun s => ?_⟩
        exact Memory.EnumNode.mono ⟨d, body, hdecl s, hbody, hnode⟩ (h₁.tables s)
      · exact follows_pure hnone
    · exact follows_pure hnone
  | property _ _ _ _ _ => exact follows_pure hnone
  | enumMember _ _ _ => exact follows_pure hnone

end Enums

theorem dataOf_later (hE : Onward p M M') {t : Side → TypeId} {d : Side → TypeData}
    (ht : AlikeType t M) (h : ∀ s, (M s).dataOf (t s) = d s) (s : Side) :
    (M' s).dataOf (t s) = d s := by
  rw [(hE.tables s).dataOf_eq (ht.1 s), h]

section Collecting

variable [steps.Moving (Drift.moves p)] (hc : steps.Follow C fun s => some (o s))
include hc

theorem follows_enumMemberSymbol {r : Side → SymbolId} {d node : NodeId}
    (hr : ∀ s, (M s).keyOf? (r s) = some (.decl d)) (hd : p.kind d = "enum_declaration")
    (ho : ∀ s, (M s).dataOf (o s) = .enum (r s)) (hnode : IsEnumMember p node)
    (hin : ∀ s, (M s).EnumNode p (r s) node) :
    Follows C (fun s => some (o s)) steps (fun s c => enumMemberSymbol p c (r s) node) M
      AlikeSymbol := by
  have entered : ∀ {M : Side → Memory} (name : String) {value : Side → TypeId},
      AlikeType value M → (∀ s, (M s).dataOf (o s) = .enum (r s)) →
      (∀ s, (M s).EnumNode p (r s) node) → Follows C (fun s => some (o s)) steps
        (fun s _ => internSymbol ⟨.decl node, name, .enumMember node (value s)⟩) M AlikeSymbol := by
    intro M name value hv ho hin
    refine follows_ownSymbol (.enumMember node name hv)
      (.enumMember node fun s => .enumMember hnode (ho s) (hin s))
      (fun s => Or.inr ⟨node, value s, r s, rfl, ho s, hin s⟩) fun s => ?_
    exact Or.inr ⟨hnode, value s, rfl, hv.1 s⟩
  refine follows_of_tied fun hM => ?_
  have howner := (hM.own o rfl).alike
  refine (follows_enumMembers hc hr hd).bind_of_widens ?_ fun members => by
    dsimp only
    split <;> exact widens_enumMemberOf node _ _
  rintro _ M₁ h₁ ⟨list, rfl, -⟩
  have next : ∀ (name : String) (value : TypeData), value.IsAtom →
      Follows C (fun s => some (o s)) steps (fun _ _ => do
        internSymbol ⟨.decl node, name, .enumMember node (← intern value)⟩) M₁ AlikeSymbol := by
    intro name value hvalue
    refine (follows_atom value hvalue).bind_of_widens ?_ fun _ => widens_internSymbol _
    intro t M₂ h₂ ht
    exact entered name ht (dataOf_later (h₁.trans h₂) howner ho)
      fun s => (hin s).mono ((h₁.trans h₂).tables s)
  dsimp only
  split
  · exact next _ (.stringLit _) trivial
  · exact next _ (.numberLit _) trivial

theorem follows_collectMembers (hk : steps.Keep p) :
    Follows C (fun s => some (o s)) steps (fun s c => collectMembers p c (o s)) M
      (Each AlikeSymbol) := by
  have none : Each AlikeSymbol (fun _ => []) M := ⟨[], rfl, fun _ h => absurd h List.not_mem_nil⟩
  refine follows_of_tied fun hM => ?_
  have howner := (hM.own o rfl).alike
  refine follows_dataOf_bind howner fun d hd heq => ?_
  cases hd with
  | object hkey _ _ _ =>
    cases hkey with
    | declared decl h =>
      refine (follows_bindEnv decl h).bind fun env M₁ h₁ henv => ?_
      split
      · exact follows_interfaceMembers hc decl henv.1
      · exact follows_classMembers hc hk decl henv.1
    | literal node h => exact follows_literalMembers node ⟨_, rfl, h⟩ none
    | value node => exact follows_objectMembers hc node
    | allOptional h => exact follows_optionalMembers hc h
  | enum hr hd =>
    refine (follows_enumMembers hc hr hd).bind_of_widens ?_ fun members =>
      .mapM (fun m => widens_enumMemberSymbol _ m.node) members
    rintro _ M₁ h₁ ⟨list, rfl, hlist⟩
    refine follows_mapM_of_widens (Q := AlikeSymbol) AlikeSymbol.mono _ (fun m hm M₂ h₂ => ?_)
      fun m => widens_enumMemberSymbol _ m.node
    exact follows_enumMemberSymbol hc (fun s => ((h₁.trans h₂).tables s).keyOf? (hr s)) hd
      (dataOf_later (h₁.trans h₂) howner heq) (hlist m hm).1
      fun s => ((hlist m hm).2 s).mono (h₂.tables s)
  | atom d hd =>
    dsimp only
    split
    · exact hd.elim
    · exact hd.elim
    · exact hd.elim
    · exact hd.elim
    · exact hd.elim
    · exact follows_pure none
  | _ => exact follows_pure none

end Collecting

/-- The steps of a known run are followed, however deep they call each other. -/
theorem follow_calls (C : Course p) (own : Side → Option TypeId) (bound : Nat) :
    (calls p bound).Follow C own := by
  induction bound with
  | zero =>
    constructor
    all_goals
      intros
      intro _ a N h
      simp [calls, Calls.none, exhausted, StateT.run] at h
  | succ bound ih =>
    have hk := keeps_calls p bound
    constructor
    · exact fun node _ henv => (follows_evalType ih hk node henv).deeper fun _ _ => rfl
    · exact fun node => (follows_valueType hk node).deeper fun _ _ => rfl
    · exact fun ht => (follows_membersOf hk ht).deeper fun _ _ => rfl
    · exact fun hr => (follows_symbolType ih hk hr).deeper fun _ _ => rfl
    · exact fun ht name => (follows_propertyType ih ht name).deeper fun _ _ => rfl

end RouteContract.Types
