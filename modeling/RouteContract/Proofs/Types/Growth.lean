import Mathlib
import RouteContract.Proofs.Types.Moves

/-!
# Memories only grow

Whatever a step of the resolver is asked, about handles that it gave out or not, its tables only
grow, more answers are remembered, and the marks are the same again at its end. Beyond that,
`M.Grows p own M'` says where the symbols of members come from: from collecting the members of types
that are remembered with them, or from the type `own` whose members are being collected.

This needs nothing of the memory: every move does so (`Moves.grows`), and every step of the resolver
is made of moves. What a member of an enum adds is looked at more closely at the end.
-/

namespace RouteContract.Types

variable {p : Program} {M M' : Memory} {α β : Type} {own : Option TypeId}

/-! ### Memories -/

namespace Memory

/-- A symbol stands for a member of a type. -/
def Owns (p : Program) (M : Memory) (t : TypeId) (sym : Symbol) : Prop :=
  (∃ decl source isOptional, sym.kind = .property t decl source isOptional) ∨
    ∃ node value s, sym.kind = .enumMember node value ∧ M.dataOf t = .enum s ∧
      M.EnumNode p s node

/-- A memory after a step, in the course of which the members of `own` may be collected. -/
structure Grows (p : Program) (own : Option TypeId) (M M' : Memory) : Prop where
  tables : M.Extends M'
  resumes : M.Resumes M'
  members : ∀ (s : SymbolId) sym, M'.symbols[s]? = some sym → sym.kind.IsMember →
    M.symbols[s]? = some sym ∨ ∃ t, M'.Owns p t sym ∧
      (own = some t ∨ M.members.lookup t = none ∧ M'.members.lookup t ≠ none)

theorem Owns.mono {t : TypeId} {sym : Symbol} (h : M.Owns p t sym) (hE : M.Extends M') :
    M'.Owns p t sym := by
  rcases h with h | ⟨node, value, s, hk, hd, hn⟩
  · exact Or.inl h
  · have ht := hE.types t _ (getElem?_of_dataOf hd TypeData.noConfusion)
    exact Or.inr ⟨node, value, s, hk, dataOf_of_getElem? ht, hn.mono hE⟩

theorem Grows.refl (M : Memory) : M.Grows p own M :=
  ⟨.refl M, .refl M, fun _ _ h _ => Or.inl h⟩

/-- Answers that are not remembered at the end were not remembered before. -/
theorem lookup_members_eq_none (hR : M.Resumes M') {t : TypeId}
    (h : M'.members.lookup t = none) : M.members.lookup t = none := by
  cases ht : M.members.lookup t with
  | none => rfl
  | some symbols =>
    rw [hR.members.lookup ht] at h
    cases h

theorem Grows.trans {M₁ M₂ M₃ : Memory} (h : M₁.Grows p own M₂) (h' : M₂.Grows p own M₃) :
    M₁.Grows p own M₃ where
  tables := h.tables.trans h'.tables
  resumes := h.resumes.trans h'.resumes
  members s sym hs hk := by
    rcases h'.members s sym hs hk with hs | ⟨t, ht, hnew⟩
    · rcases h.members s sym hs hk with hs | ⟨t, ht, hnew⟩
      · exact Or.inl hs
      · refine Or.inr ⟨t, ht.mono h'.tables, hnew.imp_right fun ⟨hold, hnew⟩ => ⟨hold, ?_⟩⟩
        obtain ⟨symbols, hsymbols⟩ := Option.ne_none_iff_exists'.1 hnew
        rw [h'.resumes.members.lookup hsymbols]
        exact Option.some_ne_none symbols
    · refine Or.inr ⟨t, ht, hnew.imp_right fun ⟨hold, hnew⟩ => ⟨?_, hnew⟩⟩
      exact lookup_members_eq_none h.resumes hold

/-- The members of a type that are being collected come from nowhere else. -/
theorem Grows.not_owns (h : M.Grows p none M') {t : TypeId} (ht : t ∈ M.collecting)
    {s : SymbolId} {sym : Symbol} (hs : M'.symbols[s]? = some sym) (hk : sym.kind.IsMember)
    (hnew : M.symbols[s]? ≠ some sym) : ∃ u, u ≠ t ∧ M'.Owns p u sym := by
  rcases h.members s sym hs hk with hold | ⟨u, hu, hnone | ⟨hold, hanswer⟩⟩
  · exact absurd hold hnew
  · cases hnone
  · refine ⟨u, ?_, hu⟩
    rintro rfl
    obtain ⟨added, hadded, hfresh⟩ := h.resumes.members
    rw [hadded, List.lookup_append, hold, Option.or_none] at hanswer
    obtain ⟨symbols, hsymbols⟩ := Option.ne_none_iff_exists'.1 hanswer
    exact (hfresh _ (mem_of_lookup hsymbols)).1 ht

end Memory

/-! ### Computations -/

/-- A computation after which the memory has grown. -/
class Growing (p : Program) (own : Option TypeId) {α : Type} (x : Resolve α) : Prop where
  grows : ∀ {M a M'}, x.run M = some (a, M') → M.Grows p own M'

theorem growing_of {x : Resolve α} (h : ∀ M a M', x.run M = some (a, M') → M.Grows p own M') :
    Growing p own x := ⟨h _ _ _⟩

instance growing_pure (a : α) : Growing p own (pure a) := by
  refine growing_of fun M _ _ h => ?_
  cases h
  exact .refl M

instance growing_exhausted : Growing p own (exhausted : Resolve α) :=
  growing_of fun M a M' h => by simp [exhausted, StateT.run] at h

theorem Growing.bind {x : Resolve α} {f : α → Resolve β} (hx : Growing p own x)
    (hf : ∀ a, Growing p own (f a)) : Growing p own (x >>= f) := by
  refine growing_of fun M b M₂ h => ?_
  rw [StateT.run_bind] at h
  obtain ⟨⟨a, M₁⟩, h₁, h₂⟩ := Option.bind_eq_some_iff.1 h
  exact (hx.grows h₁).trans ((hf a).grows h₂)

instance growing_bind {x : Resolve α} {f : α → Resolve β} [hx : Growing p own x]
    [hf : ∀ a, Growing p own (f a)] : Growing p own (x >>= f) := hx.bind hf

instance growing_ite {c : Prop} {_ : Decidable c} {x y : Resolve α} [hx : Growing p own x]
    [hy : Growing p own y] : Growing p own (if c then x else y) := by
  split
  · exact hx
  · exact hy

instance growing_mapM {f : α → Resolve β} [hf : ∀ a, Growing p own (f a)] (l : List α) :
    Growing p own (l.mapM f) := by
  induction l with
  | nil =>
    rw [List.mapM_nil]
    infer_instance
  | cons a l ih =>
    rw [List.mapM_cons]
    infer_instance

instance growing_foldlM {f : β → α → Resolve β} [hf : ∀ b a, Growing p own (f b a)] (l : List α)
    (b : β) : Growing p own (l.foldlM f b) := by
  induction l generalizing b with
  | nil => exact growing_pure b
  | cons a l ih =>
    rw [List.foldlM_cons]
    infer_instance

/-- A computation that only reads the memory. -/
theorem growing_of_reads {x : Resolve α} (h : ∀ M, ∃ a, x.run M = some (a, M)) :
    Growing p own x := by
  refine growing_of fun M a M' hrun => ?_
  obtain ⟨a', ha⟩ := h M
  rw [ha] at hrun
  cases hrun
  exact .refl M

/-- A computation that leaves a later memory, wherever the symbols of members in it come from. -/
structure Widens (x : Resolve α) : Prop where
  within : ∀ {M a M'}, x.run M = some (a, M') → M.Within M'

theorem Growing.widens {x : Resolve α} (h : Growing p own x) : Widens x :=
  ⟨fun hrun => Memory.within_of_resumes (h.grows hrun).tables (h.grows hrun).resumes⟩

theorem Widens.bind {x : Resolve α} {f : α → Resolve β} (hx : Widens x) (hf : ∀ a, Widens (f a)) :
    Widens (x >>= f) := by
  refine ⟨fun {M b M₂} h => ?_⟩
  obtain ⟨a, M₁, h₁, h₂⟩ := run_bind_eq_some h
  exact (hx.within h₁).trans ((hf a).within h₂)

theorem widens_pure (a : α) : Widens (pure a) := by
  refine ⟨fun h => ?_⟩
  cases h
  exact .refl _

theorem Widens.mapM {f : α → Resolve β} (hf : ∀ a, Widens (f a)) (l : List α) :
    Widens (l.mapM f) := by
  induction l with
  | nil =>
    rw [List.mapM_nil]
    exact widens_pure []
  | cons a l ih =>
    rw [List.mapM_cons]
    exact (hf a).bind fun b => ih.bind fun bs => widens_pure (b :: bs)

/-! ### The tables -/

instance growing_intern (d : TypeData) : Growing p own (intern d) := by
  refine growing_of fun M t M' h => ?_
  rw [run_intern_eq] at h
  split at h
  · cases h
    exact .refl M
  · cases h
    exact ⟨M.extends_pushType d, ⟨.refl _ _, .refl _ _, .refl _ _, rfl, rfl, rfl⟩,
      fun s sym hs _ => Or.inl hs⟩

theorem widens_intern (d : TypeData) : Widens (intern d) :=
  (growing_intern d : Growing {} none (intern d)).widens

/-- A symbol is added that is no member, or that is owned. -/
theorem grows_internSymbol {sym : Symbol} {s : SymbolId}
    (h : (internSymbol sym).run M = some (s, M'))
    (hsym : sym.kind.IsMember → ∃ t, own = some t ∧ M.Owns p t sym) : M.Grows p own M' := by
  rw [run_internSymbol_eq] at h
  split at h
  · cases h
    exact .refl M
  · cases h
    have hE := M.extends_pushSymbol sym
    refine ⟨hE, ⟨.refl _ _, .refl _ _, .refl _ _, rfl, rfl, rfl⟩, fun r sym' hr hk => ?_⟩
    rw [Array.getElem?_push] at hr
    split at hr
    · cases hr
      obtain ⟨t, ht, ho⟩ := hsym hk
      exact Or.inr ⟨t, ho.mono hE, Or.inl ht⟩
    · exact Or.inl hr

theorem widens_internSymbol (sym : Symbol) : Widens (internSymbol sym) := by
  refine ⟨fun {M s M'} h => ?_⟩
  rw [run_internSymbol_eq] at h
  split at h
  · cases h
    exact .refl M
  · cases h
    exact Memory.within_of_resumes (M.extends_pushSymbol sym)
      ⟨.refl _ _, .refl _ _, .refl _ _, rfl, rfl, rfl⟩

/-- The symbol of something other than a member. -/
theorem growing_internSymbol {sym : Symbol} (h : ¬ sym.kind.IsMember) :
    Growing p own (internSymbol sym) :=
  growing_of fun _ _ _ hrun => grows_internSymbol hrun fun hk => absurd hk h

instance growing_data (t : TypeId) : Growing p own (data t) := growing_of_reads fun _ => ⟨_, rfl⟩

instance growing_symbol (s : SymbolId) : Growing p own (symbol s) :=
  growing_of_reads fun _ => ⟨_, rfl⟩

instance growing_flatUnion (flat : List TypeId) : Growing p own (match flat with
    | [] => intern .never
    | [t] => pure t
    | _ => intern (.union flat)) := by
  split <;> infer_instance

/-- The union of types, once both truth values among them are one. -/
theorem growing_mergedUnion (yes no : TypeId) (flat : List TypeId) : Growing p own (do
    let flat ← if yes ∈ flat ∧ no ∈ flat then
        pure (mergeBooleans yes no (← intern .boolean) flat)
      else pure flat
    match flat with
    | [] => intern .never
    | [t] => return t
    | _ => intern (.union flat)) := by
  dsimp only
  split
  · exact .bind inferInstance fun _ => .bind inferInstance fun flat => growing_flatUnion flat
  · exact .bind inferInstance fun flat => growing_flatUnion flat

/-- The union of types, once the data of each is known. -/
theorem growing_knownUnion (datas : List TypeData) (flat : List TypeId) : Growing p own (do
    if .any ∈ datas then anyType
    else
      let yes ← intern (.booleanLit true)
      let no ← intern (.booleanLit false)
      let flat ← if yes ∈ flat ∧ no ∈ flat then
          pure (mergeBooleans yes no (← intern .boolean) flat)
        else pure flat
      match flat with
      | [] => intern .never
      | [t] => return t
      | _ => intern (.union flat)) := by
  split
  · exact growing_intern .any
  · exact .bind inferInstance fun yes => .bind inferInstance fun no =>
      growing_mergedUnion yes no flat

/-! ### Moves -/

theorem grows_makeUnion {types : List TypeId} {t : TypeId}
    (h : (makeUnion types).run M = some (t, M')) : M.Grows p own M' := by
  have hintern : ∀ {d t M₁ M₂}, M.Grows p own M₁ → (intern d).run M₁ = some (t, M₂) →
      M.Grows p own M₂ := fun hgrows hrun => hgrows.trans ((growing_intern _).grows hrun)
  obtain ⟨t', M₁, hrun, -, hgrows, -⟩ := makes_union (P := fun K => M.Grows p own K)
    (fun _ => hintern) types (.refl M) (fun hgrows _ _ _ _ => hintern hgrows)
  cases h.symm.trans hrun
  exact hgrows

theorem grows_propertySymbol {t : TypeId} {name : String} {decl : Option NodeId}
    {source : PropSource} {isOptional : Bool} {s : SymbolId}
    (h : (propertySymbol t name decl source isOptional).run M = some (s, M')) :
    M.Grows p (some t) M' :=
  grows_internSymbol h fun _ => ⟨t, rfl, Or.inl ⟨decl, source, isOptional, rfl⟩⟩

/-- What is found and remembered leaves the marks as they were. -/
theorem grows_value {M₁ : Memory} {node : NodeId} {t : TypeId}
    (hnone : M.nodeTypes.lookup node = none) (hmark : node ∉ M.inferring)
    (h : Memory.Grows p own { M with inferring := node :: M.inferring } M₁) :
    M.Grows p own { M₁ with
      inferring := M₁.inferring.erase node
      nodeTypes := (node, t) :: M₁.nodeTypes } := by
  have hr := h.resumes
  refine ⟨⟨h.tables.types, h.tables.symbols⟩,
    ⟨hr.members, hr.aliases, ?_, ?_, hr.resolving, hr.collecting⟩, h.members⟩
  · exact hr.nodeTypes.answer hmark (notMem_keys_of_lookup_eq_none hnone) t
  · show M₁.inferring.erase _ = M.inferring
    rw [hr.inferring, List.erase_cons_head]

theorem grows_synonym {M₁ : Memory} {key : AliasKey} {t : TypeId}
    (hnone : M.aliases.lookup key = none) (hmark : key ∉ M.resolving)
    (h : Memory.Grows p own { M with resolving := key :: M.resolving } M₁) :
    M.Grows p own { M₁ with
      resolving := M₁.resolving.erase key
      aliases := (key, t) :: M₁.aliases } := by
  have hr := h.resumes
  refine ⟨⟨h.tables.types, h.tables.symbols⟩,
    ⟨hr.members, ?_, hr.nodeTypes, hr.inferring, ?_, hr.collecting⟩, h.members⟩
  · exact hr.aliases.answer hmark (notMem_keys_of_lookup_eq_none hnone) t
  · show M₁.resolving.erase _ = M.resolving
    rw [hr.resolving, List.erase_cons_head]

/-- The symbols of the members that were collected are owned by what is remembered by then. -/
theorem grows_members {M₁ : Memory} {t : TypeId} {symbols : List SymbolId}
    (hnone : M.members.lookup t = none) (hmark : t ∉ M.collecting)
    (h : Memory.Grows p (some t) { M with collecting := t :: M.collecting } M₁) :
    M.Grows p own { M₁ with
      collecting := M₁.collecting.erase t
      members := (t, symbols) :: M₁.members } := by
  have hr := h.resumes
  refine ⟨⟨h.tables.types, h.tables.symbols⟩,
    ⟨?_, hr.aliases, hr.nodeTypes, hr.inferring, hr.resolving, ?_⟩, fun s sym hs hk => ?_⟩
  · exact hr.members.answer hmark (notMem_keys_of_lookup_eq_none hnone) symbols
  · show M₁.collecting.erase t = M.collecting
    rw [hr.collecting, List.erase_cons_head]
  · have hfound : ∀ u, u = t ∨ M₁.members.lookup u ≠ none →
        ((t, symbols) :: M₁.members).lookup u ≠ none := by
      intro u hu
      rw [List.lookup_cons]
      split
      · exact Option.some_ne_none symbols
      · next hne => exact hu.resolve_left fun heq => by simp [heq] at hne
    refine (h.members s sym hs hk).imp_right fun ⟨u, hu, hnew⟩ => ⟨u, hu, Or.inr ?_⟩
    rcases hnew with hown | ⟨hold, hnew⟩
    · cases hown
      exact ⟨hnone, hfound t (Or.inl rfl)⟩
    · exact ⟨hold, hfound u (Or.inr hnew)⟩

/-- A memory grows by moving. -/
theorem Moves.grows (h : Moves p own M M') : M.Grows p own M' := by
  induction h with
  | refl M => exact .refl M
  | trans h h' ih ih' => exact ih.trans ih'
  | type hd hrun => exact (growing_intern _).grows hrun
  | union hrun => exact grows_makeUnion hrun
  | symbol hsym hrun => exact (growing_internSymbol hsym.kind).grows hrun
  | property hrun => exact grows_propertySymbol hrun
  | enumMember hd hn hrun =>
    exact grows_internSymbol hrun fun _ => ⟨_, rfl, Or.inr ⟨_, _, _, rfl, hd, hn⟩⟩
  | value hnone hmark h ih => exact grows_value hnone hmark ih
  | synonym hnone hmark h ih => exact grows_synonym hnone hmark ih
  | members hnone hmark h ih => exact grows_members hnone hmark ih

instance (priority := low) growing_of_moving {x : Resolve α} [hx : Moving (Drift.moves p) own x] :
    Growing p own x := ⟨fun h => (hx.moves h).grows⟩

theorem widens_enumMemberOf (node : NodeId) (name : String) (value : TypeData) :
    Widens (do internSymbol ⟨.decl node, name, .enumMember node (← intern value)⟩) :=
  (widens_intern value).bind fun _ => widens_internSymbol _

theorem widens_enumMemberSymbol {calls : Calls} [calls.Moving (Drift.moves p)] (s : SymbolId)
    (node : NodeId) : Widens (enumMemberSymbol p calls s node) := by
  refine (growing_of_moving : Growing p none (enumMembers p calls s)).widens.bind fun members => ?_
  dsimp only
  split
  · exact widens_enumMemberOf node _ _
  · exact widens_enumMemberOf node _ _

end RouteContract.Types
