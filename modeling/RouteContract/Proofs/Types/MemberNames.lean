import Mathlib
import RouteContract.Proofs.Schema.Generation
import RouteContract.Proofs.Schema.Required
import RouteContract.Proofs.Types.Moves
import RouteContract.Proofs.Types.Naming
import RouteContract.Proofs.Types.Placing

/-!
# The names of members

A later member takes the place of an earlier one of its name, so that what is collected for a type
has distinct names (`Builds`), whatever is merged: bases, parameters of constructors, overloads,
spreads. The view of a type with all members optional has the names of that type. So only an enum,
whose members are listed as they stand, and such views of it (`Memory.EnumLike`) can repeat a name.

Members that are found have gone through all this when they were remembered. That they are
remembered under distinct names is kept by every move of the memory (`Drift.named`), which leaves
one thing to show, that members are collected so when all that is remembered is
(`listed_of_run_collectMembers`).
-/

namespace RouteContract.Types

variable {p : Program} {M M' : Memory} {α β : Type} {own : Option TypeId} {t : TypeId}
  {s : SymbolId} {symbols members : List SymbolId}

namespace Memory

/-- The name of a symbol. -/
def nameOf (M : Memory) (s : SymbolId) : String := (M.symbolOf s).name

/-- An enum, or a view of one, maybe through more views, with all members optional. -/
inductive EnumLike (M : Memory) : TypeId → Prop
  | enum {t : TypeId} {s : SymbolId} (hd : M.dataOf t = .enum s) : EnumLike M t
  | view {t inner : TypeId} {s : SymbolId} {through : Option SymbolId}
      (hd : M.dataOf t = .object (.allOptional inner) s through) (hinner : EnumLike M inner) :
      EnumLike M t

/-- Symbols are in the table. -/
def Lists (M : Memory) (symbols : List SymbolId) : Prop := ∀ s ∈ symbols, SymbolIn s M

/-- Symbols are in the table, under distinct names. -/
structure Distinct (M : Memory) (symbols : List SymbolId) : Prop where
  lists : M.Lists symbols
  nodup : (symbols.map M.nameOf).Nodup

/-- The members of a type have distinct names, unless it is like an enum. -/
structure Listed (M : Memory) (t : TypeId) (symbols : List SymbolId) : Prop where
  lists : M.Lists symbols
  nodup : M.EnumLike t ∨ (symbols.map M.nameOf).Nodup

/-- A memory in which the symbol of a property has the name of its key, and the members of types are
remembered under distinct names. -/
structure MembersNamed (M : Memory) : Prop where
  names : ∀ (s : SymbolId) sym owner name, M.symbols[s]? = some sym →
    sym.key = .property owner name → sym.name = name
  members : ∀ e ∈ M.members, M.Listed e.1 e.2

/-! ### Later memories -/

theorem nameOf_eq (hE : M.Extends M') (hs : SymbolIn s M) : M'.nameOf s = M.nameOf s := by
  rw [nameOf, hE.symbolOf hs, nameOf]

theorem map_nameOf_eq (hE : M.Extends M') (h : M.Lists symbols) :
    symbols.map M'.nameOf = symbols.map M.nameOf :=
  List.map_congr_left fun s hs => nameOf_eq hE (h s hs)

theorem EnumLike.mono (h : M.EnumLike t) (hE : M.Extends M') : M'.EnumLike t := by
  induction h with
  | enum hd => exact .enum (hE.dataOf hd TypeData.noConfusion)
  | view hd hinner ih => exact .view (hE.dataOf hd TypeData.noConfusion) ih

theorem Lists.mono (h : M.Lists symbols) (hE : M.Extends M') : M'.Lists symbols :=
  fun s hs => (h s hs).mono hE

theorem Distinct.mono (h : M.Distinct symbols) (hE : M.Extends M') : M'.Distinct symbols :=
  ⟨h.lists.mono hE, by rw [map_nameOf_eq hE h.lists]; exact h.nodup⟩

theorem Listed.mono (h : M.Listed t symbols) (hE : M.Extends M') : M'.Listed t symbols where
  lists := h.lists.mono hE
  nodup := by
    rw [map_nameOf_eq hE h.lists]
    exact h.nodup.imp_left fun ht => ht.mono hE

theorem Distinct.listed (h : M.Distinct symbols) : M.Listed t symbols := ⟨h.lists, Or.inr h.nodup⟩

theorem distinct_nil : M.Distinct [] := ⟨fun _ h => absurd h List.not_mem_nil, List.nodup_nil⟩

/-- The same symbols and the same members, with more types. -/
theorem MembersNamed.of_tables (h : M.MembersNamed) (hE : M.Extends M')
    (hs : M'.symbols = M.symbols) (hm : M'.members = M.members) : M'.MembersNamed where
  names := by
    rw [hs]
    exact h.names
  members := by
    rw [hm]
    exact fun e he => (h.members e he).mono hE

/-- The same tables and the same members, with other marks or answers. -/
theorem MembersNamed.of_same (h : M.MembersNamed) (ht : M'.types = M.types)
    (hs : M'.symbols = M.symbols) (hm : M'.members = M.members) : M'.MembersNamed :=
  h.of_tables (extends_of_tables ht hs) hs hm

theorem membersNamed_empty : ({} : Memory).MembersNamed where
  names s sym owner name hs := by simp at hs
  members e he := by simp at he

/-- A symbol is entered that has the name of its key, if that names a property. -/
theorem MembersNamed.internSymbol (h : M.MembersNamed) {sym : Symbol}
    (hsym : ∀ owner name, sym.key = .property owner name → sym.name = name)
    (hrun : (internSymbol sym).run M = some (s, M')) : M'.MembersNamed := by
  rw [run_internSymbol_eq] at hrun
  split at hrun
  · cases hrun
    exact h
  · cases hrun
    have hE := M.extends_pushSymbol sym
    refine ⟨fun r sym' owner name hr hkey => ?_, fun e he => (h.members e he).mono hE⟩
    rw [Array.getElem?_push] at hr
    split at hr
    · cases hr
      exact hsym owner name hkey
    · exact h.names r sym' owner name hr hkey

/-- The members of a type are remembered. -/
theorem MembersNamed.remember (h : M.MembersNamed) (ht : M.Listed t symbols)
    (collecting : List TypeId) :
    MembersNamed { M with collecting, members := (t, symbols) :: M.members } where
  names := h.names
  members e he := by
    have hE : M.Extends { M with collecting, members := (t, symbols) :: M.members } :=
      extends_of_tables rfl rfl
    rcases List.mem_cons.1 he with rfl | he
    · exact ht.mono hE
    · exact (h.members e he).mono hE

end Memory

theorem symbols_of_run_intern {d : TypeData} (h : (intern d).run M = some (t, M')) :
    M'.symbols = M.symbols ∧ M'.members = M.members := by
  rw [run_intern_eq] at h
  split at h
  · cases h
    exact ⟨rfl, rfl⟩
  · cases h
    exact ⟨rfl, rfl⟩

theorem symbols_of_run_makeUnion {types : List TypeId}
    (h : (makeUnion types).run M = some (t, M')) :
    M'.symbols = M.symbols ∧ M'.members = M.members := by
  have hintern : ∀ {d u M₁ M₂}, (M₁.symbols = M.symbols ∧ M₁.members = M.members) →
      (intern d).run M₁ = some (u, M₂) → M₂.symbols = M.symbols ∧ M₂.members = M.members := by
    intro d u M₁ M₂ h hrun
    have hsame := symbols_of_run_intern hrun
    exact ⟨hsame.1.trans h.1, hsame.2.trans h.2⟩
  obtain ⟨t', M₁, hrun, -, hsame, -⟩ :=
    makes_union (P := fun K => K.symbols = M.symbols ∧ K.members = M.members)
      (fun _ => hintern) types ⟨rfl, rfl⟩ (fun h _ _ _ _ => hintern h)
  cases h.symm.trans hrun
  exact hsame

/-- Members stay remembered under distinct names. -/
def Drift.named (p : Program) : Drift p where
  R _ M M' := M.Extends M' ∧ (M.MembersNamed → M'.MembersNamed)
  refl _ M := ⟨.refl M, id⟩
  trans h h' := ⟨h.1.trans h'.1, h'.2 ∘ h.2⟩
  extend h := h.1
  type _ hrun := by
    have hsame := symbols_of_run_intern hrun
    have hE := extends_of_run_intern hrun
    exact ⟨hE, fun hM => hM.of_tables hE hsame.1 hsame.2⟩
  union hrun := by
    have hsame := symbols_of_run_makeUnion hrun
    have hE := extends_of_run_makeUnion hrun
    exact ⟨hE, fun hM => hM.of_tables hE hsame.1 hsame.2⟩
  symbol hsym hrun := ⟨extends_of_run_internSymbol hrun, fun hM =>
    hM.internSymbol (fun owner name hkey => absurd hkey (hsym.key owner name)) hrun⟩
  property hrun := ⟨extends_of_run_internSymbol hrun, fun hM =>
    hM.internSymbol (fun _ _ hkey => by cases hkey; rfl) hrun⟩
  enumMember _ _ hrun := ⟨extends_of_run_internSymbol hrun, fun hM =>
    hM.internSymbol (fun _ _ hkey => by cases hkey) hrun⟩
  value _ _ h := ⟨⟨h.1.types, h.1.symbols⟩, fun hM =>
    (h.2 (hM.of_same rfl rfl rfl)).of_same rfl rfl rfl⟩
  synonym _ _ h := ⟨⟨h.1.types, h.1.symbols⟩, fun hM =>
    (h.2 (hM.of_same rfl rfl rfl)).of_same rfl rfl rfl⟩

/-! ### Lists of members -/

/-- A member takes the place of the one of its name. -/
theorem reads_pushMember (M : Memory) (members : List SymbolId) (s : SymbolId) :
    Reads (pushMember members s) M (place M.nameOf s members) := by
  have hsym : Reads (symbol s) M (M.symbolOf s) := rfl
  refine hsym.bind ?_
  induction members with
  | nil => exact reads_pure [s]
  | cons old rest ih =>
    have hold : Reads (symbol old) M (M.symbolOf old) := rfl
    refine hold.bind ?_
    by_cases hname : (M.symbolOf old).name = (M.symbolOf s).name
    · have hplace : place M.nameOf s (old :: rest) = s :: rest := if_pos hname
      rw [if_pos hname, hplace]
      exact reads_pure _
    · have hplace : place M.nameOf s (old :: rest) = old :: place M.nameOf s rest := if_neg hname
      rw [if_neg hname, hplace]
      exact ih.bind (reads_pure _)

theorem reads_pushMembers (M : Memory) (members more : List SymbolId) :
    Reads (pushMembers members more) M (more.foldl (fun l s => place M.nameOf s l) members) := by
  induction more generalizing members with
  | nil => exact reads_pure members
  | cons s more ih =>
    rw [pushMembers, List.foldlM_cons]
    exact (reads_pushMember M members s).bind (ih _)

theorem Memory.Distinct.place (hmembers : M.Distinct members) (hs : SymbolIn s M) :
    M.Distinct (place M.nameOf s members) := by
  refine ⟨fun r hr => ?_, ?_⟩
  · rcases mem_of_mem_place hr with rfl | hr
    · exact hs
    · exact hmembers.lists r hr
  · rw [map_place]
    split
    · exact hmembers.nodup
    · next hnew => exact List.concat_eq_append ▸ hmembers.nodup.concat hnew

theorem Memory.Distinct.foldl_place (hmembers : M.Distinct members) (hmore : M.Lists symbols) :
    M.Distinct (symbols.foldl (fun l s => Types.place M.nameOf s l) members) := by
  induction symbols generalizing members with
  | nil => exact hmembers
  | cons s rest ih =>
    exact ih (hmembers.place (hmore s List.mem_cons_self))
      fun r hr => hmore r (List.mem_cons_of_mem _ hr)

/-- A computation leaves members remembered under distinct names, and finds a list of members under
distinct names. -/
def Builds (x : Resolve (List SymbolId)) (M : Memory) : Prop :=
  ∀ symbols M', x.run M = some (symbols, M') → M'.MembersNamed ∧ M'.Distinct symbols

theorem builds_of_reads (hM : M.MembersNamed) {x : Resolve (List SymbolId)}
    (hreads : Reads x M members) (hmembers : M.Distinct members) : Builds x M := by
  intro symbols M' hrun
  rw [hreads] at hrun
  cases hrun
  exact ⟨hM, hmembers⟩

theorem builds_pure (hM : M.MembersNamed) (h : M.Distinct symbols) : Builds (pure symbols) M :=
  builds_of_reads hM (reads_pure symbols) h

theorem Builds.bind {x : Resolve (List SymbolId)} {f : List SymbolId → Resolve (List SymbolId)}
    (hx : Builds x M) (h : ∀ members M₁, M₁.MembersNamed → M₁.Distinct members →
      Builds (f members) M₁) : Builds (x >>= f) M := by
  intro found M' hrun
  obtain ⟨members, M₁, hmembers, hf⟩ := run_bind_eq_some hrun
  obtain ⟨hM₁, hdistinct⟩ := hx members M₁ hmembers
  exact h members M₁ hM₁ hdistinct found M' hf

/-- A computation comes first that leaves members remembered under distinct names. -/
theorem builds_after (own : Option TypeId) {x : Resolve α} [hx : Moving (Drift.named p) own x]
    (hM : M.MembersNamed) {f : α → Resolve (List SymbolId)}
    (h : ∀ a M₁, x.run M = some (a, M₁) → M.Extends M₁ → M₁.MembersNamed → Builds (f a) M₁) :
    Builds (x >>= f) M := by
  intro found M' hrun
  obtain ⟨a, M₁, ha, hf⟩ := run_bind_eq_some hrun
  exact h a M₁ ha (hx.moves ha).1 ((hx.moves ha).2 hM) found M' hf

theorem builds_foldlM {f : List SymbolId → α → Resolve (List SymbolId)} (l : List α)
    (h : ∀ members a M, M.MembersNamed → M.Distinct members → Builds (f members a) M)
    (hM : M.MembersNamed) (hmembers : M.Distinct members) : Builds (l.foldlM f members) M := by
  induction l generalizing M members with
  | nil => exact builds_pure hM hmembers
  | cons a l ih =>
    rw [List.foldlM_cons]
    exact (h members a M hM hmembers).bind fun next M₁ hM₁ hnext => ih hM₁ hnext

/-- The symbol of a property, which is added then. -/
theorem builds_pushProperty (p : Program) (hM : M.MembersNamed) (hmembers : M.Distinct members)
    {owner : TypeId} {name : String} {decl : Option NodeId} {source : PropSource}
    {isOptional : Bool} :
    Builds (propertySymbol owner name decl source isOptional >>= pushMember members) M :=
  builds_after (p := p) (some owner) hM fun s M₁ hs hE hM₁ =>
    builds_of_reads hM₁ (reads_pushMember M₁ members s)
      ((hmembers.mono hE).place (symbolIn_of_keyOf? (keyOf?_of_run_internSymbol hs)))

theorem builds_literalMembers (body : NodeId) (env : Env) (owner : TypeId) (hM : M.MembersNamed)
    (hmembers : M.Distinct members) : Builds (literalMembers p body env owner members) M := by
  refine builds_foldlM _ (fun members member M hM hmembers => ?_) hM hmembers
  dsimp only
  split
  · split
    · exact builds_pure hM hmembers
    · split
      · exact builds_pushProperty p hM hmembers
      · exact builds_after (p := p) none hM fun source M₁ _ hE hM₁ =>
          builds_pushProperty p hM₁ (hmembers.mono hE)
  · exact builds_pure hM hmembers

theorem builds_constructorMembers (constructor : NodeId) (env : Env) (owner : TypeId)
    (hM : M.MembersNamed) (hmembers : M.Distinct members) :
    Builds (constructorMembers p constructor env owner members) M := by
  refine builds_foldlM _ (fun members param M hM hmembers => ?_) hM hmembers
  split
  · split
    · exact builds_pure hM hmembers
    · exact builds_after (p := p) none hM fun source M₁ _ hE hM₁ =>
        builds_pushProperty p hM₁ (hmembers.mono hE)
  · exact builds_pure hM hmembers

theorem builds_classMember (env : Env) (owner : TypeId) (member : NodeId) (hM : M.MembersNamed)
    (hmembers : M.Distinct members) : Builds (classMember p env owner members member) M := by
  unfold classMember
  split
  · exact builds_pure hM hmembers
  split
  · split
    · exact builds_pure hM hmembers
    · dsimp only
      split
      · exact builds_pushProperty p hM hmembers
      · exact builds_pushProperty p hM hmembers
      · exact builds_after (p := p) none hM fun t M₁ _ hE hM₁ =>
          builds_pushProperty p hM₁ (hmembers.mono hE)
  · split
    · exact builds_pure hM hmembers
    · split
      · exact builds_constructorMembers _ _ _ hM hmembers
      · exact builds_pushProperty p hM hmembers
  · exact builds_pure hM hmembers

section Collecting

variable {calls : Calls} [hc : calls.Moving (Drift.named p)]
include hc

/-- Members that are found of another type are remembered. -/
theorem listed_of_run_membersOf (hM : M.MembersNamed)
    (h : (calls.membersOf t).run M = some (symbols, M')) : M'.Listed t symbols := by
  rcases hc.recalls h with hknown | ⟨-, rfl⟩
  · exact (((hc.membersOf none t).moves h).2 hM).members _ (mem_of_lookup hknown)
  · exact Memory.distinct_nil.listed

/-- The members of another type are added. -/
theorem builds_pushMembersOf (hM : M.MembersNamed) (hmembers : M.Distinct members) (t : TypeId) :
    Builds (calls.membersOf t >>= pushMembers members) M :=
  builds_after (p := p) none hM fun more M₁ hrun hE hM₁ =>
    builds_of_reads hM₁ (reads_pushMembers M₁ members more)
      ((hmembers.mono hE).foldl_place (listed_of_run_membersOf (p := p) hM hrun).lists)

theorem builds_interfaceMembers (decl : NodeId) (env : Env) (owner : TypeId)
    (hM : M.MembersNamed) : Builds (interfaceMembers p calls decl env owner) M := by
  refine Builds.bind (builds_foldlM _ (fun members base M hM hmembers => ?_) hM
    Memory.distinct_nil) fun inherited M₁ hM₁ hinherited => ?_
  · exact builds_after (p := p) none hM fun t M₁ _ hE hM₁ =>
      builds_pushMembersOf (p := p) hM₁ (hmembers.mono hE) t
  · split
    · exact builds_literalMembers _ _ _ hM₁ hinherited
    · exact builds_pure hM₁ hinherited

theorem builds_inheritedMembers (decl : NodeId) (env : Env) (hM : M.MembersNamed) :
    Builds (inheritedMembers p calls decl env) M := by
  unfold inheritedMembers
  dsimp only
  split
  · exact builds_pure hM Memory.distinct_nil
  split
  · exact builds_pure hM Memory.distinct_nil
  split
  · exact builds_after (p := p) none hM fun args M₁ _ _ hM₁ =>
      builds_after (p := p) none hM₁ fun t M₂ _ _ hM₂ =>
        builds_pushMembersOf (p := p) hM₂ Memory.distinct_nil t
  · exact builds_pure hM Memory.distinct_nil

theorem builds_classMembers (decl : NodeId) (env : Env) (owner : TypeId) (hM : M.MembersNamed) :
    Builds (classMembers p calls decl env owner) M := by
  refine (builds_inheritedMembers decl env hM).bind fun inherited M₁ hM₁ hinherited => ?_
  split
  · exact builds_foldlM _ (fun members member M hM hmembers =>
      builds_classMember env owner member hM hmembers) hM₁ hinherited
  · exact builds_pure hM₁ hinherited

theorem builds_objectMember (owner : TypeId) (member : NodeId) (hM : M.MembersNamed)
    (hmembers : M.Distinct members) : Builds (objectMember p calls owner members member) M := by
  unfold objectMember
  split
  · split
    · exact builds_pushProperty p hM hmembers
    · exact builds_pure hM hmembers
  · exact builds_pushProperty p hM hmembers
  · split
    · exact builds_pushProperty p hM hmembers
    · exact builds_pure hM hmembers
  · split
    · exact builds_after (p := p) none hM fun t M₁ _ hE hM₁ =>
        builds_pushMembersOf (p := p) hM₁ (hmembers.mono hE) t
    · exact builds_pure hM hmembers
  · exact builds_pure hM hmembers

theorem builds_objectMembers (node : NodeId) (owner : TypeId) (hM : M.MembersNamed) :
    Builds (objectMembers p calls node owner) M :=
  builds_foldlM _ (fun _ member _ hM hmembers => builds_objectMember owner member hM hmembers) hM
    Memory.distinct_nil

/-! ### Views with all members optional -/

omit hc in
/-- What holds of each result, and keeps holding, holds of all results of a row of steps. -/
theorem forall₂_of_run_mapM {f : α → Resolve β} {I : Memory → Prop} {Q : β → α → Memory → Prop}
    {l : List α} {results : List β}
    (mono : ∀ {b a M M'}, Memory.Extends M M' → Q b a M → Q b a M')
    (hf : ∀ a ∈ l, ∀ {b M M'}, I M → (f a).run M = some (b, M') →
      M.Extends M' ∧ I M' ∧ Q b a M')
    (hM : I M) (h : (l.mapM f).run M = some (results, M')) :
    M.Extends M' ∧ List.Forall₂ (fun b a => Q b a M') results l := by
  induction l generalizing M results with
  | nil =>
    cases h
    exact ⟨.refl _, .nil⟩
  | cons a l ih =>
    rw [List.mapM_cons] at h
    obtain ⟨b, M₁, hb, h⟩ := run_bind_eq_some h
    obtain ⟨rest, M₂, hrest, h⟩ := run_bind_eq_some h
    cases h
    obtain ⟨hE₁, hM₁, hQ⟩ := hf a List.mem_cons_self hM hb
    obtain ⟨hE₂, hQs⟩ := ih (fun a ha => hf a (List.mem_cons_of_mem _ ha)) hM₁ hrest
    exact ⟨hE₁.trans hE₂, .cons (mono hE₂ hQ) hQs⟩

omit hc in
theorem nameOf_of_run_propertySymbol {owner : TypeId} {name : String} {decl : Option NodeId}
    {source : PropSource} {isOptional : Bool} (hM : M.MembersNamed)
    (h : (propertySymbol owner name decl source isOptional).run M = some (s, M')) :
    M'.MembersNamed ∧ SymbolIn s M' ∧ M'.nameOf s = name := by
  have hM' : M'.MembersNamed := hM.internSymbol (fun _ _ hkey => by cases hkey; rfl) h
  obtain ⟨sym, hs, hkey⟩ := Option.map_eq_some_iff.1 (keyOf?_of_run_internSymbol h)
  refine ⟨hM', (Array.getElem?_eq_some_iff.1 hs).1, ?_⟩
  rw [Memory.nameOf, Memory.symbolOf_of_getElem? hs]
  exact hM'.names s sym owner name hs hkey

/-- The members of a view have the names of the members of the type. -/
theorem listed_of_run_optionalMembers {inner : TypeId} {through : Option SymbolId}
    (hM : M.MembersNamed) (hd : M.dataOf t = .object (.allOptional inner) s through)
    (h : (optionalMembers calls inner t).run M = some (symbols, M')) : M'.Listed t symbols := by
  obtain ⟨bases, M₁, hbases, h⟩ := run_bind_eq_some h
  have hmoved := (hc.membersOf none inner).moves hbases
  have hlisted : M₁.Listed inner bases := listed_of_run_membersOf (p := p) hM hbases
  obtain ⟨hE, hsame⟩ := forall₂_of_run_mapM
    (I := fun N => M₁.Extends N ∧ N.MembersNamed)
    (Q := fun r base N => SymbolIn r N ∧ N.nameOf r = M₁.nameOf base)
    (fun hE h => ⟨h.1.mono hE, (Memory.nameOf_eq hE h.1).trans h.2⟩)
    (fun base hbase r N N' hN hr => by
      have hread : Reads (symbol base) N (N.symbolOf base) := rfl
      rw [hread.run_bind] at hr
      dsimp only at hr
      obtain ⟨u, N₁, hu, hr⟩ := run_bind_eq_some hr
      have hstep := (hc.symbolType none base).moves hu
      obtain ⟨hN', hin, hname⟩ := nameOf_of_run_propertySymbol (hstep.2 hN.2) hr
      have hE := hstep.1.trans (extends_of_run_internSymbol hr)
      exact ⟨hE, ⟨hN.1.trans hE, hN'⟩, hin,
        hname.trans (Memory.nameOf_eq hN.1 (hlisted.lists base hbase))⟩)
    ⟨.refl M₁, hmoved.2 hM⟩ h
  obtain ⟨hlists, hnames⟩ := (List.forall₂_and_left _ _).1 hsame
  have hnames : symbols.map M'.nameOf = bases.map M₁.nameOf := by
    rwa [← List.forall₂_eq_eq_eq, List.forall₂_map_left_iff, List.forall₂_map_right_iff]
  refine ⟨hlists, hlisted.nodup.imp (fun hinner => ?_) fun hnodup => by rwa [hnames]⟩
  exact .view ((hmoved.1.trans hE).dataOf hd TypeData.noConfusion) (hinner.mono hE)

/-! ### Collected members -/

omit hc in
theorem symbolIn_of_run_enumMemberSymbol {r : SymbolId} {node : NodeId}
    (h : (enumMemberSymbol p calls s node).run M = some (r, M')) : SymbolIn r M' := by
  obtain ⟨members, M₁, -, h⟩ := run_bind_eq_some h
  dsimp only at h
  split at h
  all_goals
    obtain ⟨value, M₂, -, h⟩ := run_bind_eq_some h
    exact symbolIn_of_keyOf? (keyOf?_of_run_internSymbol h)

theorem lists_of_run_enumMemberSymbols {enumMembers : List EnumMember}
    (hd : M.dataOf t = .enum s) (hn : ∀ m ∈ enumMembers, M.EnumNode p s m.node)
    (h : (enumMembers.mapM fun m => enumMemberSymbol p calls s m.node).run M =
      some (symbols, M')) :
    M.Extends M' ∧ M'.Lists symbols := by
  obtain ⟨hE, hin⟩ := forall₂_of_run_mapM (I := M.Extends)
    (Q := fun r _ N => SymbolIn r N) (fun hE hr => hr.mono hE)
    (fun m hm r N N' hN hr => by
      have hmoved : (Drift.named p).R (some t) N N' := moves_enumMemberSymbol
        (hN.dataOf hd TypeData.noConfusion) ((hn m hm).mono hN) hr
      exact ⟨hmoved.1, hN.trans hmoved.1, symbolIn_of_run_enumMemberSymbol hr⟩)
    (.refl M) h
  exact ⟨hE, ((List.forall₂_and_left _ _).1 (hin.imp fun _ _ hr => And.intro hr trivial)).1⟩

/-- Members are collected under distinct names, unless they are those of an enum or of a view of
one. -/
theorem listed_of_run_collectMembers (hM : M.MembersNamed)
    (h : (collectMembers p calls t).run M = some (symbols, M')) : M'.Listed t symbols := by
  have built : ∀ {x : Resolve (List SymbolId)} {M}, Builds x M →
      x.run M = some (symbols, M') → M'.Listed t symbols :=
    fun hx hrun => (hx symbols M' hrun).2.listed
  rw [collectMembers, (reads_data t).run_bind] at h
  split at h
  · obtain ⟨env, M₁, henv, h⟩ := run_bind_eq_some h
    have hM₁ := ((moving_bindEnv _ _ : Moving (Drift.named p) none _).moves henv).2 hM
    split at h
    · exact built (builds_interfaceMembers _ _ _ hM₁) h
    · exact built (builds_classMembers _ _ _ hM₁) h
  · exact built (builds_literalMembers _ _ _ hM Memory.distinct_nil) h
  · exact built (builds_objectMembers _ _ hM) h
  · next hd => exact listed_of_run_optionalMembers (p := p) hM hd h
  · -- nothing is merged here, so that two members of one name stay two
    next r hd =>
    obtain ⟨members, M₁, hmembers, h⟩ := run_bind_eq_some h
    have hE := ((moving_enumMembers r : Moving (Drift.named p) none _).moves hmembers).1
    have hd₁ := hE.dataOf hd TypeData.noConfusion
    obtain ⟨hE₁, hlists⟩ := lists_of_run_enumMemberSymbols hd₁
      (fun m hm => (enumNode_of_run hmembers m hm).mono hE) h
    exact ⟨hlists, Or.inl (.enum (hE₁.dataOf hd₁ TypeData.noConfusion))⟩
  · exact built (builds_pure hM Memory.distinct_nil) h

end Collecting

instance collects_named (p : Program) : (Drift.named p).Collects where
  members := by
    intro own M M₁ calls t symbols hc hnone hmark hrun hmoved
    refine ⟨⟨hmoved.1.types, hmoved.1.symbols⟩, fun hM => ?_⟩
    have hmarked : Memory.MembersNamed { M with collecting := t :: M.collecting } :=
      hM.of_same rfl rfl rfl
    exact (hmoved.2 hmarked).remember (listed_of_run_collectMembers hmarked hrun) _

/-! ### Properties -/

theorem Reached.membersNamed (h : Reached p M) : M.MembersNamed := by
  induction h with
  | refl => exact Memory.membersNamed_empty
  | tail _ hstep ih => exact (hstep.drifts (Drift.named p)).2 ih

/-- A type that is like an enum has been so from the start. -/
theorem Memory.EnumLike.of_extends (hM : Sound p M) (hE : M.Extends M') (ht : TypeIn t M)
    (h : M'.EnumLike t) : M.EnumLike t := by
  have same : ∀ {t}, TypeIn t M → M'.dataOf t = M.dataOf t := fun {t} ht => by
    rw [Memory.dataOf_of_getElem? (hE.types t _ (Array.getElem?_eq_getElem ht)),
      Memory.dataOf_of_getElem? (Array.getElem?_eq_getElem ht)]
  induction h with
  | enum hd => exact .enum ((same ht).symm.trans hd)
  | @view t inner s through hd hinner ih =>
    have hd := (same ht).symm.trans hd
    have hlt : inner < t := (hM.fits hd TypeData.noConfusion).2.2.1
    exact .view hd (ih (hlt.trans ht))

/-- The properties of a type other than an enum, or a view of one, have distinct names. -/
theorem distinct_of_run_properties {bound : Nat} (hM : Sound p M) (hnamed : M.MembersNamed)
    (ht : ¬ M.EnumLike t)
    (hrun : ((oracleWithin p bound).properties t).run M = some (symbols, M')) :
    M'.Distinct symbols := by
  replace hrun : (membersOf p (calls p bound) t).run M = some (symbols, M') := hrun
  by_cases htype : TypeIn t M
  · have hmoved := (moving_membersOf t : Moving (Drift.named p) none _).moves hrun
    have hlisted : M'.Listed t symbols := by
      rcases recalls_membersOf hrun with hknown | ⟨-, rfl⟩
      · exact (hmoved.2 hnamed).members _ (mem_of_lookup hknown)
      · exact Memory.distinct_nil.listed
    have hlike : ¬ M'.EnumLike t := fun h => ht (h.of_extends hM hmoved.1 htype)
    exact ⟨hlisted.lists, hlisted.nodup.resolve_left hlike⟩
  · -- a handle that was never given out is that of no type with members
    have hno : ¬ M.HasMembers t := by
      rintro (⟨key, s, through, hd⟩ | ⟨s, hd⟩)
      · exact htype (typeIn_of_getElem? hd)
      · exact htype (typeIn_of_getElem? hd)
    obtain ⟨M₁, hnil⟩ : ∃ M₁, (membersOf p (calls p bound) t).run M = some ([], M₁) :=
      run_membersOf_nil hM hno
    cases hnil.symm.trans hrun
    exact Memory.distinct_nil

/-! ### Programs without enums -/

theorem Memory.not_enumLike (hp : ∀ d ∈ p.nodes, p.kind d ≠ "enum_declaration") (hM : Sound p M) :
    ¬ M.EnumLike t := by
  intro h
  induction h with
  | enum hd =>
    obtain ⟨-, d, -, hkind⟩ := hM.fits hd TypeData.noConfusion
    exact hp d (Program.mem_nodes (by rw [hkind]; decide)) hkind
  | view _ _ ih => exact ih

/-- The names of the symbols of a resolver. -/
def symbolNaming (p : Program) : Naming Memory where
  Good M := Sound p M ∧ M.MembersNamed
  IsNamed M s name := SymbolIn s M ∧ M.nameOf s = name

theorem later_symbolNaming (hM : (symbolNaming p).Good M') (hE : M.Extends M') :
    (symbolNaming p).Later M M' :=
  ⟨hM, fun _ _ hs => ⟨hs.1.mono hE, (Memory.nameOf_eq hE hs.1).trans hs.2⟩⟩

/-- The properties that the resolver of a program without enums finds have distinct names. -/
theorem namesApart_oracleWithin (hp : ∀ d ∈ p.nodes, p.kind d ≠ "enum_declaration") (bound : Nat) :
    (oracleWithin p bound).NamesApart (View.states Memory Option) (symbolNaming p) := by
  have later : ∀ {α : Type} {q : Resolve α} {a : α} {M M' : Memory},
      (oracleWithin p bound).Inquiry q → (symbolNaming p).Good M → q.run M = some (a, M') →
      (symbolNaming p).Later M M' := by
    intro α q a M M' hq hM hrun
    have hkept : Kept p q := hq _ (closed_kept p bound)
    have hmoving : Moving (Drift.named p) none q := hq _ (closed_moving (Drift.named p) bound)
    obtain ⟨hM', -⟩ := ensures_option_iff.1 (hkept M hM.1) a M' hrun
    have hmoved := hmoving.moves hrun
    exact later_symbolNaming ⟨hM', hmoved.2 hM.2⟩ hmoved.1
  constructor
  · exact fun hq hM => View.holds_states_option_iff.2 fun a M' hrun => later hq hM hrun
  · intro s name M hM hs
    refine View.holds_states_option_iff.2 fun found M' hrun => ?_
    have hread : Reads ((oracleWithin p bound).symbolName s) M (M.nameOf s) := rfl
    cases hread.symm.trans hrun
    exact ⟨hs.2, .refl hM⟩
  · intro t M hM
    refine View.holds_states_option_iff.2 fun symbols M' hrun => ?_
    have hdistinct := distinct_of_run_properties hM.1 hM.2 (Memory.not_enumLike hp hM.1) hrun
    refine ⟨later (fun K hK => hK.properties t) hM hrun, _, ?_, hdistinct.nodup⟩
    exact List.forall₂_map_right_iff.2
      (List.forall₂_same.2 fun s hs => ⟨hdistinct.lists s hs, rfl⟩)

/-- **Properties are named once.** Whatever a resolver was asked before, the properties that it
finds for a type have distinct names, unless the type is an enum or a view of one with all members
optional. And when the properties of each type have distinct names, then in all schemas that a
session gives, in those nested in them and in those of the table, the required properties are listed
once and in the order of the properties: for an oracle in any monad in which names are fixed, and
for one with a state in which names only have to stay as they are. -/
theorem properties_named_once :
    (∀ {p : Program} {bound : Nat} {M M' : Memory} {t : TypeId} {symbols : List SymbolId},
      Reached p M → ¬ M.EnumLike t →
      ((oracleWithin p bound).properties t).run M = some (symbols, M') →
      (symbols.map M'.nameOf).Nodup) ∧
    (∀ {m : Type → Type} [Monad m] [LawfulMonad m] (o : Oracle m) (name : SymbolId → String),
      (∀ s, SatisfiesM (· = name s) (o.symbolName s)) →
      (∀ t, SatisfiesM (fun symbols => (symbols.map name).Nodup) (o.properties t)) →
      ∀ requests, Ensures (Schema.session o requests) [] fun log T =>
        (∀ e ∈ log, e.2.Aligned) ∧ ∀ e ∈ T, e.2.Aligned) ∧
    ∀ {σ : Type} {m : Type → Type} [Monad m] [LawfulMonad m] (o : Oracle (StateT σ m))
      (N : Naming σ), o.NamesApart (View.states σ m) N → ∀ w, N.Good w →
      ∀ requests, Ensures ((Schema.session o requests).run []) w fun r _ =>
        (∀ e ∈ r.1, e.2.Aligned) ∧ ∀ e ∈ r.2, e.2.Aligned := by
  refine ⟨fun h ht hrun => ?_, fun o name hname hproperties requests => ?_,
    fun o N ho w hw requests => ?_⟩
  · exact (distinct_of_run_properties h.sound h.membersNamed ht hrun).nodup
  · exact Schema.aligned_session (w := ()) (Oracle.namesApart_fixed hname hproperties) trivial
      requests
  · exact Schema.aligned_session ho hw requests

/-- The program `interface A { id: string; name?: string; id: number }
interface B extends A { name: string }`. -/
def overrideProgram : Program where
  units := #[{
    path := "override.ts"
    nodes := #[
      { kind := "program", named := true, children := [1, 17] },
      { kind := "interface_declaration", named := true, parent := some 0, children := [2, 3] },
      { kind := "type_identifier", field := some "name", named := true, parent := some 1,
        text := "A" },
      { kind := "interface_body", field := some "body", named := true, parent := some 1,
        children := [4, 8, 13] },
      { kind := "property_signature", named := true, parent := some 3, children := [5, 6] },
      { kind := "property_identifier", field := some "name", named := true, parent := some 4,
        text := "id" },
      { kind := "type_annotation", field := some "type", named := true, parent := some 4,
        children := [7] },
      { kind := "predefined_type", named := true, parent := some 6, text := "string" },
      { kind := "property_signature", named := true, parent := some 3, children := [9, 10, 11] },
      { kind := "property_identifier", field := some "name", named := true, parent := some 8,
        text := "name" },
      { kind := "?", parent := some 8 },
      { kind := "type_annotation", field := some "type", named := true, parent := some 8,
        children := [12] },
      { kind := "predefined_type", named := true, parent := some 11, text := "string" },
      { kind := "property_signature", named := true, parent := some 3, children := [14, 15] },
      { kind := "property_identifier", field := some "name", named := true, parent := some 13,
        text := "id" },
      { kind := "type_annotation", field := some "type", named := true, parent := some 13,
        children := [16] },
      { kind := "predefined_type", named := true, parent := some 15, text := "number" },
      { kind := "interface_declaration", named := true, parent := some 0,
        children := [18, 19, 21] },
      { kind := "type_identifier", field := some "name", named := true, parent := some 17,
        text := "B" },
      { kind := "extends_type_clause", named := true, parent := some 17, children := [20] },
      { kind := "type_identifier", field := some "type", named := true, parent := some 19,
        text := "A" },
      { kind := "interface_body", field := some "body", named := true, parent := some 17,
        children := [22] },
      { kind := "property_signature", named := true, parent := some 21, children := [23, 24] },
      { kind := "property_identifier", field := some "name", named := true, parent := some 22,
        text := "name" },
      { kind := "type_annotation", field := some "type", named := true, parent := some 22,
        children := [25] },
      { kind := "predefined_type", named := true, parent := some 24, text := "string" }] }]

/-- The properties of `B` are those of `A`, where the second `id` and the name of `B` take the
places of the first ones; comments have one property. -/
theorem properties_named_once_override :
    (∃ M M' symbols, Reached overrideProgram M ∧ ¬ M.EnumLike 0 ∧
      ((oracleWithin overrideProgram 9).properties 0).run M = some (symbols, M') ∧
      symbols.map M'.nameOf = ["id", "name"] ∧ (symbols.map M'.nameOf).Nodup) ∧
    Ensures (Schema.session Schema.commentOracle [.describe 1, .describe 0]) [] (fun log T =>
      (∀ e ∈ log, e.2.Aligned) ∧ ∀ e ∈ T, e.2.Aligned) ∧
    Ensures ((Schema.session (oracleWithin overrideProgram 9)
        [.ask (.typeAt ⟨0, 18⟩), .describe 0]).run []) {} fun r _ =>
      (∀ e ∈ r.1, e.2.Aligned) ∧ ∀ e ∈ r.2, e.2.Aligned := by
  have hp : ∀ d ∈ overrideProgram.nodes, overrideProgram.kind d ≠ "enum_declaration" := by
    decide +kernel
  refine ⟨?_, ?_, ?_⟩
  · have h : ((((oracleWithin overrideProgram 9).typeAt ⟨0, 18⟩).run {}).bind fun r =>
        (((oracleWithin overrideProgram 9).properties 0).run r.2).map fun q =>
          q.1.map q.2.nameOf) = some ["id", "name"] := by
      decide +kernel
    obtain ⟨⟨t, M⟩, hrun, h⟩ := Option.bind_eq_some_iff.1 h
    obtain ⟨⟨symbols, M'⟩, hproperties, hnames⟩ := Option.map_eq_some_iff.1 h
    have hreached : Reached overrideProgram M :=
      Relation.ReflTransGen.single ⟨9, .typeAt ⟨0, 18⟩, run_discard hrun⟩
    have hlike : ¬ M.EnumLike 0 := Memory.not_enumLike hp hreached.sound
    exact ⟨M, M', symbols, hreached, hlike, hproperties, hnames,
      properties_named_once.1 hreached hlike hproperties⟩
  · refine properties_named_once.2.1 Schema.commentOracle
      (fun s => (Schema.commentOracle.symbolName s).run) (fun s => SatisfiesM_Id_eq.2 rfl)
      (fun t => SatisfiesM_Id_eq.2 ?_) _
    show (List.map _ (if t = 0 then [2] else [])).Nodup
    split
    · exact List.nodup_singleton _
    · exact List.nodup_nil
  · exact properties_named_once.2.2 (oracleWithin overrideProgram 9) (symbolNaming overrideProgram)
      (namesApart_oracleWithin hp 9) {} ⟨sound_empty, Memory.membersNamed_empty⟩ _

end RouteContract.Types
