import Mathlib
import RouteContract.Proofs.Types.Following
import RouteContract.Proofs.Types.MemberNames

/-!
# The members of object expressions

Each element of an object expression declares a property, spreads the members of another value, or
adds nothing (`Element`). What the elements contribute is placed by name, so that each key is listed
once and the last element that has a key decides what is found for it (`LastWins`).

Symbols are interned by type and name, so all elements that declare one key contribute one symbol,
which is that of the first of them: in `{ a: 1, a: "x" }` the property `a` is a number
(`repeated_key_first`). Members that are remembered are composed like this (`Memory.Told`), which is
kept by every move of the memory (`Drift.told`).
-/

namespace RouteContract.Types

variable {p : Program} {M M' : Memory} {own : Option TypeId} {t : TypeId} {s : SymbolId}
  {name : String} {source : PropSource} {sym : Symbol} {member : NodeId}
  {members symbols more : List SymbolId} {elements done looking : List NodeId}
  {collecting : List TypeId} {given : List (List SymbolId)}

/-! ### Elements -/

/-- What an element of an object expression is. -/
inductive Element where
  /-- A property with its key and what it gets its type from. -/
  | own (key : String) (source : PropSource)
  | spread (value : NodeId)
  | other
deriving DecidableEq

/-- What a pair, a shorthand, a method, a spread or something else is. -/
def element (p : Program) (member : NodeId) : Element :=
  match p.kind member with
  | "pair" =>
    match memberName? p member "key", p.field? member "value" with
    | some key, some value => .own key (.value value)
    | _, _ => .other
  | "shorthand_property_identifier" => .own (p.text member) (.value member)
  | "method_definition" =>
    match memberName? p member "name" with
    | some key => .own key (.method member)
    | none => .other
  | "spread_element" =>
    match (p.namedChildren member).head? with
    | some value => .spread value
    | none => .other
  | _ => .other

theorem objectMember_eq (p : Program) (calls : Calls) (owner : TypeId) (members : List SymbolId)
    (member : NodeId) : objectMember p calls owner members member =
      match element p member with
      | .own key source =>
        propertySymbol owner key (some member) source false >>= pushMember members
      | .spread value => do pushMembers members (← calls.membersOf (← calls.valueType value))
      | .other => pure members := by
  unfold objectMember element
  generalize p.kind member = kind
  split
  · cases memberName? p member "key" <;> cases p.field? member "value" <;> rfl
  · rfl
  · cases memberName? p member "name" <;> rfl
  · cases (p.namedChildren member).head? <;> rfl
  · simp only

/-- The symbol that an element has for its own property, if that has the name. -/
def ownSymbol? (p : Program) (t : TypeId) (name : String) (member : NodeId) : Option Symbol :=
  match element p member with
  | .own key source =>
    if key = name then some ⟨.property t name, name, .property t (some member) source false⟩
    else none
  | _ => none

/-- What an element contributes to the members of a type, while some expressions were looked for and
some members collected. All own properties of a name have the symbol of the first one. -/
inductive Contributes (p : Program) (M : Memory) (t : TypeId) (elements looking : List NodeId)
    (collecting : List TypeId) : NodeId → List SymbolId → Prop
  | own {member : NodeId} {key : String} {source : PropSource} {sym : Symbol} {s : SymbolId}
      (helement : element p member = .own key source)
      (hfirst : elements.findSome? (ownSymbol? p t key) = some sym)
      (hs : M.symbols[s]? = some sym) :
      Contributes p M t elements looking collecting member [s]
  | spread {member value : NodeId} {u : TypeId} {symbols : List SymbolId}
      (helement : element p member = .spread value) (hvalue : M.GivesType looking value u)
      (hmembers : M.GivesMembers collecting u symbols) :
      Contributes p M t elements looking collecting member symbols
  | other {member : NodeId} (helement : element p member = .other) :
      Contributes p M t elements looking collecting member []

/-- Some elements of an object expression were taken, and what they contribute is placed. -/
structure Composed (p : Program) (M : Memory) (t : TypeId) (elements looking : List NodeId)
    (collecting : List TypeId) (done : List NodeId) (given : List (List SymbolId))
    (members : List SymbolId) : Prop where
  contributes : List.Forall₂ (Contributes p M t elements looking collecting) done given
  lists : M.Lists given.flatten
  wins : LastWins M.nameOf given.flatten members

theorem Contributes.mono (h : Contributes p M t elements looking collecting member symbols)
    (hw : M.Within M') : Contributes p M' t elements looking collecting member symbols := by
  cases h with
  | own helement hfirst hs => exact .own helement hfirst (hw.tables.symbols _ _ hs)
  | spread helement hvalue hmembers =>
    exact .spread helement (hvalue.mono hw) (hmembers.mono hw)
  | other helement => exact .other helement

theorem Composed.mono (h : Composed p M t elements looking collecting done given members)
    (hw : M.Within M') : Composed p M' t elements looking collecting done given members where
  contributes := h.contributes.imp fun _ _ hc => hc.mono hw
  lists := h.lists.mono hw.tables
  wins := h.wins.congr fun s hs => Memory.nameOf_eq hw.tables (h.lists s hs)

theorem Composed.add (h : Composed p M t elements looking collecting done given members)
    (hmember : Contributes p M t elements looking collecting member more) (hmore : M.Lists more) :
    Composed p M t elements looking collecting (done ++ [member]) (given ++ [more])
      (more.foldl (fun l s => place M.nameOf s l) members) where
  contributes := List.rel_append h.contributes (.cons hmember .nil)
  lists := by
    rw [List.flatten_append, List.flatten_singleton]
    exact List.forall_mem_append.2 ⟨h.lists, hmore⟩
  wins := by
    rw [List.flatten_append, List.flatten_singleton]
    exact h.wins.foldl_place more

/-! ### The symbols of properties -/

/-- The symbol that is keyed as a property of a type is one. -/
def Memory.Keyed (M : Memory) : Prop :=
  ∀ (s : SymbolId) sym owner name, M.symbols[s]? = some sym → sym.key = .property owner name →
    ∃ decl source isOptional, sym.kind = .property owner decl source isOptional

/-- A symbol is entered only when there is none of its key. -/
theorem new_of_run_internSymbol (h : (internSymbol sym).run M = some (s, M')) {r : SymbolId}
    {found : Symbol} (hr : M'.symbols[r]? = some found) :
    M.symbols[r]? = some found ∨
      found = sym ∧ ∀ (q : SymbolId) old, M.symbols[q]? = some old → old.key ≠ sym.key := by
  rw [run_internSymbol_eq] at h
  split at h
  · cases h
    exact Or.inl hr
  next hnone =>
  cases h
  rw [Array.getElem?_push] at hr
  split at hr
  · refine Or.inr ⟨(Option.some.inj hr).symm, fun q old hq hkey => ?_⟩
    have hne := Array.findIdx?_eq_none_iff.1 hnone old (Array.mem_of_getElem? hq)
    simp [hkey] at hne
  · exact Or.inl hr

theorem members_of_run_internSymbol (h : (internSymbol sym).run M = some (s, M')) :
    M'.members = M.members := by
  rw [run_internSymbol_eq] at h
  split at h
  · cases h
    rfl
  · cases h
    rfl

theorem Memory.Keyed.internSymbol (h : M.Keyed)
    (hsym : ∀ owner name, sym.key = .property owner name →
      ∃ decl source isOptional, sym.kind = .property owner decl source isOptional)
    (hrun : (internSymbol sym).run M = some (s, M')) : M'.Keyed := by
  intro r found owner name hr hkey
  rcases new_of_run_internSymbol hrun hr with hold | ⟨rfl, -⟩
  · exact h r found owner name hold hkey
  · exact hsym owner name hkey

theorem Moves.keyed (h : Moves p own M M') (hM : M.Keyed) : M'.Keyed := by
  have same : ∀ {M M' : Memory}, M'.symbols = M.symbols → M.Keyed → M'.Keyed := by
    intro M M' hs hM
    rw [Memory.Keyed, hs]
    exact hM
  induction h with
  | refl M => exact hM
  | trans h h' ih ih' => exact ih' (ih hM)
  | type hd hrun => exact same (symbols_of_run_intern hrun).1 hM
  | union hrun => exact same (symbols_of_run_makeUnion hrun).1 hM
  | symbol hsym hrun =>
    exact hM.internSymbol (fun owner name hkey => absurd hkey (hsym.key owner name)) hrun
  | property hrun =>
    refine hM.internSymbol (fun owner name hkey => ?_) hrun
    cases hkey
    exact ⟨_, _, _, rfl⟩
  | enumMember hd hn hrun => exact hM.internSymbol (fun _ _ hkey => by cases hkey) hrun
  | value hnone hmark h ih => exact ih hM
  | synonym hnone hmark h ih => exact ih hM
  | members hnone hmark h ih => exact ih hM

theorem Moves.within (h : Moves p own M M') : M.Within M' :=
  Memory.within_of_resumes h.extends h.grows.resumes

/-- The symbol of a property is owned by the type of the property. -/
theorem Memory.Owns.eq_of_kind {u : TypeId} {decl : Option NodeId} {isOptional : Bool}
    (h : M.Owns p u sym) (hkind : sym.kind = .property t decl source isOptional) : u = t := by
  rcases h with ⟨_, _, _, h⟩ | ⟨_, _, _, h, -⟩
  · cases hkind.symm.trans h
    rfl
  · cases hkind.symm.trans h

/-- The type of a property is marked or has its answer before there is a symbol of the property. -/
theorem Memory.Claimed.key_ne (h : M.Claimed p) (hkeyed : M.Keyed)
    (hmark : t ∉ M.collecting) (hnone : M.members.lookup t = none)
    (hs : M.symbols[s]? = some sym) (name : String) : sym.key ≠ .property t name := by
  intro hkey
  obtain ⟨decl, source, isOptional, hkind⟩ := hkeyed s sym t name hs hkey
  obtain ⟨u, hu, hclaim⟩ := h s sym hs (by rw [hkind]; trivial)
  rw [hu.eq_of_kind hkind] at hclaim
  rcases hclaim with hmarked | hanswer
  · exact hmark hmarked
  · exact hanswer hnone

/-! ### The first element of a key -/

/-- For each key there is the symbol of the first of some elements that has it, and no other. -/
def Firsts (p : Program) (M : Memory) (t : TypeId) (done : List NodeId) : Prop :=
  ∀ name sym, done.findSome? (ownSymbol? p t name) = some sym ↔
    ∃ s : SymbolId, M.symbols[s]? = some sym ∧ sym.key = .property t name

theorem ownSymbol?_of_own {key : String} (helement : element p member = .own key source) :
    ownSymbol? p t name member =
      if key = name then some ⟨.property t name, name, .property t (some member) source false⟩
      else none := by
  rw [ownSymbol?, helement]

/-- An element that declares nothing changes nothing. -/
theorem Firsts.skip (h : Firsts p M t done) (hmember : ∀ name, ownSymbol? p t name member = none) :
    Firsts p M t (done ++ [member]) := by
  intro name sym
  rw [List.findSome?_append, List.findSome?_singleton, hmember, Option.or_none]
  exact h name sym

/-- While the members of a type are being collected nothing else makes symbols for them. -/
theorem Firsts.grows (h : Firsts p M t done) (hg : M.Grows p none M') (hmark : t ∈ M.collecting)
    (hkeyed : M'.Keyed) : Firsts p M' t done := by
  intro name sym
  rw [h name sym]
  refine ⟨fun ⟨s, hs, hkey⟩ => ⟨s, hg.tables.symbols s sym hs, hkey⟩, fun ⟨s, hs, hkey⟩ => ?_⟩
  refine ⟨s, ?_, hkey⟩
  obtain ⟨decl, source, isOptional, hkind⟩ := hkeyed s sym t name hs hkey
  by_contra hnew
  obtain ⟨u, hut, hu⟩ := hg.not_owns hmark hs (by rw [hkind]; trivial) hnew
  exact hut (hu.eq_of_kind hkind)

/-- The symbol of a property is entered by the first element that has its key. -/
theorem Firsts.declare (h : Firsts p M t done) (helement : element p member = .own name source)
    (hrun : (propertySymbol t name (some member) source false).run M = some (s, M')) :
    Firsts p M' t (done ++ [member]) := by
  have hE : M.Extends M' := extends_of_run_internSymbol hrun
  intro other sym
  rw [List.findSome?_append, List.findSome?_singleton, ownSymbol?_of_own helement]
  constructor
  · intro hsym
    rcases Option.or_eq_some_iff.1 hsym with hdone | ⟨hdone, hmember⟩
    · obtain ⟨r, hr, hkey⟩ := (h other sym).1 hdone
      exact ⟨r, hE.symbols r sym hr, hkey⟩
    · -- the first one of its key, whose symbol is new
      obtain ⟨rfl, hsym⟩ := Option.ite_none_right_eq_some.1 hmember
      cases hsym
      obtain ⟨found, hfound, hkey⟩ := Option.map_eq_some_iff.1 (keyOf?_of_run_internSymbol hrun)
      rcases new_of_run_internSymbol hrun hfound with hold | ⟨rfl, -⟩
      · rw [(h _ found).2 ⟨s, hold, hkey⟩] at hdone
        cases hdone
      · exact ⟨s, hfound, rfl⟩
  · rintro ⟨r, hr, hkey⟩
    rcases new_of_run_internSymbol hrun hr with hold | ⟨rfl, hnew⟩
    · exact Option.or_eq_some_iff.2 (Or.inl ((h other sym).2 ⟨r, hold, hkey⟩))
    · cases hkey
      refine Option.or_eq_some_iff.2 (Or.inr ⟨?_, if_pos rfl⟩)
      rw [Option.eq_none_iff_forall_ne_some]
      intro old hold
      obtain ⟨q, hq, hqkey⟩ := (h _ old).1 hold
      exact hnew q old hq hqkey

/-! ### Composing -/

/-- The state of the loop over the elements of an object expression. -/
structure Composing (p : Program) (M : Memory) (t : TypeId) (elements looking : List NodeId)
    (collecting : List TypeId) (done : List NodeId) (given : List (List SymbolId))
    (members : List SymbolId) : Prop
    extends Composed p M t elements looking collecting done given members where
  named : M.MembersNamed
  keyed : M.Keyed
  inferring_eq : M.inferring = looking
  collecting_eq : M.collecting = collecting
  firsts : Firsts p M t done

section Composing

variable {calls : Calls} [hm : calls.Moving (Drift.moves p)] [hn : calls.Moving (Drift.named p)]
include hm hn

/-- What an element contributes is added to what the elements before it contribute. -/
theorem Composing.step {rest : List NodeId}
    (h : Composing p M t elements looking collecting done given members)
    (hmark : t ∈ collecting) (helements : elements = done ++ member :: rest)
    (hrun : (objectMember p calls t members member).run M = some (symbols, M')) :
    ∃ more, Composing p M' t elements looking collecting (done ++ [member]) (given ++ [more])
      symbols := by
  have hmoved : Moves p (some t) M M' :=
    (moving_objectMember t members member : Moving (Drift.moves p) (some t) _).moves hrun
  have hnamed : M'.MembersNamed :=
    ((moving_objectMember t members member : Moving (Drift.named p) (some t) _).moves hrun).2
      h.named
  have hresumes := hmoved.grows.resumes
  have composing : ∀ {more},
      Composed p M' t elements looking collecting (done ++ [member]) (given ++ [more]) symbols →
      Firsts p M' t (done ++ [member]) →
      Composing p M' t elements looking collecting (done ++ [member]) (given ++ [more]) symbols :=
    fun hcomposed hfirsts => ⟨hcomposed, hnamed, hmoved.keyed h.keyed,
      hresumes.inferring.trans h.inferring_eq, hresumes.collecting.trans h.collecting_eq, hfirsts⟩
  rw [objectMember_eq] at hrun
  cases helement : element p member with
  | own key source =>
    rw [helement] at hrun
    obtain ⟨s, M₁, hs, hpush⟩ := run_bind_eq_some hrun
    cases (reads_pushMember M₁ members s).symm.trans hpush
    have hfirsts := h.firsts.declare helement hs
    obtain ⟨sym, hsym, hkey⟩ := Option.map_eq_some_iff.1 (keyOf?_of_run_internSymbol hs)
    have hfirst : elements.findSome? (ownSymbol? p t key) = some sym := by
      rw [helements, List.append_cons, List.findSome?_append, (hfirsts key sym).2 ⟨s, hsym, hkey⟩,
        Option.some_or]
    have hlists : M'.Lists [s] := List.forall_mem_singleton.2 (Array.getElem?_eq_some_iff.1 hsym).1
    exact ⟨[s], composing ((h.toComposed.mono hmoved.within).add (.own helement hfirst hsym) hlists)
      hfirsts⟩
  | spread value =>
    rw [helement] at hrun
    obtain ⟨u, M₁, hu, hrun⟩ := run_bind_eq_some hrun
    obtain ⟨more, M₂, hmore, hpush⟩ := run_bind_eq_some hrun
    cases (reads_pushMembers M₂ members more).symm.trans hpush
    have hfound : Moves p none M M₁ := (hm.valueType none value).moves hu
    have hcollected : Moves p none M₁ M' := (hm.membersOf none u).moves hmore
    have hnamed₁ : M₁.MembersNamed := ((hn.valueType none value).moves hu).2 h.named
    have hvalue : M'.GivesType looking value u :=
      h.inferring_eq ▸ (hm.infers hu).mono hcollected.within
    have hmembers : M'.GivesMembers collecting u more := by
      have hsame := hfound.grows.resumes.collecting.trans h.collecting_eq
      exact hsame ▸ hm.recalls hmore
    have hlists : M'.Lists more := (listed_of_run_membersOf (p := p) hnamed₁ hmore).lists
    have hfirsts : Firsts p M' t done :=
      h.firsts.grows (hfound.trans hcollected).grows (h.collecting_eq ▸ hmark)
        (hmoved.keyed h.keyed)
    exact ⟨more, composing
      ((h.toComposed.mono hmoved.within).add (.spread helement hvalue hmembers) hlists)
      (hfirsts.skip fun name => by simp [ownSymbol?, helement])⟩
  | other =>
    rw [helement] at hrun
    cases hrun
    exact ⟨[], composing (h.toComposed.add (.other helement) fun _ h => absurd h List.not_mem_nil)
      (h.firsts.skip fun name => by simp [ownSymbol?, helement])⟩

theorem Composing.run {rest : List NodeId}
    (h : Composing p M t elements looking collecting done given members)
    (hmark : t ∈ collecting) (helements : elements = done ++ rest)
    (hrun : (rest.foldlM (objectMember p calls t) members).run M = some (symbols, M')) :
    ∃ given, Composing p M' t elements looking collecting elements given symbols := by
  induction rest generalizing M done given members with
  | nil =>
    cases hrun
    rw [List.append_nil] at helements
    exact ⟨given, helements ▸ h⟩
  | cons member rest ih =>
    rw [List.foldlM_cons] at hrun
    obtain ⟨next, M₁, hstep, hrest⟩ := run_bind_eq_some hrun
    obtain ⟨more, hnext⟩ := h.step hmark helements hstep
    exact ih hnext (by rw [helements, List.append_cons]) hrest

/-- The members of an object expression are composed of what its elements contribute, when there are
no symbols for them yet. -/
theorem composed_of_run_objectMembers {node : NodeId} (hnamed : M.MembersNamed) (hkeyed : M.Keyed)
    (hmark : t ∈ M.collecting)
    (hnew : ∀ (s : SymbolId) sym name, M.symbols[s]? = some sym → sym.key ≠ .property t name)
    (hrun : (objectMembers p calls node t).run M = some (symbols, M')) :
    ∃ given, Composed p M' t (p.namedChildren node) M.inferring M.collecting
      (p.namedChildren node) given symbols := by
  have hstart : Composing p M t (p.namedChildren node) M.inferring M.collecting [] [] [] :=
    { contributes := .nil
      lists := fun _ h => absurd h List.not_mem_nil
      wins := lastWins_nil
      named := hnamed
      keyed := hkeyed
      inferring_eq := rfl
      collecting_eq := rfl
      firsts := fun name sym =>
        ⟨fun h => absurd h (Option.some_ne_none sym).symm,
          fun ⟨s, hs, hkey⟩ => absurd hkey (hnew s sym name hs)⟩ }
  obtain ⟨given, h⟩ := hstart.run hmark rfl hrun
  exact ⟨given, h.toComposed⟩

end Composing

/-! ### What is remembered -/

namespace Memory

/-- Members are composed of what the elements of an object expression contribute, while some
expressions were looked for and some members collected. -/
def Described (p : Program) (M : Memory) (t : TypeId) (node : NodeId) (symbols : List SymbolId) :
    Prop :=
  ∃ looking collecting given, Composed p M t (p.namedChildren node) looking collecting
    (p.namedChildren node) given symbols

/-- If a type is that of an object expression, its members are composed of what the elements
contribute. No members are remembered for a handle that was asked for before it was given out. -/
def Explains (p : Program) (M : Memory) (t : TypeId) (symbols : List SymbolId) : Prop :=
  symbols = [] ∨ TypeIn t M ∧ ∀ node s through,
    M.dataOf t = .object (.value node) s through → M.Described p t node symbols

/-- All members that are remembered are composed of what the elements contribute. -/
def Told (p : Program) (M : Memory) : Prop := ∀ e ∈ M.members, M.Explains p e.1 e.2

/-- What is needed of a memory for members to be composed as the elements say. -/
structure Settled (p : Program) (M : Memory) : Prop where
  named : M.MembersNamed
  keyed : M.Keyed
  claimed : M.Claimed p
  told : M.Told p

theorem Described.mono {node : NodeId} (h : M.Described p t node symbols) (hw : M.Within M') :
    M'.Described p t node symbols := by
  obtain ⟨looking, collecting, given, h⟩ := h
  exact ⟨looking, collecting, given, h.mono hw⟩

theorem Explains.mono (h : M.Explains p t symbols) (hw : M.Within M') :
    M'.Explains p t symbols := by
  refine h.imp_right fun ⟨ht, hdescribed⟩ => ⟨ht.mono hw.tables, fun node s through hd => ?_⟩
  rw [hw.tables.dataOf_eq ht] at hd
  exact (hdescribed node s through hd).mono hw

theorem Told.mono (h : M.Told p) (hw : M.Within M') (hm : M'.members = M.members) :
    M'.Told p := by
  intro e he
  rw [hm] at he
  exact (h e he).mono hw

theorem settled_empty : ({} : Memory).Settled p where
  named := membersNamed_empty
  keyed s sym owner name hs := by simp at hs
  claimed s sym hs := by simp at hs
  told e he := absurd he List.not_mem_nil

/-- Members that are being collected belong to the type that is given. -/
def Guards (own : Option TypeId) (M : Memory) : Prop := ∀ t, own = some t → t ∈ M.collecting

/-- A memory that looks for more is settled, too. -/
theorem Settled.mark (h : M.Settled p) (inferring : List NodeId) (resolving : List AliasKey)
    {collecting : List TypeId} (hc : M.collecting ⊆ collecting) :
    Settled p { M with inferring, resolving, collecting } where
  named := h.named.of_same rfl rfl rfl
  keyed := h.keyed
  claimed s sym hs hk := by
    obtain ⟨t, ht, hclaim⟩ := h.claimed s sym hs hk
    exact ⟨t, ht, hclaim.imp_left fun ht => hc ht⟩
  told := h.told.mono ⟨extends_of_tables rfl rfl, fun _ _ => id, fun _ _ => id, fun _ _ => id⟩ rfl

end Memory

/-- A memory that moves, and in which members stay composed as the elements say. -/
structure Tells (p : Program) (own : Option TypeId) (M M' : Memory) : Prop where
  moves : Moves p own M M'
  named : M.MembersNamed → M'.MembersNamed
  told : M.Guards own → M.Settled p → M'.Told p

theorem Tells.toNamed (h : Tells p own M M') : (Drift.named p).R own M M' :=
  ⟨h.moves.extends, h.named⟩

theorem Tells.settled (h : Tells p own M M') (hown : M.Guards own) (hM : M.Settled p) :
    M'.Settled p where
  named := h.named hM.named
  keyed := h.moves.keyed hM.keyed
  claimed := hM.claimed.grows h.moves.grows hown
  told := h.told hown hM

theorem Tells.trans {M₁ M₂ M₃ : Memory} (h : Tells p own M₁ M₂) (h' : Tells p own M₂ M₃) :
    Tells p own M₁ M₃ where
  moves := h.moves.trans h'.moves
  named := h'.named ∘ h.named
  told hown hM := by
    have hown₂ : M₂.Guards own := fun t ht => h.moves.grows.resumes.collecting ▸ hown t ht
    exact h'.told hown₂ (h.settled hown hM)

/-- Nothing is remembered by a move of the tables. -/
theorem Tells.of_same (hmoves : Moves p own M M') (hnamed : (Drift.named p).R own M M')
    (hm : M'.members = M.members) : Tells p own M M' :=
  ⟨hmoves, hnamed.2, fun _ hM => hM.told.mono hmoves.within hm⟩

/-- The type of an expression is found and remembered. -/
theorem Tells.value {M₁ : Memory} {node : NodeId} (hnone : M.nodeTypes.lookup node = none)
    (hmark : node ∉ M.inferring)
    (h : Tells p own { M with inferring := node :: M.inferring } M₁) :
    Tells p own M { M₁ with
      inferring := M₁.inferring.erase node
      nodeTypes := (node, t) :: M₁.nodeTypes } where
  moves := .value hnone hmark h.moves
  named hM := (h.named (hM.of_same rfl rfl rfl)).of_same rfl rfl rfl
  told hown hM := by
    have hnone₁ : M₁.nodeTypes.lookup node = none :=
      (h.moves.grows.resumes.nodeTypes.lookup_of_mem List.mem_cons_self).trans hnone
    exact (h.told hown (hM.mark _ _ (List.Subset.refl _))).mono
      ⟨Memory.extends_of_tables rfl rfl, fun _ _ => id, fun _ _ => id,
        fun _ _ => Lookup.lookup_cons_of_none hnone₁⟩ rfl

/-- The type of an alias is found and remembered. -/
theorem Tells.synonym {M₁ : Memory} {key : AliasKey} (hnone : M.aliases.lookup key = none)
    (hmark : key ∉ M.resolving)
    (h : Tells p own { M with resolving := key :: M.resolving } M₁) :
    Tells p own M { M₁ with
      resolving := M₁.resolving.erase key
      aliases := (key, t) :: M₁.aliases } where
  moves := .synonym hnone hmark h.moves
  named hM := (h.named (hM.of_same rfl rfl rfl)).of_same rfl rfl rfl
  told hown hM := by
    have hnone₁ : M₁.aliases.lookup key = none :=
      (h.moves.grows.resumes.aliases.lookup_of_mem List.mem_cons_self).trans hnone
    exact (h.told hown (hM.mark _ _ (List.Subset.refl _))).mono
      ⟨Memory.extends_of_tables rfl rfl, fun _ _ => id,
        fun _ _ => Lookup.lookup_cons_of_none hnone₁, fun _ _ => id⟩ rfl

/-- Members stay composed as the elements of object expressions say. -/
def Drift.told (p : Program) : Drift p where
  R := Tells p
  refl _ M := ⟨.refl M, id, fun _ hM => hM.told⟩
  trans := Tells.trans
  extend h := h.moves.extends
  type hd hrun := .of_same (.type hd hrun) ((Drift.named p).type hd hrun)
    (symbols_of_run_intern hrun).2
  union hrun := .of_same (.union hrun) ((Drift.named p).union hrun)
    (symbols_of_run_makeUnion hrun).2
  symbol hsym hrun := .of_same (.symbol hsym hrun) ((Drift.named p).symbol hsym hrun)
    (members_of_run_internSymbol hrun)
  property hrun := .of_same (.property hrun) ((Drift.named p).property hrun)
    (members_of_run_internSymbol hrun)
  enumMember hd hn hrun := .of_same (.enumMember hd hn hrun)
    ((Drift.named p).enumMember hd hn hrun) (members_of_run_internSymbol hrun)
  value := Tells.value
  synonym := Tells.synonym

section Collecting

variable {calls : Calls} [hc : calls.Moving (Drift.told p)] {M₁ : Memory}
  {through : Option SymbolId} {node : NodeId}
include hc

theorem moving_moves_of_told : calls.Moving (Drift.moves p) := hc.of_le Tells.moves

theorem moving_named_of_told : calls.Moving (Drift.named p) := hc.of_le Tells.toNamed

/-- The members that are collected of the type of an object expression. -/
theorem composed_of_run_collectMembers (hM : M.Settled p) (hnone : M.members.lookup t = none)
    (hmark : t ∉ M.collecting) (hd : M.dataOf t = .object (.value node) s through)
    (hrun : (collectMembers p calls t).run { M with collecting := t :: M.collecting } =
      some (symbols, M₁)) :
    ∃ given, Composed p M₁ t (p.namedChildren node) M.inferring (t :: M.collecting)
      (p.namedChildren node) given symbols := by
  have hmoves : calls.Moving (Drift.moves p) := moving_moves_of_told
  have hnames : calls.Moving (Drift.named p) := moving_named_of_told
  have hmarked := hM.mark M.inferring M.resolving (List.subset_cons_self t M.collecting)
  have hdata : Memory.dataOf { M with collecting := t :: M.collecting } t =
      .object (.value node) s through := hd
  rw [collectMembers, (reads_data t).run_bind, hdata] at hrun
  exact composed_of_run_objectMembers hmarked.named hmarked.keyed List.mem_cons_self
    (fun s sym name hs => hM.claimed.key_ne hM.keyed hmark hnone hs name) hrun

omit hc in
/-- There are no members of a handle that was not given out. -/
theorem nil_of_run_collectMembers
    (hrun : (collectMembers p calls t).run M = some (symbols, M₁)) (ht : ¬ TypeIn t M) :
    symbols = [] := by
  have hdata : M.dataOf t = .any := by
    by_contra h
    exact ht (typeIn_of_getElem? (Memory.getElem?_of_dataOf rfl h))
  rw [collectMembers, (reads_data t).run_bind, hdata] at hrun
  cases hrun
  rfl

omit hc in
/-- What was remembered stays so when the members that were collected are remembered. -/
theorem Moves.within_members
    (h : Moves p (some t) { M with collecting := t :: M.collecting } M₁)
    (hnone : M.members.lookup t = none) (symbols : List SymbolId) (collecting : List TypeId) :
    M₁.Within { M₁ with collecting, members := (t, symbols) :: M₁.members } := by
  have hnone₁ : M₁.members.lookup t = none :=
    (h.grows.resumes.members.lookup_of_mem List.mem_cons_self).trans hnone
  exact ⟨Memory.extends_of_tables rfl rfl, fun _ _ => Lookup.lookup_cons_of_none hnone₁,
    fun _ _ => id, fun _ _ => id⟩

/-- The members of a type are collected and remembered. -/
theorem Tells.collect (hnone : M.members.lookup t = none) (hmark : t ∉ M.collecting)
    (hrun : (collectMembers p calls t).run { M with collecting := t :: M.collecting } =
      some (symbols, M₁))
    (h : Tells p (some t) { M with collecting := t :: M.collecting } M₁) :
    Tells p own M { M₁ with
      collecting := M₁.collecting.erase t
      members := (t, symbols) :: M₁.members } where
  moves := .members hnone hmark h.moves
  named := by
    have hnames : calls.Moving (Drift.named p) := moving_named_of_told
    have hcollected : (Drift.named p).R own M _ :=
      (collects_named p).members hnames hnone hmark hrun h.toNamed
    exact hcollected.2
  told _ hM := by
    have hw := h.moves.within_members hnone symbols (M₁.collecting.erase t)
    have hmarked := hM.mark M.inferring M.resolving (List.subset_cons_self t M.collecting)
    have hguards : Memory.Guards (some t) { M with collecting := t :: M.collecting } := by
      rintro _ ⟨⟩
      exact List.mem_cons_self
    intro e he
    rcases List.mem_cons.1 he with rfl | he
    · by_cases ht : TypeIn t M
      · have hE : M.Extends M₁ := ⟨h.moves.extends.types, h.moves.extends.symbols⟩
        refine Or.inr ⟨(ht.mono hE).mono hw.tables, fun node s through hd => ?_⟩
        rw [hw.tables.dataOf_eq (ht.mono hE), hE.dataOf_eq ht] at hd
        obtain ⟨given, hcomposed⟩ := composed_of_run_collectMembers hM hnone hmark hd hrun
        exact ⟨_, _, given, hcomposed.mono hw⟩
      · exact Or.inl (nil_of_run_collectMembers hrun ht)
    · exact (h.told hguards hmarked e he).mono hw

end Collecting

instance collects_told (p : Program) : (Drift.told p).Collects where
  members := by
    intro own M M₁ calls t symbols hc hnone hmark hrun h
    exact Tells.collect hnone hmark hrun h

theorem Reached.settled (h : Reached p M) : M.Settled p := by
  induction h with
  | refl => exact Memory.settled_empty
  | tail _ hstep ih => exact (hstep.drifts (Drift.told p)).settled (fun _ h => by cases h) ih

/-! ### The properties of object expressions -/

theorem reads_findNamed (M : Memory) (name : String) (symbols : List SymbolId) :
    Reads (findNamed name symbols) M (symbols.find? (M.nameOf · = name)) := by
  induction symbols with
  | nil => exact reads_pure none
  | cons s rest ih =>
    have hsym : Reads (symbol s) M (M.symbolOf s) := rfl
    refine hsym.bind ?_
    rw [List.find?_cons]
    by_cases hname : (M.symbolOf s).name = name
    · have hfound : decide (M.nameOf s = name) = true := decide_eq_true hname
      rw [if_pos hname, hfound]
      exact reads_pure (some s)
    · have hother : decide (M.nameOf s = name) = false := decide_eq_false hname
      rw [if_neg hname, hother]
      exact ih

/-- An element whose key no other one declares is the first one that declares it. -/
theorem findSome?_ownSymbol?_of_once {key : String} (hmember : member ∈ elements)
    (helement : element p member = .own key source)
    (honce : ∀ other ∈ elements, ∀ source', element p other = .own key source' → other = member) :
    elements.findSome? (ownSymbol? p t key) =
      some ⟨.property t key, key, .property t (some member) source false⟩ := by
  have hself : ownSymbol? p t key member =
      some ⟨.property t key, key, .property t (some member) source false⟩ :=
    (ownSymbol?_of_own helement).trans (if_pos rfl)
  induction elements with
  | nil => cases hmember
  | cons first rest ih =>
    by_cases hfirst : first = member
    · subst hfirst
      rw [List.findSome?_cons, hself]
    · have hnone : ownSymbol? p t key first = none := by
        unfold ownSymbol?
        split
        · next key' source' hown =>
          refine if_neg fun hkey => hfirst (honce first List.mem_cons_self source' ?_)
          rw [hown, hkey]
        · rfl
      rw [List.findSome?_cons, hnone]
      exact ih ((List.mem_cons.1 hmember).resolve_left (Ne.symm hfirst))
        fun other hother => honce other (List.mem_cons_of_mem _ hother)

/-- **The last element wins.** Whatever a resolver was asked before, the properties that it finds
for an object expression are composed of what the elements contribute, one after the other: each key
is listed once, in the order of first occurrence, and the property that is found for a key is the
last one that is contributed for it, be it by a pair, a shorthand, a method or a spread. A spread
contributes all members of the type of its value, unless it is met in a circle; when the properties
are asked for the first time that can only be one that leads back to the object itself. A pair, a
shorthand or a method contributes its own property when no other one of them has its key; else that
of the first of them. Only a handle that was asked for before it was given out may have been
remembered without members. -/
theorem object_last_wins {bound : Nat} {node : NodeId} {through : Option SymbolId}
    (hM : Reached p M) (hd : M.dataOf t = .object (.value node) s through)
    (hrun : ((oracleWithin p bound).properties t).run M = some (symbols, M'))
    (hasked : symbols ≠ [] ∨ M.members.lookup t = none) :
    (∃ looking collecting given,
      Composed p M' t (p.namedChildren node) looking collecting (p.namedChildren node) given
        symbols ∧
      (∀ key, Reads (findNamed key symbols) M'
        (given.flatten.reverse.find? (M'.nameOf · = key))) ∧
      (M.members.lookup t = none → looking = [] ∧ collecting = [t])) ∧
    ∀ member ∈ p.namedChildren node, ∀ key source, element p member = .own key source →
      (∀ other ∈ p.namedChildren node, ∀ source', element p other = .own key source' →
        other = member) →
      (p.namedChildren node).findSome? (ownSymbol? p t key) =
        some ⟨.property t key, key, .property t (some member) source false⟩ := by
  refine ⟨?_, fun member hmember key source helement honce =>
    findSome?_ownSymbol?_of_once hmember helement honce⟩
  have hsettled := hM.settled
  have hidle := hM.idle
  have hreads : ∀ {given : List (List SymbolId)} {looking collecting},
      Composed p M' t (p.namedChildren node) looking collecting (p.namedChildren node) given
        symbols →
      ∀ key, Reads (findNamed key symbols) M' (given.flatten.reverse.find? (M'.nameOf · = key)) :=
    fun hcomposed key => hcomposed.wins.found key ▸ reads_findNamed M' key symbols
  replace hrun : (membersOf p (calls p bound) t).run M = some (symbols, M') := hrun
  rw [membersOf, reads_get.run_bind] at hrun
  split at hrun
  · next known hknown =>
    cases hrun
    have hold : M.members.lookup t ≠ none := by
      rw [hknown]
      exact Option.some_ne_none _
    have hne := hasked.resolve_right hold
    have htold := (hsettled.told _ (mem_of_lookup hknown)).resolve_left hne
    obtain ⟨looking, collecting, given, hcomposed⟩ := htold.2 node s through hd
    exact ⟨looking, collecting, given, hcomposed, hreads hcomposed, fun h => absurd h hold⟩
  next hnone =>
  have hmark : t ∉ M.collecting := by
    rw [hidle.collecting]
    exact List.not_mem_nil
  split at hrun
  · next hmarked => exact absurd (List.contains_iff_mem.1 hmarked) hmark
  obtain ⟨M₁, hcollect, rfl⟩ := run_marked hrun
  obtain ⟨given, hcomposed⟩ := composed_of_run_collectMembers hsettled hnone hmark hd hcollect
  have hmoved : Moves p (some t) _ M₁ :=
    (moving_collectMembers t : Moving (Drift.moves p) (some t) _).moves hcollect
  have hfinal := hcomposed.mono (hmoved.within_members hnone symbols (M₁.collecting.erase t))
  refine ⟨_, _, given, hfinal, hreads hfinal, fun _ => ⟨hidle.inferring, ?_⟩⟩
  rw [hidle.collecting]

/-- The program
`const s = { a: "y", b: 2 };
const v = { a: 1, ...s, b: true };`. -/
def spreadProgram : Program where
  units := #[{
    path := "spread.ts"
    nodes := #[
      { kind := "program", named := true, children := [1, 13] },
      { kind := "lexical_declaration", named := true, parent := some 0, children := [2, 3] },
      { kind := "const", field := some "kind", parent := some 1, text := "const" },
      { kind := "variable_declarator", named := true, parent := some 1, children := [4, 5] },
      { kind := "identifier", field := some "name", named := true, parent := some 3, text := "s" },
      { kind := "object", field := some "value", named := true, parent := some 3,
        children := [6, 10] },
      { kind := "pair", named := true, parent := some 5, children := [7, 8] },
      { kind := "property_identifier", field := some "key", named := true, parent := some 6,
        text := "a" },
      { kind := "string", field := some "value", named := true, parent := some 6,
        text := "\"y\"", children := [9] },
      { kind := "string_fragment", named := true, parent := some 8, text := "y" },
      { kind := "pair", named := true, parent := some 5, children := [11, 12] },
      { kind := "property_identifier", field := some "key", named := true, parent := some 10,
        text := "b" },
      { kind := "number", field := some "value", named := true, parent := some 10, text := "2" },
      { kind := "lexical_declaration", named := true, parent := some 0, children := [14, 15] },
      { kind := "const", field := some "kind", parent := some 13, text := "const" },
      { kind := "variable_declarator", named := true, parent := some 13, children := [16, 17] },
      { kind := "identifier", field := some "name", named := true, parent := some 15,
        text := "v" },
      { kind := "object", field := some "value", named := true, parent := some 15,
        children := [18, 21, 23] },
      { kind := "pair", named := true, parent := some 17, children := [19, 20] },
      { kind := "property_identifier", field := some "key", named := true, parent := some 18,
        text := "a" },
      { kind := "number", field := some "value", named := true, parent := some 18, text := "1" },
      { kind := "spread_element", named := true, parent := some 17, children := [22] },
      { kind := "identifier", named := true, parent := some 21, text := "s" },
      { kind := "pair", named := true, parent := some 17, children := [24, 25] },
      { kind := "property_identifier", field := some "key", named := true, parent := some 23,
        text := "b" },
      { kind := "true", field := some "value", named := true, parent := some 23,
        text := "true" }] }]

/-- The properties of `v` are the `a` of `s`, which takes the place of the first one, and its own
`b`, which takes the place of that of `s`. -/
theorem object_last_wins_spread :
    ∃ M M' symbols, Reached spreadProgram M ∧ M.dataOf 0 = .object (.value ⟨0, 17⟩) 0 none ∧
      ((oracleWithin spreadProgram 9).properties 0).run M = some (symbols, M') ∧
      M.members.lookup 0 = none ∧
      symbols.map (fun s => (M'.nameOf s, (M'.symbolOf s).kind)) =
        [("a", .property 1 (some ⟨0, 6⟩) (.value ⟨0, 8⟩) false),
          ("b", .property 0 (some ⟨0, 23⟩) (.value ⟨0, 25⟩) false)] ∧
      ∃ given, Composed spreadProgram M' 0 (spreadProgram.namedChildren ⟨0, 17⟩) [] [0]
        (spreadProgram.namedChildren ⟨0, 17⟩) given symbols := by
  have h : ((((oracleWithin spreadProgram 9).typeAt ⟨0, 17⟩).run {}).bind fun r =>
      (((oracleWithin spreadProgram 9).properties 0).run r.2).map fun q =>
        (r.2.dataOf 0, r.2.members.lookup 0,
          q.1.map fun s => (q.2.nameOf s, (q.2.symbolOf s).kind))) =
      some (.object (.value ⟨0, 17⟩) 0 none, none,
        [("a", .property 1 (some ⟨0, 6⟩) (.value ⟨0, 8⟩) false),
          ("b", .property 0 (some ⟨0, 23⟩) (.value ⟨0, 25⟩) false)]) := by
    decide +kernel
  obtain ⟨⟨t, M⟩, hrun, h⟩ := Option.bind_eq_some_iff.1 h
  obtain ⟨⟨symbols, M'⟩, hproperties, h⟩ := Option.map_eq_some_iff.1 h
  obtain ⟨hdata, h⟩ := Prod.mk.inj h
  obtain ⟨hnone, hkinds⟩ := Prod.mk.inj h
  have hreached : Reached spreadProgram M :=
    Relation.ReflTransGen.single ⟨9, .typeAt ⟨0, 17⟩, run_discard hrun⟩
  obtain ⟨⟨looking, collecting, given, hcomposed, -, hfirst⟩, -⟩ :=
    object_last_wins hreached hdata hproperties (Or.inr hnone)
  obtain ⟨rfl, rfl⟩ := hfirst hnone
  exact ⟨M, M', symbols, hreached, hdata, hproperties, hnone, hkinds, given, hcomposed⟩

/-- The program `const v = { a: 1, a: "x" };`. -/
def repeatedProgram : Program where
  units := #[{
    path := "repeated.ts"
    nodes := #[
      { kind := "program", named := true, children := [1] },
      { kind := "lexical_declaration", named := true, parent := some 0, children := [2, 3] },
      { kind := "const", field := some "kind", parent := some 1, text := "const" },
      { kind := "variable_declarator", named := true, parent := some 1, children := [4, 5] },
      { kind := "identifier", field := some "name", named := true, parent := some 3, text := "v" },
      { kind := "object", field := some "value", named := true, parent := some 3,
        children := [6, 9] },
      { kind := "pair", named := true, parent := some 5, children := [7, 8] },
      { kind := "property_identifier", field := some "key", named := true, parent := some 6,
        text := "a" },
      { kind := "number", field := some "value", named := true, parent := some 6, text := "1" },
      { kind := "pair", named := true, parent := some 5, children := [10, 11] },
      { kind := "property_identifier", field := some "key", named := true, parent := some 9,
        text := "a" },
      { kind := "string", field := some "value", named := true, parent := some 9,
        text := "\"x\"", children := [12] },
      { kind := "string_fragment", named := true, parent := some 11, text := "x" }] }]

/-- The last element declares `a` as a string, and the property `a` is a number. -/
theorem repeated_key_first :
    (repeatedProgram.namedChildren ⟨0, 5⟩).map (element repeatedProgram) =
      [.own "a" (.value ⟨0, 8⟩), .own "a" (.value ⟨0, 11⟩)] ∧
    let o := oracleWithin repeatedProgram 9
    ((do
      let t ← o.typeAt ⟨0, 5⟩
      let symbols ← o.properties t
      let types ← symbols.mapM fun s => do
        return (← o.symbolName s, ← describe (← o.typeOfSymbol s))
      return (types, ← describe (← widen (← o.typeAt ⟨0, 11⟩))) : Resolve _).run {}).map Prod.fst =
      some ([("a", "number")], "string") := by
  decide +kernel

end RouteContract.Types
