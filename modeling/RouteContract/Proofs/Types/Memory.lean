import Mathlib
import RouteContract.Types.Resolver
import RouteContract.Proofs.Outcome

/-!
# Sound memories

What holds of the memory of a resolver after every query:

* a type and the key of a symbol are in their tables once;
* a type is made of types that were there before it, and its symbols are those that its form asks
  for (`Fits`): an object type with a declaration has the symbol of that declaration;
* a symbol is what its key says (`SymbolFits`), and what is remembered is in the tables.

Between the memory before a step and the one after it stand two relations: `M.Extends M'`, in which
the tables only grow, and `M.Resumes M'`, in which more is remembered and what was being looked for
is the same again.
-/

namespace RouteContract

/-- The nodes of a program. -/
def Program.nodes (p : Program) : List NodeId :=
  (List.range p.units.size).flatMap fun unit =>
    (List.range (p.size unit)).map fun index => ⟨unit, index⟩

theorem Program.mem_nodes_of_index_lt {p : Program} {d : NodeId} (h : d.index < p.size d.unit) :
    d ∈ p.nodes := by
  have hunit : d.unit < p.units.size := by
    by_contra hlt
    rw [Program.size, Program.unit, Array.getD_eq_getD_getElem?,
      Array.getElem?_eq_none (not_lt.1 hlt)] at h
    exact absurd h (Nat.not_lt_zero _)
  refine List.mem_flatMap.2 ⟨d.unit, List.mem_range.2 hunit, ?_⟩
  exact List.mem_map.2 ⟨d.index, List.mem_range.2 h, rfl⟩

/-- A node with a child is in the arena of its unit. -/
theorem Program.mem_nodes_of_child {p : Program} {c d : NodeId} (h : c ∈ p.children d) :
    d ∈ p.nodes := by
  have hm := Program.mem_children h
  exact Program.mem_nodes_of_index_lt (hm.2.1.trans hm.2.2)

/-- A node with a kind is in the arena of its unit. -/
theorem Program.mem_nodes {p : Program} {d : NodeId} (h : p.kind d ≠ "") : d ∈ p.nodes := by
  refine Program.mem_nodes_of_index_lt ?_
  by_contra hlt
  refine h ?_
  rw [Program.kind, Program.node, Array.getD_eq_getD_getElem?,
    Array.getElem?_eq_none (not_lt.1 hlt)]
  rfl

namespace Types

/-- A name or an export leads to a node, or the node is a declaration with a name. -/
def IsBinding (p : Program) (d : NodeId) : Prop :=
  (∃ space name origin, Names.lookup p space name origin = some d) ∨
  (∃ unit name, Names.resolve? p unit name = some (.binding d)) ∨
  p.kind d ∈ namedDeclarationKinds

/-- The kinds of declarations of object types other than aliases. -/
def objectDeclarationKinds : List String :=
  ["interface_declaration", "class_declaration", "abstract_class_declaration", "class"]

/-- The kinds of nodes that are members of enums. -/
def enumMemberKinds : List String :=
  ["enum_assignment", "property_identifier", "private_property_identifier", "identifier", "string",
    "number"]

/-- The names of the type parameters of a declaration. -/
def parameterNames (p : Program) (decl : NodeId) : List String :=
  (Names.typeParameters p decl).filterMap fun param => (p.field? param "name").map p.text

/-- A member of a type declares a property: with a signature, as a field or as a parameter of the
constructor. -/
def declaresProperty (p : Program) (member : NodeId) : Bool :=
  ["property_signature", "public_field_definition"].contains (p.kind member) ||
    (p.childOfKind? member "accessibility_modifier").isSome || p.hasToken member "readonly"

/-- A type expression is the declared type of a property. -/
def IsPropertyType (p : Program) (node : NodeId) : Prop :=
  ∃ member, declaresProperty p member ∧ p.field? member "type" = some node

/-- A node in the body of an enum declares a member. -/
def IsEnumMember (p : Program) (node : NodeId) : Prop :=
  p.kind node ∈ enumMemberKinds ∧ ∃ decl body, p.kind decl = "enum_declaration" ∧
    p.field? decl "body" = some body ∧ node ∈ p.namedChildren body

/-- The symbol of a binding. -/
def bindingEntry (p : Program) (binding : NodeId) : Symbol where
  key := .decl binding
  name := (Names.describe p binding).1
  kind := match (Names.describe p binding).2 with
    | .declared => .declared binding
    | .importBinding source imported => .imported binding source imported
    | .module unit => .module unit

/-- More answers are remembered: each is for a key that had none, and that is not being looked
for. -/
def Adds {α β : Type} (marked : List α) (old new : List (α × β)) : Prop :=
  ∃ added, new = added ++ old ∧ ∀ e ∈ added, e.1 ∉ marked ∧ e.1 ∉ old.map Prod.fst

section Adds

variable {α β : Type} {marked : List α} {old new : List (α × β)}

theorem Adds.refl (marked : List α) (old : List (α × β)) : Adds marked old old :=
  ⟨[], rfl, fun _ h => absurd h List.not_mem_nil⟩

theorem Adds.trans {newer : List (α × β)} (h : Adds marked old new)
    (h' : Adds marked new newer) : Adds marked old newer := by
  obtain ⟨added, rfl, hadded⟩ := h
  obtain ⟨more, rfl, hmore⟩ := h'
  refine ⟨more ++ added, (List.append_assoc _ _ _).symm, fun e he => ?_⟩
  rcases List.mem_append.1 he with he | he
  · refine ⟨(hmore e he).1, fun hold => (hmore e he).2 ?_⟩
    rw [List.map_append]
    exact List.mem_append_right _ hold
  · exact hadded e he

/-- What was looked for gets its answer once its own mark is gone. -/
theorem Adds.answer {key : α} (h : Adds (key :: marked) old new) (hkey : key ∉ marked)
    (hold : key ∉ old.map Prod.fst) (value : β) : Adds marked old ((key, value) :: new) := by
  obtain ⟨added, rfl, hadded⟩ := h
  refine ⟨(key, value) :: added, rfl, fun e he => ?_⟩
  rcases List.mem_cons.1 he with rfl | he
  · exact ⟨hkey, hold⟩
  · exact ⟨fun hm => (hadded e he).1 (List.mem_cons_of_mem _ hm), (hadded e he).2⟩

/-- What is remembered does not change. -/
theorem Adds.lookup [BEq α] [LawfulBEq α] (h : Adds marked old new) {key : α} {value : β}
    (hkey : old.lookup key = some value) : new.lookup key = some value := by
  obtain ⟨added, rfl, hadded⟩ := h
  have hnone : added.lookup key = none := by
    rw [List.lookup_eq_none_iff]
    intro e he
    obtain ⟨l₁, l₂, rfl, -⟩ := List.lookup_eq_some_iff.1 hkey
    have hne : e.1 ≠ key := fun heq => (hadded e he).2 (by simp [heq])
    simpa using Ne.symm hne
  rw [List.lookup_append, hnone, hkey]
  rfl

theorem notMem_keys_of_lookup_eq_none [BEq α] [LawfulBEq α] {key : α}
    (h : old.lookup key = none) : key ∉ old.map Prod.fst := by
  intro hmem
  obtain ⟨e, he, rfl⟩ := List.mem_map.1 hmem
  have hne := List.lookup_eq_none_iff.1 h e he
  simp at hne

end Adds

namespace Memory

/-- The key of a symbol. -/
def keyOf? (M : Memory) (s : SymbolId) : Option SymbolKey := M.symbols[s]?.map Symbol.key

/-- An object type or an enum. -/
def HasMembers (M : Memory) (t : TypeId) : Prop :=
  (∃ key s through, M.types[t]? = some (.object key s through)) ∨
    ∃ s, M.types[t]? = some (.enum s)

/-- The tables of a later memory: no type and no symbol changes. -/
structure Extends (M M' : Memory) : Prop where
  types : ∀ (t : TypeId) d, M.types[t]? = some d → M'.types[t]? = some d
  symbols : ∀ (s : SymbolId) sym, M.symbols[s]? = some sym → M'.symbols[s]? = some sym

/-- What is remembered after a step that is done: more answers, and the same ones looked for. -/
structure Resumes (M M' : Memory) : Prop where
  members : Adds M.collecting M.members M'.members
  aliases : Adds M.resolving M.aliases M'.aliases
  nodeTypes : Adds M.inferring M.nodeTypes M'.nodeTypes
  inferring : M'.inferring = M.inferring
  resolving : M'.resolving = M.resolving
  collecting : M'.collecting = M.collecting

theorem Extends.refl (M : Memory) : M.Extends M := ⟨fun _ _ h => h, fun _ _ h => h⟩

theorem Extends.trans {M₁ M₂ M₃ : Memory} (h : M₁.Extends M₂) (h' : M₂.Extends M₃) :
    M₁.Extends M₃ where
  types t d hd := h'.types t d (h.types t d hd)
  symbols s sym hs := h'.symbols s sym (h.symbols s sym hs)

theorem extends_of_tables {M M' : Memory} (ht : M'.types = M.types) (hs : M'.symbols = M.symbols) :
    M.Extends M' where
  types t d h := by rwa [ht]
  symbols s sym h := by rwa [hs]

theorem Resumes.refl (M : Memory) : M.Resumes M where
  members := Adds.refl _ _
  aliases := Adds.refl _ _
  nodeTypes := Adds.refl _ _
  inferring := rfl
  resolving := rfl
  collecting := rfl

theorem Resumes.trans {M₁ M₂ M₃ : Memory} (h : M₁.Resumes M₂) (h' : M₂.Resumes M₃) :
    M₁.Resumes M₃ where
  members := h.members.trans (h.collecting ▸ h'.members)
  aliases := h.aliases.trans (h.resolving ▸ h'.aliases)
  nodeTypes := h.nodeTypes.trans (h.inferring ▸ h'.nodeTypes)
  inferring := h'.inferring.trans h.inferring
  resolving := h'.resolving.trans h.resolving
  collecting := h'.collecting.trans h.collecting

end Memory

/-! ### Handles that are in the tables -/

/-- A type is in the table. -/
def TypeIn (t : TypeId) (M : Memory) : Prop := t < M.types.size

/-- Types are in the table. -/
def TypesIn (types : List TypeId) (M : Memory) : Prop := ∀ t ∈ types, TypeIn t M

/-- The types that type parameters stand for are in the table. -/
def EnvIn (env : Env) (M : Memory) : Prop := ∀ e ∈ env, TypeIn e.2 M

/-- A symbol is in the table. -/
def SymbolIn (s : SymbolId) (M : Memory) : Prop := s < M.symbols.size

/-- A symbol is in the table as that of a property or of an enum member. -/
def MemberIn (p : Program) (s : SymbolId) (M : Memory) : Prop :=
  (∃ owner name, M.keyOf? s = some (.property owner name)) ∨
    ∃ d, M.keyOf? s = some (.decl d) ∧ IsEnumMember p d

/-- Symbols are in the table as those of members. -/
def MembersIn (p : Program) (symbols : List SymbolId) (M : Memory) : Prop :=
  ∀ s ∈ symbols, MemberIn p s M

/-- What a property gets its type from is in the table or in the program. -/
def SourceIn (p : Program) (M : Memory) : PropSource → Prop
  | .typeNode node env => EnvIn env M ∧ IsPropertyType p node
  | .fixed t => TypeIn t M
  | _ => True

section

variable {p : Program} {M M' : Memory}

theorem typeIn_of_getElem? {t : TypeId} {d : TypeData} (h : M.types[t]? = some d) : TypeIn t M :=
  (Array.getElem?_eq_some_iff.1 h).1

theorem symbolIn_of_keyOf? {s : SymbolId} {key : SymbolKey} (h : M.keyOf? s = some key) :
    SymbolIn s M := by
  obtain ⟨sym, hs, -⟩ := Option.map_eq_some_iff.1 h
  exact (Array.getElem?_eq_some_iff.1 hs).1

theorem TypeIn.mono {t : TypeId} (h : TypeIn t M) (hE : M.Extends M') : TypeIn t M' :=
  typeIn_of_getElem? (hE.types t _ (Array.getElem?_eq_getElem h))

theorem TypesIn.mono {types : List TypeId} (h : TypesIn types M) (hE : M.Extends M') :
    TypesIn types M' := fun t ht => (h t ht).mono hE

theorem EnvIn.mono {env : Env} (h : EnvIn env M) (hE : M.Extends M') : EnvIn env M' :=
  fun e he => (h e he).mono hE

theorem SymbolIn.mono {s : SymbolId} (h : SymbolIn s M) (hE : M.Extends M') : SymbolIn s M' :=
  (Array.getElem?_eq_some_iff.1 (hE.symbols s _ (Array.getElem?_eq_getElem h))).1

theorem SourceIn.mono {source : PropSource} (h : SourceIn p M source) (hE : M.Extends M') :
    SourceIn p M' source := by
  cases source with
  | typeNode node env => exact ⟨h.1.mono hE, h.2⟩
  | fixed t => exact TypeIn.mono h hE
  | value _ => trivial
  | method _ => trivial

theorem Memory.Extends.keyOf? (hE : M.Extends M') {s : SymbolId} {key : SymbolKey}
    (h : M.keyOf? s = some key) : M'.keyOf? s = some key := by
  obtain ⟨sym, hs, rfl⟩ := Option.map_eq_some_iff.1 h
  exact Option.map_eq_some_iff.2 ⟨sym, hE.symbols s sym hs, rfl⟩

theorem MemberIn.symbolIn {s : SymbolId} (h : MemberIn p s M) : SymbolIn s M := by
  rcases h with ⟨owner, name, h⟩ | ⟨d, h, -⟩
  · exact symbolIn_of_keyOf? h
  · exact symbolIn_of_keyOf? h

theorem MemberIn.mono {s : SymbolId} (h : MemberIn p s M) (hE : M.Extends M') :
    MemberIn p s M' := by
  rcases h with ⟨owner, name, h⟩ | ⟨d, h, hd⟩
  · exact Or.inl ⟨owner, name, hE.keyOf? h⟩
  · exact Or.inr ⟨d, hE.keyOf? h, hd⟩

theorem MembersIn.mono {symbols : List SymbolId} (h : MembersIn p symbols M) (hE : M.Extends M') :
    MembersIn p symbols M' := fun s hs => (h s hs).mono hE

theorem Memory.Extends.hasMembers (hE : M.Extends M') {t : TypeId} (h : M.HasMembers t) :
    M'.HasMembers t := by
  rcases h with ⟨key, s, through, h⟩ | ⟨s, h⟩
  · exact Or.inl ⟨key, s, through, hE.types t _ h⟩
  · exact Or.inr ⟨s, hE.types t _ h⟩

theorem typesIn_nil : TypesIn [] M := fun _ h => absurd h List.not_mem_nil

theorem typesIn_cons {t : TypeId} {types : List TypeId} :
    TypesIn (t :: types) M ↔ TypeIn t M ∧ TypesIn types M := List.forall_mem_cons

theorem typesIn_append {types more : List TypeId} :
    TypesIn (types ++ more) M ↔ TypesIn types M ∧ TypesIn more M := List.forall_mem_append

theorem envIn_nil : EnvIn [] M := fun _ h => absurd h List.not_mem_nil

theorem membersIn_nil : MembersIn p [] M := fun _ h => absurd h List.not_mem_nil

end

/-! ### What fits into a memory -/

/-- The key of an object type fits its symbols, and is made of types below a bound. -/
def ObjectFits (p : Program) (M : Memory) (bound : Nat) (s : SymbolId)
    (through : Option SymbolId) : ObjectKey → Prop
  | .declared d args => through = none ∧ (∀ t ∈ args, t < bound) ∧
    M.keyOf? s = some (.decl d) ∧ p.kind d ∈ objectDeclarationKinds ∧
    args.length = (Names.typeParameters p d).length
  | .literal v env => (∀ e ∈ env, e.2 < bound) ∧ M.keyOf? s = some (.builtin "__type") ∧
    ∀ a, through = some a → ∃ d, M.keyOf? a = some (.decl d) ∧
      p.kind d = "type_alias_declaration" ∧ p.field? d "value" = some v ∧
      env.map Prod.fst = parameterNames p d
  | .value _ => through = none ∧ M.keyOf? s = some (.builtin "__object")
  | .allOptional inner => through = none ∧ inner < bound ∧
    M.keyOf? s = some (.builtin "Partial")

/-- The data of a type is made of symbols of a memory and of types below a bound. -/
def Fits (p : Program) (M : Memory) (bound : Nat) : TypeData → Prop
  | .array element => element < bound
  | .tuple elements => ∀ t ∈ elements, t < bound
  | .union members => ∀ t ∈ members, t < bound
  | .intersection members => ∀ t ∈ members, t < bound
  | .object key s through => ObjectFits p M bound s through key
  | .enum s => ∃ d, M.keyOf? s = some (.decl d) ∧ p.kind d = "enum_declaration"
  | .named s args => (∀ t ∈ args, t < bound) ∧ ∃ name, M.keyOf? s = some (.builtin name)
  | _ => True

/-- A symbol is what its key says. -/
def SymbolFits (p : Program) (M : Memory) (sym : Symbol) : Prop :=
  match sym.key with
  | .decl d => (IsBinding p d ∧ sym = bindingEntry p d) ∨
    (IsEnumMember p d ∧ ∃ value, sym.kind = .enumMember d value ∧ TypeIn value M)
  | .builtin name => sym = ⟨.builtin name, name, .builtin⟩
  | .property owner name => sym.name = name ∧ ∃ decl source isOptional,
    sym.kind = .property owner decl source isOptional ∧ TypeIn owner M ∧ SourceIn p M source
  | .module unit => sym = ⟨.module unit, (PathName.stem? (p.unit unit).path).getD "", .module unit⟩

/-- What holds of the memory of a resolver after every query. -/
structure Sound (p : Program) (M : Memory) : Prop where
  types_once : ∀ (t u : TypeId) d, M.types[t]? = some d → M.types[u]? = some d → t = u
  keys_once : ∀ (s r : SymbolId) key, M.keyOf? s = some key → M.keyOf? r = some key → s = r
  types : ∀ (t : TypeId) d, M.types[t]? = some d → Fits p M t d
  symbols : ∀ (s : SymbolId) sym, M.symbols[s]? = some sym → SymbolFits p M sym
  members : ∀ e ∈ M.members, MembersIn p e.2 M ∧ (e.2 = [] ∨ M.HasMembers e.1)
  aliases : ∀ e ∈ M.aliases, TypeIn e.2 M
  nodeTypes : ∀ e ∈ M.nodeTypes, TypeIn e.2 M

variable {p : Program} {M M' : Memory}

theorem Fits.mono {bound : Nat} {d : TypeData} (h : Fits p M bound d) (hE : M.Extends M') :
    Fits p M' bound d := by
  cases d with
  | object key s through =>
    cases key with
    | declared d args => exact ⟨h.1, h.2.1, hE.keyOf? h.2.2.1, h.2.2.2⟩
    | literal v env =>
      refine ⟨h.1, hE.keyOf? h.2.1, fun a ha => ?_⟩
      obtain ⟨d, hd, hrest⟩ := h.2.2 a ha
      exact ⟨d, hE.keyOf? hd, hrest⟩
    | value v => exact ⟨h.1, hE.keyOf? h.2⟩
    | allOptional inner => exact ⟨h.1, h.2.1, hE.keyOf? h.2.2⟩
  | enum s =>
    obtain ⟨d, hd, hk⟩ := h
    exact ⟨d, hE.keyOf? hd, hk⟩
  | named s args =>
    obtain ⟨hargs, name, hname⟩ := h
    exact ⟨hargs, name, hE.keyOf? hname⟩
  | _ => exact h

theorem SymbolFits.mono {sym : Symbol} (h : SymbolFits p M sym) (hE : M.Extends M') :
    SymbolFits p M' sym := by
  unfold SymbolFits at h ⊢
  split at h
  · rcases h with h | ⟨hk, value, hv, ht⟩
    · exact Or.inl h
    · exact Or.inr ⟨hk, value, hv, ht.mono hE⟩
  · exact h
  · obtain ⟨hn, decl, source, isOptional, hk, ho, hs⟩ := h
    exact ⟨hn, decl, source, isOptional, hk, ho.mono hE, hs.mono hE⟩
  · exact h

/-- A memory with the same tables, all of whose new answers are in them. -/
theorem Sound.remember (hM : Sound p M) (ht : M'.types = M.types) (hs : M'.symbols = M.symbols)
    (hm : ∀ e ∈ M'.members, e ∈ M.members ∨
      (MembersIn p e.2 M ∧ (e.2 = [] ∨ M.HasMembers e.1)))
    (ha : ∀ e ∈ M'.aliases, e ∈ M.aliases ∨ TypeIn e.2 M)
    (hn : ∀ e ∈ M'.nodeTypes, e ∈ M.nodeTypes ∨ TypeIn e.2 M) : Sound p M' := by
  have hE : M.Extends M' := Memory.extends_of_tables ht hs
  have hkey : ∀ s, M'.keyOf? s = M.keyOf? s := fun s => by rw [Memory.keyOf?, hs, Memory.keyOf?]
  -- the tables are the same, so only the new answers need a look
  constructor
  · rw [ht]
    exact hM.types_once
  · intro s r key h h'
    rw [hkey] at h h'
    exact hM.keys_once s r key h h'
  · intro t d h
    rw [ht] at h
    exact (hM.types t d h).mono hE
  · intro s sym h
    rw [hs] at h
    exact (hM.symbols s sym h).mono hE
  · intro e he
    have h := (hm e he).elim (hM.members e) id
    exact ⟨h.1.mono hE, h.2.imp_right hE.hasMembers⟩
  · exact fun e he => ((ha e he).elim (hM.aliases e) id).mono hE
  · exact fun e he => ((hn e he).elim (hM.nodeTypes e) id).mono hE

theorem sound_empty : Sound p {} where
  types_once t u d h := by simp at h
  keys_once s r key h := by simp [Memory.keyOf?] at h
  types t d h := by simp at h
  symbols s sym h := by simp at h
  members e he := by simp at he
  aliases e he := by simp at he
  nodeTypes e he := by simp at he

end Types

end RouteContract
