import Mathlib
import RouteContract.Proofs.Types.References

/-!
# Types of one name

The table of schemas knows an object type by its name, a resolver by its declaration and the types
that the declaration is applied to. When every type name is declared once the two agree up to these
types: two types with references to one name, applied to the same types, have the same members
(`expansion_eq_of_reference`). Types that are known by their name only have no members at all.

The boxes at the end show that what they are applied to matters: a box of a string and one of a
number have the same reference and different members.
-/

namespace RouteContract

/-- The members of the type behind the promises of a type, described to a number of nested
descriptions. -/
def Schema.expansion {m : Type → Type} [Monad m] (o : Oracle m) (left : Nat) (t : TypeId) :
    Gen m (Option Schema) := do
  match ← ask (settle o (o.promiseDepth t + 1) t) with
  | some (u, _) => return some (← ofObject o (ofTypeWithin o left) u)
  | none => return none

namespace Types

open Schema (settle inlineNames expansion)

variable {p : Program} {M : Memory} {bound : Nat}

/-! ### Declarations of type names -/

/-- The kinds of declarations of types that are described by their members. -/
def typeDeclarationKinds : List String :=
  ["interface_declaration", "class_declaration", "abstract_class_declaration",
    "type_alias_declaration"]

/-- A node declares a type name. A class expression does when a name or an export leads to it; one
without a name is known as `default`. -/
def DeclaresType (p : Program) (d : NodeId) (name : String) : Prop :=
  (p.kind d ∈ typeDeclarationKinds ∨ (p.kind d = "class" ∧ IsBinding p d)) ∧
    (Names.describe p d).1 = name

/-- Every type name is declared at most once in the program. -/
def UniqueTypeNames (p : Program) : Prop :=
  ∀ name d₁ d₂, DeclaresType p d₁ name → DeclaresType p d₂ name → d₁ = d₂

/-- The nodes that can declare a type name. -/
def typeDeclarations (p : Program) : List NodeId :=
  ((List.range p.units.size).flatMap fun unit =>
    (List.range (p.size unit)).map fun index => ⟨unit, index⟩).filter fun d =>
      ("class" :: typeDeclarationKinds).contains (p.kind d)

theorem mem_typeDeclarations {d : NodeId} {name : String} (h : DeclaresType p d name) :
    d ∈ typeDeclarations p := by
  have hk : p.kind d ∈ "class" :: typeDeclarationKinds := by
    rcases h.1 with hk | ⟨hk, -⟩
    · exact List.mem_cons_of_mem _ hk
    · rw [hk]
      exact List.mem_cons_self
  have hne : p.kind d ≠ "" := fun h => by
    rw [h] at hk
    exact absurd hk (by decide)
  exact List.mem_filter.2 ⟨Program.mem_nodes hne, List.contains_iff_mem.2 hk⟩

/-- A check of the names of the nodes that can declare one. -/
theorem uniqueTypeNames_of_nodup
    (h : ((typeDeclarations p).map fun d => (Names.describe p d).1).Nodup) :
    UniqueTypeNames p := by
  intro name d₁ d₂ h₁ h₂
  exact List.inj_on_of_nodup_map h (mem_typeDeclarations h₁) (mem_typeDeclarations h₂)
    (h₁.2.trans h₂.2.symm)

/-- The types that the declaration of a type is applied to, with those that stand for its missing
arguments; nothing for a type that is known by its name only. -/
def instantiation? : TypeData → Option (List TypeId)
  | .object (.declared _ args) _ _ => some args
  | .object (.literal _ env) _ _ => some (env.map Prod.snd)
  | .named _ _ => none
  | _ => some []

/-- The types that the declaration of the type behind promises is applied to. -/
def instantiation (o : Oracle Resolve) (t : TypeId) : Resolve (Option (List TypeId)) := do
  match ← settle o (o.promiseDepth t + 1) t with
  | some (u, _) => return instantiation? (← data u)
  | none => return none

/-! ### What a described type can be -/

/-- The symbol of a declaration that is no enum member has the name of the declaration. -/
theorem Sound.declaration_symbol (hM : Sound p M) {s : SymbolId} {d : NodeId}
    (h : M.keyOf? s = some (.decl d)) (hk : p.kind d ∉ enumMemberKinds) :
    IsBinding p d ∧ (M.symbolOf s).name = (Names.describe p d).1 := by
  obtain ⟨sym, hs, hkey⟩ := Option.map_eq_some_iff.1 h
  have hfits := hM.symbols s sym hs
  rw [SymbolFits, hkey] at hfits
  rcases hfits with ⟨hb, rfl⟩ | ⟨henum, -⟩
  · refine ⟨hb, ?_⟩
    rw [Memory.symbolOf_of_getElem? hs]
    rfl
  · exact absurd henum.1 hk

/-- What a type that is described under a name can be. -/
inductive Nominal (p : Program) (M : Memory) (name : String) : TypeData → Prop
  | declared {d : NodeId} {args : List TypeId} {s : SymbolId} (hd : DeclaresType p d name)
      (hk : p.kind d ∈ objectDeclarationKinds) (hs : M.keyOf? s = some (.decl d)) :
      Nominal p M name (.object (.declared d args) s none)
  | aliased {d v : NodeId} {env : Env} {s a : SymbolId} (hd : DeclaresType p d name)
      (hk : p.kind d = "type_alias_declaration") (hv : p.field? d "value" = some v)
      (henv : env.map Prod.fst = parameterNames p d) (hs : M.keyOf? s = some (.builtin "__type"))
      (ha : M.keyOf? a = some (.decl d)) : Nominal p M name (.object (.literal v env) s (some a))
  | library {s : SymbolId} {args : List TypeId} : Nominal p M name (.named s args)

theorem Sound.nominal (hM : Sound p M) {u : TypeId} {name : String} (h : M.DescribedAs u name)
    (hnot : name ∉ inlineNames) : Nominal p M name (M.dataOf u) := by
  obtain ⟨s, hs, hname⟩ := h
  -- the made-up names of object types are all among those that are described in place
  have inline : ∀ {builtin}, M.keyOf? s = some (.builtin builtin) → builtin ∉ inlineNames := by
    intro builtin hkey
    rw [← hM.builtin_name hkey, hname]
    exact hnot
  cases hd : M.dataOf u with
  | object key own through =>
    have hfits := (hM.fits hd TypeData.noConfusion).2
    rw [hd] at hs
    cases key with
    | declared d args =>
      obtain ⟨rfl, -, hkey, hk, -⟩ := hfits
      cases hs
      have hsym := hM.declaration_symbol hkey
        ((by decide : ∀ k ∈ objectDeclarationKinds, k ∉ enumMemberKinds) _ hk)
      refine .declared ⟨?_, hsym.2.symm.trans hname⟩ hk hkey
      rcases (by decide : ∀ k ∈ objectDeclarationKinds, k ∈ typeDeclarationKinds ∨ k = "class")
        _ hk with hk | hk
      · exact Or.inl hk
      · exact Or.inr ⟨hk, hsym.1⟩
    | literal v env =>
      obtain ⟨-, hkey, halias⟩ := hfits
      cases through with
      | none =>
        cases hs
        exact absurd (by decide) (inline hkey)
      | some a =>
        cases hs
        obtain ⟨d, ha, hk, hv, henv⟩ := halias _ rfl
        have hsym := hM.declaration_symbol ha (by rw [hk]; decide)
        exact .aliased ⟨Or.inl (by rw [hk]; decide), hsym.2.symm.trans hname⟩ hk hv henv hkey ha
    | value v =>
      obtain ⟨rfl, hkey⟩ := hfits
      cases hs
      exact absurd (by decide) (inline hkey)
    | allOptional inner =>
      obtain ⟨rfl, -, hkey⟩ := hfits
      cases hs
      exact absurd (by decide) (inline hkey)
  | named own args => exact .library
  | _ => rw [hd] at hs; cases hs

/-- With unique type names, types of one name that are applied to the same types are the same type,
or both are known by their name only. -/
theorem Sound.nominal_unique (hM : Sound p M) (hp : UniqueTypeNames p) {u₁ u₂ : TypeId}
    {name : String} (h₁ : Nominal p M name (M.dataOf u₁)) (h₂ : Nominal p M name (M.dataOf u₂))
    (hinst : instantiation? (M.dataOf u₁) = instantiation? (M.dataOf u₂)) :
    u₁ = u₂ ∨
      ((∃ s args, M.dataOf u₁ = .named s args) ∧ ∃ s args, M.dataOf u₂ = .named s args) := by
  -- types are in the table once, so it is enough that the data agree
  have same : ∀ {key s through}, M.dataOf u₁ = .object key s through →
      M.dataOf u₂ = .object key s through → u₁ = u₂ := fun hd₁ hd₂ =>
    hM.types_once u₁ u₂ _ (Memory.getElem?_of_dataOf hd₁ TypeData.noConfusion)
      (Memory.getElem?_of_dataOf hd₂ TypeData.noConfusion)
  generalize hd₁ : M.dataOf u₁ = data₁ at h₁ hinst same
  generalize hd₂ : M.dataOf u₂ = data₂ at h₂ hinst same
  cases h₁ with
  | @declared d₁ args₁ s₁ hd hk hs =>
    cases h₂ with
    | @declared d₂ args₂ s₂ hd' hk' hs' =>
      cases hp name d₁ d₂ hd hd'
      cases hM.keys_once _ _ _ hs hs'
      cases hinst
      exact Or.inl (same rfl rfl)
    | @aliased d₂ v₂ env₂ s₂ a₂ hd' hk' hv' henv' hs' ha' =>
      cases hp name d₁ d₂ hd hd'
      rw [hk'] at hk
      exact absurd hk (by decide)
    | library => cases hinst
  | @aliased d₁ v₁ env₁ s₁ a₁ hd hk hv henv hs ha =>
    cases h₂ with
    | @declared d₂ args₂ s₂ hd' hk' hs' =>
      cases hp name d₁ d₂ hd hd'
      rw [hk] at hk'
      exact absurd hk' (by decide)
    | @aliased d₂ v₂ env₂ s₂ a₂ hd' hk' hv' henv' hs' ha' =>
      cases hp name d₁ d₂ hd hd'
      cases hM.keys_once _ _ _ hs hs'
      cases hM.keys_once _ _ _ ha ha'
      cases hv.symm.trans hv'
      have hsnd : env₁.map Prod.snd = env₂.map Prod.snd := Option.some.inj hinst
      -- the environments have the names of the parameters in common, and the types by assumption
      have henvs : env₁ = env₂ := by
        rw [← List.zip_unzip env₁, ← List.zip_unzip env₂, List.unzip_eq_map, List.unzip_eq_map,
          henv, henv', hsnd]
      cases henvs
      exact Or.inl (same rfl rfl)
    | library => cases hinst
  | @library s₁ args₁ =>
    cases h₂ with
    | declared => cases hinst
    | aliased => cases hinst
    | @library s₂ args₂ => exact Or.inr ⟨⟨s₁, args₁, rfl⟩, s₂, args₂, rfl⟩

/-! ### Expansions -/

/-- A type other than an object type or an enum has no members. -/
theorem run_membersOf_nil (hM : Sound p M) {calls : Calls} {u : TypeId} (hno : ¬ M.HasMembers u) :
    ∃ M', (membersOf p calls u).run M = some ([], M') := by
  rw [membersOf, reads_get.run_bind]
  split
  · next known hknown =>
    have hempty := (hM.members _ (mem_of_lookup hknown)).2.resolve_right hno
    exact ⟨M, congrArg (fun l => some (l, M)) hempty⟩
  · split
    · exact ⟨M, rfl⟩
    · have hmarked : Reads (collectMembers p calls u)
          { M with collecting := u :: M.collecting } [] := by
        refine (reads_data u).bind ?_
        rw [show Memory.dataOf { M with collecting := u :: M.collecting } u = M.dataOf u from rfl]
        cases hd : M.dataOf u with
        | object key s through =>
          have ht := Memory.getElem?_of_dataOf hd TypeData.noConfusion
          exact (hno (Or.inl ⟨key, s, through, ht⟩)).elim
        | enum s =>
          have ht := Memory.getElem?_of_dataOf hd TypeData.noConfusion
          exact (hno (Or.inr ⟨s, ht⟩)).elim
        | _ => exact reads_pure _
      rw [StateT.run_bind, StateT.run_set, pure_bind, hmarked.run_bind]
      exact ⟨_, rfl⟩

/-- A type that is known by its name only has no members. -/
theorem run_membersOf_named (hM : Sound p M) {calls : Calls} {u : TypeId} {s : SymbolId}
    {args : List TypeId} (hd : M.dataOf u = .named s args) :
    ∃ M', (membersOf p calls u).run M = some ([], M') := by
  refine run_membersOf_nil hM ?_
  rintro (⟨key, i, through, h⟩ | ⟨i, h⟩) <;>
    rw [Memory.dataOf_of_getElem? h] at hd <;> cases hd

theorem run_expansion {t u : TypeId} {own : Option String}
    (h : Reads (settle (oracleWithin p bound) (t + 1) t) M (some (u, own))) (left : Nat)
    (T : Entries Schema) :
    ((expansion (oracleWithin p bound) left t).run T).run M =
      ((do return some (← Schema.ofObject (oracleWithin p bound)
        (Schema.ofTypeWithin (oracleWithin p bound) left) u) :
          Schema.Gen Resolve (Option Schema)).run T).run M := by
  rw [expansion, run_ask_bind]
  exact Reads.run_bind h _

theorem run_expansion_named (hM : Sound p M) {t u : TypeId} {own : Option String}
    (h : Reads (settle (oracleWithin p bound) (t + 1) t) M (some (u, own))) {s : SymbolId}
    {args : List TypeId} (hd : M.dataOf u = .named s args) (left : Nat) (T : Entries Schema) :
    ((expansion (oracleWithin p bound) left t).run' T).run' M =
      some (some (Schema.typed "object")) := by
  obtain ⟨M', hmembers⟩ : ∃ M', (membersOf p (calls p bound) u).run M = some ([], M') :=
    run_membersOf_named hM hd
  rw [run'_run', run_expansion h, StateT.run_bind, StateT.run_bind, Schema.ofObject, run_ask_bind,
    StateT.run_bind]
  show Option.map _ (Option.bind (Option.bind ((membersOf p (calls p bound) u).run M) _) _) = _
  rw [hmembers]
  rfl

theorem run_instantiation {t u : TypeId} {own : Option String}
    (h : Reads (settle (oracleWithin p bound) (t + 1) t) M (some (u, own))) :
    (instantiation (oracleWithin p bound) t).run' M = some (instantiation? (M.dataOf u)) := by
  have hreads : Reads (instantiation (oracleWithin p bound) t) M
      (instantiation? (M.dataOf u)) :=
    Reads.bind h ((reads_data u).bind (reads_pure _))
  exact hreads.run'_eq

/-- Every type name being declared at most once, two types that a session describes by references
to one name, and that are applied to the same types, have the same expansion. -/
theorem expansion_eq_of_reference (hp : UniqueTypeNames p) {requests : List Request}
    {log : List (TypeId × Schema)} {T : Entries Schema} {M : Memory}
    (hrun : ((Schema.session (oracle p) requests).run []).run {} = some ((log, T), M))
    {name : String} {t₁ t₂ : TypeId} {s₁ s₂ : Schema} (h₁ : (t₁, s₁) ∈ log) (h₂ : (t₂, s₂) ∈ log)
    (hs₁ : s₁.reference = some (Schema.referencePath name))
    (hs₂ : s₂.reference = some (Schema.referencePath name))
    (hinst : (instantiation (oracle p) t₁).run' M = (instantiation (oracle p) t₂).run' M)
    (left : Nat) :
    ((expansion (oracle p) left t₁).run' T).run' M =
      ((expansion (oracle p) left t₂).run' T).run' M := by
  obtain ⟨⟨hM, -⟩, hdenoted⟩ :=
    ensures_option_iff.1 (ensures_session sound_empty requests []) _ _ hrun
  obtain ⟨u₁, ⟨own₁, hu₁⟩, hd₁, hnot⟩ := hdenoted _ h₁ name hs₁
  obtain ⟨u₂, ⟨own₂, hu₂⟩, hd₂, -⟩ := hdenoted _ h₂ name hs₂
  have hinst' : instantiation? (M.dataOf u₁) = instantiation? (M.dataOf u₂) := by
    have h := (run_instantiation hu₁).symm.trans (hinst.trans (run_instantiation hu₂))
    exact Option.some.inj h
  rcases hM.nominal_unique hp (hM.nominal hd₁ hnot) (hM.nominal hd₂ hnot) hinst' with
    rfl | ⟨⟨_, _, hn₁⟩, _, _, hn₂⟩
  · rw [run'_run', run'_run']
    exact congrArg _ ((run_expansion hu₁ left T).trans (run_expansion hu₂ left T).symm)
  · exact (run_expansion_named hM hu₁ hn₁ left T).trans (run_expansion_named hM hu₂ hn₂ left T).symm

/-! ### Boxes -/

/-- The program of two units `interface Box<T> { value: T } type A = Box<string>;
type B = Box<number>; type C = Promise<A>;` and `type D = Box<string>;`. -/
def boxProgram : Program where
  units := #[{
    path := "box.ts"
    nodes := #[
      { kind := "program", named := true, children := [1, 11, 17, 23] },
      { kind := "interface_declaration", named := true, parent := some 0, children := [2, 3, 6] },
      { kind := "type_identifier", field := some "name", named := true, parent := some 1,
        text := "Box" },
      { kind := "type_parameters", field := some "type_parameters", named := true,
        parent := some 1, children := [4] },
      { kind := "type_parameter", named := true, parent := some 3, children := [5] },
      { kind := "type_identifier", field := some "name", named := true, parent := some 4,
        text := "T" },
      { kind := "interface_body", field := some "body", named := true, parent := some 1,
        children := [7] },
      { kind := "property_signature", named := true, parent := some 6, children := [8, 9] },
      { kind := "property_identifier", field := some "name", named := true, parent := some 7,
        text := "value" },
      { kind := "type_annotation", field := some "type", named := true, parent := some 7,
        children := [10] },
      { kind := "type_identifier", named := true, parent := some 9, text := "T" },
      { kind := "type_alias_declaration", named := true, parent := some 0, children := [12, 13] },
      { kind := "type_identifier", field := some "name", named := true, parent := some 11,
        text := "A" },
      { kind := "generic_type", field := some "value", named := true, parent := some 11,
        children := [14, 15] },
      { kind := "type_identifier", field := some "name", named := true, parent := some 13,
        text := "Box" },
      { kind := "type_arguments", field := some "type_arguments", named := true,
        parent := some 13, children := [16] },
      { kind := "predefined_type", named := true, parent := some 15, text := "string" },
      { kind := "type_alias_declaration", named := true, parent := some 0, children := [18, 19] },
      { kind := "type_identifier", field := some "name", named := true, parent := some 17,
        text := "B" },
      { kind := "generic_type", field := some "value", named := true, parent := some 17,
        children := [20, 21] },
      { kind := "type_identifier", field := some "name", named := true, parent := some 19,
        text := "Box" },
      { kind := "type_arguments", field := some "type_arguments", named := true,
        parent := some 19, children := [22] },
      { kind := "predefined_type", named := true, parent := some 21, text := "number" },
      { kind := "type_alias_declaration", named := true, parent := some 0, children := [24, 25] },
      { kind := "type_identifier", field := some "name", named := true, parent := some 23,
        text := "C" },
      { kind := "generic_type", field := some "value", named := true, parent := some 23,
        children := [26, 27] },
      { kind := "type_identifier", field := some "name", named := true, parent := some 25,
        text := "Promise" },
      { kind := "type_arguments", field := some "type_arguments", named := true,
        parent := some 25, children := [28] },
      { kind := "type_identifier", named := true, parent := some 27, text := "A" }] }, {
    path := "other.ts"
    nodes := #[
      { kind := "program", named := true, children := [1] },
      { kind := "type_alias_declaration", named := true, parent := some 0, children := [2, 3] },
      { kind := "type_identifier", field := some "name", named := true, parent := some 1,
        text := "D" },
      { kind := "generic_type", field := some "value", named := true, parent := some 1,
        children := [4, 5] },
      { kind := "type_identifier", field := some "name", named := true, parent := some 3,
        text := "Box" },
      { kind := "type_arguments", field := some "type_arguments", named := true,
        parent := some 3, children := [6] },
      { kind := "predefined_type", named := true, parent := some 5, text := "string" }] }]

/-- Describe the types behind `A`, `B`, `C` and `D`. -/
def boxRequests : List Request :=
  [.ask (.typeOfTypeNode ⟨0, 13⟩), .ask (.typeOfTypeNode ⟨0, 19⟩),
    .ask (.typeOfTypeNode ⟨0, 25⟩), .ask (.typeOfTypeNode ⟨1, 3⟩),
    .describe 1, .describe 3, .describe 5, .describe 6]

theorem uniqueTypeNames_boxProgram : UniqueTypeNames boxProgram :=
  uniqueTypeNames_of_nodup (by decide +kernel)

/-- The session that carries out the requests. -/
def boxSession : Option ((List (TypeId × Schema) × Entries Schema) × Memory) :=
  ((Schema.session (oracle boxProgram) boxRequests).run []).run {}

theorem boxSession_references : boxSession.map (fun r => r.1.1.map fun e => (e.1, e.2.reference)) =
    some ([1, 3, 5, 6].map fun t => (t, some (Schema.referencePath "Box"))) := by
  decide +kernel

theorem boxSession_instantiations : boxSession.map (fun r => [1, 3, 5, 6].map fun t =>
    (instantiation (oracle boxProgram) t).run' r.2) =
    some [some (some [0]), some (some [2]), some (some [0]), some none] := by
  decide +kernel

theorem boxSession_arguments : boxSession.map (fun r => [1, 6].map fun t =>
    ((oracle boxProgram).typeArguments t).run' r.2) = some [some [0], some [0]] := by
  decide +kernel

theorem boxSession_expansions : boxSession.map (fun r => [1, 3, 6].map fun t =>
    (((expansion (oracle boxProgram) (Schema.maxNesting - 1) t).run' r.1.2).run' r.2).map fun s =>
      s.map fun s => s.properties.map fun e => (e.1, e.2.typeName)) =
    some [some (some [("value", some "string")]), some (some [("value", some "number")]),
      some (some [])] := by
  decide +kernel

/-- The session has an end, where all four types are described by references to `Box`. -/
theorem exists_boxSession : ∃ log T M, boxSession = some ((log, T), M) ∧ ∀ t ∈ [1, 3, 5, 6],
    ∃ s, (t, s) ∈ log ∧ s.reference = some (Schema.referencePath "Box") := by
  obtain ⟨⟨⟨log, T⟩, M⟩, hrun, hlog⟩ := Option.map_eq_some_iff.1 boxSession_references
  refine ⟨log, T, M, hrun, fun t ht => ?_⟩
  have hmem : (t, some (Schema.referencePath "Box")) ∈ log.map fun e => (e.1, e.2.reference) := by
    rw [hlog]
    exact List.mem_map_of_mem ht
  obtain ⟨⟨t', s⟩, hs, heq⟩ := List.mem_map.1 hmem
  obtain ⟨rfl, href⟩ := Prod.mk.inj heq
  exact ⟨s, hs, href⟩

/-- A box of a string and a promise of one have the same expansion. -/
theorem expansion_eq_of_reference_boxes : ∃ log T M,
    ((Schema.session (oracle boxProgram) boxRequests).run []).run {} = some ((log, T), M) ∧
    ∃ s₁ s₂, ((1, s₁) ∈ log ∧ s₁.reference = some (Schema.referencePath "Box")) ∧
      ((5, s₂) ∈ log ∧ s₂.reference = some (Schema.referencePath "Box")) ∧
      ∀ left, ((expansion (oracle boxProgram) left 1).run' T).run' M =
        ((expansion (oracle boxProgram) left 5).run' T).run' M := by
  obtain ⟨log, T, M, hrun, hlog⟩ := exists_boxSession
  obtain ⟨s₁, h₁, hs₁⟩ := hlog 1 (by decide)
  obtain ⟨s₂, h₂, hs₂⟩ := hlog 5 (by decide)
  have hinst := boxSession_instantiations
  rw [hrun] at hinst
  simp only [Option.map_some, List.map_cons, List.map_nil, Option.some.injEq, List.cons.injEq]
    at hinst
  refine ⟨log, T, M, hrun, s₁, s₂, ⟨h₁, hs₁⟩, ⟨h₂, hs₂⟩, ?_⟩
  exact expansion_eq_of_reference uniqueTypeNames_boxProgram hrun h₁ h₂ hs₁ hs₂
    (hinst.1.trans hinst.2.2.1.symm)

/-- Boxes of a string and of a number, and a box that is not known where it is used, have the same
reference but different expansions, the last although it is applied to the same type. -/
theorem expansion_ne_of_reference_boxes : UniqueTypeNames boxProgram ∧ ∃ log T M,
    ((Schema.session (oracle boxProgram) boxRequests).run []).run {} = some ((log, T), M) ∧
    (∀ t ∈ [1, 3, 6], ∃ s, (t, s) ∈ log ∧ s.reference = some (Schema.referencePath "Box")) ∧
    ((expansion (oracle boxProgram) (Schema.maxNesting - 1) 1).run' T).run' M ≠
      ((expansion (oracle boxProgram) (Schema.maxNesting - 1) 3).run' T).run' M ∧
    ((oracle boxProgram).typeArguments 1).run' M = ((oracle boxProgram).typeArguments 6).run' M ∧
    ((expansion (oracle boxProgram) (Schema.maxNesting - 1) 1).run' T).run' M ≠
      ((expansion (oracle boxProgram) (Schema.maxNesting - 1) 6).run' T).run' M := by
  obtain ⟨log, T, M, hrun, hlog⟩ := exists_boxSession
  have hargs := boxSession_arguments
  have hexpansions := boxSession_expansions
  rw [hrun] at hargs hexpansions
  simp only [Option.map_some, List.map_cons, List.map_nil, Option.some.injEq, List.cons.injEq]
    at hargs hexpansions
  obtain ⟨h₁, h₃, h₆, -⟩ := hexpansions
  refine ⟨uniqueTypeNames_boxProgram, log, T, M, hrun, fun t ht => hlog t (by grind), ?_,
    hargs.1.trans hargs.2.1.symm, ?_⟩
  · intro h
    rw [h, h₃] at h₁
    exact absurd h₁ (by decide)
  · intro h
    rw [h, h₆] at h₁
    exact absurd h₁ (by decide)

end Types

end RouteContract
