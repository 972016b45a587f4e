import Mathlib
import RouteContract.Proofs.Types.Halting

/-!
# Programs whose type expressions are well founded

Nothing stops the resolver from evaluating a default of a type parameter, the value of an alias with
type parameters, or the type of a property that a type expression looks up, while it is evaluating
them. `Guarded p rank` says that the program gives it no reason to: all of them rank below the type
expressions that lead to them. Everything else may be circular.
-/

namespace RouteContract.Types

/-! ### What a type expression names -/

/-- The binding at the end of a chain. -/
def bindingAt? : Names.Target → Option NodeId
  | .binding d => some d
  | .module _ => none

/-- The binding that a qualified name leads to. -/
def qualifiedBinding? (p : Program) (node : NodeId) : Option NodeId :=
  let name := ((p.field? node "name").map p.text).getD ""
  let unit := (p.field? node "module").bind fun m =>
    if p.kind m = "identifier" then namespaceUnit? p m else none
  (unit.bind fun unit => Names.resolve? p unit name).bind bindingAt?

/-- The binding that a type expression names. -/
def namedBinding? (p : Program) (node : NodeId) : Option NodeId :=
  match TypeForm.ofKind (p.kind node) with
  | .name => Names.lookup p .type (p.text node) node
  | .qualifiedName => qualifiedBinding? p node
  | .generic => (p.field? node "name").bind fun name =>
    if p.kind name = "nested_type_identifier" then qualifiedBinding? p name
    else Names.lookup p .type (p.text name) node
  | _ => none

/-- The declaration behind a binding. -/
def declarationBehind? (p : Program) (binding : NodeId) : Option NodeId :=
  (Names.follow? p binding).bind bindingAt?

/-- The declaration that a type expression names. -/
def declarationNamed? (p : Program) (node : NodeId) : Option NodeId :=
  (namedBinding? p node).bind (declarationBehind? p)

/-- The default of a type parameter. -/
def default? (p : Program) (param : NodeId) : Option NodeId :=
  (p.field? param "value").bind fun v => (p.namedChildren v).head?

/-- What a type parameter without an argument stands for. -/
def fallback? (p : Program) (param : NodeId) : Option NodeId :=
  ((p.field? param "value").or (p.field? param "constraint")).map fun n =>
    (p.namedChildren n).head?.getD n

/-- The value of an alias, unless it is an object type, which is not evaluated. -/
def evaluatedValue? (p : Program) (decl : NodeId) : Option NodeId :=
  (p.field? decl "value").filter fun v => p.kind v ≠ "object_type"

/-- The type expressions that are evaluated without a mark when a declaration is named. -/
def unmarked (p : Program) (decl : NodeId) : List NodeId :=
  (Names.typeParameters p decl).filterMap (default? p) ++
  (if p.kind decl = "type_parameter" then (fallback? p decl).toList else []) ++
  (if Names.typeParameters p decl = [] then [] else (evaluatedValue? p decl).toList)

/-! ### What a type expression is made of -/

/-- The type arguments below a node. -/
def typeArgumentNodes (p : Program) (node : NodeId) : List NodeId :=
  match p.field? node "type_arguments" with
  | some list => p.namedChildren list
  | none => []

/-- The type expression of an element of a tuple. -/
def elementPart? (p : Program) (element : NodeId) : Option NodeId :=
  if p.kind element = "optional_type" ∨ p.kind element = "rest_type" then
    (p.namedChildren element).head?
  else some ((p.field? element "type").getD element)

/-- The type expressions that a type expression is made of. What stands in an object type or in a
function type is not evaluated with it. -/
def parts (p : Program) (node : NodeId) : List NodeId :=
  match TypeForm.ofKind (p.kind node) with
  | .wrapper => (p.namedChildren node).head?.toList
  | .generic => typeArgumentNodes p node
  | .array => (p.namedChildren node).head?.toList
  | .tuple => (p.namedChildren node).filterMap (elementPart? p)
  | .union => p.namedChildren node
  | .intersection => p.namedChildren node
  | .lookup => (p.namedChildren node).head?.toList
  | _ => []

/-- The clause in which a class names its base. -/
def extendsClause? (p : Program) (decl : NodeId) : Option NodeId :=
  (p.childOfKind? decl "class_heritage").bind fun h => p.childOfKind? h "extends_clause"

/-- The types that an interface or a class inherits from. -/
def bases (p : Program) (decl : NodeId) : List NodeId :=
  ((p.namedChildren decl).filter fun c => p.kind c == "extends_type_clause").flatMap
    (fun c => p.fields c "type") ++
  ((extendsClause? p decl).bind fun c => p.field? c "value").toList

/-- The bases of a declaration, and the type arguments that stand beside the base of a class. -/
def inherited (p : Program) (decl : NodeId) : List NodeId :=
  bases p decl ++ (extendsClause? p decl).toList.flatMap (typeArgumentNodes p)

/-- The type expressions that are evaluated without a mark when the members of a type are collected
and their types asked for. -/
def collected (p : Program) : List NodeId :=
  p.nodes.filterMap (fun member =>
    if declaresProperty p member then p.field? member "type" else none) ++
  p.nodes.flatMap (fun decl => if Names.typeParameters p decl = [] then [] else inherited p decl)

/-- The text of the name in a type expression. -/
def nameText (p : Program) (node : NodeId) : String :=
  match TypeForm.ofKind (p.kind node) with
  | .generic => ((p.field? node "name").map p.text).getD ""
  | _ => p.text node

/-- A base of a declaration with type parameters is a class or an interface of a lower rank, or one
without type parameters. -/
def BaseBelow (p : Program) (rank : NodeId → Nat) (decl base : NodeId) : Prop :=
  nameText p base ∉ parameterNames p decl ∧ ∃ e ∈ declarationNamed? p base,
    p.kind e ∈ objectDeclarationKinds ∧ (Names.typeParameters p e = [] ∨ rank e < rank decl)

instance (p : Program) (rank : NodeId → Nat) (decl base : NodeId) :
    Decidable (BaseBelow p rank decl base) :=
  inferInstanceAs (Decidable (_ ∧ _))

/-- **The guards that a program needs.** A rank of its nodes in which

* a type expression is not below its parts;
* a type expression is above all that is evaluated without a mark when it names a declaration;
* a type expression that looks up a property is above the types of all properties;
* a class or an interface with type parameters is above those it inherits from.

An enum has no members that could also be names bound by a pattern.

A rank asks for more than the resolver needs, since it knows neither the arguments of an alias nor
the type in which a property is looked up:

* an alias with type parameters whose value is made of types that name the alias has no rank, not
  even where they repeat its parameters and the mark of the alias would end the evaluation;
* a look-up that is a part of the type of a property has no rank, not even where it never leads to
  the type of that property. -/
structure Guarded (p : Program) (rank : NodeId → Nat) : Prop where
  made : ∀ node ∈ p.nodes, ∀ x ∈ parts p node, rank x ≤ rank node
  named : ∀ node ∈ p.nodes, ∀ decl ∈ declarationNamed? p node, ∀ x ∈ unmarked p decl,
    rank x < rank node
  lookups : ∀ node ∈ p.nodes, TypeForm.ofKind (p.kind node) = .lookup → ∀ x ∈ collected p,
    rank x < rank node
  based : ∀ decl ∈ p.nodes, p.kind decl ∈ objectDeclarationKinds →
    Names.typeParameters p decl ≠ [] → ∀ base ∈ bases p decl, BaseBelow p rank decl base
  enums : ∀ decl ∈ p.nodes, p.kind decl = "enum_declaration" → ∀ body ∈ p.field? decl "body",
    ∀ member ∈ p.namedChildren body, p.kind member ≠ "identifier"

variable {p : Program} {M M' : Memory} {rank : NodeId → Nat} {k : Nat}

/-- The order in which type expressions are evaluated without a mark: by rank, and inside each other
for equal rank. -/
def height (p : Program) (rank : NodeId → Nat) (node : NodeId) : ℕ ×ₗ ℕ :=
  toLex (rank node, p.size node.unit - node.index)

theorem height_lt_of_rank_lt {x node : NodeId} (h : rank x < rank node) :
    height p rank x < height p rank node :=
  Prod.Lex.toLex_lt_toLex.2 (Or.inl h)

theorem head_descends {x node : NodeId} (h : (p.namedChildren node).head? = some x) :
    p.size x.unit - x.index < p.size node.unit - node.index :=
  Names.namedChild_descends (List.mem_of_head? h)

theorem typeArgument_descends {x node : NodeId} (h : x ∈ typeArgumentNodes p node) :
    p.size x.unit - x.index < p.size node.unit - node.index := by
  unfold typeArgumentNodes at h
  split at h
  · next list hl => exact (Names.namedChild_descends h).trans (Names.field?_descends hl)
  · cases h

theorem elementPart_descends {x element : NodeId} (h : elementPart? p element = some x) :
    p.size x.unit - x.index ≤ p.size element.unit - element.index := by
  unfold elementPart? at h
  split at h
  · exact (head_descends h).le
  · cases ht : p.field? element "type" with
    | none =>
      rw [ht] at h
      cases h
      exact le_rfl
    | some t =>
      rw [ht] at h
      cases h
      exact (Names.field?_descends ht).le

/-- The parts of a type expression stand inside it. -/
theorem part_descends {x node : NodeId} (h : x ∈ parts p node) :
    p.size x.unit - x.index < p.size node.unit - node.index := by
  unfold parts at h
  split at h
  · exact head_descends (Option.mem_toList.1 h)
  · exact typeArgument_descends h
  · exact head_descends (Option.mem_toList.1 h)
  · obtain ⟨element, he, hx⟩ := List.mem_filterMap.1 h
    exact (elementPart_descends hx).trans_lt (Names.namedChild_descends he)
  · exact Names.namedChild_descends h
  · exact Names.namedChild_descends h
  · exact head_descends (Option.mem_toList.1 h)
  · cases h

theorem Guarded.height_part (hg : Guarded p rank) {x node : NodeId} (h : x ∈ parts p node) :
    height p rank x < height p rank node := by
  have hnode : node ∈ p.nodes := Program.mem_nodes fun hk => by
    rw [parts, hk] at h
    cases h
  refine Prod.Lex.toLex_lt_toLex.2 ?_
  rcases (hg.made node hnode x h).lt_or_eq with hlt | heq
  · exact Or.inl hlt
  · exact Or.inr ⟨heq, part_descends h⟩

/-- All that is evaluated without a mark when a declaration is named is below its name. -/
theorem Guarded.rank_unmarked (hg : Guarded p rank) {node b d x : NodeId}
    (hb : namedBinding? p node = some b) (hd : declarationBehind? p b = some d)
    (hx : x ∈ unmarked p d) : rank x < rank node := by
  have hnode : node ∈ p.nodes := Program.mem_nodes fun hk => by
    rw [namedBinding?, hk] at hb
    cases hb
  exact hg.named node hnode d (Option.bind_eq_some_iff.2 ⟨b, hb, hd⟩) x hx

/-! ### Chains of imports -/

/-- A chain of imports does not end at an import. -/
theorem describe_of_followWithin? {left : Nat} {target : Names.Target} {d : NodeId}
    (h : Names.followWithin? p left target = some (.binding d)) (source : Option Nat)
    (imported : String) : (Names.describe p d).2 ≠ .importBinding source imported := by
  induction left generalizing target with
  | zero => simp [Names.followWithin?] at h
  | succ left ih =>
    cases target with
    | module unit => simp [Names.followWithin?] at h
    | binding b =>
      rw [Names.followWithin?] at h
      split at h
      · cases h
      · split at h
        · cases h
        · obtain ⟨next, -, hf⟩ := Option.bind_eq_some_iff.1 h
          exact ih hf
      · next hnone hsome =>
        cases h
        cases source with
        | none => exact hnone imported
        | some unit => exact hsome unit imported

theorem follow?_of_declarationBehind? {b d : NodeId} (h : declarationBehind? p b = some d) :
    Names.follow? p b = some (.binding d) := by
  obtain ⟨target, ht, hd⟩ := Option.bind_eq_some_iff.1 h
  cases target with
  | binding e => cases hd; exact ht
  | module unit => cases hd

/-- A binding that is no import is behind itself. -/
theorem declarationBehind?_self {d : NodeId}
    (h : ∀ source imported, (Names.describe p d).2 ≠ .importBinding source imported) :
    declarationBehind? p d = some d := by
  have hf : Names.follow? p d = some (.binding d) := by
    rw [Names.follow?, Names.maxAliases, Names.followWithin?]
    split
    · next hd => exact absurd hd (h _ _)
    · next hd => exact absurd hd (h _ _)
    · rfl
  rw [declarationBehind?, hf]
  rfl

theorem declarationBehind?_declared {d : NodeId} (h : (Names.describe p d).2 = .declared) :
    declarationBehind? p d = some d :=
  declarationBehind?_self fun _ _ hd => by
    rw [h] at hd
    cases hd

theorem Guarded.enumMember_kind (hg : Guarded p rank) {d : NodeId} (h : IsEnumMember p d) :
    p.kind d ∈ enumMemberKinds.erase "identifier" := by
  obtain ⟨hk, decl, body, hdecl, hbody, hmem⟩ := h
  have hnode : decl ∈ p.nodes := Program.mem_nodes (by rw [hdecl]; decide)
  exact (List.mem_erase_of_ne (hg.enums decl hnode hdecl body hbody d hmem)).2 hk

/-- A member of an enum is not a node of an import statement. -/
theorem Guarded.describe_enumMember (hg : Guarded p rank) {d : NodeId} (h : IsEnumMember p d) :
    (Names.describe p d).2 = .declared :=
  describe_declared ((by decide : ∀ k ∈ enumMemberKinds.erase "identifier",
    k ∉ ["import_specifier", "namespace_import", "identifier"]) _ (hg.enumMember_kind h))

/-- A symbol that stands for a declaration is that of a binding that is no import. -/
theorem Sound.describe_of_declared (hM : Sound p M) {s : SymbolId} {d : NodeId}
    (h : (M.symbolOf s).kind = .declared d) : (Names.describe p d).2 = .declared := by
  rcases hM.symbol_cases (by rw [h]; exact SymbolKind.noConfusion) with
    ⟨d', -, -, he⟩ | ⟨_, _, hk, -⟩ | ⟨_, _, _, _, hk, -⟩ | ⟨_, hk⟩
  · rw [he, bindingEntry] at h
    dsimp only at h
    split at h
    · next hd => cases h; exact hd
    · cases h
    · cases h
  all_goals rw [hk] at h; cases h

theorem Sound.describe_of_imported (hM : Sound p M) {s : SymbolId} {d : NodeId}
    {source : Option Nat} {name : String} (h : (M.symbolOf s).kind = .imported d source name) :
    (Names.describe p d).2 = .importBinding source name := by
  rcases hM.symbol_cases (by rw [h]; exact SymbolKind.noConfusion) with
    ⟨d', -, -, he⟩ | ⟨_, _, hk, -⟩ | ⟨_, _, _, _, hk, -⟩ | ⟨_, hk⟩
  · rw [he, bindingEntry] at h
    dsimp only at h
    split at h
    · cases h
    · next hd => cases h; exact hd
    · cases h
  all_goals rw [hk] at h; cases h

/-- The symbol of the end of a chain has the key of its binding, or of a unit. -/
theorem keeps_targetSymbol_key {target : Names.Target}
    (ht : ∀ d, target = .binding d → IsBinding p d) :
    Keeps p (targetSymbol p target) M fun s M' => ∀ d, M'.keyOf? s = some (.decl d) →
      bindingAt? target = some d := by
  cases target with
  | binding d =>
    refine (keeps_bindingSymbol (ht d rfl)).imp fun s M' _ _ hs d' hd => ?_
    cases hs.symm.trans hd
    rfl
  | module unit =>
    have hfits : SymbolFits p M ⟨.module unit, (PathName.stem? (p.unit unit).path).getD "",
        .module unit⟩ := rfl
    refine (keeps_internSymbol hfits).imp fun s M' _ _ hs d hd => ?_
    cases hs.symm.trans hd

/-- The symbol behind an import is that of the declaration behind it, or of a unit. -/
theorem keeps_followAlias?_key {s : SymbolId} {b : NodeId} {source : Option Nat} {name : String}
    (hs : (M.symbolOf s).kind = .imported b source name) :
    Keeps p (followAlias? p s) M fun found M' => ∀ r ∈ found, ∀ d,
      M'.keyOf? r = some (.decl d) → declarationBehind? p b = some d := by
  refine keeps_of_sound fun hM => keeps_symbol_bind ?_
  rw [hs]
  dsimp only
  split
  · next target ht =>
    refine (keeps_targetSymbol_key fun d hd => isBinding_of_followWithin?
      (fun b' h => Names.Target.binding.inj h ▸ (hM.imported hs).1) (hd ▸ ht)).bind
        fun r M₁ _ hr => keeps_pure fun r' hr' d hd => ?_
    cases hr'
    rw [declarationBehind?, ht]
    exact hr d hd
  · exact keeps_pure fun r hr => absurd hr (by simp)

/-- The declaration behind an import has a symbol. -/
theorem keeps_followAlias?_found {s : SymbolId} {b e : NodeId} {source : Option Nat}
    {name : String} (hs : (M.symbolOf s).kind = .imported b source name)
    (he : declarationBehind? p b = some e) :
    Keeps p (followAlias? p s) M fun found M' => ∃ r, found = some r ∧
      M'.keyOf? r = some (.decl e) := by
  refine keeps_of_sound fun hM => keeps_symbol_bind ?_
  have hfollow := follow?_of_declarationBehind? he
  have hbinding := isBinding_of_followWithin?
    (fun b' h => Names.Target.binding.inj h ▸ (hM.imported hs).1) hfollow
  rw [hs]
  dsimp only
  rw [hfollow]
  exact (keeps_bindingSymbol hbinding).bind fun r M₁ _ hr => keeps_pure ⟨r, rfl, hr⟩

theorem keeps_exportSymbol?_key (unit : Nat) (name : String) :
    Keeps p (exportSymbol? p unit name) M fun found M' => ∀ r ∈ found, ∀ d,
      M'.keyOf? r = some (.decl d) → (Names.resolve? p unit name).bind bindingAt? = some d := by
  unfold exportSymbol?
  split
  · next target ht =>
    refine (keeps_targetSymbol_key fun d hd => Or.inr (Or.inl ⟨unit, name, hd ▸ ht⟩)).bind
      fun r M₁ _ hr => keeps_pure fun r' hr' d hd => ?_
    cases hr'
    rw [ht]
    exact hr d hd
  · exact keeps_pure fun r hr => absurd hr (by simp)

/-! ### Evaluating what a name leads to -/

/-- A type expression gets its type, from every memory with so many marks left. -/
def Evaluates (p : Program) (k : Nat) (x : NodeId) : Prop :=
  ∀ M env, EnvIn env M → Halts p k (fun c => c.evalType x env) M

theorem Evaluates.mono {j : Nat} {x : NodeId} (h : Evaluates p k x) (hj : j ≤ k) :
    Evaluates p j x := fun M env henv => (h M env henv).mono hj

/-- All that is evaluated without a mark when a declaration is named gets its type. -/
def Ready (p : Program) (k : Nat) (decl : NodeId) : Prop := ∀ x ∈ unmarked p decl, Evaluates p k x

theorem halts_fillArgs (params : List NodeId) {args : List TypeId} (hargs : TypesIn args M)
    (h : ∀ x ∈ params.filterMap (default? p), Evaluates p k x) :
    Halts p k (fun c => fillArgs p c args params) M := by
  induction params generalizing M args with
  | nil => exact halts_pure args
  | cons param rest ih =>
    have hrest : ∀ x ∈ rest.filterMap (default? p), Evaluates p k x := fun x hx => h x <| by
      obtain ⟨param', hp, hd⟩ := List.mem_filterMap.1 hx
      exact List.mem_filterMap.2 ⟨param', List.mem_cons_of_mem _ hp, hd⟩
    have next : ∀ {M} {arg}, TypesIn args M → TypeIn arg M →
        Halts p k (fun c => fillArgs p c (args ++ [arg]) rest) M := fun hargs ha =>
      ih (typesIn_append.2 ⟨hargs, typesIn_cons.2 ⟨ha, typesIn_nil⟩⟩) hrest
    simp only [fillArgs]
    split
    · next v hv =>
      have hx : Evaluates p k v := h v (List.mem_filterMap.2 ⟨param, List.mem_cons_self, hv⟩)
      exact (hx M [] envIn_nil).bind (fun bound => (keeps_calls p bound).evalType v envIn_nil)
        fun arg M₁ h₁ ha => next (hargs.mono h₁) ha
    · exact (answers_intern .unknown).halts_bind (keeps_type trivial)
        fun arg M₁ h₁ ha => next (hargs.mono h₁) ha

theorem halts_completeArgs {decl : NodeId} (hd : Ready p k decl) {args : List TypeId}
    (hargs : TypesIn args M) : Halts p k (fun c => completeArgs p c decl args) M := by
  refine (halts_fillArgs _ hargs fun x hx => hd x ?_).last fun _ => answers_pure _
  obtain ⟨param, hp, hx⟩ := List.mem_filterMap.1 hx
  refine List.mem_append_left _ (List.mem_append_left _ ?_)
  exact List.mem_filterMap.2 ⟨param, List.mem_of_mem_drop hp, hx⟩

theorem halts_aliasValue {decl : NodeId} {s : SymbolId} {args : List TypeId}
    (hargs : TypesIn args M) (h : ∀ x ∈ evaluatedValue? p decl, Evaluates p k x) :
    Halts p k (fun c => aliasValue p c decl s args) M := by
  refine (answers_bindEnv decl args).halts_bind (keeps_bindEnv decl hargs)
    fun env M₁ _ henv => ?_
  split
  · next value hv =>
    split
    · exact ((answers_internSymbol _).bind fun _ => answers_intern _).halts
    · next hkind =>
      refine h value ?_ M₁ env henv.1
      exact Option.filter_eq_some_iff.2 ⟨hv, decide_eq_true hkind⟩
  · exact halts_intern _

/-- An alias without type parameters is marked by its declaration alone; the value of one with type
parameters gets its type without a mark. -/
theorem halts_aliasType (hlow : ∀ j < k, ∀ x, Evaluates p j x) {decl : NodeId} {s : SymbolId}
    (hd : Ready p k decl) (hk : p.kind decl = "type_alias_declaration") {args : List TypeId}
    (hargs : TypesIn args M) : Halts p k (fun c => aliasType p c decl s args) M := by
  refine (halts_completeArgs hd hargs).bind
    (fun bound => keeps_completeArgs (keeps_calls p bound) decl hargs)
    fun args M₁ _ ⟨hargs, hlength⟩ => halts_get_bind ?_
  split
  · exact halts_pure _
  split
  · exact halts_intern _
  next hnew =>
  refine halts_marked (fun hM => ?_) fun _ hfree => halts_aliasValue hargs fun x hx => ?_
  · exact hM.remember rfl rfl (fun _ => Or.inl) (fun _ => Or.inl) (fun _ => Or.inl)
  by_cases hparams : Names.typeParameters p decl = []
  · have hnil : args = [] := List.eq_nil_of_length_eq_zero (by rw [hlength, hparams]; rfl)
    subst hnil
    have hnode : decl ∈ p.nodes := Program.mem_nodes (by rw [hk]; decide)
    have hmark : (decl, []) ∉ M₁.resolving := fun h => hnew (List.contains_iff_mem.2 h)
    exact hlow _ ((free_resolve_lt hnode hmark).trans_le hfree) x
  · have hx' : x ∈ unmarked p decl := List.mem_append_right _ (by
      rw [if_neg hparams]
      exact Option.mem_toList.2 hx)
    exact (hd x hx').mono ((free_le fun _ hm => hm.resolve _).trans hfree)

theorem halts_declaredType (hlow : ∀ j < k, ∀ x, Evaluates p j x) {decl : NodeId} {s : SymbolId}
    (hd : Ready p k decl) {args : List TypeId} (hargs : TypesIn args M) :
    Halts p k (fun c => declaredType p c decl s args) M := by
  have object : Halts p k (fun c => do
      intern (.object (.declared decl (← completeArgs p c decl args)) s none)) M :=
    (halts_completeArgs hd hargs).last fun _ => answers_intern _
  unfold declaredType
  split
  · exact object
  · exact object
  · exact object
  · exact object
  · next hk => exact halts_aliasType hlow hd hk hargs
  · exact halts_intern _
  · exact halts_intern _

theorem halts_denoted (hlow : ∀ j < k, ∀ x, Evaluates p j x) {target : SymbolId}
    (hd : ∀ d, M.keyOf? target = some (.decl d) → (Names.describe p d).2 = .declared → Ready p k d)
    (name : String) {args : List TypeId} (hargs : TypesIn args M) : Halts p k (fun c => do
      match (← symbol target).kind with
      | .declared decl => declaredType p c decl target args
      | _ => builtinType name args) M := by
  refine halts_of_sound fun hM => halts_symbol_bind ?_
  split
  · next d hk =>
    exact halts_declaredType hlow (hd d (hM.declared hk) (hM.describe_of_declared hk)) hargs
  · exact (answers_builtinType name args).halts

/-- The type that a symbol denotes, when all is ready for the declaration behind its binding. -/
theorem halts_symbolInstanceType (hlow : ∀ j < k, ∀ x, Evaluates p j x) {s : SymbolId}
    (hs : ∀ b d, M.keyOf? s = some (.decl b) → declarationBehind? p b = some d → Ready p k d)
    (name : String) {args : List TypeId} (hargs : TypesIn args M) :
    Halts p k (fun c => symbolInstanceType p c s name args) M := by
  refine halts_of_sound fun hM => halts_symbol_bind ?_
  split
  · next b _ _ hk =>
    refine (answers_followAlias? s).halts_bind (keeps_followAlias?_key hk)
      fun found M₁ h₁ hfound => ?_
    split
    · next r =>
      have hr : ∀ d, M₁.keyOf? r = some (.decl d) → Ready p k d := fun d hr =>
        hs b d (hM.imported hk).2 (hfound r rfl d hr)
      exact halts_denoted hlow (fun d hd _ => hr d hd) name (hargs.mono h₁)
    · exact (answers_builtinType _ args).halts
  · exact halts_denoted hlow (fun d hd hk => hs d d hd (declarationBehind?_declared hk)) name hargs

theorem halts_qualifiedType (hlow : ∀ j < k, ∀ x, Evaluates p j x) {node : NodeId}
    (hnode : ∀ b ∈ qualifiedBinding? p node, ∀ d ∈ declarationBehind? p b, Ready p k d)
    {args : List TypeId} (hargs : TypesIn args M) :
    Halts p k (fun c => qualifiedType p c node args) M := by
  unfold qualifiedType
  dsimp only
  split
  · next unit hunit =>
    refine (answers_exportSymbol? unit _).halts_bind (keeps_exportSymbol?_key unit _)
      fun found M₁ h₁ hfound => ?_
    split
    · next s =>
      refine halts_symbolInstanceType hlow (fun b d hb hd => hnode b ?_ d hd) _ (hargs.mono h₁)
      rw [qualifiedBinding?, hunit]
      exact hfound s rfl b hb
    · exact (answers_builtinType _ args).halts
  · exact (answers_builtinType _ args).halts

/-- The type of a name, when all is ready for the declaration that it leads to. -/
theorem halts_namedType (hlow : ∀ j < k, ∀ x, Evaluates p j x) {name : String} {origin : NodeId}
    (hname : ∀ b ∈ Names.lookup p .type name origin, ∀ d ∈ declarationBehind? p b, Ready p k d)
    (env : Env) {args : List TypeId} (hargs : TypesIn args M) :
    Halts p k (fun c => namedType p c name origin env args) M := by
  unfold namedType
  split
  · exact halts_pure _
  split
  · exact (answers_builtinType name args).halts
  · next b hb =>
    split
    · next hk =>
      have hself : declarationBehind? p b = some b :=
        declarationBehind?_declared (describe_declared (by rw [hk]; decide))
      split
      · next n hn =>
        refine hname b hb b hself _ ?_ M [] envIn_nil
        refine List.mem_append_left _ (List.mem_append_right _ ?_)
        rw [if_pos hk, fallback?, hn]
        exact List.mem_singleton_self _
      · exact halts_intern _
    · refine (answers_internSymbol _).halts_bind (keeps_bindingSymbol (Or.inl ⟨_, _, _, hb⟩))
        fun s M₁ h₁ hs => ?_
      refine halts_symbolInstanceType hlow (fun b' d hb' hd => ?_) name (hargs.mono h₁)
      cases hs.symm.trans hb'
      exact hname b hb d hd

/-! ### Type expressions -/

theorem halts_evalAll {env : Env} (henv : EnvIn env M) {nodes : List NodeId}
    (h : ∀ x ∈ nodes, Evaluates p k x) : Halts p k (fun c => evalAll c env nodes) M :=
  halts_mapM nodes (fun x hx M' hE => h x hx M' env (henv.mono hE))
    fun x _ _ hE bound => (keeps_calls p bound).evalType x (henv.mono hE)

theorem halts_evalFirst {env : Env} (henv : EnvIn env M) {node : NodeId}
    (h : ∀ x ∈ (p.namedChildren node).head?.toList, Evaluates p k x) :
    Halts p k (fun c => evalFirst p c env node) M := by
  unfold evalFirst
  split
  · next inner hi => exact h inner (Option.mem_toList.2 hi) M env henv
  · exact halts_intern _

theorem halts_typeArgumentsAt {env : Env} (henv : EnvIn env M) {node : NodeId}
    (h : ∀ x ∈ typeArgumentNodes p node, Evaluates p k x) :
    Halts p k (fun c => typeArgumentsAt p c env node) M := by
  cases hl : p.field? node "type_arguments" with
  | none =>
    simp only [typeArgumentsAt, hl]
    exact halts_pure _
  | some list =>
    simp only [typeArgumentNodes, hl] at h
    simp only [typeArgumentsAt, hl]
    exact halts_evalAll henv h

theorem halts_tupleElement {env : Env} (henv : EnvIn env M) {element : NodeId}
    (h : ∀ x ∈ elementPart? p element, Evaluates p k x) :
    Halts p k (fun c => tupleElement p c env element) M := by
  unfold elementPart? at h
  unfold tupleElement
  split
  · next hk =>
    rw [if_pos hk] at h
    exact halts_evalFirst henv fun x hx => h x (Option.mem_toList.1 hx)
  · next hk =>
    rw [if_neg hk] at h
    exact h _ rfl M env henv

theorem halts_lookupType {env : Env} (henv : EnvIn env M) {node : NodeId}
    (h : ∀ x ∈ (p.namedChildren node).head?.toList, Evaluates p k x)
    (hlookup : ∀ M t name, Halts p k (fun c => c.propertyType t name) M) :
    Halts p k (fun c => lookupType p c env node) M := by
  unfold lookupType
  split
  · next object index _ hc =>
    have hobject : Evaluates p k object := h object (by
      rw [hc]
      exact List.mem_singleton_self object)
    refine (hobject M env henv).bind
      (fun bound => (keeps_calls p bound).evalType object henv) fun t M₁ _ _ => ?_
    dsimp only
    split
    · exact hlookup M₁ t _
    · exact halts_intern _
  · exact halts_intern _

/-- A type expression gets its type when those below it do. -/
theorem halts_evalType (hg : Guarded p rank) (hlow : ∀ j < k, ∀ x, Evaluates p j x)
    (hvalue : ∀ M node, Halts p k (fun c => c.valueType node) M) {node : NodeId}
    (hbelow : ∀ x, height p rank x < height p rank node → Evaluates p k x)
    (hlookup : TypeForm.ofKind (p.kind node) = .lookup →
      ∀ M t name, Halts p k (fun c => c.propertyType t name) M)
    {env : Env} (henv : EnvIn env M) : Halts p k (fun c => evalType p c node env) M := by
  have hparts : ∀ x ∈ parts p node, Evaluates p k x := fun x hx => hbelow x (hg.height_part hx)
  have hready : ∀ b ∈ namedBinding? p node, ∀ d ∈ declarationBehind? p b, Ready p k d :=
    fun b hb d hd x hx => hbelow x (height_lt_of_rank_lt (hg.rank_unmarked hb hd hx))
  unfold parts at hparts
  unfold namedBinding? at hready
  unfold evalType
  split
  · next hform =>
    rw [hform] at hparts
    exact halts_evalFirst henv hparts
  · exact (answers_predefinedType _).halts
  · split
    · exact (answers_literalType _).halts
    · exact halts_intern _
  · exact (answers_literalType _).halts
  · exact halts_intern _
  · next hform =>
    rw [hform] at hready
    exact halts_namedType hlow hready env typesIn_nil
  · next hform =>
    rw [hform] at hready
    exact halts_qualifiedType hlow hready typesIn_nil
  · next hform =>
    rw [hform] at hparts hready
    refine (halts_typeArgumentsAt henv hparts).bind
      (fun bound => keeps_typeArgumentsAt (keeps_calls p bound) henv node)
      fun args M₁ h₁ hargs => ?_
    split
    · next name hname =>
      dsimp only at hready
      rw [hname, Option.bind_some] at hready
      split
      · next hk =>
        rw [if_pos hk] at hready
        exact halts_qualifiedType hlow hready hargs
      · next hk =>
        rw [if_neg hk] at hready
        exact halts_namedType hlow hready env hargs
    · exact halts_intern _
  · next hform =>
    rw [hform] at hparts
    exact (halts_evalFirst henv hparts).last fun _ => answers_intern _
  · next hform =>
    rw [hform] at hparts
    refine Halts.last (halts_mapM _ (fun element he M' hE => ?_) fun element _ _ hE bound =>
      keeps_tupleElement (keeps_calls p bound) (henv.mono hE) element) fun _ => answers_intern _
    exact halts_tupleElement (henv.mono hE) fun x hx =>
      hparts x (List.mem_filterMap.2 ⟨element, he, hx⟩)
  · next hform =>
    rw [hform] at hparts
    exact (halts_evalAll henv hparts).last answers_makeUnion
  · next hform =>
    rw [hform] at hparts
    exact (halts_evalAll henv hparts).last answers_makeIntersection
  · exact ((answers_internSymbol _).bind fun _ => answers_intern _).halts
  · exact halts_intern _
  · split
    · exact hvalue M _
    · exact halts_intern _
  · next hform =>
    rw [hform] at hparts
    exact halts_lookupType henv hparts (hlookup hform)
  · exact halts_intern _
  · exact halts_intern _
  · exact halts_intern _

end RouteContract.Types
