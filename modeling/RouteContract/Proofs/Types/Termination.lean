import Mathlib
import RouteContract.Proofs.Types.Collecting
import RouteContract.Proofs.Types.Divergence
import RouteContract.Proofs.Types.Queries

/-!
# Every question is answered

In a guarded program every step of the resolver gets its answer (`halting`), by induction on the
number of marks that are left: what is looked for with a mark of its own is looked for with fewer
marks left, and all else goes down in rank, into a node, or to types before a type. So every session
of questions to a fresh resolver comes to its end, whatever aliases, classes, initializers and
re-exports of the program refer to each other in circles.
-/

namespace RouteContract.Types

variable {p : Program} {M M' : Memory} {rank : NodeId → Nat} {k : Nat}

/-! ### Type expressions -/

section TypeExpressions

variable (hg : Guarded p rank) (hlow : ∀ j < k, Halting p j)
  (hvalue : ∀ M node, Halts p k (fun c => c.valueType node) M)
include hg hlow hvalue

/-- Every type expression gets its type, by induction on its height. -/
theorem evaluates (node : NodeId) : Evaluates p k node := by
  induction hn : height p rank node using WellFoundedLT.induction generalizing node with
  | _ n ih =>
    have hbelow : ∀ x, height p rank x < height p rank node → Evaluates p k x :=
      fun x hx => ih _ (hn ▸ hx) x rfl
    intro M env henv
    refine Halts.call (x := fun c => evalType p c node env) ?_ fun _ => rfl
    refine halts_evalType hg (fun j hj => (hlow j hj).evalType) hvalue hbelow (fun hform => ?_) henv
    -- a property that is looked up has its type from below
    have hnode : node ∈ p.nodes := Program.mem_nodes fun hk => by
      rw [hk] at hform
      cases hform
    have hprepared : Prepared p rank k := {
      guarded := hg
      low := hlow
      valueType := hvalue
      collected := ⟨rank node, hg.lookups node hnode hform,
        fun x hx => hbelow x (height_lt_of_rank_lt hx)⟩ }
    exact hprepared.halts_propertyType

theorem prepared : Prepared p rank k where
  guarded := hg
  low := hlow
  valueType := hvalue
  collected := by
    refine ⟨((collected p).map rank).sum + 1, fun x hx => Nat.lt_succ_of_le ?_,
      fun x _ => evaluates hg hlow hvalue x⟩
    exact List.le_sum_of_mem (List.mem_map_of_mem hx)

end TypeExpressions

/-! ### Symbols -/

/-- What a symbol that is no import is asked for. -/
structure Settled (p : Program) (k : Nat) : Prop where
  evalType (x : NodeId) : Evaluates p k x
  valueType (M : Memory) (node : NodeId) : Halts p k (fun c => c.valueType node) M
  membersOf (M : Memory) (t : TypeId) : Halts p k (fun c => c.membersOf t) M
  propertyType (M : Memory) (t : TypeId) (name : String) :
    Halts p k (fun c => c.propertyType t name) M

namespace Settled

variable (h : Settled p k)
include h

theorem halts_propertyOf {declared : NodeId} (key : String) :
    Halts p k (fun c => do c.propertyType (← c.evalType declared []) key) M :=
  (h.evalType declared M [] envIn_nil).bind
    (fun bound => (keeps_calls p bound).evalType declared envIn_nil)
    fun t M₁ _ _ => h.propertyType M₁ t key

theorem halts_destructuredType (element : NodeId) :
    Halts p k (fun c => destructuredType p c element) M := by
  have parameter : ∀ holder key,
      Halts p k (fun c => destructuredType.ofParameter p c holder key) M := by
    intro holder key
    unfold destructuredType.ofParameter
    split
    · exact h.halts_propertyOf key
    · exact halts_intern _
  unfold destructuredType
  split
  · exact halts_intern _
  split
  · exact halts_intern _
  split
  · split
    · exact h.halts_propertyOf _
    · exact (h.valueType M _).bind (fun bound => (keeps_calls p bound).valueType _)
        fun t M₁ _ _ => h.propertyType M₁ t _
    · exact halts_intern _
  · exact parameter _ _
  · exact parameter _ _
  · exact halts_intern _

theorem halts_widenedChild (node : NodeId) (role : String) :
    Halts p k (fun c => widenedChild p c node role) M := by
  unfold widenedChild
  split
  · exact (h.valueType M _).last answers_widen
  · exact halts_intern _

theorem halts_declarationType (decl : NodeId) (s : SymbolId) :
    Halts p k (fun c => declarationType p c decl s) M := by
  have parameter : Halts p k (fun c => declarationType.ofParameter p c decl) M := by
    unfold declarationType.ofParameter
    split
    · exact h.evalType _ M [] envIn_nil
    · exact h.halts_widenedChild decl "value"
  have declared : Halts p k (fun c => declaredType p c decl s []) M :=
    halts_declaredType (fun j hj x => (h.evalType x).mono hj.le) (fun x _ => h.evalType x)
      typesIn_nil
  unfold declarationType
  split
  · split
    · exact h.evalType _ M [] envIn_nil
    · refine (h.valueType M _).last fun t => ?_
      have widened : ∀ isConst : Bool, Answers (if isConst then pure t else widen t) := by
        intro isConst
        split
        · exact answers_pure t
        · exact answers_widen t
      exact widened _
    · exact halts_intern _
  · exact parameter
  · exact parameter
  · exact h.halts_widenedChild decl "right"
  · exact h.halts_destructuredType decl
  · exact h.halts_destructuredType decl
  · exact halts_intern _
  · exact halts_intern _
  · exact halts_intern _
  · exact declared
  · exact declared
  · exact halts_intern _
  · exact halts_intern _
  · split
    · exact halts_intern _
    · exact h.valueType M decl

/-- The type of the value that a symbol names is found: the one behind an import is no import. -/
theorem halts_symbolType (M : Memory) (s : SymbolId) : Halts p k (fun c => c.symbolType s) M := by
  have own : ∀ {M s}, (∀ d source name, (M.symbolOf s).kind ≠ .imported d source name) →
      Halts p k (fun c => c.symbolType s) M := by
    intro M s hs
    refine Halts.call (x := fun c => symbolType p c s) ?_ fun _ => rfl
    refine halts_of_sound fun hM => halts_symbol_bind ?_
    split
    · exact h.halts_declarationType _ s
    · next hk => exact absurd hk (hs _ _ _)
    · exact halts_intern _
    · exact halts_intern _
    · next hk => exact halts_sourceType (hM.property hk) h.valueType fun x _ => h.evalType x
    · exact halts_pure _
  by_cases hs : ∃ d source name, (M.symbolOf s).kind = .imported d source name
  · obtain ⟨d, source, name, hk⟩ := hs
    refine Halts.call (x := fun c => symbolType p c s) (halts_symbol_bind ?_) fun _ => rfl
    rw [hk]
    refine (answers_followAlias? s).halts_bind (keeps_followAlias?_key hk)
      fun found M₁ _ hfound => ?_
    split
    · next r =>
      split
      · exact halts_intern _
      · refine halts_of_sound fun hM₁ => own fun d' source' name' hr => ?_
        have hbehind := hfound r rfl d' (hM₁.imported hr).2
        exact describe_of_followWithin? (follow?_of_declarationBehind? hbehind) source' name'
          (hM₁.describe_of_imported hr)
    · exact halts_intern _
  · exact own fun d source name hk => hs ⟨d, source, name, hk⟩

theorem halting : Halting p k where
  evalType := h.evalType
  valueType := h.valueType
  membersOf := h.membersOf
  symbolType := h.halts_symbolType
  propertyType := h.propertyType

end Settled

theorem Halting.settled (h : Halting p k) : Settled p k where
  evalType := h.evalType
  valueType := h.valueType
  membersOf := h.membersOf
  propertyType := h.propertyType

/-! ### Expressions -/

theorem answers_isText (t : TypeId) : Answers (isText t) := by
  refine (answers_data t).bind fun d => ?_
  split <;> exact answers_pure _

theorem answers_inferUnary (node : NodeId) : Answers (inferUnary p node) := by
  unfold inferUnary
  split
  case h_5 =>
    split
    · split <;> exact answers_intern _
    · exact answers_intern _
  all_goals exact answers_intern _

namespace Halting

variable (h : Halting p k)
include h

theorem halts_childType (node : NodeId) (role : String) :
    Halts p k (fun c => childType p c node role) M := by
  unfold childType
  split
  · exact h.valueType M _
  · exact halts_intern _

theorem halts_innerType (node : NodeId) {step : TypeId → Resolve TypeId}
    (hstep : ∀ t, Answers (step t)) : Halts p k (fun c => innerType p c node step) M := by
  unfold innerType
  split
  · exact (h.valueType M _).last hstep
  · exact halts_intern _

theorem halts_inferBinary (node : NodeId) : Halts p k (fun c => inferBinary p c node) M := by
  have child : ∀ {M} role, ∀ bound, Keeps p (childType p (calls p bound) node role) M TypeIn :=
    fun role bound => keeps_childType (keeps_calls p bound) node role
  unfold inferBinary
  dsimp only
  split
  · refine (h.halts_childType node "left").bind (child "left") fun left M₁ _ _ => ?_
    refine (answers_isText left).halts_bind (keeps_isText left) fun isLeft M₂ _ _ => ?_
    split
    · exact halts_intern _
    · refine (h.halts_childType node "right").last fun right => (answers_isText right).bind ?_
      intro isRight
      split <;> exact answers_intern _
  split
  · exact halts_intern _
  split
  · refine (h.halts_childType node "left").bind (child "left") fun left M₁ _ _ => ?_
    refine (h.halts_childType node "right").last fun right => ?_
    split
    · exact (answers_nonNullable left).bind fun _ => answers_makeUnion _
    · exact (answers_pure left).bind fun _ => answers_makeUnion _
  · exact halts_intern _

theorem halts_returnType (decl : NodeId) : Halts p k (fun c => returnType p c decl) M := by
  have promised : ∀ inner, Answers (if p.hasToken decl "async" then
      builtinType "Promise" [inner] else pure inner) := by
    intro inner
    split
    · exact answers_builtinType _ _
    · exact answers_pure inner
  unfold returnType
  split
  · exact h.evalType _ M [] envIn_nil
  · dsimp only
    split
    · split
      · exact ((answers_intern _).bind promised).halts
      · exact (h.valueType M _).last promised
    · exact ((answers_intern _).bind promised).halts

theorem halts_inferCall (node : NodeId) : Halts p k (fun c => inferCall p c node) M := by
  unfold inferCall
  split
  · exact halts_intern _
  · refine (h.valueType M _).bind (fun bound => (keeps_calls p bound).valueType _)
      fun callee M₁ _ _ => halts_data_bind ?_
    split
    · exact h.halts_returnType _
    · exact halts_intern _

theorem halts_inferNew (node : NodeId) : Halts p k (fun c => inferNew p c node) M := by
  unfold inferNew
  split
  · exact halts_intern _
  · refine (halts_typeArgumentsAt envIn_nil fun x _ => h.evalType x).bind
      (fun bound => keeps_typeArgumentsAt (keeps_calls p bound) envIn_nil node)
      fun args M₁ _ hargs => ?_
    split
    · dsimp only
      split
      · next binding hb =>
        refine (answers_internSymbol _).halts_bind (keeps_bindingSymbol (Or.inl ⟨_, _, _, hb⟩))
          fun s M₂ h₂ _ => ?_
        exact halts_symbolInstanceType h.evalType_lt (fun _ _ _ _ x _ => h.evalType x) _
          (hargs.mono h₂)
      · exact (answers_builtinType _ args).halts
    · exact halts_intern _

theorem halts_memberSymbol (member : NodeId) :
    Halts p k (fun c => memberSymbol p c member) M := by
  unfold memberSymbol
  split
  · dsimp only
    split
    · exact (answers_exportSymbol? _ _).halts
    · refine (h.valueType M _).bind (fun bound => (keeps_calls p bound).valueType _)
        fun t M₁ _ _ => ?_
      exact (h.membersOf M₁ t).last (answers_findNamed _)
  · exact halts_pure _

theorem halts_inferMember (node : NodeId) : Halts p k (fun c => inferMember p c node) M := by
  refine (h.halts_memberSymbol node).bind
    (fun bound => keeps_memberSymbol (keeps_calls p bound) node) fun s M₁ _ _ => ?_
  split
  · exact h.symbolType M₁ _
  · split
    · exact (h.valueType M₁ _).bind (fun bound => (keeps_calls p bound).valueType _)
        fun t M₂ _ _ => h.propertyType M₂ t _
    · exact halts_intern _

theorem halts_inferSubscript (node : NodeId) : Halts p k (fun c => inferSubscript p c node) M := by
  have quoted : ∀ {M} object index,
      Halts p k (fun c => inferSubscript.quotedProperty p c object index) M := by
    intro M object index
    unfold inferSubscript.quotedProperty
    split
    · split
      · exact h.propertyType M object _
      · exact halts_intern _
    · exact halts_intern _
  unfold inferSubscript
  split
  · refine (h.valueType M _).bind (fun bound => (keeps_calls p bound).valueType _)
      fun object M₁ _ _ => halts_data_bind ?_
    split
    · exact halts_pure _
    · split
      · split
        · exact halts_pure _
        · exact halts_intern _
      · exact quoted _ _
    · exact quoted _ _
  · exact halts_intern _

/-- The type of an expression is inferred. -/
theorem halts_infer (node : NodeId) : Halts p k (fun c => infer p c node) M := by
  unfold infer
  split
  · split
    · next binding hb =>
      exact (answers_internSymbol _).halts_bind (keeps_bindingSymbol (Or.inl ⟨_, _, _, hb⟩))
        fun s M₁ _ _ => h.symbolType M₁ s
    · split
      · exact halts_intern _
      · exact halts_intern _
  · split <;> exact halts_intern _
  · exact halts_intern _
  · exact halts_intern _
  · exact halts_intern _
  · exact halts_intern _
  · exact halts_intern _
  · exact (answers_builtinType _ _).halts
  · exact ((answers_internSymbol _).bind fun _ => answers_intern _).halts
  · dsimp only
    refine Halts.last (halts_mapM _ (fun e _ M₁ _ => (h.valueType M₁ e).last answers_widen)
      fun e _ M₁ _ bound => ((keeps_calls p bound).valueType e).bind fun t _ _ ht =>
        keeps_widen ht) fun types => ?_
    split
    · exact (answers_intern _).bind fun _ => answers_intern _
    · exact (answers_makeUnion _).bind fun _ => answers_intern _
  · exact h.halts_innerType node answers_pure
  · exact h.halts_innerType node answers_nonNullable
  · split
    · exact h.evalType _ M [] envIn_nil
    · exact h.valueType M _
    · exact halts_intern _
  · split
    · exact h.evalType _ M [] envIn_nil
    · exact halts_intern _
  · exact h.halts_innerType node answers_awaited
  · exact h.halts_inferCall node
  · exact h.halts_inferNew node
  · exact h.halts_inferMember node
  · exact h.halts_inferSubscript node
  · exact h.halts_inferBinary node
  · exact (answers_inferUnary node).halts
  · exact halts_intern _
  · exact (halts_mapM _ (fun branch _ M₁ _ => h.valueType M₁ branch)
      fun branch _ M₁ _ bound => (keeps_calls p bound).valueType branch).last answers_makeUnion
  · exact h.halts_childType node "right"
  · split
    · exact h.valueType M _
    · exact halts_intern _
  · exact halts_intern _
  · exact halts_intern _

end Halting

/-- The type of an expression is found, its mark being one less. -/
theorem halts_valueType (hlow : ∀ j < k, Halting p j) (M : Memory) (node : NodeId) :
    Halts p k (fun c => c.valueType node) M := by
  refine Halts.call (x := fun c => valueType p c node) (halts_get_bind ?_) fun _ => rfl
  split
  · exact halts_pure _
  split
  · exact halts_intern _
  next hnew =>
  refine halts_marked (fun hM => ?_) fun _ hfree => ?_
  · exact hM.remember rfl rfl (fun _ => Or.inl) (fun _ => Or.inl) (fun _ => Or.inl)
  by_cases hk : p.kind node = ""
  · -- a node that is not there has no form
    have hform : ValueForm.ofKind (p.kind node) = .other := by rw [hk]; decide
    unfold infer
    rw [hform]
    exact halts_intern _
  · have hmark : node ∉ M.inferring := fun hmem => hnew (List.contains_iff_mem.2 hmem)
    exact (hlow _ ((free_infer_lt (Program.mem_nodes hk) hmark).trans_le hfree)).halts_infer node

/-- **Every step of the resolver of a guarded program gets its answer.** -/
theorem halting (hg : Guarded p rank) (k : Nat) : Halting p k := by
  induction k using Nat.strong_induction_on with
  | _ k hlow =>
    have hvalue := halts_valueType hlow
    have hprepared := prepared hg hlow hvalue
    have hsettled : Settled p k := {
      evalType := evaluates hg hlow hvalue
      valueType := hvalue
      membersOf := hprepared.halts_membersOf
      propertyType := hprepared.halts_propertyType }
    exact hsettled.halting

/-! ### Questions -/

namespace Halting

variable (h : Halting p k)
include h

theorem halts_typeAt (node : NodeId) : Halts p k (fun c => typeAt p c node) M := by
  unfold typeAt
  split
  · exact (h.evalType node M [] envIn_nil).body fun _ => rfl
  · split
    · next decl hd =>
      exact (answers_internSymbol _).halts_bind
        (keeps_bindingSymbol (isBinding_of_namedDeclaration? hd))
        fun s M₁ _ _ => h.settled.halts_declarationType decl s
    · exact (h.valueType M node).body fun _ => rfl

theorem halts_symbolAt (node : NodeId) : Halts p k (fun c => symbolAt p c node) M := by
  have named : ∀ space node, Answers (nameSymbol p space node) := by
    intro space node
    unfold nameSymbol
    split
    · exact (answers_internSymbol _).bind fun _ => answers_pure _
    · exact answers_pure _
  unfold symbolAt
  split
  · exact halts_pure _
  split
  · exact (named _ _).halts
  · exact (named _ _).halts
  · exact (named _ _).halts
  · split
    · split
      · exact h.halts_memberSymbol _
      · exact halts_pure _
    · exact halts_pure _
  · exact h.halts_memberSymbol _
  · exact halts_pure _

theorem halts_enumLiterals (t : TypeId) : Halts p k (fun c => enumLiterals p c t) M := by
  refine halts_data_bind ?_
  split
  · exact (halts_enumMembers h.valueType _).last fun _ => answers_pure _
  · exact halts_pure _

end Halting

theorem answers_declarations (s : SymbolId) : Answers (declarations s) := by
  refine (answers_symbol s).bind fun sym => ?_
  split <;> exact answers_pure _

theorem answers_containerName (s : SymbolId) : Answers (containerName s) := by
  refine (answers_symbol s).bind fun sym => ?_
  split
  · refine (answers_data _).bind fun d => ?_
    split
    · exact (answers_symbol _).bind fun _ => answers_pure _
    · exact (answers_symbol _).bind fun _ => answers_pure _
    · exact (answers_symbol _).bind fun _ => answers_pure _
    · exact answers_pure _
  · exact answers_pure _

theorem answers_typeSymbol (t : TypeId) : Answers (typeSymbol t) := by
  refine (answers_data t).bind fun d => ?_
  split
  · exact answers_pure _
  · exact answers_pure _
  · exact answers_pure _
  · exact (answers_internSymbol _).bind fun _ => answers_pure _
  · exact (answers_internSymbol _).bind fun _ => answers_pure _
  · exact answers_pure _

/-- In a guarded program, every question is answered from every sound memory. -/
theorem pose_answered (hg : Guarded p rank) (hM : Sound p M) (question : Question) :
    ∃ n r, ∀ bound ≥ n, ((oracleWithin p bound).pose question).run M = some r := by
  have h := halting hg (free p M)
  have posed : ∀ {α : Type} {x : Calls → Resolve α}, Halts p (free p M) x M →
      ∃ n r, ∀ bound ≥ n, (discard (x (calls p bound))).run M = some r := by
    intro α x hx
    obtain ⟨n, r, hr⟩ := hx hM le_rfl
    refine ⟨n, (⟨⟩, r.2), fun bound hb => ?_⟩
    show ((fun _ => PUnit.unit) <$> x (calls p bound)).run M = _
    rw [StateT.run_map, hr bound hb]
    rfl
  cases question with
  | typeAt node => exact posed (h.halts_typeAt node)
  | typeOfTypeNode node =>
    exact posed (Halts.body (x := fun c => evalType p c node []) (h.evalType node M [] envIn_nil)
      fun _ => rfl)
  | symbolAt node => exact posed (h.halts_symbolAt node)
  | symbolName s => exact posed ((answers_symbol s).bind fun _ => answers_pure _).halts
  | isAlias s =>
    refine posed (Answers.halts ((answers_symbol s).bind fun sym => ?_))
    split <;> exact answers_pure _
  | aliasedSymbol s => exact posed (answers_followAlias? s).halts
  | declarations s => exact posed (answers_declarations s).halts
  | typeOfSymbol s =>
    exact posed (Halts.body (x := fun c => symbolType p c s) (h.symbolType M s) fun _ => rfl)
  | isOptional s =>
    refine posed (Answers.halts ((answers_symbol s).bind fun sym => ?_))
    split <;> exact answers_pure _
  | containerName s => exact posed (answers_containerName s).halts
  | docText s => exact posed ((answers_declarations s).bind fun _ => answers_pure _).halts
  | shape t => exact posed ((answers_data t).bind fun _ => answers_pure _).halts
  | typeSymbol t => exact posed (answers_typeSymbol t).halts
  | aliasSymbol t =>
    refine posed (Answers.halts ((answers_data t).bind fun d => ?_))
    split <;> exact answers_pure _
  | typeArguments t => exact posed ((answers_data t).bind fun _ => answers_pure _).halts
  | isTuple t =>
    refine posed (Answers.halts ((answers_data t).bind fun d => ?_))
    split <;> exact answers_pure _
  | constituents t => exact posed ((answers_data t).bind fun _ => answers_pure _).halts
  | properties t =>
    exact posed (Halts.body (x := fun c => membersOf p c t) (h.membersOf M t) fun _ => rfl)
  | callSignatureCount t => exact posed ((answers_data t).bind fun _ => answers_pure _).halts
  | enumLiterals t => exact posed (h.halts_enumLiterals t)

/-- Questions in a row are answered from every sound memory. -/
theorem poses_answered (hg : Guarded p rank) (hM : Sound p M) (questions : List Question) :
    ∃ n M', ∀ bound ≥ n, (questions.forM (oracleWithin p bound).pose).run M = some ((), M') := by
  induction questions generalizing M with
  | nil => exact ⟨0, M, fun _ _ => rfl⟩
  | cons question questions ih =>
    obtain ⟨n₁, ⟨⟨⟩, M₁⟩, h₁⟩ := pose_answered hg hM question
    have hkept := (closed_kept p n₁).pose question M hM
    obtain ⟨hM₁, -⟩ := ensures_option_iff.1 hkept _ M₁ (h₁ n₁ le_rfl)
    obtain ⟨n₂, M₂, h₂⟩ := ih hM₁
    refine ⟨max n₁ n₂, M₂, fun bound hb => ?_⟩
    rw [List.forM_eq_forM, List.forM_cons, StateT.run_bind, h₁ bound (le_of_max_le_left hb)]
    exact h₂ bound (le_of_max_le_right hb)

/-- **In a guarded program every session of questions is answered**, whatever is asked for in which
order and whatever circles the program contains: some bound on nested steps is enough for all of
them, and with every larger one the resolver is left with the same memory. -/
theorem session_answered (hg : Guarded p rank) (questions : List Question) :
    ∃ n M, ∀ bound ≥ n, (questions.forM (oracleWithin p bound).pose).run {} = some ((), M) :=
  poses_answered hg sound_empty questions

/-- The guards exclude a declaration that defaults to itself, which is never resolved. -/
theorem DefaultsToItself.not_guarded {decl default : NodeId}
    (h : DefaultsToItself p decl default) : ¬ Guarded p rank := by
  intro hg
  obtain ⟨param, rest, hparams, hdefault⟩ := h.first
  have hmem : default ∈ unmarked p decl := by
    refine List.mem_append_left _ (List.mem_append_left _ (List.mem_filterMap.2 ?_))
    refine ⟨param, ?_, hdefault⟩
    rw [hparams]
    exact List.mem_cons_self
  have hbinding : namedBinding? p default = some decl := by
    rw [namedBinding?, h.names.isName]
    exact h.names.lookup
  have hself := declarationBehind?_declared (describe_declared ((by decide :
    ∀ kind ∈ "type_alias_declaration" :: objectDeclarationKinds,
      kind ∉ ["import_specifier", "namespace_import", "identifier"]) _ h.kind))
  exact lt_irrefl _ (hg.rank_unmarked hbinding hself hmem)

/-- A program with circles that are all marked, and with a default, a base and a property lookup
that go down:
```
type Tree = Tree[];
interface Node<T = Tree> extends Leaf { item: T }
interface Leaf extends Leaf {}
const x = x;
type Item = Node["item"];
export * from "./circles";
```
-/
def circleProgram : Program where
  units := #[{
    path := "circles.ts"
    imports := [("./circles", 0)]
    nodes := #[
      { kind := "program", named := true, children := [1, 5, 19, 24, 29, 36] },
      { kind := "type_alias_declaration", named := true, parent := some 0, children := [2, 3] },
      { kind := "type_identifier", field := some "name", named := true, parent := some 1,
        text := "Tree" },
      { kind := "array_type", field := some "value", named := true, parent := some 1,
        children := [4] },
      { kind := "type_identifier", named := true, parent := some 3, text := "Tree" },
      { kind := "interface_declaration", named := true, parent := some 0,
        children := [6, 7, 12, 14] },
      { kind := "type_identifier", field := some "name", named := true, parent := some 5,
        text := "Node" },
      { kind := "type_parameters", field := some "type_parameters", named := true,
        parent := some 5, children := [8] },
      { kind := "type_parameter", named := true, parent := some 7, children := [9, 10] },
      { kind := "type_identifier", field := some "name", named := true, parent := some 8,
        text := "T" },
      { kind := "default_type", field := some "value", named := true, parent := some 8,
        children := [11] },
      { kind := "type_identifier", named := true, parent := some 10, text := "Tree" },
      { kind := "extends_type_clause", named := true, parent := some 5, children := [13] },
      { kind := "type_identifier", field := some "type", named := true, parent := some 12,
        text := "Leaf" },
      { kind := "interface_body", field := some "body", named := true, parent := some 5,
        children := [15] },
      { kind := "property_signature", named := true, parent := some 14, children := [16, 17] },
      { kind := "property_identifier", field := some "name", named := true, parent := some 15,
        text := "item" },
      { kind := "type_annotation", field := some "type", named := true, parent := some 15,
        children := [18] },
      { kind := "type_identifier", named := true, parent := some 17, text := "T" },
      { kind := "interface_declaration", named := true, parent := some 0,
        children := [20, 21, 23] },
      { kind := "type_identifier", field := some "name", named := true, parent := some 19,
        text := "Leaf" },
      { kind := "extends_type_clause", named := true, parent := some 19, children := [22] },
      { kind := "type_identifier", field := some "type", named := true, parent := some 21,
        text := "Leaf" },
      { kind := "interface_body", field := some "body", named := true, parent := some 19 },
      { kind := "lexical_declaration", named := true, parent := some 0, children := [25, 26] },
      { kind := "const", parent := some 24 },
      { kind := "variable_declarator", named := true, parent := some 24, children := [27, 28] },
      { kind := "identifier", field := some "name", named := true, parent := some 26,
        text := "x" },
      { kind := "identifier", field := some "value", named := true, parent := some 26,
        text := "x" },
      { kind := "type_alias_declaration", named := true, parent := some 0, children := [30, 31] },
      { kind := "type_identifier", field := some "name", named := true, parent := some 29,
        text := "Item" },
      { kind := "lookup_type", field := some "value", named := true, parent := some 29,
        children := [32, 33] },
      { kind := "type_identifier", named := true, parent := some 31, text := "Node" },
      { kind := "literal_type", named := true, parent := some 31, children := [34] },
      { kind := "string", named := true, parent := some 33, children := [35],
        text := "\"item\"" },
      { kind := "string_fragment", named := true, parent := some 34, text := "item" },
      { kind := "export_statement", named := true, parent := some 0, children := [37, 38] },
      { kind := "*", parent := some 36 },
      { kind := "string", field := some "source", named := true, parent := some 36,
        children := [39], text := "\"./circles\"" },
      { kind := "string_fragment", named := true, parent := some 38, text := "./circles" }] }]

/-- The default is below every mention of `Node` and of its parameter, and the lookup above the type
of the property. -/
def circleRank (node : NodeId) : Nat :=
  if node.index = 31 then 2 else if node.index ∈ [6, 9, 17, 18, 32] then 1 else 0

theorem guarded_circleProgram : Guarded circleProgram circleRank where
  made := by decide +kernel
  named := by decide +kernel
  lookups := by decide +kernel
  based := by decide +kernel
  enums := by decide +kernel

/-- Types in circles are found, and so are their members and the property that is looked up. -/
theorem session_answered_circles : ∃ n M, ∀ bound ≥ n,
    ([.typeAt ⟨0, 28⟩, .typeOfTypeNode ⟨0, 4⟩, .typeOfTypeNode ⟨0, 22⟩, .properties 3,
      .typeOfTypeNode ⟨0, 31⟩].forM (oracleWithin circleProgram bound).pose).run {} =
        some ((), M) :=
  session_answered guarded_circleProgram _

end RouteContract.Types
