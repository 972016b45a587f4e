import Mathlib
import RouteContract.Proofs.Types.Members

/-!
# Questions without an answer

What the resolver is looking for is marked for expressions, aliases and members only, and an alias
is marked after its type arguments are filled up. A default of a type parameter is evaluated
unmarked, so a declaration whose first parameter defaults to the declaration itself is looked for
again and again: no bound on nested steps is enough (`unanswered_calls`).

`Unanswered p x` says that `x` gives no answer from any sound memory. It is what a computation keeps
that has no result to speak of, so that the rules of `Keeps` carry it through the steps before the
one that is not answered.
-/

namespace RouteContract.Types

variable {p : Program} {α β : Type}

/-- A computation gives no answer. -/
def Unanswered (p : Program) (x : Resolve α) : Prop := ∀ M, Keeps p x M fun _ _ => False

theorem Unanswered.bind {x : Resolve α} (hx : Unanswered p x) (f : α → Resolve β) :
    Unanswered p (x >>= f) := fun M => (hx M).bind fun _ _ _ h => h.elim

theorem Unanswered.run_eq_none {x : Resolve α} (hx : Unanswered p x) {M : Memory}
    (hM : Sound p M) : x.run M = none := by
  cases h : x.run M with
  | none => rfl
  | some r => exact (ensures_option_iff.1 (hx M hM) r.1 r.2 h).2.2.elim

/-- A type expression is a name that stands for a declaration. -/
structure NamesType (p : Program) (node decl : NodeId) : Prop where
  isName : TypeForm.ofKind (p.kind node) = .name
  lookup : Names.lookup p .type (p.text node) node = some decl

/-- The default of the first type parameter of a declaration is the declaration itself. -/
structure DefaultsToItself (p : Program) (decl : NodeId) (default : NodeId) : Prop where
  kind : p.kind decl ∈ "type_alias_declaration" :: objectDeclarationKinds
  first : ∃ param rest, Names.typeParameters p decl = param :: rest ∧
    (p.field? param "value").bind (fun v => (p.namedChildren v).head?) = some default
  names : NamesType p default decl

namespace DefaultsToItself

variable {decl default : NodeId} (h : DefaultsToItself p decl default) {calls : Calls}
include h

theorem unanswered_completeArgs (hcall : Unanswered p (calls.evalType default [])) :
    Unanswered p (completeArgs p calls decl []) := by
  obtain ⟨param, rest, hparams, hdefault⟩ := h.first
  unfold completeArgs
  rw [hparams]
  refine Unanswered.bind ?_ _
  show Unanswered p (fillArgs p calls [] (param :: rest))
  rw [fillArgs, hdefault]
  exact hcall.bind _

theorem unanswered_declaredType (hcall : Unanswered p (calls.evalType default [])) (s : SymbolId) :
    Unanswered p (declaredType p calls decl s []) := by
  have hargs := h.unanswered_completeArgs hcall
  have hkind := h.kind
  unfold declaredType
  split
  · exact hargs.bind _
  · exact hargs.bind _
  · exact hargs.bind _
  · exact hargs.bind _
  · exact hargs.bind _
  · next hk => exact absurd hkind (by rw [hk]; decide)
  · next h₁ h₂ h₃ h₄ h₅ _ =>
    simp only [objectDeclarationKinds, List.mem_cons, List.not_mem_nil, or_false] at hkind
    tauto

/-- A name of the declaration is not resolved before its default is. -/
theorem unanswered_evalType (hcall : Unanswered p (calls.evalType default [])) {node : NodeId}
    (hnode : NamesType p node decl) : Unanswered p (evalType p calls node []) := by
  intro M
  unfold evalType
  rw [hnode.isName]
  show Keeps p (namedType p calls (p.text node) node [] []) M _
  unfold namedType
  have hparameter : p.kind decl ≠ "type_parameter" := fun hk => absurd h.kind (by rw [hk]; decide)
  simp only [List.reverse_nil, List.lookup_nil, hnode.lookup, if_neg hparameter]
  refine (keeps_bindingSymbol (Or.inl ⟨_, _, _, hnode.lookup⟩)).bind fun s M₁ _ hs => ?_
  refine keeps_of_sound fun hM₁ => keeps_symbol_bind ?_
  rw [hM₁.symbolOf_declaration hs h.kind]
  refine keeps_symbol_bind ?_
  rw [hM₁.symbolOf_declaration hs h.kind]
  exact h.unanswered_declaredType hcall s M₁

/-- **A declaration that defaults to itself is never resolved**: no bound on nested steps is
enough. -/
theorem unanswered_calls (bound : Nat) {node : NodeId} (hnode : NamesType p node decl) :
    Unanswered p ((Types.calls p bound).evalType node []) := by
  induction bound generalizing node with
  | zero => exact fun M => keeps_exhausted
  | succ bound ih => exact h.unanswered_evalType (ih h.names) hnode

end DefaultsToItself

/-- `interface Foo<T = Foo> {}`. -/
def fooProgram : Program where
  units := #[{
    path := "foo.ts"
    nodes := #[
      { kind := "program", named := true, children := [1] },
      { kind := "interface_declaration", named := true, parent := some 0, children := [2, 3, 11] },
      { kind := "type_identifier", field := some "name", named := true, parent := some 1,
        text := "Foo" },
      { kind := "type_parameters", field := some "type_parameters", named := true,
        parent := some 1, children := [4, 5, 10] },
      { kind := "<", parent := some 3 },
      { kind := "type_parameter", named := true, parent := some 3, children := [6, 7] },
      { kind := "type_identifier", field := some "name", named := true, parent := some 5,
        text := "T" },
      { kind := "default_type", field := some "value", named := true, parent := some 5,
        children := [8, 9] },
      { kind := "=", parent := some 7 },
      { kind := "type_identifier", named := true, parent := some 7, text := "Foo" },
      { kind := ">", parent := some 3 },
      { kind := "interface_body", field := some "body", named := true, parent := some 1 }] }]

theorem defaultsToItself_foo : DefaultsToItself fooProgram ⟨0, 1⟩ ⟨0, 9⟩ where
  kind := by decide
  first := ⟨⟨0, 5⟩, [], by decide +kernel, by decide +kernel⟩
  names := ⟨by decide, by decide +kernel⟩

/-- The type of `Foo` is not found, nor that of its default. -/
theorem typeAt_foo_unanswered :
    (∀ bound, ((oracleWithin fooProgram bound).typeAt ⟨0, 2⟩).run {} = none) ∧
      ∀ bound, ((oracleWithin fooProgram bound).typeOfTypeNode ⟨0, 9⟩).run {} = none := by
  have hname : NamesType fooProgram ⟨0, 2⟩ ⟨0, 1⟩ := ⟨by decide, by decide +kernel⟩
  have hcall := fun bound => defaultsToItself_foo.unanswered_calls bound defaultsToItself_foo.names
  constructor
  · intro bound
    have htypeAt : typeAt fooProgram (calls fooProgram bound) ⟨0, 2⟩ =
        evalType fooProgram (calls fooProgram bound) ⟨0, 2⟩ [] := rfl
    show (typeAt fooProgram (calls fooProgram bound) ⟨0, 2⟩).run {} = none
    rw [htypeAt]
    exact (defaultsToItself_foo.unanswered_evalType (hcall bound) hname).run_eq_none sound_empty
  · intro bound
    exact (defaultsToItself_foo.unanswered_evalType (hcall bound)
      defaultsToItself_foo.names).run_eq_none sound_empty

end RouteContract.Types
