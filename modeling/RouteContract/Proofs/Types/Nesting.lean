import Mathlib
import RouteContract.Proofs.Types.Evaluation

/-!
# Answers do not depend on the bound

A run of the resolver that comes to an end has the same result when its steps may nest deeper
(`run_calls_of_le`). This needs nothing of the memory or of the program: a computation that makes
calls is `Rising` when it finds all that it finds with some calls also with calls that find more,
and so are all those of the resolver.
-/

namespace RouteContract.Types

variable {p : Program} {α β : Type}

/-- All results of a computation are results of another one. -/
def Included (x y : Resolve α) : Prop := ∀ M r, x.run M = some r → y.run M = some r

/-- Calls that find all that others find. -/
structure Calls.Included (calls more : Calls) : Prop where
  evalType : ∀ node env, Types.Included (calls.evalType node env) (more.evalType node env)
  valueType : ∀ node, Types.Included (calls.valueType node) (more.valueType node)
  membersOf : ∀ t, Types.Included (calls.membersOf t) (more.membersOf t)
  symbolType : ∀ s, Types.Included (calls.symbolType s) (more.symbolType s)
  propertyType : ∀ t name, Types.Included (calls.propertyType t name) (more.propertyType t name)

/-- A computation that finds with more calls all that it finds with fewer. -/
class Rising (x : Calls → Resolve α) : Prop where
  rises : ∀ {calls more : Calls}, calls.Included more → Included (x calls) (x more)

/-! ### Ways of building a computation -/

instance rising_const (x : Resolve α) : Rising fun _ => x := ⟨fun _ _ _ h => h⟩

instance rising_evalType (node : NodeId) (env : Env) : Rising fun c => c.evalType node env :=
  ⟨fun h => h.evalType node env⟩

instance rising_valueCall (node : NodeId) : Rising fun c => c.valueType node :=
  ⟨fun h => h.valueType node⟩

instance rising_membersCall (t : TypeId) : Rising fun c => c.membersOf t := ⟨fun h => h.membersOf t⟩

instance rising_symbolCall (s : SymbolId) : Rising fun c => c.symbolType s :=
  ⟨fun h => h.symbolType s⟩

instance rising_propertyCall (t : TypeId) (name : String) : Rising fun c => c.propertyType t name :=
  ⟨fun h => h.propertyType t name⟩

theorem Rising.bind {x : Calls → Resolve α} {f : Calls → α → Resolve β} (hx : Rising x)
    (hf : ∀ a, Rising fun c => f c a) : Rising fun c => x c >>= f c := by
  refine ⟨fun h M r hr => ?_⟩
  rw [StateT.run_bind] at hr ⊢
  obtain ⟨⟨a, M₁⟩, h₁, h₂⟩ := Option.bind_eq_some_iff.1 hr
  rw [hx.rises h M _ h₁]
  exact (hf a).rises h M₁ r h₂

instance rising_bind {x : Calls → Resolve α} {f : Calls → α → Resolve β} [hx : Rising x]
    [hf : ∀ a, Rising fun c => f c a] : Rising fun c => x c >>= f c := hx.bind hf

instance rising_ite {P : Prop} {_ : Decidable P} {x y : Calls → Resolve α} [hx : Rising x]
    [hy : Rising y] : Rising fun c => if P then x c else y c := by
  split
  · exact hx
  · exact hy

instance rising_mapM {f : Calls → α → Resolve β} [hf : ∀ a, Rising fun c => f c a] (l : List α) :
    Rising fun c => l.mapM (f c) := by
  induction l with
  | nil =>
    simp only [List.mapM_nil]
    infer_instance
  | cons a l ih =>
    simp only [List.mapM_cons]
    infer_instance

instance rising_foldlM {f : Calls → β → α → Resolve β} [hf : ∀ b a, Rising fun c => f c b a]
    (l : List α) (b : β) : Rising fun c => l.foldlM (f c) b := by
  induction l generalizing b with
  | nil => exact rising_const _
  | cons a l ih =>
    simp only [List.foldlM_cons]
    infer_instance

/-! ### Type expressions -/

instance rising_fillArgs (params : List NodeId) (args : List TypeId) :
    Rising fun c => fillArgs p c args params := by
  induction params generalizing args with
  | nil => exact rising_const _
  | cons param rest ih =>
    simp only [fillArgs]
    split <;> infer_instance

instance rising_completeArgs (decl : NodeId) (args : List TypeId) :
    Rising fun c => completeArgs p c decl args := by
  unfold completeArgs
  infer_instance

instance rising_aliasValue (decl : NodeId) (s : SymbolId) (args : List TypeId) :
    Rising fun c => aliasValue p c decl s args := by
  refine (rising_const _).bind fun env => ?_
  split <;> infer_instance

instance rising_knownAlias (decl : NodeId) (s : SymbolId) (args : List TypeId) :
    Rising fun c => knownAlias p c decl s args := by
  refine (rising_const _).bind fun memory => ?_
  split <;> infer_instance

instance rising_aliasType (decl : NodeId) (s : SymbolId) (args : List TypeId) :
    Rising fun c => aliasType p c decl s args :=
  (rising_completeArgs decl args).bind fun args => rising_knownAlias decl s args

instance rising_declaredType (decl : NodeId) (s : SymbolId) (args : List TypeId) :
    Rising fun c => declaredType p c decl s args := by
  unfold declaredType
  split <;> infer_instance

instance rising_denoted (target : SymbolId) (name : String) (args : List TypeId) :
    Rising fun c => (do
      match (← symbol target).kind with
      | .declared decl => declaredType p c decl target args
      | _ => builtinType name args : Resolve TypeId) := by
  refine (rising_const _).bind fun sym => ?_
  split <;> infer_instance

instance rising_symbolInstanceType (s : SymbolId) (name : String) (args : List TypeId) :
    Rising fun c => symbolInstanceType p c s name args := by
  refine (rising_const _).bind fun sym => ?_
  split
  · refine (rising_const _).bind fun target => ?_
    split <;> infer_instance
  · infer_instance

instance rising_qualifiedType (node : NodeId) (args : List TypeId) :
    Rising fun c => qualifiedType p c node args := by
  unfold qualifiedType
  dsimp only
  split
  · refine (rising_const _).bind fun s => ?_
    split <;> infer_instance
  · infer_instance

instance rising_namedType (name : String) (origin : NodeId) (env : Env) (args : List TypeId) :
    Rising fun c => namedType p c name origin env args := by
  unfold namedType
  split
  · infer_instance
  split
  · infer_instance
  split
  · split <;> infer_instance
  · infer_instance

instance rising_evalAll (env : Env) (nodes : List NodeId) :
    Rising fun c => evalAll c env nodes := by
  unfold evalAll
  infer_instance

instance rising_evalFirst (env : Env) (node : NodeId) : Rising fun c => evalFirst p c env node := by
  unfold evalFirst
  split <;> infer_instance

instance rising_typeArgumentsAt (env : Env) (node : NodeId) :
    Rising fun c => typeArgumentsAt p c env node := by
  unfold typeArgumentsAt
  split <;> infer_instance

instance rising_tupleElement (env : Env) (element : NodeId) :
    Rising fun c => tupleElement p c env element := by
  unfold tupleElement
  infer_instance

instance rising_lookupType (env : Env) (node : NodeId) :
    Rising fun c => lookupType p c env node := by
  unfold lookupType
  split
  · refine (rising_evalType _ _).bind fun object => ?_
    dsimp only
    split <;> infer_instance
  · infer_instance

instance rising_typeExpression (node : NodeId) (env : Env) :
    Rising fun c => evalType p c node env := by
  unfold evalType
  split
  case h_3 => split <;> infer_instance
  case h_8 =>
    refine (rising_typeArgumentsAt _ _).bind fun args => ?_
    split <;> infer_instance
  case h_15 => split <;> infer_instance
  all_goals infer_instance

/-! ### Expressions and declarations -/

instance rising_childType (node : NodeId) (role : String) :
    Rising fun c => childType p c node role := by
  unfold childType
  split <;> infer_instance

instance rising_innerType (node : NodeId) (step : TypeId → Resolve TypeId) :
    Rising fun c => innerType p c node step := by
  unfold innerType
  split <;> infer_instance

instance rising_inferBinary (node : NodeId) : Rising fun c => inferBinary p c node := by
  unfold inferBinary
  dsimp only
  infer_instance

instance rising_returnType (decl : NodeId) : Rising fun c => returnType p c decl := by
  unfold returnType
  split
  · infer_instance
  · dsimp only
    split <;> infer_instance

instance rising_inferCall (node : NodeId) : Rising fun c => inferCall p c node := by
  unfold inferCall
  split
  · infer_instance
  · refine (rising_valueCall _).bind fun t => (rising_const _).bind fun d => ?_
    split <;> infer_instance

instance rising_inferNew (node : NodeId) : Rising fun c => inferNew p c node := by
  unfold inferNew
  split
  · infer_instance
  · refine (rising_typeArgumentsAt _ _).bind fun args => ?_
    dsimp only
    split
    · split <;> infer_instance
    · infer_instance

instance rising_findProperty (t : TypeId) (name : String) :
    Rising fun c => findProperty c t name := by
  unfold findProperty
  infer_instance

instance rising_memberSymbol (member : NodeId) : Rising fun c => memberSymbol p c member := by
  unfold memberSymbol
  split
  · dsimp only
    split <;> infer_instance
  · infer_instance

instance rising_inferMember (node : NodeId) : Rising fun c => inferMember p c node := by
  refine (rising_memberSymbol node).bind fun s => ?_
  split
  · infer_instance
  · split <;> infer_instance

instance rising_quotedProperty (object : TypeId) (index : NodeId) :
    Rising fun c => inferSubscript.quotedProperty p c object index := by
  unfold inferSubscript.quotedProperty
  split
  · split <;> infer_instance
  · infer_instance

instance rising_inferSubscript (node : NodeId) : Rising fun c => inferSubscript p c node := by
  unfold inferSubscript
  split
  · refine (rising_valueCall _).bind fun object => (rising_const _).bind fun d => ?_
    split
    · infer_instance
    · split
      · split <;> infer_instance
      · infer_instance
    · infer_instance
  · infer_instance

instance rising_infer (node : NodeId) : Rising fun c => infer p c node := by
  unfold infer
  split
  case h_1 => split <;> infer_instance
  case h_2 => split <;> infer_instance
  case h_13 => split <;> infer_instance
  case h_14 => split <;> infer_instance
  case h_25 => split <;> infer_instance
  all_goals infer_instance

instance rising_valueType (node : NodeId) : Rising fun c => valueType p c node := by
  refine (rising_const _).bind fun memory => ?_
  split <;> infer_instance

instance rising_propertyType (t : TypeId) (name : String) :
    Rising fun c => propertyType c t name := by
  have found : Rising fun c => (do
      match ← findProperty c t name with
      | some s => c.symbolType s
      | none => anyType : Resolve TypeId) := by
    refine (rising_findProperty t name).bind fun s => ?_
    split <;> infer_instance
  unfold propertyType
  dsimp only
  refine (rising_const _).bind fun d => ?_
  split <;> infer_instance

instance rising_ofParameter (holder : NodeId) (key : String) :
    Rising fun c => destructuredType.ofParameter p c holder key := by
  unfold destructuredType.ofParameter
  split <;> infer_instance

instance rising_destructuredType (element : NodeId) :
    Rising fun c => destructuredType p c element := by
  unfold destructuredType
  split
  · infer_instance
  split
  · infer_instance
  split
  · split <;> infer_instance
  all_goals infer_instance

instance rising_widenedChild (node : NodeId) (role : String) :
    Rising fun c => widenedChild p c node role := by
  unfold widenedChild
  split <;> infer_instance

instance rising_declarationType (decl : NodeId) (s : SymbolId) :
    Rising fun c => declarationType p c decl s := by
  have parameter : Rising fun c => declarationType.ofParameter p c decl := by
    unfold declarationType.ofParameter
    split <;> infer_instance
  unfold declarationType
  split
  case h_1 => split <;> infer_instance
  all_goals infer_instance

instance rising_symbolType (s : SymbolId) : Rising fun c => symbolType p c s := by
  refine (rising_const _).bind fun sym => ?_
  split
  case h_2 =>
    refine (rising_const _).bind fun target => ?_
    split <;> infer_instance
  case h_5 => split <;> infer_instance
  all_goals infer_instance

/-! ### Members -/

instance rising_interfaceMembers (decl : NodeId) (env : Env) (owner : TypeId) :
    Rising fun c => interfaceMembers p c decl env owner := by
  unfold interfaceMembers
  dsimp only
  split <;> infer_instance

instance rising_inheritedMembers (decl : NodeId) (env : Env) :
    Rising fun c => inheritedMembers p c decl env := by
  unfold inheritedMembers
  dsimp only
  split
  · infer_instance
  · split <;> infer_instance

instance rising_classMembers (decl : NodeId) (env : Env) (owner : TypeId) :
    Rising fun c => classMembers p c decl env owner := by
  refine (rising_inheritedMembers decl env).bind fun inherited => ?_
  split <;> infer_instance

instance rising_objectMember (owner : TypeId) (members : List SymbolId) (member : NodeId) :
    Rising fun c => objectMember p c owner members member := by
  unfold objectMember
  split
  case h_4 => split <;> infer_instance
  all_goals infer_instance

instance rising_objectMembers (node : NodeId) (owner : TypeId) :
    Rising fun c => objectMembers p c node owner := by
  unfold objectMembers
  infer_instance

instance rising_optionalMembers (inner owner : TypeId) :
    Rising fun c => optionalMembers c inner owner := by
  unfold optionalMembers
  infer_instance

instance rising_enumValue (next : Binary64) (valueNode : Option NodeId) :
    Rising fun c => enumValue c next valueNode := by
  unfold enumValue
  split <;> infer_instance

instance rising_enumMembersFrom (nodes : List NodeId) (next : Binary64) :
    Rising fun c => enumMembersFrom p c next nodes := by
  induction nodes generalizing next with
  | nil => exact rising_const _
  | cons member rest ih =>
    simp only [enumMembersFrom]
    split <;> infer_instance

instance rising_enumMembers (s : SymbolId) : Rising fun c => enumMembers p c s := by
  refine (rising_const _).bind fun sym => ?_
  split
  · split <;> infer_instance
  · infer_instance

instance rising_enumMemberSymbol (s : SymbolId) (node : NodeId) :
    Rising fun c => enumMemberSymbol p c s node := by
  unfold enumMemberSymbol
  infer_instance

instance rising_collectMembers (t : TypeId) : Rising fun c => collectMembers p c t := by
  refine (rising_const _).bind fun d => ?_
  split <;> infer_instance

instance rising_membersOf (t : TypeId) : Rising fun c => membersOf p c t := by
  refine (rising_const _).bind fun memory => ?_
  split <;> infer_instance

/-! ### The bound -/

/-- Steps that may nest deeper find all that they find otherwise. -/
theorem calls_included (p : Program) {bound more : Nat} (h : bound ≤ more) :
    (calls p bound).Included (calls p more) := by
  induction bound generalizing more with
  | zero =>
    constructor
    all_goals
      intros
      intro _ _ hrun
      simp [calls, Calls.none, exhausted, StateT.run] at hrun
  | succ bound ih =>
    obtain ⟨more, rfl⟩ := Nat.exists_eq_succ_of_ne_zero (Nat.ne_zero_of_lt h)
    have hincluded := ih (Nat.le_of_succ_le_succ h)
    constructor
    · exact fun node env => (rising_typeExpression node env).rises hincluded
    · exact fun node => (rising_valueType node).rises hincluded
    · exact fun t => (rising_membersOf t).rises hincluded
    · exact fun s => (rising_symbolType s).rises hincluded
    · exact fun t name => (rising_propertyType t name).rises hincluded

/-- A run has the same result when its steps may nest deeper. -/
theorem run_calls_of_le {x : Calls → Resolve α} [hx : Rising x] {bound more : Nat}
    (h : bound ≤ more) {M : Memory} {r : α × Memory} (hrun : (x (calls p bound)).run M = some r) :
    (x (calls p more)).run M = some r :=
  hx.rises (calls_included p h) M r hrun

end RouteContract.Types
