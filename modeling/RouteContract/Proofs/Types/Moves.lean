import Mathlib
import RouteContract.Proofs.Types.Unions

/-!
# How memories move

`Moves p own M M'` says how steps of the resolver lead from a memory to another one: by an entry in
a table, by a union, by something that is marked, found and remembered, and by one of these after
the other. Symbols of members are entered only while the members of their type `own` are collected.

Every step of the resolver moves its memory like that (`moving_calls`), and so does every question
(`closed_moving`). What each of these moves keeps is kept for good: that is one induction over the
moves, with no look at the resolver.
-/

namespace RouteContract.Types

variable {p : Program} {M M' : Memory} {α β : Type} {own : Option TypeId}

/-! ### Memories -/

/-- A symbol stands for a member of a type. -/
def SymbolKind.IsMember : SymbolKind → Prop
  | .property _ _ _ _ => True
  | .enumMember _ _ => True
  | _ => False

/-- A symbol that is entered whatever members are collected. -/
structure Symbol.IsGlobal (sym : Symbol) : Prop where
  kind : ¬ sym.kind.IsMember
  key : ∀ owner name, sym.key ≠ .property owner name

/-- A truth value that is false, as a class: it is found for the data of a type by its form. -/
class IsFalse (b : Bool) : Prop where
  eq_false : b = false

instance isFalse_false : IsFalse false := ⟨rfl⟩

/-- A node is in the body of the enum of a symbol. -/
def Memory.EnumNode (p : Program) (M : Memory) (s : SymbolId) (node : NodeId) : Prop :=
  ∃ decl body, (M.symbolOf s).kind = .declared decl ∧ p.field? decl "body" = some body ∧
    node ∈ p.namedChildren body

/-- Where the steps of the resolver lead from a memory, in the course of which the members of `own`
may be collected. -/
inductive Moves (p : Program) : Option TypeId → Memory → Memory → Prop
  | refl {own : Option TypeId} (M : Memory) : Moves p own M M
  | trans {own : Option TypeId} {M₁ M₂ M₃ : Memory} (h : Moves p own M₁ M₂)
      (h' : Moves p own M₂ M₃) : Moves p own M₁ M₃
  /-- A type other than a union. -/
  | type {own : Option TypeId} {M M' : Memory} {d : TypeData} {t : TypeId}
      (hd : d.isUnion = false) (hrun : (intern d).run M = some (t, M')) : Moves p own M M'
  | union {own : Option TypeId} {M M' : Memory} {types : List TypeId} {t : TypeId}
      (hrun : (makeUnion types).run M = some (t, M')) : Moves p own M M'
  | symbol {own : Option TypeId} {M M' : Memory} {sym : Symbol} {s : SymbolId}
      (hsym : sym.IsGlobal) (hrun : (internSymbol sym).run M = some (s, M')) : Moves p own M M'
  | property {M M' : Memory} {t : TypeId} {name : String} {decl : Option NodeId}
      {source : PropSource} {isOptional : Bool} {s : SymbolId}
      (hrun : (propertySymbol t name decl source isOptional).run M = some (s, M')) :
      Moves p (some t) M M'
  | enumMember {M M' : Memory} {t value : TypeId} {s r : SymbolId} {node : NodeId} {name : String}
      (hd : M.dataOf t = .enum s) (hn : M.EnumNode p s node)
      (hrun : (internSymbol ⟨.decl node, name, .enumMember node value⟩).run M = some (r, M')) :
      Moves p (some t) M M'
  /-- The type of an expression is found and remembered. -/
  | value {own : Option TypeId} {M M₁ : Memory} {node : NodeId} {t : TypeId}
      (hnone : M.nodeTypes.lookup node = none) (hmark : node ∉ M.inferring)
      (h : Moves p own { M with inferring := node :: M.inferring } M₁) :
      Moves p own M { M₁ with
        inferring := M₁.inferring.erase node
        nodeTypes := (node, t) :: M₁.nodeTypes }
  /-- The type of an alias is found and remembered. -/
  | synonym {own : Option TypeId} {M M₁ : Memory} {key : AliasKey} {t : TypeId}
      (hnone : M.aliases.lookup key = none) (hmark : key ∉ M.resolving)
      (h : Moves p own { M with resolving := key :: M.resolving } M₁) :
      Moves p own M { M₁ with
        resolving := M₁.resolving.erase key
        aliases := (key, t) :: M₁.aliases }
  /-- The members of a type are collected and remembered. -/
  | members {own : Option TypeId} {M M₁ : Memory} {t : TypeId} {symbols : List SymbolId}
      (hnone : M.members.lookup t = none) (hmark : t ∉ M.collecting)
      (h : Moves p (some t) { M with collecting := t :: M.collecting } M₁) :
      Moves p own M { M₁ with
        collecting := M₁.collecting.erase t
        members := (t, symbols) :: M₁.members }

theorem Memory.EnumNode.mono {s : SymbolId} {node : NodeId} (h : M.EnumNode p s node)
    (hE : M.Extends M') : M'.EnumNode p s node := by
  obtain ⟨decl, body, hs, hrest⟩ := h
  have hsym := Memory.getElem?_of_symbolOf (s := s) (by rw [hs]; exact SymbolKind.noConfusion)
  refine ⟨decl, body, ?_, hrest⟩
  rw [Memory.symbolOf_of_getElem? (hE.symbols s _ hsym), hs]

theorem extends_of_run_intern {d : TypeData} {t : TypeId}
    (h : (intern d).run M = some (t, M')) : M.Extends M' := by
  obtain ⟨t', M₁, hrun, -, hE⟩ := exists_run_intern M d
  cases h.symm.trans hrun
  exact hE

theorem run_internSymbol_eq (M : Memory) (sym : Symbol) :
    (internSymbol sym).run M = match M.symbols.findIdx? (·.key = sym.key) with
      | some s => some (s, M)
      | none => some (M.symbols.size, { M with symbols := M.symbols.push sym }) := by
  show (match M.symbols.findIdx? (·.key = sym.key) with
      | some s => pure s
      | none => do
        set { M with symbols := M.symbols.push sym }
        return M.symbols.size : Resolve SymbolId).run M = _
  split
  · rfl
  · rfl

theorem Memory.extends_pushSymbol (M : Memory) (sym : Symbol) :
    M.Extends { M with symbols := M.symbols.push sym } := by
  refine ⟨fun _ _ h => h, fun s old hs => ?_⟩
  rw [Array.getElem?_push, if_neg (Array.getElem?_eq_some_iff.1 hs).1.ne]
  exact hs

theorem extends_of_run_internSymbol {sym : Symbol} {s : SymbolId}
    (h : (internSymbol sym).run M = some (s, M')) : M.Extends M' := by
  rw [run_internSymbol_eq] at h
  split at h
  · cases h
    exact .refl M
  · cases h
    exact M.extends_pushSymbol sym

theorem types_of_run_internSymbol {sym : Symbol} {s : SymbolId}
    (h : (internSymbol sym).run M = some (s, M')) : M'.types = M.types := by
  rw [run_internSymbol_eq] at h
  split at h
  · cases h
    rfl
  · cases h
    rfl

theorem keyOf?_of_run_internSymbol {sym : Symbol} {s : SymbolId}
    (h : (internSymbol sym).run M = some (s, M')) : M'.keyOf? s = some sym.key := by
  rw [run_internSymbol_eq] at h
  split at h
  next r hr =>
    cases h
    obtain ⟨hlt, hkey, -⟩ := Array.findIdx?_eq_some_iff_getElem.1 hr
    rw [Memory.keyOf?, Array.getElem?_eq_getElem hlt, Option.map_some, of_decide_eq_true hkey]
  next =>
    cases h
    rw [Memory.keyOf?, Array.getElem?_push_size, Option.map_some]

/-- The tables only grow. -/
theorem Moves.extends (h : Moves p own M M') : M.Extends M' := by
  induction h with
  | refl M => exact .refl M
  | trans h h' ih ih' => exact ih.trans ih'
  | type hd hrun => exact extends_of_run_intern hrun
  | union hrun => exact extends_of_run_makeUnion hrun
  | symbol hsym hrun => exact extends_of_run_internSymbol hrun
  | property hrun => exact extends_of_run_internSymbol hrun
  | enumMember hd hn hrun => exact extends_of_run_internSymbol hrun
  | value hnone hmark h ih => exact ⟨ih.types, ih.symbols⟩
  | synonym hnone hmark h ih => exact ⟨ih.types, ih.symbols⟩
  | members hnone hmark h ih => exact ⟨ih.types, ih.symbols⟩

/-- A relation between memories that holds before and after what the resolver does to its memory by
itself; only what it collects is left open. -/
structure Drift (p : Program) where
  /-- The memory before, and the one after a step in the course of which the members of a type may
  be collected. -/
  R : Option TypeId → Memory → Memory → Prop
  refl : ∀ own M, R own M M
  trans : ∀ {own M₁ M₂ M₃}, R own M₁ M₂ → R own M₂ M₃ → R own M₁ M₃
  extend : ∀ {own M M'}, R own M M' → M.Extends M'
  type : ∀ {own M M' d t}, d.isUnion = false → (intern d).run M = some (t, M') → R own M M'
  union : ∀ {own M M' types t}, (makeUnion types).run M = some (t, M') → R own M M'
  symbol : ∀ {own M M' sym s}, sym.IsGlobal → (internSymbol sym).run M = some (s, M') → R own M M'
  property : ∀ {M M' t name decl source isOptional s},
    (propertySymbol t name decl source isOptional).run M = some (s, M') → R (some t) M M'
  enumMember : ∀ {M M' t value s r node name}, M.dataOf t = .enum s → M.EnumNode p s node →
    (internSymbol ⟨.decl node, name, .enumMember node value⟩).run M = some (r, M') →
    R (some t) M M'
  value : ∀ {own M M₁ node t}, M.nodeTypes.lookup node = none → node ∉ M.inferring →
    R own { M with inferring := node :: M.inferring } M₁ →
    R own M { M₁ with
      inferring := M₁.inferring.erase node
      nodeTypes := (node, t) :: M₁.nodeTypes }
  synonym : ∀ {own M M₁ key t}, M.aliases.lookup key = none → key ∉ M.resolving →
    R own { M with resolving := key :: M.resolving } M₁ →
    R own M { M₁ with
      resolving := M₁.resolving.erase key
      aliases := (key, t) :: M₁.aliases }

/-! ### Computations -/

variable {D : Drift p}

/-- A computation that keeps to a relation. -/
class Moving {p : Program} (D : Drift p) (own : Option TypeId) {α : Type} (x : Resolve α) :
    Prop where
  moves : ∀ {M a M'}, x.run M = some (a, M') → D.R own M M'

theorem moving_of {x : Resolve α} (h : ∀ M a M', x.run M = some (a, M') → D.R own M M') :
    Moving D own x := ⟨h _ _ _⟩

instance moving_pure (a : α) : Moving D own (pure a) := by
  refine moving_of fun M _ _ h => ?_
  cases h
  exact D.refl own M

instance moving_exhausted : Moving D own (exhausted : Resolve α) :=
  moving_of fun M a M' h => by simp [exhausted, StateT.run] at h

theorem Moving.bind {x : Resolve α} {f : α → Resolve β} (hx : Moving D own x)
    (hf : ∀ a, Moving D own (f a)) : Moving D own (x >>= f) := by
  refine moving_of fun M b M₂ h => ?_
  rw [StateT.run_bind] at h
  obtain ⟨⟨a, M₁⟩, h₁, h₂⟩ := Option.bind_eq_some_iff.1 h
  exact D.trans (hx.moves h₁) ((hf a).moves h₂)

instance moving_bind {x : Resolve α} {f : α → Resolve β} [hx : Moving D own x]
    [hf : ∀ a, Moving D own (f a)] : Moving D own (x >>= f) := hx.bind hf

instance moving_ite {c : Prop} {_ : Decidable c} {x y : Resolve α} [hx : Moving D own x]
    [hy : Moving D own y] : Moving D own (if c then x else y) := by
  split
  · exact hx
  · exact hy

instance moving_mapM {f : α → Resolve β} [hf : ∀ a, Moving D own (f a)] (l : List α) :
    Moving D own (l.mapM f) := by
  induction l with
  | nil =>
    rw [List.mapM_nil]
    infer_instance
  | cons a l ih =>
    rw [List.mapM_cons]
    infer_instance

instance moving_foldlM {f : β → α → Resolve β} [hf : ∀ b a, Moving D own (f b a)] (l : List α)
    (b : β) : Moving D own (l.foldlM f b) := by
  induction l generalizing b with
  | nil => exact moving_pure b
  | cons a l ih =>
    rw [List.foldlM_cons]
    infer_instance

/-- A computation that only reads the memory. -/
theorem moving_of_reads {x : Resolve α} (h : ∀ M, ∃ a, x.run M = some (a, M)) :
    Moving D own x := by
  refine moving_of fun M a M' hrun => ?_
  obtain ⟨a', ha⟩ := h M
  rw [ha] at hrun
  cases hrun
  exact D.refl own M

/-- A computation that runs with something marked, and then remembers what it found and takes the
mark away. -/
theorem run_marked {x : Resolve α} {marked : Memory} {remember : α → Memory → Memory} {a : α}
    (h : (do
      set marked
      let a ← x
      modify (remember a)
      return a : Resolve α).run M = some (a, M')) :
    ∃ M₁, x.run marked = some (a, M₁) ∧ M' = remember a M₁ := by
  rw [StateT.run_bind, StateT.run_set] at h
  have hx : (x >>= fun a => modify (remember a) >>= fun _ => pure a).run marked = some (a, M') := h
  rw [StateT.run_bind] at hx
  obtain ⟨⟨b, M₁⟩, h₁, h₂⟩ := Option.bind_eq_some_iff.1 hx
  cases h₂
  exact ⟨M₁, h₁, rfl⟩

/-! ### The tables -/

instance moving_intern (d : TypeData) [hd : IsFalse d.isUnion] : Moving D own (intern d) :=
  ⟨D.type hd.eq_false⟩

/-- The symbol of something other than a member. -/
theorem moving_internSymbol {sym : Symbol} (h : sym.IsGlobal) : Moving D own (internSymbol sym) :=
  ⟨D.symbol h⟩

instance moving_data (t : TypeId) : Moving D own (data t) := moving_of_reads fun _ => ⟨_, rfl⟩

instance moving_symbol (s : SymbolId) : Moving D own (symbol s) :=
  moving_of_reads fun _ => ⟨_, rfl⟩

instance moving_anyType : Moving D own anyType := moving_intern .any

instance moving_builtinSymbol (name : String) : Moving D own (builtinSymbol name) :=
  moving_internSymbol ⟨fun h => h, fun _ _ => SymbolKey.noConfusion⟩

instance moving_bindingSymbol (d : NodeId) : Moving D own (bindingSymbol p d) := by
  have hkind : ¬ (bindingEntry p d).kind.IsMember := by
    rcases bindingEntry_kind p d with h | ⟨_, _, h⟩ | ⟨_, h⟩
    all_goals rw [h]; exact fun h => h
  have hglobal : (bindingEntry p d).IsGlobal := ⟨hkind, fun _ _ => SymbolKey.noConfusion⟩
  exact moving_internSymbol hglobal

instance moving_moduleSymbol (unit : Nat) : Moving D own (moduleSymbol p unit) :=
  moving_internSymbol ⟨fun h => h, fun _ _ => SymbolKey.noConfusion⟩

instance moving_targetSymbol (target : Names.Target) : Moving D own (targetSymbol p target) := by
  cases target with
  | binding d => exact moving_bindingSymbol d
  | module unit => exact moving_moduleSymbol unit

instance moving_exportSymbol? (unit : Nat) (name : String) :
    Moving D own (exportSymbol? p unit name) := by
  unfold exportSymbol?
  split <;> infer_instance

instance moving_followAlias? (s : SymbolId) : Moving D own (followAlias? p s) := by
  refine (moving_symbol s).bind fun sym => ?_
  split
  · split <;> infer_instance
  · infer_instance

/-! ### Types made of other types -/

instance moving_makeUnion (types : List TypeId) : Moving D own (makeUnion types) := ⟨D.union⟩

instance moving_makeIntersection (members : List TypeId) :
    Moving D own (makeIntersection members) := by
  have hstep : ∀ (flat : List TypeId) (t : TypeId), Moving D own (do
      match ← data t with
      | .intersection inner => return flat ++ inner
      | _ => return flat ++ [t] : Resolve (List TypeId)) := by
    intro flat t
    refine (moving_data t).bind fun d => ?_
    split <;> infer_instance
  refine (moving_foldlM members []).bind fun flat => ?_
  split <;> infer_instance

instance moving_widenLiteral (t : TypeId) : Moving D own (widenLiteral t) := by
  refine (moving_data t).bind fun d => ?_
  split <;> infer_instance

instance moving_widen (t : TypeId) : Moving D own (widen t) := by
  refine (moving_data t).bind fun d => ?_
  split <;> infer_instance

instance moving_presentMembers (members : List TypeId) :
    Moving D own (presentMembers members) :=
  moving_of_reads fun _ => ⟨_, reads_presentMembers members⟩

instance moving_nonNullable (t : TypeId) : Moving D own (nonNullable t) := by
  refine (moving_data t).bind fun d => ?_
  split <;> infer_instance

instance moving_firstArgument (args : List TypeId) {use : TypeId → Resolve TypeId}
    [∀ t, Moving D own (use t)] : Moving D own (firstArgument args use) := by
  unfold firstArgument
  split <;> infer_instance

instance moving_awaited (t : TypeId) : Moving D own (awaited t) := by
  refine (moving_data t).bind fun d => ?_
  split
  · refine (moving_symbol _).bind fun sym => ?_
    dsimp only
    split
    · exact moving_firstArgument _
    · infer_instance
  · infer_instance

instance moving_builtinType (name : String) (args : List TypeId) :
    Moving D own (builtinType name args) := by
  unfold builtinType
  infer_instance

/-! ### Type expressions -/

namespace Memory

/-- The type of an expression is remembered; one that was being looked for says nothing. -/
def GivesType (M : Memory) (looking : List NodeId) (node : NodeId) (t : TypeId) : Prop :=
  M.nodeTypes.lookup node = some t ∨ node ∈ looking ∧ M.types[t]? = some .any

/-- The members of a type are remembered; one that was being collected has none. -/
def GivesMembers (M : Memory) (collecting : List TypeId) (t : TypeId) (symbols : List SymbolId) :
    Prop :=
  M.members.lookup t = some symbols ∨ t ∈ collecting ∧ symbols = []

theorem GivesType.mono {looking : List NodeId} {node : NodeId} {t : TypeId}
    (h : M.GivesType looking node t) (hw : M.Within M') : M'.GivesType looking node t :=
  h.imp (hw.nodeTypes node t) (And.imp_right (hw.tables.types t _))

theorem GivesMembers.mono {collecting : List TypeId} {t : TypeId} {symbols : List SymbolId}
    (h : M.GivesMembers collecting t symbols) (hw : M.Within M') :
    M'.GivesMembers collecting t symbols :=
  h.imp_left (hw.members t symbols)

end Memory

/-- Calls that keep to a relation. -/
class Calls.Moving (D : Drift p) (calls : Calls) : Prop where
  evalType (own : Option TypeId) (node : NodeId) (env : Env) :
    Types.Moving D own (calls.evalType node env)
  valueType (own : Option TypeId) (node : NodeId) : Types.Moving D own (calls.valueType node)
  membersOf (own : Option TypeId) (t : TypeId) : Types.Moving D own (calls.membersOf t)
  symbolType (own : Option TypeId) (s : SymbolId) : Types.Moving D own (calls.symbolType s)
  propertyType (own : Option TypeId) (t : TypeId) (name : String) :
    Types.Moving D own (calls.propertyType t name)
  /-- Types that are found are remembered. -/
  infers {node : NodeId} {t : TypeId} {M M' : Memory}
    (h : (calls.valueType node).run M = some (t, M')) : M'.GivesType M.inferring node t
  /-- Members that are found are remembered. -/
  recalls {t : TypeId} {symbols : List SymbolId} {M M' : Memory}
    (h : (calls.membersOf t).run M = some (symbols, M')) : M'.GivesMembers M.collecting t symbols

/-- Members that are collected by such calls may be remembered. -/
class Drift.Collects (D : Drift p) : Prop where
  members : ∀ {own M M₁ calls t symbols}, Calls.Moving D calls → M.members.lookup t = none →
    t ∉ M.collecting → (collectMembers p calls t).run
      { M with collecting := t :: M.collecting } = some (symbols, M₁) →
    D.R (some t) { M with collecting := t :: M.collecting } M₁ →
    D.R own M { M₁ with
      collecting := M₁.collecting.erase t
      members := (t, symbols) :: M₁.members }

/-- Calls that keep to a relation keep to what it implies. -/
theorem Calls.Moving.of_le {D' : Drift p} (hle : ∀ {own M M'}, D.R own M M' → D'.R own M M')
    {calls : Calls} (h : calls.Moving D) : calls.Moving D' where
  evalType own node env := ⟨fun hrun => hle ((h.evalType own node env).moves hrun)⟩
  valueType own node := ⟨fun hrun => hle ((h.valueType own node).moves hrun)⟩
  membersOf own t := ⟨fun hrun => hle ((h.membersOf own t).moves hrun)⟩
  symbolType own s := ⟨fun hrun => hle ((h.symbolType own s).moves hrun)⟩
  propertyType own t name := ⟨fun hrun => hle ((h.propertyType own t name).moves hrun)⟩
  infers := h.infers
  recalls := h.recalls

attribute [instance] Calls.Moving.evalType Calls.Moving.valueType Calls.Moving.membersOf
  Calls.Moving.symbolType Calls.Moving.propertyType

instance moving_literalType (node : NodeId) : Moving D own (literalType p node) := by
  unfold literalType
  split
  case h_1 => split <;> infer_instance
  case h_7 =>
    dsimp only
    split <;> infer_instance
  all_goals infer_instance

instance moving_predefinedType (name : String) : Moving D own (predefinedType name) := by
  unfold predefinedType
  split <;> infer_instance

section Expressions

variable {calls : Calls} [hc : calls.Moving D]
include hc

instance moving_fillArgs (params : List NodeId) (args : List TypeId) :
    Moving D own (fillArgs p calls args params) := by
  induction params generalizing args with
  | nil => exact moving_pure args
  | cons param params ih =>
    rw [fillArgs]
    dsimp only
    split <;> infer_instance

instance moving_completeArgs (decl : NodeId) (args : List TypeId) :
    Moving D own (completeArgs p calls decl args) := by
  unfold completeArgs
  infer_instance

omit hc in
instance moving_bindEnv (decl : NodeId) (args : List TypeId) :
    Moving D own (bindEnv p decl args) := by
  unfold bindEnv
  infer_instance

instance moving_aliasValue (decl : NodeId) (s : SymbolId) (args : List TypeId) :
    Moving D own (aliasValue p calls decl s args) := by
  refine (moving_bindEnv decl args).bind fun env => ?_
  split <;> infer_instance

instance moving_knownAlias (decl : NodeId) (s : SymbolId) (args : List TypeId) :
    Moving D own (knownAlias p calls decl s args) := by
  refine moving_of fun M t M' h => ?_
  rw [knownAlias, reads_get.run_bind] at h
  split at h
  · cases h
    exact D.refl own M
  next hnone =>
  split at h
  · exact moving_anyType.moves h
  next hmark =>
  obtain ⟨M₁, h₁, rfl⟩ := run_marked h
  exact D.synonym hnone (fun h => hmark (List.contains_iff_mem.2 h))
    ((moving_aliasValue decl s args : Moving D own _).moves h₁)

instance moving_aliasType (decl : NodeId) (s : SymbolId) (args : List TypeId) :
    Moving D own (aliasType p calls decl s args) :=
  (moving_completeArgs decl args).bind fun _ => moving_knownAlias _ _ _

instance moving_declaredType (decl : NodeId) (s : SymbolId) (args : List TypeId) :
    Moving D own (declaredType p calls decl s args) := by
  unfold declaredType
  split <;> infer_instance

instance moving_symbolInstanceType (s : SymbolId) (name : String) (args : List TypeId) :
    Moving D own (symbolInstanceType p calls s name args) := by
  have denoted : ∀ target, Moving D own (do
      match (← symbol target).kind with
      | .declared decl => declaredType p calls decl target args
      | _ => builtinType name args) := by
    intro target
    refine (moving_symbol target).bind fun sym => ?_
    split <;> infer_instance
  refine (moving_symbol s).bind fun sym => ?_
  split
  · refine (moving_followAlias? s).bind fun target => ?_
    split
    · exact denoted _
    · infer_instance
  · exact denoted s

instance moving_qualifiedType (node : NodeId) (args : List TypeId) :
    Moving D own (qualifiedType p calls node args) := by
  unfold qualifiedType
  dsimp only
  split
  · refine (moving_exportSymbol? _ _).bind fun s => ?_
    split <;> infer_instance
  · infer_instance

instance moving_namedType (name : String) (origin : NodeId) (env : Env) (args : List TypeId) :
    Moving D own (namedType p calls name origin env args) := by
  unfold namedType
  split
  · infer_instance
  split
  · infer_instance
  split
  · split <;> infer_instance
  · infer_instance

instance moving_evalAll (env : Env) (nodes : List NodeId) :
    Moving D own (evalAll calls env nodes) := by
  unfold evalAll
  infer_instance

instance moving_evalFirst (env : Env) (node : NodeId) :
    Moving D own (evalFirst p calls env node) := by
  unfold evalFirst
  split <;> infer_instance

instance moving_typeArgumentsAt (env : Env) (node : NodeId) :
    Moving D own (typeArgumentsAt p calls env node) := by
  unfold typeArgumentsAt
  split <;> infer_instance

instance moving_tupleElement (env : Env) (element : NodeId) :
    Moving D own (tupleElement p calls env element) := by
  unfold tupleElement
  infer_instance

instance moving_lookupType (env : Env) (node : NodeId) :
    Moving D own (lookupType p calls env node) := by
  unfold lookupType
  split
  · refine (hc.evalType _ _ _).bind fun object => ?_
    dsimp only
    split <;> infer_instance
  · infer_instance

instance moving_evalType (node : NodeId) (env : Env) :
    Moving D own (evalType p calls node env) := by
  unfold evalType
  split
  case h_3 => split <;> infer_instance
  case h_8 =>
    refine (moving_typeArgumentsAt env node).bind fun args => ?_
    split <;> infer_instance
  case h_15 => split <;> infer_instance
  all_goals infer_instance

end Expressions

/-! ### Expressions and declarations -/

instance moving_isText (t : TypeId) : Moving D own (isText t) := by
  refine (moving_data t).bind fun d => ?_
  split <;> infer_instance

instance moving_inferUnary (node : NodeId) : Moving D own (inferUnary p node) := by
  unfold inferUnary
  split
  case h_5 => split <;> infer_instance
  all_goals infer_instance

instance moving_findNamed (name : String) (symbols : List SymbolId) :
    Moving D own (findNamed name symbols) := by
  induction symbols with
  | nil => exact moving_pure none
  | cons s rest ih =>
    rw [findNamed]
    infer_instance

section Values

variable {calls : Calls} [hc : calls.Moving D]
include hc

instance moving_childType (node : NodeId) (role : String) :
    Moving D own (childType p calls node role) := by
  unfold childType
  split <;> infer_instance

instance moving_innerType (node : NodeId) {step : TypeId → Resolve TypeId}
    [∀ t, Moving D own (step t)] : Moving D own (innerType p calls node step) := by
  unfold innerType
  split <;> infer_instance

instance moving_inferBinary (node : NodeId) : Moving D own (inferBinary p calls node) := by
  unfold inferBinary
  dsimp only
  infer_instance

instance moving_returnType (decl : NodeId) : Moving D own (returnType p calls decl) := by
  unfold returnType
  split
  · infer_instance
  · dsimp only
    split <;> infer_instance

instance moving_inferCall (node : NodeId) : Moving D own (inferCall p calls node) := by
  unfold inferCall
  split
  · infer_instance
  · refine (hc.valueType _ _).bind fun t => (moving_data t).bind fun d => ?_
    split <;> infer_instance

instance moving_inferNew (node : NodeId) : Moving D own (inferNew p calls node) := by
  unfold inferNew
  split
  · infer_instance
  · refine (moving_typeArgumentsAt _ _).bind fun args => ?_
    dsimp only
    split
    · split <;> infer_instance
    · infer_instance

instance moving_findProperty (t : TypeId) (name : String) :
    Moving D own (findProperty calls t name) := by
  unfold findProperty
  infer_instance

instance moving_memberSymbol (member : NodeId) :
    Moving D own (memberSymbol p calls member) := by
  unfold memberSymbol
  split
  · dsimp only
    split <;> infer_instance
  · infer_instance

instance moving_inferMember (node : NodeId) : Moving D own (inferMember p calls node) := by
  refine (moving_memberSymbol node).bind fun s => ?_
  split
  · infer_instance
  · split <;> infer_instance

instance moving_inferSubscript (node : NodeId) :
    Moving D own (inferSubscript p calls node) := by
  have quoted : ∀ object index,
      Moving D own (inferSubscript.quotedProperty p calls object index) := by
    intro object index
    unfold inferSubscript.quotedProperty
    split
    · split <;> infer_instance
    · infer_instance
  unfold inferSubscript
  split
  · refine (hc.valueType _ _).bind fun object => (moving_data object).bind fun d => ?_
    split
    · infer_instance
    · split
      · split <;> infer_instance
      · exact quoted _ _
    · exact quoted _ _
  · infer_instance

instance moving_infer (node : NodeId) : Moving D own (infer p calls node) := by
  unfold infer
  split
  case h_1 => split <;> infer_instance
  case h_2 => split <;> infer_instance
  case h_13 => split <;> infer_instance
  case h_14 => split <;> infer_instance
  case h_25 => split <;> infer_instance
  all_goals infer_instance

instance moving_valueType (node : NodeId) : Moving D own (valueType p calls node) := by
  refine moving_of fun M t M' h => ?_
  rw [valueType, reads_get.run_bind] at h
  split at h
  · cases h
    exact D.refl own M
  next hnone =>
  split at h
  · exact moving_anyType.moves h
  next hmark =>
  obtain ⟨M₁, h₁, rfl⟩ := run_marked h
  exact D.value hnone (fun h => hmark (List.contains_iff_mem.2 h))
    ((moving_infer node : Moving D own _).moves h₁)

instance moving_propertyType (t : TypeId) (name : String) :
    Moving D own (propertyType calls t name) := by
  have found : Moving D own (do
      match ← findProperty calls t name with
      | some s => calls.symbolType s
      | none => anyType) := by
    refine (moving_findProperty t name).bind fun s => ?_
    split <;> infer_instance
  unfold propertyType
  dsimp only
  refine (moving_data t).bind fun d => ?_
  split <;> infer_instance

instance moving_destructuredType (element : NodeId) :
    Moving D own (destructuredType p calls element) := by
  have parameter : ∀ holder key,
      Moving D own (destructuredType.ofParameter p calls holder key) := by
    intro holder key
    unfold destructuredType.ofParameter
    split <;> infer_instance
  unfold destructuredType
  split
  · infer_instance
  split
  · infer_instance
  split
  · split <;> infer_instance
  · exact parameter _ _
  · exact parameter _ _
  · infer_instance

instance moving_widenedChild (node : NodeId) (role : String) :
    Moving D own (widenedChild p calls node role) := by
  unfold widenedChild
  split <;> infer_instance

instance moving_declarationType (decl : NodeId) (s : SymbolId) :
    Moving D own (declarationType p calls decl s) := by
  have parameter : Moving D own (declarationType.ofParameter p calls decl) := by
    unfold declarationType.ofParameter
    split <;> infer_instance
  unfold declarationType
  split
  case h_1 =>
    split
    · infer_instance
    · refine (hc.valueType _ _).bind fun t => ?_
      exact moving_ite
    · infer_instance
  all_goals infer_instance

instance moving_symbolType (s : SymbolId) : Moving D own (symbolType p calls s) := by
  refine (moving_symbol s).bind fun sym => ?_
  split
  case h_2 =>
    refine (moving_followAlias? s).bind fun target => ?_
    split <;> infer_instance
  case h_5 => split <;> infer_instance
  all_goals infer_instance

end Values

/-! ### Members -/

instance moving_propertySymbol (owner : TypeId) (name : String) (decl : Option NodeId)
    (source : PropSource) (isOptional : Bool) :
    Moving D (some owner) (propertySymbol owner name decl source isOptional) := ⟨D.property⟩

instance moving_placeNamed (name : String) (s : SymbolId) (members : List SymbolId) :
    Moving D own (placeNamed name s members) := by
  induction members with
  | nil => exact moving_pure [s]
  | cons old rest ih =>
    rw [placeNamed]
    infer_instance

instance moving_pushMember (members : List SymbolId) (s : SymbolId) :
    Moving D own (pushMember members s) := by
  unfold pushMember
  infer_instance

instance moving_pushMembers (members more : List SymbolId) :
    Moving D own (pushMembers members more) := by
  unfold pushMembers
  infer_instance

instance moving_declaredSource (env : Env) (member : NodeId) :
    Moving D own (declaredSource p env member) := by
  unfold declaredSource
  split <;> infer_instance

instance moving_literalMembers (body : NodeId) (env : Env) (owner : TypeId)
    (members : List SymbolId) :
    Moving D (some owner) (literalMembers p body env owner members) := by
  refine @moving_foldlM _ _ _ _ _ _ (fun members member => ?_) _ _
  dsimp only
  split
  · split <;> infer_instance
  · infer_instance

instance moving_constructorMembers (constructor : NodeId) (env : Env) (owner : TypeId)
    (members : List SymbolId) :
    Moving D (some owner) (constructorMembers p constructor env owner members) := by
  refine @moving_foldlM _ _ _ _ _ _ (fun members param => ?_) _ _
  split
  · split <;> infer_instance
  · infer_instance

instance moving_classMember (env : Env) (owner : TypeId) (members : List SymbolId)
    (member : NodeId) : Moving D (some owner) (classMember p env owner members member) := by
  unfold classMember
  split
  · infer_instance
  split
  · split
    · infer_instance
    · dsimp only
      split <;> infer_instance
  · split <;> infer_instance
  · infer_instance

section Collecting

variable {calls : Calls} [hc : calls.Moving D]
include hc

instance moving_interfaceMembers (decl : NodeId) (env : Env) (owner : TypeId) :
    Moving D (some owner) (interfaceMembers p calls decl env owner) := by
  unfold interfaceMembers
  dsimp only
  refine (moving_foldlM _ _).bind fun inherited => ?_
  split <;> infer_instance

instance moving_inheritedMembers (decl : NodeId) (env : Env) :
    Moving D own (inheritedMembers p calls decl env) := by
  unfold inheritedMembers
  dsimp only
  split
  · infer_instance
  · split <;> infer_instance

instance moving_classMembers (decl : NodeId) (env : Env) (owner : TypeId) :
    Moving D (some owner) (classMembers p calls decl env owner) := by
  refine (moving_inheritedMembers decl env).bind fun inherited => ?_
  split <;> infer_instance

instance moving_objectMember (owner : TypeId) (members : List SymbolId) (member : NodeId) :
    Moving D (some owner) (objectMember p calls owner members member) := by
  unfold objectMember
  split
  · split <;> infer_instance
  · infer_instance
  · split <;> infer_instance
  · split <;> infer_instance
  · infer_instance

instance moving_objectMembers (node : NodeId) (owner : TypeId) :
    Moving D (some owner) (objectMembers p calls node owner) := by
  unfold objectMembers
  infer_instance

instance moving_optionalMembers (inner owner : TypeId) :
    Moving D (some owner) (optionalMembers calls inner owner) := by
  refine (hc.membersOf _ _).bind fun members => @moving_mapM _ _ _ _ _ _ (fun base => ?_) _
  dsimp only
  infer_instance

instance moving_enumValue (next : Binary64) (valueNode : Option NodeId) :
    Moving D own (enumValue calls next valueNode) := by
  unfold enumValue
  split
  · infer_instance
  · refine (hc.valueType _ _).bind fun t => (moving_data t).bind fun d => ?_
    split <;> infer_instance

instance moving_enumMembersFrom (nodes : List NodeId) (next : Binary64) :
    Moving D own (enumMembersFrom p calls next nodes) := by
  induction nodes generalizing next with
  | nil => exact moving_pure []
  | cons member rest ih =>
    rw [enumMembersFrom]
    dsimp only
    split <;> infer_instance

instance moving_enumMembers (s : SymbolId) : Moving D own (enumMembers p calls s) := by
  refine (moving_symbol s).bind fun sym => ?_
  split
  · split <;> infer_instance
  · infer_instance

omit hc in
/-- The members of an enum are nodes of its body. -/
theorem mem_of_run_enumMembersFrom {nodes : List NodeId} {next : Binary64}
    {members : List EnumMember}
    (h : (enumMembersFrom p calls next nodes).run M = some (members, M')) :
    ∀ m ∈ members, m.node ∈ nodes := by
  induction nodes generalizing M next members with
  | nil =>
    cases h
    exact fun m hm => absurd hm List.not_mem_nil
  | cons member rest ih =>
    rw [enumMembersFrom] at h
    dsimp only at h
    split at h
    · exact fun m hm => List.mem_cons_of_mem _ (ih h m hm)
    · obtain ⟨⟨value, next⟩, M₁, -, h⟩ := run_bind_eq_some h
      obtain ⟨more, M₂, hmore, h⟩ := run_bind_eq_some h
      cases h
      exact List.forall_mem_cons.2
        ⟨List.mem_cons_self, fun m hm => List.mem_cons_of_mem _ (ih hmore m hm)⟩

omit hc in
theorem enumNode_of_run {s : SymbolId} {members : List EnumMember}
    (h : (enumMembers p calls s).run M = some (members, M')) :
    ∀ m ∈ members, M.EnumNode p s m.node := by
  have hread : Reads (symbol s) M (M.symbolOf s) := rfl
  rw [enumMembers, hread.run_bind] at h
  split at h
  · next decl hdecl =>
    split at h
    · next body hbody =>
      exact fun m hm => ⟨decl, body, hdecl, hbody, mem_of_run_enumMembersFrom h m hm⟩
    · cases h
      exact fun m hm => absurd hm List.not_mem_nil
  · cases h
    exact fun m hm => absurd hm List.not_mem_nil

/-- The symbol of a member of an enum is that of a member of its type. -/
theorem moves_enumMemberSymbol {t : TypeId} {s r : SymbolId} {node : NodeId}
    (hd : M.dataOf t = .enum s) (hn : M.EnumNode p s node)
    (h : (enumMemberSymbol p calls s node).run M = some (r, M')) : D.R (some t) M M' := by
  obtain ⟨members, M₁, hmembers, h⟩ := run_bind_eq_some h
  have h₁ := (moving_enumMembers s : Moving D (some t) _).moves hmembers
  dsimp only at h
  split at h
  all_goals
    obtain ⟨value, M₂, hvalue, h⟩ := run_bind_eq_some h
    have h₂ := D.trans h₁ ((moving_intern _).moves hvalue)
    have hE := D.extend h₂
    exact D.trans h₂ (D.enumMember (hE.dataOf hd TypeData.noConfusion) (hn.mono hE) h)

theorem moves_enumMemberSymbols {t : TypeId} {s : SymbolId} {members : List EnumMember}
    {symbols : List SymbolId} (hd : M.dataOf t = .enum s)
    (hn : ∀ m ∈ members, M.EnumNode p s m.node)
    (h : (members.mapM fun m => enumMemberSymbol p calls s m.node).run M = some (symbols, M')) :
    D.R (some t) M M' := by
  induction members generalizing M symbols with
  | nil =>
    cases h
    exact D.refl _ _
  | cons m members ih =>
    rw [List.mapM_cons] at h
    obtain ⟨r, M₁, hr, h⟩ := run_bind_eq_some h
    obtain ⟨rest, M₂, hrest, h⟩ := run_bind_eq_some h
    cases h
    have h₁ : D.R (some t) M M₁ := moves_enumMemberSymbol hd (hn m List.mem_cons_self) hr
    have hE := D.extend h₁
    exact D.trans h₁ (ih (hE.dataOf hd TypeData.noConfusion)
      (fun m' hm' => (hn m' (List.mem_cons_of_mem _ hm')).mono hE) hrest)

instance moving_collectMembers (t : TypeId) :
    Moving D (some t) (collectMembers p calls t) := by
  refine moving_of fun M members M' h => ?_
  obtain ⟨d, M₁, hd, h⟩ := run_bind_eq_some h
  cases hd
  split at h
  · exact ((moving_bindEnv _ _).bind fun env => moving_ite).moves h
  · exact (moving_literalMembers _ _ t _).moves h
  · exact (moving_objectMembers _ t).moves h
  · exact (moving_optionalMembers _ t).moves h
  · next s hs =>
    obtain ⟨members, M₂, hmembers, h⟩ := run_bind_eq_some h
    have h₁ := (moving_enumMembers s : Moving D (some t) _).moves hmembers
    have hE := D.extend h₁
    exact D.trans h₁ (moves_enumMemberSymbols (hE.dataOf hs TypeData.noConfusion)
      (fun m hm => (enumNode_of_run hmembers m hm).mono hE) h)
  · cases h
    exact D.refl _ _

instance moving_membersOf [hD : D.Collects] (t : TypeId) : Moving D own (membersOf p calls t) := by
  refine moving_of fun M members M' h => ?_
  rw [membersOf, reads_get.run_bind] at h
  split at h
  · cases h
    exact D.refl own M
  next hnone =>
  split at h
  · cases h
    exact D.refl own M
  next hmark =>
  obtain ⟨M₁, h₁, rfl⟩ := run_marked h
  exact hD.members hc hnone (fun h => hmark (List.contains_iff_mem.2 h)) h₁
    ((moving_collectMembers t).moves h₁)

end Collecting

/-- The type of an expression that is found is remembered, unless it was being looked for. -/
theorem infers_valueType {calls : Calls} {node : NodeId} {t : TypeId}
    (h : (valueType p calls node).run M = some (t, M')) : M'.GivesType M.inferring node t := by
  by_cases hmark : node ∈ M.inferring
  · rw [valueType, reads_get.run_bind] at h
    split at h
    · next known hknown =>
      cases h
      exact Or.inl hknown
    · rw [if_pos (List.contains_iff_mem.2 hmark)] at h
      obtain ⟨t', M₁, hrun, hany, -⟩ := exists_run_intern M .any
      cases h.symm.trans hrun
      exact Or.inr ⟨hmark, hany⟩
  · exact Or.inl (lookup_of_run_valueType hmark h)

/-- The members of a type that are found are remembered, unless they were being collected. -/
theorem recalls_membersOf {calls : Calls} {t : TypeId} {symbols : List SymbolId}
    (h : (membersOf p calls t).run M = some (symbols, M')) :
    M'.GivesMembers M.collecting t symbols := by
  by_cases hmark : t ∈ M.collecting
  · rw [membersOf, reads_get.run_bind] at h
    split at h
    · next known hknown =>
      cases h
      exact Or.inl hknown
    · rw [if_pos (List.contains_iff_mem.2 hmark)] at h
      cases h
      exact Or.inr ⟨hmark, rfl⟩
  · exact Or.inl (lookup_of_run_membersOf hmark h)

/-- The steps of the resolver keep to the relation, however deep they call each other. -/
instance moving_calls [D.Collects] (bound : Nat) : (calls p bound).Moving D := by
  induction bound with
  | zero =>
    constructor
    case infers => exact fun h => by cases h
    case recalls => exact fun h => by cases h
    all_goals intros; exact moving_exhausted
  | succ bound ih =>
    constructor
    · exact fun own node env => moving_evalType node env
    · exact fun own node => moving_valueType node
    · exact fun own t => moving_membersOf t
    · exact fun own s => moving_symbolType s
    · exact fun own t name => moving_propertyType t name
    · exact infers_valueType
    · exact recalls_membersOf

/-! ### Questions -/

section Questions

variable {calls : Calls} [hc : calls.Moving D]
include hc

instance moving_typeAt (node : NodeId) : Moving D own (typeAt p calls node) := by
  unfold typeAt
  split
  · infer_instance
  · split <;> infer_instance

omit hc in
instance moving_nameSymbol (space : Names.Space) (node : NodeId) :
    Moving D own (nameSymbol p space node) := by
  unfold nameSymbol
  split <;> infer_instance

instance moving_symbolAt (node : NodeId) : Moving D own (symbolAt p calls node) := by
  unfold symbolAt
  split
  · infer_instance
  split
  case h_4 => split <;> infer_instance
  all_goals infer_instance

instance moving_enumLiterals (t : TypeId) : Moving D own (enumLiterals p calls t) := by
  refine (moving_data t).bind fun d => ?_
  split <;> infer_instance

end Questions

instance moving_declarations (s : SymbolId) : Moving D own (declarations s) := by
  refine (moving_symbol s).bind fun sym => ?_
  split <;> infer_instance

instance moving_isOptional (s : SymbolId) : Moving D own (isOptional p s) := by
  refine (moving_symbol s).bind fun sym => ?_
  split <;> infer_instance

instance moving_containerName (s : SymbolId) : Moving D own (containerName s) := by
  refine (moving_symbol s).bind fun sym => ?_
  split
  · refine (moving_data _).bind fun d => ?_
    split <;> infer_instance
  · infer_instance

instance moving_typeSymbol (t : TypeId) : Moving D own (typeSymbol t) := by
  refine (moving_data t).bind fun d => ?_
  split <;> infer_instance

/-- Every question to the resolver of a program keeps to the relation. -/
theorem closed_moving (D : Drift p) [D.Collects] (bound : Nat) :
    (oracleWithin p bound).Closed fun x => Moving D none x := by
  constructor
  case pure => exact moving_pure
  case bind => exact Moving.bind
  case typeAt => exact moving_typeAt
  case typeOfTypeNode => exact fun node => moving_evalType node []
  case symbolAt => exact moving_symbolAt
  case symbolName => exact fun s => (moving_symbol s).bind fun _ => moving_pure _
  case isAlias =>
    refine fun s => (moving_symbol s).bind fun sym => ?_
    split <;> exact moving_pure _
  case aliasedSymbol => exact moving_followAlias?
  case declarations => exact moving_declarations
  case typeOfSymbol => exact moving_symbolType
  case isOptional => exact moving_isOptional
  case containerName => exact moving_containerName
  case docText => exact fun s => (moving_declarations s).bind fun _ => moving_pure _
  case shape => exact fun t => (moving_data t).bind fun _ => moving_pure _
  case typeSymbol => exact moving_typeSymbol
  case aliasSymbol =>
    refine fun t => (moving_data t).bind fun d => ?_
    split <;> exact moving_pure _
  case typeArguments => exact fun t => (moving_data t).bind fun _ => moving_pure _
  case isTuple =>
    refine fun t => (moving_data t).bind fun d => ?_
    split <;> exact moving_pure _
  case constituents => exact fun t => (moving_data t).bind fun _ => moving_pure _
  case properties => exact moving_membersOf
  case callSignatureCount => exact fun t => (moving_data t).bind fun _ => moving_pure _
  case enumLiterals => exact moving_enumLiterals

/-! ### The memories on the way -/

/-- A memory that a resolver comes to, between two questions or in the course of one: it starts with
an empty memory, moves it, and marks what it looks for. -/
inductive Passed (p : Program) : Memory → Prop
  | empty : Passed p {}
  | move {own : Option TypeId} {M M' : Memory} (h : Passed p M) (hmove : Moves p own M M') :
      Passed p M'
  | mark {M : Memory} (h : Passed p M) (inferring : List NodeId) (resolving : List AliasKey)
      (collecting : List TypeId) : Passed p { M with inferring, resolving, collecting }

/-- The moves of memories. -/
def Drift.moves (p : Program) : Drift p where
  R := Moves p
  refl _ M := .refl M
  trans := .trans
  extend := Moves.extends
  type := .type
  union := .union
  symbol := .symbol
  property := .property
  enumMember := .enumMember
  value := .value
  synonym := .synonym

instance collects_moves (p : Program) : (Drift.moves p).Collects :=
  ⟨fun _ hnone hmark _ h => Moves.members hnone hmark h⟩

theorem Answered.drifts (D : Drift p) [D.Collects] (h : Answered p M M') : D.R none M M' := by
  obtain ⟨bound, question, hrun⟩ := h
  exact ((closed_moving D bound).pose question).moves hrun

theorem Reached.passed (h : Reached p M) : Passed p M := by
  induction h with
  | refl => exact .empty
  | tail _ hstep ih => exact .move ih (hstep.drifts (Drift.moves p))

end RouteContract.Types
