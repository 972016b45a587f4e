import Mathlib
import RouteContract.Proofs.Types.Growth
import RouteContract.Proofs.Types.Trees

/-!
# What the resolver looks up

Three steps of the resolver remember what they find: the one for the type of an expression, the one
for the type of an alias and the one for the members of a type. They have one shape, which is that
of a `Lookup`: an answer that is remembered is taken (`run_of_remembers`), and what is being looked
for already is cut off; else the lookup is marked, made, and its result is remembered without the
mark (`run_of_new`).
-/

namespace RouteContract.Types

variable {p : Program} {M M' N : Memory} {calls : Calls} {own : Option TypeId}

namespace Memory

/-- The trees of types are read off the tables. -/
theorem tree_of_tables (ht : M'.types = M.types) (hs : M'.symbols = M.symbols) :
    M'.tree = M.tree := by
  have hdata : M'.dataOf = M.dataOf := funext fun t => by rw [dataOf, ht, dataOf]
  have hkey : M'.keyOf? = M.keyOf? := funext fun s => by rw [keyOf?, hs, keyOf?]
  have within : ∀ n, M'.treeWithin n = M.treeWithin n := by
    intro n
    induction n with
    | zero => rfl
    | succ n ih =>
      funext t
      rw [treeWithin, treeWithin, hdata, hkey, ih]
  exact funext fun t => congrFun (within _) t

/-- The trees of symbols are read off the tables. -/
theorem symbolTree_of_tables (ht : M'.types = M.types) (hs : M'.symbols = M.symbols) :
    M'.symbolTree = M.symbolTree := by
  have hsymbol : M'.symbolOf = M.symbolOf := funext fun s => by rw [symbolOf, hs, symbolOf]
  funext s
  rw [symbolTree, symbolTree, hsymbol, tree_of_tables ht hs]

/-- What is remembered in a memory with the same tables. -/
theorem Remembers.of_tables {key : Key} {answer : Answer} (h : M'.Remembers key answer)
    (ht : M'.types = M.types) (hs : M'.symbols = M.symbols)
    (hn : ∀ node t, M'.nodeTypes.lookup node = some t → M.nodeTypes.lookup node = some t)
    (ha : ∀ key t, M'.aliases.lookup key = some t → M.aliases.lookup key = some t)
    (hm : ∀ t found, M'.members.lookup t = some found → M.members.lookup t = some found) :
    M.Remembers key answer := by
  have htree := tree_of_tables ht hs
  have hin : ∀ {t}, TypeIn t M' → TypeIn t M := fun h => by rwa [TypeIn, ht] at h
  cases h with
  | value h =>
    rw [htree]
    exact .value (hn _ _ h)
  | synonym hargs h =>
    rw [htree]
    exact .synonym (fun t ht => hin (hargs t ht)) (ha _ _ h)
  | members ht' h =>
    rw [htree, symbolTree_of_tables ht hs]
    exact .members (hin ht') (hm _ _ h)

theorem nodeTypes_eq_none {node : NodeId} (h : ∀ answer, ¬ M.Remembers (.value node) answer) :
    M.nodeTypes.lookup node = none :=
  Option.eq_none_iff_forall_ne_some.2 fun _ ht => h _ (.value ht)

theorem aliases_eq_none {decl : NodeId} {args : List TypeId} (hargs : TypesIn args M)
    (h : ∀ answer, ¬ M.Remembers (.synonym decl (args.map M.tree)) answer) :
    M.aliases.lookup (decl, args) = none :=
  Option.eq_none_iff_forall_ne_some.2 fun _ ht => h _ (.synonym hargs ht)

theorem members_eq_none {t : TypeId} (ht : TypeIn t M)
    (h : ∀ answer, ¬ M.Remembers (.members (M.tree t)) answer) : M.members.lookup t = none :=
  Option.eq_none_iff_forall_ne_some.2 fun _ hf => h _ (.members ht hf)

theorem looksFor_iff {key : Key} : M.LooksFor key ↔
    (∃ node ∈ M.inferring, key = .value node) ∨
    (∃ e ∈ M.resolving, TypesIn e.2 M ∧ key = .synonym e.1 (e.2.map M.tree)) ∨
    ∃ t ∈ M.collecting, TypeIn t M ∧ key = .members (M.tree t) := by
  constructor
  · intro h
    cases h with
    | value h => exact Or.inl ⟨_, h, rfl⟩
    | synonym hargs h => exact Or.inr (Or.inl ⟨_, h, hargs, rfl⟩)
    | members ht h => exact Or.inr (Or.inr ⟨_, h, ht, rfl⟩)
  · rintro (⟨node, h, rfl⟩ | ⟨e, h, hargs, rfl⟩ | ⟨t, h, ht, rfl⟩)
    · exact .value h
    · exact .synonym hargs h
    · exact .members ht h

end Memory

/-- What is looked up, with the handles of a memory: the type of an expression, that of an alias
with type arguments, the members of a type. -/
inductive Lookup where
  | value (node : NodeId)
  | synonym (decl : NodeId) (s : SymbolId) (args : List TypeId)
  | members (t : TypeId)

namespace Lookup

/-- What is looked up, without handles. -/
def key (M : Memory) : Lookup → Key
  | value node => .value node
  | synonym decl _ args => .synonym decl (args.map M.tree)
  | members t => .members (M.tree t)

/-- The handles of a lookup are those of a memory. -/
def Fits (p : Program) (M : Memory) : Lookup → Prop
  | value _ => True
  | synonym decl s args => p.kind decl = "type_alias_declaration" ∧
      M.keyOf? s = some (.decl decl) ∧ TypesIn args M
  | members t => TypeIn t M

/-- What a lookup finds. -/
def Found : Lookup → Type
  | value _ => TypeId
  | synonym _ _ _ => TypeId
  | members _ => List SymbolId

/-- What a lookup found is in the tables. -/
def FoundIn (p : Program) : (l : Lookup) → l.Found → Memory → Prop
  | value _, found, M => TypeIn found M
  | synonym _ _ _, found, M => TypeIn found M
  | members _, found, M => MembersIn p found M

/-- What a lookup found, without handles. -/
def answer (M : Memory) : (l : Lookup) → l.Found → Answer
  | value _, found => .type (M.tree found)
  | synonym _ _ _, found => .type (M.tree found)
  | members _, found => .members (found.map M.symbolTree)

/-- The lookup. -/
def run (p : Program) (calls : Calls) : (l : Lookup) → Resolve l.Found
  | value node => valueType p calls node
  | synonym decl s args => knownAlias p calls decl s args
  | members t => membersOf p calls t

/-- A memory in which a lookup is marked. -/
def mark : Lookup → Memory → Memory
  | value node, M => { M with inferring := node :: M.inferring }
  | synonym decl _ args, M => { M with resolving := (decl, args) :: M.resolving }
  | members t, M => { M with collecting := t :: M.collecting }

/-- What a lookup does once it is marked. -/
def find (p : Program) (calls : Calls) : (l : Lookup) → Resolve l.Found
  | value node => infer p calls node
  | synonym decl s args => aliasValue p calls decl s args
  | members t => collectMembers p calls t

/-- A memory with what a lookup found, and without its mark. -/
def remember : (l : Lookup) → l.Found → Memory → Memory
  | value node, found, M =>
    { M with
      inferring := M.inferring.erase node
      nodeTypes := (node, found) :: M.nodeTypes }
  | synonym decl _ args, found, M =>
    { M with
      resolving := M.resolving.erase (decl, args)
      aliases := ((decl, args), found) :: M.aliases }
  | members t, found, M =>
    { M with
      collecting := M.collecting.erase t
      members := (t, found) :: M.members }

variable {l : Lookup}

/-! ### Later memories -/

theorem Fits.mono (h : l.Fits p M) (hE : M.Extends M') : l.Fits p M' := by
  cases l with
  | value node => exact h
  | synonym decl s args => exact ⟨h.1, hE.keyOf? h.2.1, h.2.2.mono hE⟩
  | members t => exact TypeIn.mono h hE

theorem key_mono (hM : Sound p M) (h : l.Fits p M) (hE : M.Extends M') : l.key M' = l.key M := by
  cases l with
  | value node => rfl
  | synonym decl s args => exact congrArg (Key.synonym decl) (hM.trees_mono hE h.2.2)
  | members t => exact congrArg Key.members (hM.tree_mono hE h)

theorem answer_mono {found : l.Found} (hM : Sound p M) (h : l.FoundIn p found M)
    (hE : M.Extends M') : l.answer M' found = l.answer M found := by
  cases l with
  | value node => exact congrArg Answer.type (hM.tree_mono hE h)
  | synonym decl s args => exact congrArg Answer.type (hM.tree_mono hE h)
  | members t =>
    exact congrArg Answer.members (hM.symbolTrees_mono hE fun s hs => (h s hs).symbolIn)

/-! ### The marks -/

/-- A mark is in the tables like what is marked. -/
theorem extends_mark (l : Lookup) (M : Memory) : M.Extends (l.mark M) := by
  cases l <;> exact Memory.extends_of_tables rfl rfl

theorem extends_remember (l : Lookup) (found : l.Found) (M : Memory) :
    M.Extends (l.remember found M) := by
  cases l <;> exact Memory.extends_of_tables rfl rfl

theorem tree_remember (l : Lookup) (found : l.Found) (M : Memory) :
    (l.remember found M).tree = M.tree := by
  cases l <;> exact Memory.tree_of_tables rfl rfl

theorem symbolTree_remember (l : Lookup) (found : l.Found) (M : Memory) :
    (l.remember found M).symbolTree = M.symbolTree := by
  cases l <;> exact Memory.symbolTree_of_tables rfl rfl

theorem sound_mark (hM : Sound p M) (l : Lookup) : Sound p (l.mark M) := by
  cases l <;>
    exact hM.remember rfl rfl (fun _ => Or.inl) (fun _ => Or.inl) (fun _ => Or.inl)

theorem looksFor_mark_iff (h : l.Fits p M) {key : Key} :
    (l.mark M).LooksFor key ↔ key = l.key M ∨ M.LooksFor key := by
  rw [Memory.looksFor_iff (M := l.mark M), Memory.looksFor_iff (M := M)]
  have htree : (l.mark M).tree = M.tree := by cases l <;> exact Memory.tree_of_tables rfl rfl
  have hin : ∀ t, TypeIn t (l.mark M) ↔ TypeIn t M := fun t => by cases l <;> exact Iff.rfl
  have hins : ∀ types, TypesIn types (l.mark M) ↔ TypesIn types M := fun types =>
    forall₂_congr fun t _ => hin t
  simp only [htree, hin, hins]
  cases l with
  | value node => simp only [mark, Lookup.key, List.mem_cons, exists_eq_or_imp, or_assoc]
  | synonym decl s args =>
    simp only [mark, Lookup.key, List.mem_cons, exists_eq_or_imp, h.2.2, true_and, or_assoc]
    exact or_left_comm
  | members t =>
    have ht : TypeIn t M := h
    simp only [mark, Lookup.key, List.mem_cons, exists_eq_or_imp, ht, true_and]
    exact (or_congr_right or_left_comm).trans or_left_comm

theorem remembers_of_mark {key : Key} {answer : Answer} (h : (l.mark M).Remembers key answer) :
    M.Remembers key answer := by
  cases l <;> exact h.of_tables rfl rfl (fun _ _ => id) (fun _ _ => id) (fun _ _ => id)

/-! ### What is found -/

theorem lookup_cons_eq_some {α β : Type} [BEq α] [LawfulBEq α] {key key' : α} {value value' : β}
    {l : List (α × β)} (h : ((key, value) :: l).lookup key' = some value') :
    key' = key ∧ value' = value ∨ l.lookup key' = some value' := by
  rw [List.lookup_cons] at h
  split at h
  · next heq => exact Or.inl ⟨eq_of_beq heq, (Option.some.inj h).symm⟩
  · exact Or.inr h

/-- What is remembered at the end of a lookup is its result, or was remembered before. -/
theorem remembers_of_remember {found : l.Found} {key : Key} {answer : Answer}
    (h : (l.remember found M).Remembers key answer) :
    key = l.key M ∧ answer = l.answer M found ∨ M.Remembers key answer := by
  have htree := tree_remember l found M
  have hsymbols := symbolTree_remember l found M
  have hin : ∀ {t}, TypeIn t (l.remember found M) → TypeIn t M := fun h => by
    cases l <;> exact h
  cases h with
  | value h =>
    rw [htree]
    cases l with
    | value node =>
      exact (lookup_cons_eq_some h).imp (fun ⟨hn, ht⟩ => by subst hn ht; exact ⟨rfl, rfl⟩) .value
    | synonym _ _ _ => exact Or.inr (.value h)
    | members _ => exact Or.inr (.value h)
  | synonym hargs h =>
    have hargs := fun t ht => hin (hargs t ht)
    rw [htree]
    cases l with
    | value _ => exact Or.inr (.synonym hargs h)
    | synonym decl s args =>
      refine (lookup_cons_eq_some h).imp (fun ⟨hkey, ht⟩ => ?_) (.synonym hargs)
      cases hkey
      subst ht
      exact ⟨rfl, rfl⟩
    | members _ => exact Or.inr (.synonym hargs h)
  | members ht h =>
    rw [htree, hsymbols]
    cases l with
    | value _ => exact Or.inr (.members (hin ht) h)
    | synonym _ _ _ => exact Or.inr (.members (hin ht) h)
    | members t =>
      exact (lookup_cons_eq_some h).imp (fun ⟨ht, hf⟩ => by subst ht hf; exact ⟨rfl, rfl⟩)
        (.members (hin ht))

/-- An answer to something new takes nothing from what was remembered before. -/
theorem lookup_cons_of_none {α β : Type} [BEq α] [LawfulBEq α] {key key' : α} {value value' : β}
    {l : List (α × β)} (hnone : l.lookup key = none) (h : l.lookup key' = some value') :
    ((key, value) :: l).lookup key' = some value' := by
  have hne : key' ≠ key := by
    rintro rfl
    rw [hnone] at h
    cases h
  rw [List.lookup_cons, beq_false_of_ne hne]
  exact h

/-- What was remembered before is remembered at the end of a lookup. -/
theorem within_remember (h : l.Fits p M) (hnew : ∀ answer, ¬ M.Remembers (l.key M) answer)
    (found : l.Found) : M.Within (l.remember found M) := by
  have hE := extends_remember l found M
  cases l with
  | value node =>
    exact ⟨hE, fun _ _ => id, fun _ _ => id, fun _ _ ht =>
      lookup_cons_of_none (Memory.nodeTypes_eq_none hnew) ht⟩
  | synonym decl s args =>
    exact ⟨hE, fun _ _ => id, fun _ _ ht =>
      lookup_cons_of_none (Memory.aliases_eq_none h.2.2 hnew) ht, fun _ _ => id⟩
  | members t =>
    exact ⟨hE, fun _ _ ht => lookup_cons_of_none (Memory.members_eq_none h hnew) ht,
      fun _ _ => id, fun _ _ => id⟩

theorem answer_remember (l : Lookup) (found : l.Found) (M : Memory) :
    l.answer (l.remember found M) found = l.answer M found := by
  have htree := tree_remember l found M
  have hsymbols := symbolTree_remember l found M
  cases l with
  | value _ => exact congrArg Answer.type (congrFun htree found)
  | synonym _ _ _ => exact congrArg Answer.type (congrFun htree found)
  | members _ => exact congrArg (fun tree => Answer.members (List.map tree found)) hsymbols

/-! ### Runs -/

instance moving_run [calls.Moving (Drift.moves p)] :
    Moving (Drift.moves p) own (l.run p calls) := by
  cases l with
  | value node => exact moving_valueType node
  | synonym decl s args => exact moving_knownAlias decl s args
  | members t => exact moving_membersOf t

theorem keeps_run (hc : calls.Keep p) (h : l.Fits p M) :
    Keeps p (l.run p calls) M (l.FoundIn p) := by
  cases l with
  | value node => exact keeps_valueType hc node
  | synonym decl s args => exact keeps_knownAlias hc h.2.2 h.2.1 h.1
  | members t => exact keeps_membersOf hc t

/-- What is not being looked for already is remembered by the time it is found. -/
theorem remembers_of_run [hg : calls.Moving (Drift.moves p)] (hM : Sound p M) (h : l.Fits p M)
    (hmark : ¬ M.LooksFor (l.key M)) {found : l.Found}
    (hrun : (l.run p calls).run M = some (found, N)) :
    N.Remembers (l.key M) (l.answer N found) := by
  have hE : M.Extends N := Moves.extends ((moving_run : Moving (Drift.moves p) none _).moves hrun)
  rw [← key_mono hM h hE]
  cases l with
  | value node => exact .value (lookup_of_run_valueType (fun hm => hmark (.value hm)) hrun)
  | synonym decl s args =>
    exact .synonym (h.2.2.mono hE)
      (lookup_of_run_knownAlias (fun hm => hmark (.synonym h.2.2 hm)) hrun)
  | members t =>
    exact .members (TypeIn.mono h hE)
      (lookup_of_run_membersOf (fun hm => hmark (.members h hm)) hrun)

theorem keeps_find (hc : calls.Keep p) (h : l.Fits p M) :
    Keeps p (l.find p calls) M (l.FoundIn p) := by
  cases l with
  | value node => exact keeps_infer hc node
  | synonym decl s args => exact keeps_aliasValue hc h.2.2 h.2.1 h.1
  | members t => exact (keeps_collectMembers hc t).imp fun _ _ _ _ h => h.1

/-- What is remembered is taken. -/
theorem run_of_remembers (hM : Sound p M) (h : l.Fits p M) {answer : Answer}
    (hanswer : M.Remembers (l.key M) answer) :
    ∃ found : l.Found, (∀ c, (l.run p c).run M = some (found, M)) ∧ l.answer M found = answer := by
  cases l with
  | value node =>
    obtain ⟨t, ht, rfl⟩ := remembers_value_iff.1 hanswer
    refine ⟨t, fun c => ?_, rfl⟩
    show (valueType p c node).run M = _
    rw [valueType, reads_get.run_bind, ht]
    rfl
  | synonym decl s args =>
    obtain ⟨t, ht, rfl⟩ := (hM.remembers_synonym_iff h.2.2).1 hanswer
    refine ⟨t, fun c => ?_, rfl⟩
    show (knownAlias p c decl s args).run M = _
    rw [knownAlias, reads_get.run_bind, ht]
    rfl
  | members t =>
    obtain ⟨found, hfound, rfl⟩ := (hM.remembers_members_iff h).1 hanswer
    refine ⟨found, fun c => ?_, rfl⟩
    show (membersOf p c t).run M = _
    rw [membersOf, reads_get.run_bind, hfound]
    rfl

end Lookup

/-- A computation that runs with something marked, and then remembers what it found and takes the
mark away. -/
theorem run_marking {α : Type} {x : Resolve α} {marked : Memory} {remember : α → Memory → Memory} :
    (do
      set marked
      let a ← x
      modify (remember a)
      return a : Resolve α).run M = (x.run marked).map fun r => (r.1, remember r.1 r.2) := by
  rw [StateT.run_bind, StateT.run_set]
  show (x >>= fun a => modify (remember a) >>= fun _ => pure a).run marked = _
  rw [StateT.run_bind]
  cases x.run marked <;> rfl

namespace Lookup

variable {l : Lookup}

/-- What is neither remembered nor being looked for is marked, looked up and remembered. -/
theorem run_of_new (h : l.Fits p M) (hmark : ¬ M.LooksFor (l.key M))
    (hanswer : ∀ answer, ¬ M.Remembers (l.key M) answer) (c : Calls) :
    (l.run p c).run M = ((l.find p c).run (l.mark M)).map fun r => (r.1, l.remember r.1 r.2) := by
  cases l with
  | value node =>
    have hfree : ¬ M.inferring.contains node := fun hm =>
      hmark (.value (List.contains_iff_mem.1 hm))
    show (valueType p c node).run M = _
    rw [valueType, reads_get.run_bind, Memory.nodeTypes_eq_none hanswer]
    dsimp only
    rw [if_neg hfree]
    exact run_marking
  | synonym decl s args =>
    have hfree : ¬ M.resolving.contains (decl, args) := fun hm =>
      hmark (.synonym h.2.2 (List.contains_iff_mem.1 hm))
    show (knownAlias p c decl s args).run M = _
    rw [knownAlias, reads_get.run_bind, Memory.aliases_eq_none h.2.2 hanswer]
    dsimp only
    rw [if_neg hfree]
    exact run_marking
  | members t =>
    have hfree : ¬ M.collecting.contains t := fun hm =>
      hmark (.members h (List.contains_iff_mem.1 hm))
    show (membersOf p c t).run M = _
    rw [membersOf, reads_get.run_bind, Memory.members_eq_none h hanswer]
    dsimp only
    rw [if_neg hfree]
    exact run_marking

end Lookup

end RouteContract.Types
