import Mathlib
import RouteContract.Proofs.Types.Growth

/-!
# Types and symbols without handles

Two resolvers of one program give out different handles for what is the same type. `M.tree t` is the
type behind a handle as a tree: its form, the keys of the symbols in it and the trees of the types
in it, without handles. A memory has a type once, so equal trees mean equal handles
(`Sound.tree_inj`); and a type keeps its tree in every later memory.

So what is remembered can be said without handles too (`M.Remembers`), and compared between
memories.
-/

namespace RouteContract.Types

/-! ### Forms -/

/-- The key of an object type without its handles. -/
def ObjectKey.form : ObjectKey → ObjectKey
  | .declared decl args => .declared decl (args.map fun _ => 0)
  | .literal node env => .literal node (env.map fun e => (e.1, 0))
  | .value node => .value node
  | .allOptional _ => .allOptional 0

/-- The data of a type without its handles. -/
def TypeData.form : TypeData → TypeData
  | .array _ => .array 0
  | .tuple elements => .tuple (elements.map fun _ => 0)
  | .union members => .union (members.map fun _ => 0)
  | .intersection members => .intersection (members.map fun _ => 0)
  | .object key _ through => .object key.form 0 (through.map fun _ => 0)
  | .enum _ => .enum 0
  | .named _ args => .named 0 (args.map fun _ => 0)
  | d => d

/-- The types inside the key of a symbol. -/
def SymbolKey.types : SymbolKey → List TypeId
  | .property owner _ => [owner]
  | _ => []

/-- The key of a symbol without its handles. -/
def SymbolKey.form : SymbolKey → SymbolKey
  | .property _ name => .property 0 name
  | key => key

/-- The types inside the source of the type of a property. -/
def PropSource.types : PropSource → List TypeId
  | .typeNode _ env => env.map Prod.snd
  | .fixed t => [t]
  | _ => []

/-- The source of the type of a property without its handles. -/
def PropSource.form : PropSource → PropSource
  | .typeNode node env => .typeNode node (env.map fun e => (e.1, 0))
  | .fixed _ => .fixed 0
  | source => source

/-- The types inside what a symbol stands for. -/
def SymbolKind.types : SymbolKind → List TypeId
  | .property owner _ source _ => owner :: source.types
  | .enumMember _ value => [value]
  | _ => []

/-- What a symbol stands for, without its handles. -/
def SymbolKind.form : SymbolKind → SymbolKind
  | .property _ decl source isOptional => .property 0 decl source.form isOptional
  | .enumMember node _ => .enumMember node 0
  | kind => kind

/-- The types inside a symbol. -/
def Symbol.types (sym : Symbol) : List TypeId := sym.key.types ++ sym.kind.types

/-- A symbol without its handles. -/
def Symbol.form (sym : Symbol) : Symbol := ⟨sym.key.form, sym.name, sym.kind.form⟩

/-! ### Trees -/

/-- A type without handles: its form, the keys of the symbols in it, and the types in it. -/
inductive Tree where
  | node (form : TypeData) (keys : List (Option SymbolKey)) (parts : List Tree)

/-- A symbol without handles. -/
structure SymbolTree where
  form : Symbol
  parts : List Tree

namespace Memory

/-- The tree of a type, to a number of nested types. -/
def treeWithin (M : Memory) : Nat → TypeId → Tree
  | 0, _ => .node .any [] []
  | left + 1, t => .node (M.dataOf t).form ((M.dataOf t).symbols.map M.keyOf?)
      ((M.dataOf t).types.map (M.treeWithin left))

/-- The tree of a type; the types in a type have smaller handles. -/
def tree (M : Memory) (t : TypeId) : Tree := M.treeWithin (t + 1) t

/-- The tree of a symbol. -/
def symbolTree (M : Memory) (s : SymbolId) : SymbolTree :=
  ⟨(M.symbolOf s).form, (M.symbolOf s).types.map M.tree⟩

end Memory

variable {p : Program} {M M' : Memory}

theorem Sound.types_in (hM : Sound p M) {t : TypeId} (ht : TypeIn t M) :
    ∀ u ∈ (M.dataOf t).types, u < t ∧ TypeIn u M := by
  have hfits := hM.types t _ (Array.getElem?_eq_getElem ht)
  rw [← Memory.dataOf_of_getElem? (Array.getElem?_eq_getElem ht)] at hfits
  exact fun u hu => ⟨hfits.types_lt u hu, lt_trans (hfits.types_lt u hu) ht⟩

theorem Sound.symbols_of (hM : Sound p M) {t : TypeId} (ht : TypeIn t M) :
    ∀ s ∈ (M.dataOf t).symbols, SymbolIn s M := by
  have hdata := Array.getElem?_eq_getElem ht
  rw [Memory.dataOf_of_getElem? hdata]
  exact hM.symbols_in hdata

theorem Sound.treeWithin_eq (hM : Sound p M) {n : Nat} {t : TypeId} (ht : TypeIn t M)
    (hn : t < n) : M.treeWithin n t = M.tree t := by
  induction t using Nat.strong_induction_on generalizing n with
  | _ t ih =>
    obtain ⟨n, rfl⟩ := Nat.exists_eq_succ_of_ne_zero (Nat.ne_zero_of_lt hn)
    rw [Memory.tree, Memory.treeWithin, Memory.treeWithin]
    congr 1
    refine List.map_congr_left fun u hu => ?_
    obtain ⟨hlt, hu⟩ := hM.types_in ht u hu
    rw [ih u hlt hu (hlt.trans_le (Nat.le_of_lt_succ hn)), ih u hlt hu hlt]

theorem Sound.tree_eq (hM : Sound p M) {t : TypeId} (ht : TypeIn t M) :
    M.tree t = .node (M.dataOf t).form ((M.dataOf t).symbols.map M.keyOf?)
      ((M.dataOf t).types.map M.tree) := by
  rw [Memory.tree, Memory.treeWithin]
  congr 1
  refine List.map_congr_left fun u hu => ?_
  obtain ⟨hlt, hu⟩ := hM.types_in ht u hu
  exact hM.treeWithin_eq hu hlt

theorem Memory.Extends.keyOf?_eq (hE : M.Extends M') {s : SymbolId} (hs : SymbolIn s M) :
    M'.keyOf? s = M.keyOf? s := by
  have h := Array.getElem?_eq_getElem hs
  rw [Memory.keyOf?, hE.symbols s _ h, Memory.keyOf?, h]

/-- A type keeps its tree. -/
theorem Sound.tree_mono (hM : Sound p M) (hE : M.Extends M') {t : TypeId} (ht : TypeIn t M) :
    M'.tree t = M.tree t := by
  have within : ∀ n t, TypeIn t M → M'.treeWithin n t = M.treeWithin n t := by
    intro n
    induction n with
    | zero => exact fun _ _ => rfl
    | succ n ih =>
      intro t ht
      rw [Memory.treeWithin, Memory.treeWithin, hE.dataOf_eq ht]
      congr 1
      · exact List.map_congr_left fun s hs => hE.keyOf?_eq (hM.symbols_of ht s hs)
      · exact List.map_congr_left fun u hu => ih u (hM.types_in ht u hu).2
  exact within _ t ht

theorem Sound.trees_mono (hM : Sound p M) (hE : M.Extends M') {types : List TypeId}
    (h : TypesIn types M) : types.map M'.tree = types.map M.tree :=
  List.map_congr_left fun t ht => hM.tree_mono hE (h t ht)

/-! ### Equal trees -/

theorem eq_of_map_eq {α β : Type} {f : α → β} {l l' : List α}
    (hf : ∀ a ∈ l, ∀ b ∈ l', f a = f b → a = b) (h : l.map f = l'.map f) : l = l' := by
  induction l generalizing l' with
  | nil =>
    cases l' with
    | nil => rfl
    | cons _ _ => cases h
  | cons a l ih =>
    cases l' with
    | nil => cases h
    | cons b l' =>
      obtain ⟨hab, htail⟩ := List.cons.inj h
      rw [hf a List.mem_cons_self b List.mem_cons_self hab, ih (fun c hc d hd =>
        hf c (List.mem_cons_of_mem _ hc) d (List.mem_cons_of_mem _ hd)) htail]

theorem env_eq_of_form {env env' : Env}
    (hform : (env.map fun e => (e.1, (0 : TypeId))) = env'.map fun e => (e.1, 0))
    (htypes : env.map Prod.snd = env'.map Prod.snd) : env = env' := by
  induction env generalizing env' with
  | nil =>
    cases env' with
    | nil => rfl
    | cons _ _ => cases htypes
  | cons e env ih =>
    cases env' with
    | nil => cases htypes
    | cons e' env' =>
      obtain ⟨he, hform⟩ := List.cons.inj hform
      obtain ⟨ht, htypes⟩ := List.cons.inj htypes
      rw [ih hform htypes, Prod.ext (Prod.mk.inj he).1 ht]

theorem ObjectKey.eq_of_form {key key' : ObjectKey} (hform : key.form = key'.form)
    (htypes : key.types = key'.types) : key = key' := by
  cases key <;> cases key' <;> simp only [form, types] at hform htypes <;> try cases hform
  · rw [(ObjectKey.declared.inj hform).1, htypes]
  · rw [(ObjectKey.literal.inj hform).1, env_eq_of_form (ObjectKey.literal.inj hform).2 htypes]
  · rfl
  · rw [(List.cons.inj htypes).1]

/-- The data of a type is its form with handles. -/
theorem TypeData.eq_of_form {d d' : TypeData} (hform : d.form = d'.form)
    (htypes : d.types = d'.types) (hsymbols : d.symbols = d'.symbols) : d = d' := by
  cases d with
  | object key s through =>
    cases d' with
    | object key' s' through' =>
      obtain ⟨hs, hthrough⟩ := List.cons.inj hsymbols
      have hthrough : through = through' := by
        cases through <;> cases through' <;> simp_all
      rw [ObjectKey.eq_of_form (TypeData.object.inj hform).1 htypes, hs, hthrough]
    | _ => cases hform
  | _ => cases d' <;> simp_all [form, types, symbols]

/-- A memory has a type once: equal trees mean equal handles. -/
theorem Sound.tree_inj (hM : Sound p M) {t u : TypeId} (ht : TypeIn t M) (hu : TypeIn u M)
    (h : M.tree t = M.tree u) : t = u := by
  induction t using Nat.strong_induction_on generalizing u with
  | _ t ih =>
    rw [hM.tree_eq ht, hM.tree_eq hu] at h
    obtain ⟨hform, hkeys, hparts⟩ := Tree.node.inj h
    have htypes : (M.dataOf t).types = (M.dataOf u).types := by
      refine eq_of_map_eq (fun v hv w hw heq => ?_) hparts
      obtain ⟨hlt, hin⟩ := hM.types_in ht v hv
      exact ih v hlt hin (hM.types_in hu w hw).2 heq
    have hsymbols : (M.dataOf t).symbols = (M.dataOf u).symbols := by
      refine eq_of_map_eq (fun s hs r _ heq => ?_) hkeys
      have hkey : M.keyOf? s = some (M.symbolOf s).key := by
        have hget := Array.getElem?_eq_getElem (hM.symbols_of ht s hs)
        rw [Memory.symbolOf_of_getElem? hget, Memory.keyOf?, hget, Option.map_some]
      exact hM.keys_once s r _ hkey (heq ▸ hkey)
    have hdata := TypeData.eq_of_form hform htypes hsymbols
    have hget : ∀ {v}, TypeIn v M → M.types[v]? = some (M.dataOf v) := by
      intro v hv
      rw [Memory.dataOf_of_getElem? (Array.getElem?_eq_getElem hv)]
      exact Array.getElem?_eq_getElem hv
    exact hM.types_once t u _ (hget ht) (hdata ▸ hget hu)

/-! ### Symbols -/

theorem Memory.symbolOf_eq {s : SymbolId} (hs : SymbolIn s M) :
    M.symbols[s]? = some (M.symbolOf s) := by
  have hget := Array.getElem?_eq_getElem hs
  rw [symbolOf_of_getElem? hget, hget]

theorem Memory.Extends.symbolOf_eq (hE : M.Extends M') {s : SymbolId} (hs : SymbolIn s M) :
    M'.symbolOf s = M.symbolOf s :=
  Memory.symbolOf_of_getElem? (hE.symbols s _ (Memory.symbolOf_eq hs))

theorem types_bindingEntry (d : NodeId) : (bindingEntry p d).types = [] := by
  rcases bindingEntry_kind p d with h | ⟨_, _, h⟩ | ⟨_, h⟩ <;> rw [Symbol.types, h] <;> rfl

/-- The types in a symbol are in the table. -/
theorem SymbolFits.types_in {sym : Symbol} (h : SymbolFits p M sym) : TypesIn sym.types M := by
  unfold SymbolFits at h
  rw [Symbol.types]
  split at h
  · next d hkey =>
    rcases h with ⟨-, rfl⟩ | ⟨-, value, hk, hv⟩
    · rw [← Symbol.types, types_bindingEntry]
      exact typesIn_nil
    · rw [hkey, hk]
      exact typesIn_cons.2 ⟨hv, typesIn_nil⟩
  · rw [h]
    exact typesIn_nil
  · next owner name hkey =>
    obtain ⟨-, decl, source, isOptional, hk, ho, hs⟩ := h
    rw [hkey, hk]
    refine typesIn_cons.2 ⟨ho, typesIn_cons.2 ⟨ho, ?_⟩⟩
    cases source with
    | typeNode node env =>
      intro t ht
      obtain ⟨e, he, rfl⟩ := List.mem_map.1 ht
      exact hs.1 e he
    | fixed t => exact typesIn_cons.2 ⟨hs, typesIn_nil⟩
    | value _ => exact typesIn_nil
    | method _ => exact typesIn_nil
  · rw [h]
    exact typesIn_nil

theorem Sound.symbol_types_in (hM : Sound p M) {s : SymbolId} (hs : SymbolIn s M) :
    TypesIn (M.symbolOf s).types M :=
  (hM.symbols s _ (Memory.symbolOf_eq hs)).types_in

/-- A symbol keeps its tree. -/
theorem Sound.symbolTree_mono (hM : Sound p M) (hE : M.Extends M') {s : SymbolId}
    (hs : SymbolIn s M) : M'.symbolTree s = M.symbolTree s := by
  rw [Memory.symbolTree, hE.symbolOf_eq hs, hM.trees_mono hE (hM.symbol_types_in hs),
    Memory.symbolTree]

theorem Sound.symbolTrees_mono (hM : Sound p M) (hE : M.Extends M') {symbols : List SymbolId}
    (h : ∀ s ∈ symbols, SymbolIn s M) : symbols.map M'.symbolTree = symbols.map M.symbolTree :=
  List.map_congr_left fun s hs => hM.symbolTree_mono hE (h s hs)

theorem SymbolKey.eq_of_form {key key' : SymbolKey} (hform : key.form = key'.form)
    (htypes : key.types = key'.types) : key = key' := by
  cases key <;> cases key' <;> simp_all [form, types]

/-- A memory has a symbol once: equal trees mean equal handles. -/
theorem Sound.symbolTree_inj (hM : Sound p M) {s r : SymbolId} (hs : SymbolIn s M)
    (hr : SymbolIn r M) (h : M.symbolTree s = M.symbolTree r) : s = r := by
  obtain ⟨hform, hparts⟩ := SymbolTree.mk.inj h
  have htypes : (M.symbolOf s).types = (M.symbolOf r).types :=
    eq_of_map_eq (fun t ht u hu => hM.tree_inj (hM.symbol_types_in hs t ht)
      (hM.symbol_types_in hr u hu)) hparts
  have hkeyform := (Symbol.mk.inj hform).1
  have hkey : (M.symbolOf s).key = (M.symbolOf r).key := by
    refine SymbolKey.eq_of_form hkeyform ?_
    have hlength : (M.symbolOf s).key.types.length = (M.symbolOf r).key.types.length := by
      cases hks : (M.symbolOf s).key <;> cases hkr : (M.symbolOf r).key <;>
        simp_all [SymbolKey.form, SymbolKey.types]
    exact List.append_inj_left htypes hlength
  refine hM.keys_once s r (M.symbolOf s).key ?_ ?_
  · rw [Memory.keyOf?, Memory.symbolOf_eq hs, Option.map_some]
  · rw [Memory.keyOf?, Memory.symbolOf_eq hr, Option.map_some, hkey]

/-! ### What is remembered -/

/-- What is looked for, without handles: the type of an expression, that of an alias with type
arguments, the members of a type. -/
inductive Key where
  | value (node : NodeId)
  | synonym (decl : NodeId) (args : List Tree)
  | members (owner : Tree)

/-- What is found, without handles. -/
inductive Answer where
  | type (found : Tree)
  | members (found : List SymbolTree)

namespace Memory

/-- A memory remembers an answer. -/
inductive Remembers (M : Memory) : Key → Answer → Prop where
  | value {node : NodeId} {t : TypeId} (h : M.nodeTypes.lookup node = some t) :
    Remembers M (.value node) (.type (M.tree t))
  | synonym {decl : NodeId} {args : List TypeId} {t : TypeId} (hargs : TypesIn args M)
    (h : M.aliases.lookup (decl, args) = some t) :
    Remembers M (.synonym decl (args.map M.tree)) (.type (M.tree t))
  | members {t : TypeId} {found : List SymbolId} (ht : TypeIn t M)
    (h : M.members.lookup t = some found) :
    Remembers M (.members (M.tree t)) (.members (found.map M.symbolTree))

/-- Something is being looked for. -/
inductive LooksFor (M : Memory) : Key → Prop where
  | value {node : NodeId} (h : node ∈ M.inferring) : LooksFor M (.value node)
  | synonym {decl : NodeId} {args : List TypeId} (hargs : TypesIn args M)
    (h : (decl, args) ∈ M.resolving) : LooksFor M (.synonym decl (args.map M.tree))
  | members {t : TypeId} (ht : TypeIn t M) (h : t ∈ M.collecting) :
    LooksFor M (.members (M.tree t))

end Memory

/-- What is remembered stays so. -/
theorem Sound.remembers_mono (hM : Sound p M) (hw : M.Within M') {key : Key} {answer : Answer}
    (h : M.Remembers key answer) : M'.Remembers key answer := by
  cases h with
  | @value node t h =>
    rw [← hM.tree_mono hw.tables (hM.nodeTypes _ (mem_of_lookup h))]
    exact .value (hw.nodeTypes _ _ h)
  | @synonym decl args t hargs h =>
    rw [← hM.tree_mono hw.tables (hM.aliases _ (mem_of_lookup h)),
      ← hM.trees_mono hw.tables hargs]
    exact .synonym (hargs.mono hw.tables) (hw.aliases _ _ h)
  | @members t found ht h =>
    rw [← hM.tree_mono hw.tables ht, ← hM.symbolTrees_mono hw.tables fun s hs =>
      ((hM.members _ (mem_of_lookup h)).1 s hs).symbolIn]
    exact .members (ht.mono hw.tables) (hw.members _ _ h)

/-- What is being looked for, in a memory with the same marks. -/
theorem Sound.looksFor_mono (hM : Sound p M) (hE : M.Extends M')
    (hi : M'.inferring = M.inferring) (hr : M'.resolving = M.resolving)
    (hc : M'.collecting = M.collecting) {key : Key} (h : M.LooksFor key) : M'.LooksFor key := by
  cases h with
  | value h => exact .value (hi ▸ h)
  | @synonym decl args hargs h =>
    rw [← hM.trees_mono hE hargs]
    exact .synonym (hargs.mono hE) (hr ▸ h)
  | @members t ht h =>
    rw [← hM.tree_mono hE ht]
    exact .members (ht.mono hE) (hc ▸ h)

/-! ### Keys with handles -/

theorem Sound.args_eq (hM : Sound p M) {args args' : List TypeId} (h : TypesIn args M)
    (h' : TypesIn args' M) (heq : args.map M.tree = args'.map M.tree) : args = args' :=
  eq_of_map_eq (fun t ht u hu => hM.tree_inj (h t ht) (h' u hu)) heq

theorem remembers_value_iff {node : NodeId} {answer : Answer} :
    M.Remembers (.value node) answer ↔
      ∃ t, M.nodeTypes.lookup node = some t ∧ answer = .type (M.tree t) := by
  refine ⟨fun h => ?_, fun ⟨t, h, heq⟩ => heq ▸ .value h⟩
  cases h with
  | value h => exact ⟨_, h, rfl⟩

theorem Sound.remembers_synonym_iff (hM : Sound p M) {decl : NodeId} {args : List TypeId}
    (hargs : TypesIn args M) {answer : Answer} :
    M.Remembers (.synonym decl (args.map M.tree)) answer ↔
      ∃ t, M.aliases.lookup (decl, args) = some t ∧ answer = .type (M.tree t) := by
  refine ⟨fun h => ?_, fun ⟨t, h, heq⟩ => heq ▸ .synonym hargs h⟩
  generalize hkey : Key.synonym decl (args.map M.tree) = key at h
  cases h with
  | synonym hargs' h =>
    obtain ⟨rfl, heq⟩ := Key.synonym.inj hkey
    obtain rfl := hM.args_eq hargs hargs' heq
    exact ⟨_, h, rfl⟩
  | value _ => cases hkey
  | members _ _ => cases hkey

theorem Sound.remembers_members_iff (hM : Sound p M) {t : TypeId} (ht : TypeIn t M)
    {answer : Answer} :
    M.Remembers (.members (M.tree t)) answer ↔
      ∃ found, M.members.lookup t = some found ∧ answer = .members (found.map M.symbolTree) := by
  refine ⟨fun h => ?_, fun ⟨t, h, heq⟩ => heq ▸ .members ht h⟩
  generalize hkey : Key.members (M.tree t) = key at h
  cases h with
  | members ht' h =>
    obtain rfl := hM.tree_inj ht ht' (Key.members.inj hkey)
    exact ⟨_, h, rfl⟩
  | value _ => cases hkey
  | synonym _ _ => cases hkey

theorem looksFor_value_iff {node : NodeId} : M.LooksFor (.value node) ↔ node ∈ M.inferring :=
  ⟨fun h => by cases h; assumption, .value⟩

theorem Sound.looksFor_synonym_iff (hM : Sound p M) {decl : NodeId} {args : List TypeId}
    (hargs : TypesIn args M) :
    M.LooksFor (.synonym decl (args.map M.tree)) ↔ (decl, args) ∈ M.resolving := by
  refine ⟨fun h => ?_, .synonym hargs⟩
  generalize hkey : Key.synonym decl (args.map M.tree) = key at h
  cases h with
  | synonym hargs' h =>
    obtain ⟨rfl, heq⟩ := Key.synonym.inj hkey
    rwa [hM.args_eq hargs hargs' heq]
  | value _ => cases hkey
  | members _ _ => cases hkey

theorem Sound.looksFor_members_iff (hM : Sound p M) {t : TypeId} (ht : TypeIn t M) :
    M.LooksFor (.members (M.tree t)) ↔ t ∈ M.collecting := by
  refine ⟨fun h => ?_, .members ht⟩
  generalize hkey : Key.members (M.tree t) = key at h
  cases h with
  | members ht' h => rwa [hM.tree_inj ht ht' (Key.members.inj hkey)]
  | value _ => cases hkey
  | synonym _ _ => cases hkey

end RouteContract.Types
