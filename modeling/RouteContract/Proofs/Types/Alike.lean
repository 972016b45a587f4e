import Mathlib
import RouteContract.Proofs.Types.Trees

/-!
# The same types and symbols in two memories

Two runs of the resolver are compared, one that is known and one in a memory that is shared with
other questions. What they handle comes in pairs, a value of each run: a family over `Side`. Types
are alike when they have the same tree, and symbols likewise; lists, environments, the data of types
and symbols are alike part by part.

A handle of one run leads to one handle of the other (`AlikeType.eq_of_eq`), so the runs find the
same handles equal.
-/

namespace RouteContract.Types

/-- One of two runs that are compared. -/
inductive Side where
  | known
  | shared

/-- The value of each of two runs. -/
def Side.pair {α : Type} (a b : α) : Side → α
  | .known => a
  | .shared => b

theorem Side.pair_map {α β : Type} (f : α → β) (a b : α) :
    Side.pair (f a) (f b) = fun s => f (Side.pair a b s) := by
  funext s
  cases s <;> rfl

theorem Side.eq_pair {α : Type} (a : Side → α) : a = Side.pair (a .known) (a .shared) := by
  funext s
  cases s <;> rfl

theorem Side.forall_iff {P : Side → Prop} : (∀ s, P s) ↔ P .known ∧ P .shared :=
  ⟨fun h => ⟨h _, h _⟩, fun h s => by cases s; exacts [h.1, h.2]⟩

variable {p : Program} {M M' : Side → Memory} {α : Type}

/-! ### Types -/

/-- A type that is the same one in both memories. -/
def AlikeType (t : Side → TypeId) (M : Side → Memory) : Prop :=
  (∀ s, TypeIn (t s) (M s)) ∧ (M .known).tree (t .known) = (M .shared).tree (t .shared)

/-- A symbol that is the same one in both memories. -/
def AlikeSymbol (r : Side → SymbolId) (M : Side → Memory) : Prop :=
  (∀ s, SymbolIn (r s) (M s)) ∧
    (M .known).symbolTree (r .known) = (M .shared).symbolTree (r .shared)

/-- Lists that are alike element by element. -/
def Each (R : (Side → α) → (Side → Memory) → Prop) (l : Side → List α) (M : Side → Memory) : Prop :=
  ∃ each : List (Side → α), (l = fun s => each.map (· s)) ∧ ∀ a ∈ each, R a M

/-- Values that both are there, and are alike, or both are not. -/
def Both (R : (Side → α) → (Side → Memory) → Prop) (o : Side → Option α) (M : Side → Memory) :
    Prop :=
  ∃ both : Option (Side → α), (o = fun s => both.map (· s)) ∧ ∀ a ∈ both, R a M

/-- Type parameters that stand for types that are alike. -/
def AlikeEnv (env : Side → Env) (M : Side → Memory) : Prop :=
  ∃ each : List (String × (Side → TypeId)), (env = fun s => each.map fun e => (e.1, e.2 s)) ∧
    ∀ e ∈ each, AlikeType e.2 M

/-- Sound memories, and later ones of the two runs. -/
structure Onward (p : Program) (M M' : Side → Memory) : Prop where
  sound : ∀ s, Sound p (M s)
  tables : ∀ s, (M s).Extends (M' s)

theorem Onward.trans {M₁ M₂ M₃ : Side → Memory} (h : Onward p M₁ M₂) (h' : Onward p M₂ M₃) :
    Onward p M₁ M₃ := ⟨h.sound, fun s => (h.tables s).trans (h'.tables s)⟩

theorem AlikeType.mono {t : Side → TypeId} (h : AlikeType t M) (hE : Onward p M M') :
    AlikeType t M' :=
  ⟨fun s => (h.1 s).mono (hE.tables s), by
    rw [(hE.sound _).tree_mono (hE.tables _) (h.1 _), (hE.sound _).tree_mono (hE.tables _) (h.1 _),
      h.2]⟩

theorem AlikeSymbol.mono {r : Side → SymbolId} (h : AlikeSymbol r M) (hE : Onward p M M') :
    AlikeSymbol r M' :=
  ⟨fun s => (h.1 s).mono (hE.tables s), by
    rw [(hE.sound _).symbolTree_mono (hE.tables _) (h.1 _),
      (hE.sound _).symbolTree_mono (hE.tables _) (h.1 _), h.2]⟩

theorem AlikeEnv.mono {env : Side → Env} (h : AlikeEnv env M) (hE : Onward p M M') :
    AlikeEnv env M' := by
  obtain ⟨each, rfl, h⟩ := h
  exact ⟨each, rfl, fun e he => (h e he).mono hE⟩

/-- Types that are the same in one of the memories are so in the other. -/
theorem AlikeType.eq_of_eq (hM : ∀ s, Sound p (M s)) {t u : Side → TypeId} (ht : AlikeType t M)
    (hu : AlikeType u M) {s : Side} (h : t s = u s) : t = u := by
  have heq : ∀ s, (M s).tree (t s) = (M s).tree (u s) := by
    refine Side.forall_iff.2 ?_
    cases s with
    | known => exact ⟨by rw [h], by rw [← ht.2, ← hu.2, h]⟩
    | shared => exact ⟨by rw [ht.2, hu.2, h], by rw [h]⟩
  funext s
  exact (hM s).tree_inj (ht.1 s) (hu.1 s) (heq s)

theorem AlikeSymbol.eq_of_eq (hM : ∀ s, Sound p (M s)) {r q : Side → SymbolId}
    (hr : AlikeSymbol r M) (hq : AlikeSymbol q M) {s : Side} (h : r s = q s) : r = q := by
  have heq : ∀ s, (M s).symbolTree (r s) = (M s).symbolTree (q s) := by
    refine Side.forall_iff.2 ?_
    cases s with
    | known => exact ⟨by rw [h], by rw [← hr.2, ← hq.2, h]⟩
    | shared => exact ⟨by rw [hr.2, hq.2, h], by rw [h]⟩
  funext s
  exact (hM s).symbolTree_inj (hr.1 s) (hq.1 s) (heq s)

/-- Lists with the same images are alike element by element. -/
theorem exists_each_of_map_eq {β γ : Type} {f g : β → γ} {l l' : List β}
    (h : l.map f = l'.map g) :
    ∃ each : List (Side → β), (Side.pair l l' = fun s => each.map (· s)) ∧
      ∀ a ∈ each, (f (a .known) = g (a .shared)) ∧ a .known ∈ l ∧ a .shared ∈ l' := by
  induction l generalizing l' with
  | nil =>
    cases l' with
    | nil => exact ⟨[], (Side.pair_map (fun _ => []) () ()).trans rfl, by simp⟩
    | cons _ _ => cases h
  | cons a l ih =>
    cases l' with
    | nil => cases h
    | cons b l' =>
      obtain ⟨hab, hrest⟩ := List.cons.inj h
      obtain ⟨each, heach, hall⟩ := ih hrest
      refine ⟨Side.pair a b :: each, ?_, ?_⟩
      · funext s
        have hs := congrFun heach s
        cases s
        · exact congrArg (a :: ·) hs
        · exact congrArg (b :: ·) hs
      · refine List.forall_mem_cons.2 ⟨⟨hab, List.mem_cons_self, List.mem_cons_self⟩, ?_⟩
        exact fun c hc => (hall c hc).imp_right fun hin =>
          ⟨List.mem_cons_of_mem _ hin.1, List.mem_cons_of_mem _ hin.2⟩

theorem each_of_trees {l l' : List TypeId} (hl : TypesIn l (M .known))
    (hl' : TypesIn l' (M .shared)) (h : l.map (M .known).tree = l'.map (M .shared).tree) :
    Each AlikeType (Side.pair l l') M := by
  obtain ⟨each, heach, hall⟩ := exists_each_of_map_eq h
  exact ⟨each, heach, fun t ht => ⟨Side.forall_iff.2 ⟨hl _ (hall t ht).2.1, hl' _ (hall t ht).2.2⟩,
    (hall t ht).1⟩⟩

theorem alikeEnv_of_trees {env env' : Env} (henv : EnvIn env (M .known))
    (henv' : EnvIn env' (M .shared))
    (hform : (env.map fun e => (e.1, (0 : TypeId))) = env'.map fun e => (e.1, 0))
    (h : (env.map Prod.snd).map (M .known).tree = (env'.map Prod.snd).map (M .shared).tree) :
    AlikeEnv (Side.pair env env') M := by
  induction env generalizing env' with
  | nil =>
    cases env' with
    | nil => exact ⟨[], (Side.pair_map (fun _ => []) () ()).trans rfl, by simp⟩
    | cons _ _ => cases hform
  | cons e env ih =>
    cases env' with
    | nil => cases hform
    | cons e' env' =>
      obtain ⟨hname, hform⟩ := List.cons.inj hform
      obtain ⟨htree, h⟩ := List.cons.inj h
      obtain ⟨each, heach, hall⟩ := ih (fun a ha => henv a (List.mem_cons_of_mem _ ha))
        (fun a ha => henv' a (List.mem_cons_of_mem _ ha)) hform h
      refine ⟨(e.1, Side.pair e.2 e'.2) :: each, ?_, List.forall_mem_cons.2 ⟨⟨?_, htree⟩, hall⟩⟩
      · funext s
        have hs := congrFun heach s
        have hfst : e.1 = e'.1 := (Prod.mk.inj hname).1
        cases s
        · exact congrArg (e :: ·) hs
        · exact (congrArg (e' :: ·) hs).trans (by rw [List.map_cons, hfst]; rfl)
      · exact Side.forall_iff.2 ⟨henv e List.mem_cons_self, henv' e' List.mem_cons_self⟩

/-! ### Keys that say all -/

/-- A key whose symbol is the same in every memory: that of no member. -/
def SymbolKey.IsFixed (p : Program) : SymbolKey → Prop
  | .decl d => ¬ IsEnumMember p d
  | .property _ _ => False
  | _ => True

/-- Symbols with the same fixed key. -/
def SameKey (p : Program) (r : Side → SymbolId) (M : Side → Memory) : Prop :=
  ∃ key : SymbolKey, key.IsFixed p ∧ ∀ s, (M s).keyOf? (r s) = some key

theorem SameKey.mono {r : Side → SymbolId} (h : SameKey p r M) (hE : Onward p M M') :
    SameKey p r M' := by
  obtain ⟨key, hkey, h⟩ := h
  exact ⟨key, hkey, fun s => (hE.tables s).keyOf? (h s)⟩

theorem SymbolFits.eq_of_isFixed {N N' : Memory} {sym sym' : Symbol} (h : SymbolFits p N sym)
    (h' : SymbolFits p N' sym') (hkey : sym.key = sym'.key) (hfixed : sym.key.IsFixed p) :
    sym = sym' ∧ sym.types = [] := by
  unfold SymbolFits at h h'
  rw [← hkey] at h'
  cases hk : sym.key with
  | decl d =>
    rw [hk] at h h' hfixed
    obtain ⟨-, rfl⟩ := h.resolve_right fun h => hfixed h.1
    obtain ⟨-, rfl⟩ := h'.resolve_right fun h => hfixed h.1
    exact ⟨rfl, types_bindingEntry d⟩
  | builtin name =>
    rw [hk] at h h'
    exact ⟨h.trans h'.symm, by rw [h]; rfl⟩
  | property owner name =>
    rw [hk] at hfixed
    exact hfixed.elim
  | module unit =>
    rw [hk] at h h'
    exact ⟨h.trans h'.symm, by rw [h]; rfl⟩

theorem Memory.keyOf?_eq_some {N : Memory} {r : SymbolId} {key : SymbolKey}
    (h : N.keyOf? r = some key) : (N.symbolOf r).key = key := by
  obtain ⟨sym, hsym, hkey⟩ := Option.map_eq_some_iff.1 h
  rw [symbolOf_of_getElem? hsym, hkey]

/-- Symbols with the same fixed key are alike, down to the handles. -/
theorem SameKey.symbolOf_eq (hM : ∀ s, Sound p (M s)) {r : Side → SymbolId}
    (h : SameKey p r M) : (M .known).symbolOf (r .known) = (M .shared).symbolOf (r .shared) ∧
      ((M .known).symbolOf (r .known)).types = [] := by
  obtain ⟨key, hfixed, h⟩ := h
  have hfits : ∀ s, SymbolFits p (M s) ((M s).symbolOf (r s)) := fun s =>
    (hM s).symbols _ _ (Memory.symbolOf_eq (symbolIn_of_keyOf? (h s)))
  have hkey : ∀ s, ((M s).symbolOf (r s)).key = key := fun s => Memory.keyOf?_eq_some (h s)
  refine (hfits .known).eq_of_isFixed (hfits .shared) ((hkey _).trans (hkey _).symm) ?_
  rw [hkey]
  exact hfixed

theorem SameKey.alike (hM : ∀ s, Sound p (M s)) {r : Side → SymbolId} (h : SameKey p r M) :
    AlikeSymbol r M := by
  obtain ⟨hsym, htypes⟩ := h.symbolOf_eq hM
  obtain ⟨key, -, hkey⟩ := h
  refine ⟨fun s => symbolIn_of_keyOf? (hkey s), ?_⟩
  rw [Memory.symbolTree, Memory.symbolTree, ← hsym, htypes]
  rfl

/-! ### The data of types -/

/-- Keys of object types that are alike. -/
inductive AlikeKey (M : Side → Memory) : (Side → ObjectKey) → Prop
  | declared (decl : NodeId) {args : List (Side → TypeId)} (h : ∀ t ∈ args, AlikeType t M) :
    AlikeKey M fun s => .declared decl (args.map (· s))
  | literal (node : NodeId) {env : List (String × (Side → TypeId))}
    (h : ∀ e ∈ env, AlikeType e.2 M) :
    AlikeKey M fun s => .literal node (env.map fun e => (e.1, e.2 s))
  | value (node : NodeId) : AlikeKey M fun _ => .value node
  | allOptional {inner : Side → TypeId} (h : AlikeType inner M) :
    AlikeKey M fun s => .allOptional (inner s)

/-- Data with no types and no symbols inside, whatever it is. -/
def TypeData.IsAtom : TypeData → Prop
  | .array _ | .tuple _ | .union _ | .intersection _ | .object _ _ _ | .enum _ | .named _ _ => False
  | _ => True

/-- An atom is its form. -/
theorem TypeData.IsAtom.eq_of_form {d d' : TypeData} (hd : d.IsAtom) (h : d.form = d'.form) :
    d = d' := by
  cases d <;> first | exact hd.elim | (cases d' <;> first | exact h | cases h)

/-- Data of types that is alike. -/
inductive AlikeData (p : Program) (M : Side → Memory) : (Side → TypeData) → Prop
  | atom (d : TypeData) (hd : d.IsAtom) : AlikeData p M fun _ => d
  | array {element : Side → TypeId} (h : AlikeType element M) :
    AlikeData p M fun s => .array (element s)
  | tuple {elements : List (Side → TypeId)} (h : ∀ t ∈ elements, AlikeType t M) :
    AlikeData p M fun s => .tuple (elements.map (· s))
  | union {members : List (Side → TypeId)} (h : ∀ t ∈ members, AlikeType t M) :
    AlikeData p M fun s => .union (members.map (· s))
  | intersection {members : List (Side → TypeId)} (h : ∀ t ∈ members, AlikeType t M) :
    AlikeData p M fun s => .intersection (members.map (· s))
  | object {key : Side → ObjectKey} {r : Side → SymbolId} {through : Option (Side → SymbolId)}
    (hkey : AlikeKey M key) (hr : SameKey p r M) (hthrough : ∀ a ∈ through, SameKey p a M)
    (hfits : ∀ s, ObjectFits p (M s) (M s).types.size (r s) (through.map (· s)) (key s)) :
    AlikeData p M fun s => .object (key s) (r s) (through.map (· s))
  | enum {r : Side → SymbolId} {d : NodeId} (hr : ∀ s, (M s).keyOf? (r s) = some (.decl d))
    (hd : p.kind d = "enum_declaration") : AlikeData p M fun s => .enum (r s)
  | named {r : Side → SymbolId} {args : List (Side → TypeId)} (name : String)
    (hr : ∀ s, (M s).keyOf? (r s) = some (.builtin name)) (h : ∀ t ∈ args, AlikeType t M) :
    AlikeData p M fun s => .named (r s) (args.map (· s))

/-- The declarations of types are no members of enums. -/
theorem not_isEnumMember {d : NodeId}
    (h : p.kind d ∈ "type_alias_declaration" :: "enum_declaration" :: objectDeclarationKinds) :
    ¬ IsEnumMember p d := by
  have other : ∀ k ∈ "type_alias_declaration" :: "enum_declaration" :: objectDeclarationKinds,
      k ∉ enumMemberKinds := by decide
  exact fun hd => other _ h hd.1

theorem typesIn_of_alike {l : List (Side → TypeId)} (h : ∀ t ∈ l, AlikeType t M) (s : Side) :
    TypesIn (l.map (· s)) (M s) := by
  intro t ht
  obtain ⟨a, ha, rfl⟩ := List.mem_map.1 ht
  exact (h a ha).1 s

theorem envIn_of_alike {env : List (String × (Side → TypeId))} (h : ∀ e ∈ env, AlikeType e.2 M)
    (s : Side) : EnvIn (env.map fun e => (e.1, e.2 s)) (M s) := by
  intro e he
  obtain ⟨a, ha, rfl⟩ := List.mem_map.1 he
  exact (h a ha).1 s

/-- Data that is alike fits into both memories. -/
theorem AlikeData.fits {d : Side → TypeData} (h : AlikeData p M d) (s : Side) :
    Fits p (M s) (M s).types.size (d s) := by
  cases h with
  | atom d hd =>
    cases d with
    | array _ | tuple _ | union _ | intersection _ | object _ _ _ | enum _ | named _ _ =>
      exact hd.elim
    | _ => trivial
  | array h => exact h.1 s
  | tuple h => exact typesIn_of_alike h s
  | union h => exact typesIn_of_alike h s
  | intersection h => exact typesIn_of_alike h s
  | object _ _ _ hfits => exact hfits s
  | enum hr hd => exact ⟨_, hr s, hd⟩
  | named name hr h => exact ⟨typesIn_of_alike h s, name, hr s⟩

/-- An object type that is not reached through an alias. -/
theorem AlikeData.plain {M : Side → Memory} {key : Side → ObjectKey} {r : Side → SymbolId}
    (hkey : AlikeKey M key) (hr : SameKey p r M)
    (hfits : ∀ s, ObjectFits p (M s) (M s).types.size (r s) none (key s)) :
    AlikeData p M fun s => .object (key s) (r s) none :=
  @AlikeData.object p M key r none hkey hr (fun _ ha => nomatch ha) hfits

/-- The data of a type with its parts as trees. -/
def Memory.treeOf (N : Memory) (d : TypeData) : Tree :=
  .node d.form (d.symbols.map N.keyOf?) (d.types.map N.tree)

/-- Lists of types that are alike have the same trees. -/
theorem trees_eq_of_alike {l : List (Side → TypeId)} (h : ∀ t ∈ l, AlikeType t M) :
    (l.map (· .known)).map (M .known).tree = (l.map (· .shared)).map (M .shared).tree := by
  rw [List.map_map, List.map_map]
  exact List.map_congr_left fun t ht => (h t ht).2

theorem AlikeKey.same {key : Side → ObjectKey} (h : AlikeKey M key) :
    (key .known).form = (key .shared).form ∧
      (key .known).types.map (M .known).tree = (key .shared).types.map (M .shared).tree := by
  cases h with
  | declared decl h =>
    refine ⟨?_, trees_eq_of_alike h⟩
    rw [ObjectKey.form, ObjectKey.form, List.map_map, List.map_map]
    rfl
  | @literal node env h =>
    refine ⟨?_, ?_⟩
    · rw [ObjectKey.form, ObjectKey.form, List.map_map, List.map_map]
      rfl
    · rw [ObjectKey.types, ObjectKey.types]
      simp only [List.map_map]
      exact List.map_congr_left fun e he => (h e he).2
  | value node => exact ⟨rfl, rfl⟩
  | allOptional h => exact ⟨rfl, congrArg (fun t => [t]) h.2⟩

/-- Data that is an atom in one of the memories is the same in the other. -/
theorem AlikeData.eq_of_isAtom {d : Side → TypeData} (h : AlikeData p M d) {s : Side}
    (hs : (d s).IsAtom) : d = fun _ => d s := by
  cases h with
  | atom d _ => rfl
  | _ => exact hs.elim

/-- Data that is alike has the same parts. -/
theorem AlikeData.treeOf_eq {d : Side → TypeData} (h : AlikeData p M d) :
    (M .known).treeOf (d .known) = (M .shared).treeOf (d .shared) := by
  have keys : ∀ {r : Side → SymbolId}, SameKey p r M →
      (M .known).keyOf? (r .known) = (M .shared).keyOf? (r .shared) := by
    rintro r ⟨key, -, hkey⟩
    rw [hkey, hkey]
  have blank : ∀ (l : List (Side → TypeId)) (s : Side),
      (l.map (· s)).map (fun _ => (0 : TypeId)) = l.map fun _ => 0 := by
    intro l s
    rw [List.map_map]
    rfl
  unfold Memory.treeOf
  cases h with
  | atom d hd => cases d <;> first | rfl | exact hd.elim
  | array h => simp only [TypeData.form, TypeData.symbols, TypeData.types, List.map, h.2]
  | tuple h | union h | intersection h =>
    simp only [TypeData.form, TypeData.symbols, TypeData.types, blank, trees_eq_of_alike h,
      List.map_nil]
  | @object key r through hkey hr hthrough hfits =>
    obtain ⟨hform, htypes⟩ := hkey.same
    cases through with
    | none =>
      simp only [TypeData.form, TypeData.symbols, TypeData.types, hform, htypes, List.map,
        Option.map_none, Option.toList_none, keys hr]
    | some a =>
      simp only [TypeData.form, TypeData.symbols, TypeData.types, hform, htypes, List.map,
        Option.map_some, Option.toList_some, keys hr, keys (hthrough a rfl)]
  | enum hr hd => simp only [TypeData.form, TypeData.symbols, TypeData.types, List.map, hr]
  | named name hr h =>
    simp only [TypeData.form, TypeData.symbols, TypeData.types, blank, trees_eq_of_alike h,
      List.map, hr]

theorem ObjectFits.fixed {N : Memory} {n : Nat} {r : SymbolId} {through : Option SymbolId}
    {key : ObjectKey} (h : ObjectFits p N n r through key) :
    (∃ k : SymbolKey, k.IsFixed p ∧ N.keyOf? r = some k) ∧
      ∀ a ∈ through, ∃ k : SymbolKey, k.IsFixed p ∧ N.keyOf? a = some k := by
  cases key with
  | declared d args =>
    obtain ⟨rfl, -, hr, hd, -⟩ := h
    exact ⟨⟨.decl d, not_isEnumMember (List.mem_cons_of_mem _ (List.mem_cons_of_mem _ hd)), hr⟩,
      fun a ha => by cases ha⟩
  | literal v env =>
    refine ⟨⟨.builtin _, trivial, h.2.1⟩, fun a ha => ?_⟩
    obtain ⟨d, hd, hk, -⟩ := h.2.2 a ha
    exact ⟨.decl d, not_isEnumMember (by rw [hk]; exact List.mem_cons_self), hd⟩
  | value v =>
    obtain ⟨rfl, hr⟩ := h
    exact ⟨⟨.builtin _, trivial, hr⟩, fun a ha => by cases ha⟩
  | allOptional inner =>
    obtain ⟨rfl, -, hr⟩ := h
    exact ⟨⟨.builtin _, trivial, hr⟩, fun a ha => by cases ha⟩

theorem Fits.le {N : Memory} {n m : Nat} {d : TypeData} (h : Fits p N n d) (hnm : n ≤ m) :
    Fits p N m d := by
  cases d with
  | array element => exact lt_of_lt_of_le h hnm
  | tuple elements => exact fun t ht => (h t ht).trans_le hnm
  | union members => exact fun t ht => (h t ht).trans_le hnm
  | intersection members => exact fun t ht => (h t ht).trans_le hnm
  | object key r through =>
    cases key with
    | declared d args => exact ⟨h.1, fun t ht => (h.2.1 t ht).trans_le hnm, h.2.2⟩
    | literal v env => exact ⟨fun e he => (h.1 e he).trans_le hnm, h.2⟩
    | value v => exact h
    | allOptional inner => exact ⟨h.1, h.2.1.trans_le hnm, h.2.2⟩
  | named r args => exact ⟨fun t ht => (h.1 t ht).trans_le hnm, h.2⟩
  | _ => exact h

theorem alikeKey_of_trees {key key' : ObjectKey} (hk : TypesIn key.types (M .known))
    (hk' : TypesIn key'.types (M .shared)) (hform : key.form = key'.form)
    (h : key.types.map (M .known).tree = key'.types.map (M .shared).tree) :
    AlikeKey M (Side.pair key key') := by
  cases key with
  | declared d args =>
    cases key' with
    | declared d' args' =>
      obtain ⟨rfl, -⟩ := ObjectKey.declared.inj hform
      obtain ⟨each, heach, hall⟩ := each_of_trees hk hk' h
      rw [Side.pair_map (ObjectKey.declared d)]
      exact heach ▸ .declared d hall
    | _ => cases hform
  | literal v env =>
    cases key' with
    | literal v' env' =>
      obtain ⟨rfl, henv⟩ := ObjectKey.literal.inj hform
      obtain ⟨each, heach, hall⟩ := @alikeEnv_of_trees M env env'
        (fun e he => hk e.2 (List.mem_map_of_mem he)) (fun e he => hk' e.2 (List.mem_map_of_mem he))
        henv h
      rw [Side.pair_map (ObjectKey.literal v)]
      exact heach ▸ .literal v hall
    | _ => cases hform
  | value v =>
    cases key' with
    | value v' =>
      cases hform
      rw [Side.pair_map (fun _ : Unit => ObjectKey.value v) () ()]
      exact .value v
    | _ => cases hform
  | allOptional inner =>
    cases key' with
    | allOptional inner' =>
      rw [Side.pair_map ObjectKey.allOptional]
      refine .allOptional ⟨Side.forall_iff.2 ⟨?_, ?_⟩, (List.cons.inj h).1⟩
      · exact hk inner List.mem_cons_self
      · exact hk' inner' List.mem_cons_self
    | _ => cases hform

/-- The data of types that are alike is alike. -/
theorem AlikeType.data (hM : ∀ s, Sound p (M s)) {t : Side → TypeId} (h : AlikeType t M) :
    AlikeData p M fun s => (M s).dataOf (t s) := by
  have hin : ∀ s, TypesIn ((M s).dataOf (t s)).types (M s) :=
    fun s u hu => ((hM s).types_in (h.1 s) u hu).2
  have hfits : ∀ s, Fits p (M s) (M s).types.size ((M s).dataOf (t s)) := fun s => by
    have hget := Array.getElem?_eq_getElem (h.1 s)
    rw [Memory.dataOf_of_getElem? hget]
    exact Fits.le ((hM s).types _ _ hget) (Nat.le_of_lt (h.1 s))
  have htree := h.2
  rw [(hM _).tree_eq (h.1 _), (hM _).tree_eq (h.1 _)] at htree
  obtain ⟨hform, hkeys, hparts⟩ := Tree.node.inj htree
  rw [Side.eq_pair fun s => (M s).dataOf (t s)]
  have hinK := hin .known
  have hinF := hin .shared
  have hfitsK := hfits .known
  have hfitsF := hfits .shared
  generalize (M .known).dataOf (t .known) = d at *
  generalize (M .shared).dataOf (t .shared) = d' at *
  by_cases hatom : d.IsAtom
  · rw [← hatom.eq_of_form hform, Side.pair_map (fun _ : Unit => d) () ()]
    exact .atom d hatom
  cases d with
  | array element =>
    cases d' with
    | array element' =>
      rw [Side.pair_map TypeData.array]
      refine .array ⟨Side.forall_iff.2 ⟨hfitsK, hfitsF⟩, (List.cons.inj hparts).1⟩
    | _ => cases hform
  | tuple elements =>
    cases d' with
    | tuple elements' =>
      obtain ⟨each, heach, hall⟩ := each_of_trees hinK hinF hparts
      rw [Side.pair_map TypeData.tuple]
      exact heach ▸ .tuple hall
    | _ => cases hform
  | union members =>
    cases d' with
    | union members' =>
      obtain ⟨each, heach, hall⟩ := each_of_trees hinK hinF hparts
      rw [Side.pair_map TypeData.union]
      exact heach ▸ .union hall
    | _ => cases hform
  | intersection members =>
    cases d' with
    | intersection members' =>
      obtain ⟨each, heach, hall⟩ := each_of_trees hinK hinF hparts
      rw [Side.pair_map TypeData.intersection]
      exact heach ▸ .intersection hall
    | _ => cases hform
  | object key r through =>
    cases d' with
    | object key' r' through' =>
      obtain ⟨hkeyform, -, hthrough⟩ := TypeData.object.inj hform
      obtain ⟨hr, hkeys⟩ := List.cons.inj hkeys
      have halike : AlikeKey M (Side.pair key key') := alikeKey_of_trees hinK hinF hkeyform hparts
      have hfixed := hfitsK.fixed
      have same : ∀ {a a'}, (M .known).keyOf? a = (M .shared).keyOf? a' →
          (∃ k : SymbolKey, k.IsFixed p ∧ (M .known).keyOf? a = some k) →
          SameKey p (Side.pair a a') M := by
        rintro a a' heq ⟨k, hk, ha⟩
        exact ⟨k, hk, Side.forall_iff.2 ⟨ha, heq ▸ ha⟩⟩
      have hsame := same hr hfixed.1
      obtain ⟨both, hboth, hall⟩ : ∃ both : Option (Side → SymbolId),
          (Side.pair through through' = fun s => both.map (· s)) ∧ ∀ a ∈ both, SameKey p a M := by
        cases through with
        | none =>
          cases through' with
          | none => exact ⟨none, (Side.pair_map (fun _ : Unit => none) () ()), by simp⟩
          | some _ => cases hthrough
        | some a =>
          cases through' with
          | none => cases hthrough
          | some a' =>
            refine ⟨some (Side.pair a a'), Side.pair_map some a a', fun b hb => ?_⟩
            cases hb
            exact same (List.cons.inj hkeys).1 (hfixed.2 a rfl)
      have hpair : Side.pair (.object key r through) (.object key' r' through') =
          fun s => TypeData.object (Side.pair key key' s) (Side.pair r r' s) (both.map (· s)) := by
        have hs := congrFun hboth
        funext s
        cases s
        · exact congrArg (TypeData.object key r) (hs .known)
        · exact congrArg (TypeData.object key' r') (hs .shared)
      rw [hpair]
      refine .object halike hsame hall (Side.forall_iff.2 ⟨?_, ?_⟩)
      · rw [← congrFun hboth .known]
        exact hfitsK
      · rw [← congrFun hboth .shared]
        exact hfitsF
    | _ => cases hform
  | enum r =>
    cases d' with
    | enum r' =>
      obtain ⟨d, hr, hd⟩ := hfitsK
      rw [Side.pair_map TypeData.enum]
      exact .enum (Side.forall_iff.2 ⟨hr, (List.cons.inj hkeys).1 ▸ hr⟩) hd
    | _ => cases hform
  | named r args =>
    cases d' with
    | named r' args' =>
      obtain ⟨-, name, hr⟩ := hfitsK
      obtain ⟨each, heach, hall⟩ := each_of_trees hinK hinF hparts
      have hpair : Side.pair (.named r args) (.named r' args') =
          fun s => TypeData.named (Side.pair r r' s) (each.map (· s)) := by
        have hs := congrFun heach
        funext s
        cases s
        · exact congrArg (TypeData.named r) (hs .known)
        · exact congrArg (TypeData.named r') (hs .shared)
      rw [hpair]
      exact .named name (Side.forall_iff.2 ⟨hr, (List.cons.inj hkeys).1 ▸ hr⟩) hall
    | _ => cases hform
  | _ => exact absurd trivial hatom

/-! ### The data of symbols -/

/-- Sources of the types of properties that are alike. -/
inductive AlikeSource (M : Side → Memory) : (Side → PropSource) → Prop
  | typeNode (node : NodeId) {env : List (String × (Side → TypeId))}
    (h : ∀ e ∈ env, AlikeType e.2 M) :
    AlikeSource M fun s => .typeNode node (env.map fun e => (e.1, e.2 s))
  | value (node : NodeId) : AlikeSource M fun _ => .value node
  | method (node : NodeId) : AlikeSource M fun _ => .method node
  | fixed {t : Side → TypeId} (h : AlikeType t M) : AlikeSource M fun s => .fixed (t s)

/-- Symbols whose data is alike. -/
inductive AlikeEntry (M : Side → Memory) : (Side → Symbol) → Prop
  | plain (sym : Symbol) (hk : ¬ sym.kind.IsMember) : AlikeEntry M fun _ => sym
  | property (name : String) (decl : Option NodeId) (isOptional : Bool) {owner : Side → TypeId}
    {source : Side → PropSource} (ho : AlikeType owner M) (hs : AlikeSource M source) :
    AlikeEntry M fun s =>
      ⟨.property (owner s) name, name, .property (owner s) decl (source s) isOptional⟩
  | enumMember (node : NodeId) (name : String) {value : Side → TypeId} (hv : AlikeType value M) :
    AlikeEntry M fun s => ⟨.decl node, name, .enumMember node (value s)⟩

theorem AlikeSource.same {source : Side → PropSource} (h : AlikeSource M source) :
    (source .known).form = (source .shared).form ∧
      (source .known).types.map (M .known).tree = (source .shared).types.map (M .shared).tree := by
  cases h with
  | typeNode node h =>
    refine ⟨?_, ?_⟩
    · rw [PropSource.form, PropSource.form, List.map_map, List.map_map]
      rfl
    · rw [PropSource.types, PropSource.types]
      simp only [List.map_map]
      exact List.map_congr_left fun e he => (h e he).2
  | value node => exact ⟨rfl, rfl⟩
  | method node => exact ⟨rfl, rfl⟩
  | fixed h => exact ⟨rfl, congrArg (fun t => [t]) h.2⟩

/-- The symbol of a property has the key of the property. -/
theorem SymbolFits.key_of_property {N : Memory} {sym : Symbol} (h : SymbolFits p N sym)
    {owner : TypeId} {decl : Option NodeId} {source : PropSource} {isOptional : Bool}
    (hk : sym.kind = .property owner decl source isOptional) :
    sym.key = .property owner sym.name := by
  unfold SymbolFits at h
  split at h
  · next d hkey =>
    rcases h with ⟨-, rfl⟩ | ⟨-, value, hv, -⟩
    · rcases bindingEntry_kind p d with h | ⟨_, _, h⟩ | ⟨_, h⟩ <;> rw [hk] at h <;> cases h
    · rw [hk] at hv
      cases hv
  · rw [h] at hk
    cases hk
  · next o name hkey =>
    obtain ⟨hname, _, _, _, hkind, -⟩ := h
    rw [hk] at hkind
    cases hkind
    rw [hkey, hname]
  · rw [h] at hk
    cases hk

/-- The symbol of a member of an enum has the key of its node. -/
theorem SymbolFits.key_of_enumMember {N : Memory} {sym : Symbol} (h : SymbolFits p N sym)
    {d : NodeId} {value : TypeId} (hk : sym.kind = .enumMember d value) :
    sym.key = .decl d ∧ IsEnumMember p d := by
  unfold SymbolFits at h
  split at h
  · next d' hkey =>
    rcases h with ⟨-, rfl⟩ | ⟨hd, value', hv, -⟩
    · rcases bindingEntry_kind p d' with h | ⟨_, _, h⟩ | ⟨_, h⟩ <;> rw [hk] at h <;> cases h
    · rw [hk] at hv
      cases hv
      exact ⟨hkey, hd⟩
  · rw [h] at hk
    cases hk
  · obtain ⟨-, _, _, _, hkind, -⟩ := h
    rw [hk] at hkind
    cases hkind
  · rw [h] at hk
    cases hk

/-- The key of a symbol that is no member has no handles. -/
theorem SymbolFits.key_form {N : Memory} {sym : Symbol} (h : SymbolFits p N sym)
    (hk : ¬ sym.kind.IsMember) : sym.key.form = sym.key := by
  cases hkey : sym.key with
  | property owner name =>
    rw [SymbolFits, hkey] at h
    obtain ⟨-, decl, source, isOptional, hkind, -⟩ := h
    rw [hkind] at hk
    exact absurd trivial hk
  | _ => rfl

theorem alikeSource_of_trees {source source' : PropSource}
    (hs : TypesIn source.types (M .known)) (hs' : TypesIn source'.types (M .shared))
    (hform : source.form = source'.form)
    (h : source.types.map (M .known).tree = source'.types.map (M .shared).tree) :
    AlikeSource M (Side.pair source source') := by
  cases source with
  | typeNode node env =>
    cases source' with
    | typeNode node' env' =>
      obtain ⟨rfl, henv⟩ := PropSource.typeNode.inj hform
      obtain ⟨each, heach, hall⟩ := @alikeEnv_of_trees M env env'
        (fun e he => hs e.2 (List.mem_map_of_mem he)) (fun e he => hs' e.2 (List.mem_map_of_mem he))
        henv h
      rw [Side.pair_map (PropSource.typeNode node)]
      exact heach ▸ .typeNode node hall
    | _ => cases hform
  | value node =>
    cases source' with
    | value node' =>
      cases hform
      rw [Side.pair_map (fun _ : Unit => PropSource.value node) () ()]
      exact .value node
    | _ => cases hform
  | method node =>
    cases source' with
    | method node' =>
      cases hform
      rw [Side.pair_map (fun _ : Unit => PropSource.method node) () ()]
      exact .method node
    | _ => cases hform
  | fixed t =>
    cases source' with
    | fixed t' =>
      rw [Side.pair_map PropSource.fixed]
      refine .fixed ⟨Side.forall_iff.2 ⟨?_, ?_⟩, (List.cons.inj h).1⟩
      · exact hs t List.mem_cons_self
      · exact hs' t' List.mem_cons_self
    | _ => cases hform

theorem alikeEntry_of_trees {sym sym' : Symbol} (h : SymbolFits p (M .known) sym)
    (h' : SymbolFits p (M .shared) sym') (hform : sym.form = sym'.form)
    (htrees : sym.types.map (M .known).tree = sym'.types.map (M .shared).tree) :
    AlikeEntry M (Side.pair sym sym') := by
  have hin := h.types_in
  have hin' := h'.types_in
  by_cases hmember : sym.kind.IsMember
  · obtain ⟨key, name, kind⟩ := sym
    obtain ⟨key', name', kind'⟩ := sym'
    obtain ⟨hkey, hname, hkind⟩ := Symbol.mk.inj hform
    dsimp only at hname
    subst hname
    cases kind with
    | property owner decl source isOptional =>
      cases kind' with
      | property owner' decl' source' isOptional' =>
        obtain ⟨-, rfl, hsource, rfl⟩ := SymbolKind.property.inj hkind
        obtain rfl : key = .property owner name := h.key_of_property rfl
        obtain rfl : key' = .property owner' name := h'.key_of_property rfl
        obtain ⟨ho, htrees⟩ := List.cons.inj htrees
        obtain ⟨-, htrees⟩ := List.cons.inj htrees
        have hs := (typesIn_cons.1 (typesIn_cons.1 hin).2).2
        have hs' := (typesIn_cons.1 (typesIn_cons.1 hin').2).2
        have howner : AlikeType (Side.pair owner owner') M :=
          ⟨Side.forall_iff.2 ⟨(typesIn_cons.1 hin).1, (typesIn_cons.1 hin').1⟩, ho⟩
        rw [show Side.pair _ _ = _ from Side.pair_map (fun e : TypeId × PropSource =>
          (⟨.property e.1 name, name, .property e.1 decl e.2 isOptional⟩ : Symbol))
          (owner, source) (owner', source')]
        have hpair : Side.pair (owner, source) (owner', source') =
            fun s => (Side.pair owner owner' s, Side.pair source source' s) := by
          funext s
          cases s <;> rfl
        rw [hpair]
        exact .property name decl isOptional howner (alikeSource_of_trees hs hs' hsource htrees)
      | _ => cases hkind
    | enumMember node value =>
      cases kind' with
      | enumMember node' value' =>
        obtain ⟨rfl, -⟩ := SymbolKind.enumMember.inj hkind
        obtain rfl : key = .decl node := (h.key_of_enumMember rfl).1
        obtain rfl : key' = .decl node := (h'.key_of_enumMember rfl).1
        rw [Side.pair_map (fun value => (⟨.decl node, name, .enumMember node value⟩ : Symbol))]
        refine .enumMember node name ⟨Side.forall_iff.2 ⟨?_, ?_⟩, (List.cons.inj htrees).1⟩
        · exact hin value List.mem_cons_self
        · exact hin' value' List.mem_cons_self
      | _ => cases hkind
    | _ => exact hmember.elim
  · -- a symbol that is no member has no handles
    have hmember' : ¬ sym'.kind.IsMember := by
      have hkind := (Symbol.mk.inj hform).2.2
      intro hm
      cases hk : sym.kind <;> cases hk' : sym'.kind <;> rw [hk, hk'] at hkind <;>
        simp_all [SymbolKind.form, SymbolKind.IsMember]
    obtain ⟨hkey, hname, hkind⟩ := Symbol.mk.inj hform
    have hsym : sym = sym' := by
      obtain ⟨key, name, kind⟩ := sym
      obtain ⟨key', name', kind'⟩ := sym'
      dsimp only at hname
      rw [h.key_form hmember, h'.key_form hmember'] at hkey
      cases kind <;> cases kind' <;> simp_all [SymbolKind.form, SymbolKind.IsMember]
    rw [hsym, Side.pair_map (fun _ : Unit => sym') () ()]
    exact .plain sym' hmember'

/-- The data of symbols that are alike is alike. -/
theorem AlikeSymbol.entry (hM : ∀ s, Sound p (M s)) {r : Side → SymbolId} (h : AlikeSymbol r M) :
    AlikeEntry M fun s => (M s).symbolOf (r s) := by
  obtain ⟨hform, htrees⟩ := SymbolTree.mk.inj h.2
  have hfits : ∀ s, SymbolFits p (M s) ((M s).symbolOf (r s)) := fun s =>
    (hM s).symbols _ _ (Memory.symbolOf_eq (h.1 s))
  rw [Side.eq_pair fun s => (M s).symbolOf (r s)]
  exact alikeEntry_of_trees (hfits _) (hfits _) hform htrees

theorem AlikeEntry.name_eq {sym : Side → Symbol} (h : AlikeEntry M sym) :
    ∃ name, ∀ s, (sym s).name = name := by
  cases h with
  | plain sym _ => exact ⟨sym.name, fun _ => rfl⟩
  | property name _ _ _ _ => exact ⟨name, fun _ => rfl⟩
  | enumMember _ name _ => exact ⟨name, fun _ => rfl⟩

/-- A symbol with its parts as trees. -/
def Memory.symbolTreeOf (N : Memory) (sym : Symbol) : SymbolTree :=
  ⟨sym.form, sym.types.map N.tree⟩

theorem AlikeEntry.symbolTreeOf_eq {sym : Side → Symbol} (h : AlikeEntry M sym)
    (hplain : ∀ s, ¬ (sym s).kind.IsMember → (sym s).types = []) :
    (M .known).symbolTreeOf (sym .known) = (M .shared).symbolTreeOf (sym .shared) := by
  unfold Memory.symbolTreeOf
  cases h with
  | plain sym hk => rw [hplain .known hk]; rfl
  | property name decl isOptional ho hs =>
    obtain ⟨hform, htypes⟩ := hs.same
    simp only [Symbol.form, Symbol.types, SymbolKey.form, SymbolKey.types, SymbolKind.form,
      SymbolKind.types, List.map_append, List.map_cons, List.map_nil, hform, htypes, ho.2]
  | enumMember node name hv =>
    simp only [Symbol.form, Symbol.types, SymbolKey.form, SymbolKey.types, SymbolKind.form,
      SymbolKind.types, List.nil_append, List.map_cons, List.map_nil, hv.2]

/-! ### Later memories -/

section Later

variable (hE : Onward p M M')
include hE

theorem AlikeKey.mono {key : Side → ObjectKey} (h : AlikeKey M key) : AlikeKey M' key := by
  cases h with
  | declared decl h => exact .declared decl fun t ht => (h t ht).mono hE
  | literal node h => exact .literal node fun e he => (h e he).mono hE
  | value node => exact .value node
  | allOptional h => exact .allOptional (h.mono hE)

theorem AlikeData.mono {d : Side → TypeData} (h : AlikeData p M d) : AlikeData p M' d := by
  cases h with
  | atom d hd => exact .atom d hd
  | array h => exact .array (h.mono hE)
  | tuple h => exact .tuple fun t ht => (h t ht).mono hE
  | union h => exact .union fun t ht => (h t ht).mono hE
  | intersection h => exact .intersection fun t ht => (h t ht).mono hE
  | object hkey hr hthrough hfits =>
    refine .object (hkey.mono hE) (hr.mono hE) (fun a ha => (hthrough a ha).mono hE) fun s => ?_
    have hfits : Fits p (M s) (M s).types.size (.object _ _ _) := hfits s
    refine Fits.le (hfits.mono (hE.tables s)) ?_
    by_contra hlt
    exact Nat.lt_irrefl _ (TypeIn.mono (M := M s) (not_le.1 hlt) (hE.tables s))
  | enum hr hd => exact .enum (fun s => (hE.tables s).keyOf? (hr s)) hd
  | named name hr h =>
    exact .named name (fun s => (hE.tables s).keyOf? (hr s)) fun t ht => (h t ht).mono hE

theorem AlikeSource.mono {source : Side → PropSource} (h : AlikeSource M source) :
    AlikeSource M' source := by
  cases h with
  | typeNode node h => exact .typeNode node fun e he => (h e he).mono hE
  | value node => exact .value node
  | method node => exact .method node
  | fixed h => exact .fixed (h.mono hE)

theorem AlikeEntry.mono {sym : Side → Symbol} (h : AlikeEntry M sym) : AlikeEntry M' sym := by
  cases h with
  | plain sym hk => exact .plain sym hk
  | property name decl isOptional ho hs =>
    exact .property name decl isOptional (ho.mono hE) (hs.mono hE)
  | enumMember node name hv => exact .enumMember node name (hv.mono hE)

end Later

end RouteContract.Types
