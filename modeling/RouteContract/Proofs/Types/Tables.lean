import Mathlib
import RouteContract.Proofs.Types.Memory

/-!
# Steps that keep a memory sound

`Keeps p x M P` says that `x`, from a sound memory `M`, leaves a later sound memory and a result in
`P`. It has one rule for each way of building a computation, and is shown here for the steps that
change the tables of types and symbols and for the types that are made of other types. The rest of
the resolver is built from these.
-/

namespace RouteContract.Types

variable {p : Program} {M M' : Memory} {α β : Type}

/-- From a sound memory, a computation leaves a later sound memory and a result in a set. -/
def Keeps (p : Program) (x : Resolve α) (M : Memory) (P : α → Memory → Prop) : Prop :=
  Sound p M → Ensures x M fun a M' => Sound p M' ∧ (M.Extends M' ∧ M.Resumes M') ∧ P a M'

section Rules

variable {P : α → Memory → Prop} {Q : β → Memory → Prop}

theorem keeps_pure {a : α} (h : P a M) : Keeps p (pure a) M P :=
  fun hM => ensures_pure ⟨hM, ⟨.refl M, .refl M⟩, h⟩

theorem keeps_exhausted : Keeps p exhausted M P := fun _ =>
  ensures_option_iff.2 fun _ _ h => by simp [exhausted, StateT.run] at h

theorem Keeps.bind {x : Resolve α} {f : α → Resolve β} (hx : Keeps p x M P)
    (hf : ∀ a M', M.Extends M' → P a M' → Keeps p (f a) M' Q) : Keeps p (x >>= f) M Q :=
  fun hM => (hx hM).bind fun a M' ⟨hM', hE, hP⟩ =>
    (hf a M' hE.1 hP hM').imp fun _ _ ⟨hM'', hE', hQ⟩ =>
      ⟨hM'', ⟨hE.1.trans hE'.1, hE.2.trans hE'.2⟩, hQ⟩

theorem Keeps.imp {R : α → Memory → Prop} {x : Resolve α} (hx : Keeps p x M P)
    (h : ∀ a M', Sound p M' → M.Extends M' → P a M' → R a M') : Keeps p x M R :=
  fun hM => (hx hM).imp fun a M' ⟨hM', hE, hP⟩ => ⟨hM', hE, h a M' hM' hE.1 hP⟩

/-- What a computation keeps may rest on the memory being sound. -/
theorem keeps_of_sound {x : Resolve α} (h : Sound p M → Keeps p x M P) : Keeps p x M P :=
  fun hM => h hM hM

theorem keeps_get_bind {f : Memory → Resolve β} (h : Keeps p (f M) M Q) :
    Keeps p (get >>= f) M Q := fun hM => ensures_get_bind (h hM)

/-- Of the answers after one was added, all others were there before. -/
theorem mem_or_of_mem_cons {answers : List α} {answer : α} {Q : α → Prop} (h : Q answer) :
    ∀ e ∈ answer :: answers, e ∈ answers ∨ Q e := by
  intro e he
  rcases List.mem_cons.1 he with rfl | he
  · exact Or.inr h
  · exact Or.inl he

/-- A computation that runs with something marked as being looked for, and then remembers what it
found and takes the mark away. -/
theorem keeps_marked {x : Resolve α} {R : α → Memory → Prop} {marked : Memory}
    {remember : α → Memory → Memory} (hmarked : Sound p M → Sound p marked)
    (hE : M.Extends marked) (hx : Keeps p x marked P)
    (hleave : ∀ a M', Sound p M' → marked.Extends M' → marked.Resumes M' → P a M' →
      Sound p (remember a M') ∧ (M'.Extends (remember a M') ∧ M.Resumes (remember a M')) ∧
        R a (remember a M')) :
    Keeps p (do
      set marked
      let a ← x
      modify (remember a)
      return a) M R := fun hM => by
  refine ensures_set_bind ((hx (hmarked hM)).bind fun a M' ⟨hM', hE', hP⟩ => ?_)
  obtain ⟨hS, hE'', hR⟩ := hleave a M' hM' hE'.1 hE'.2 hP
  exact ensures_modify_bind (ensures_pure ⟨hS, ⟨(hE.trans hE'.1).trans hE''.1, hE''.2⟩, hR⟩)

/-- A loop over a list whose results stay good. -/
theorem keeps_mapM {f : α → Resolve β} (mono : ∀ {b M M'}, Q b M → M.Extends M' → Q b M')
    (l : List α) (hf : ∀ a ∈ l, ∀ M', M.Extends M' → Keeps p (f a) M' Q) :
    Keeps p (l.mapM f) M fun bs M' => ∀ b ∈ bs, Q b M' := by
  induction l generalizing M with
  | nil =>
    rw [List.mapM_nil]
    exact keeps_pure (by simp)
  | cons a l ih =>
    rw [List.mapM_cons]
    refine (hf a (by simp) M (.refl M)).bind fun b M₁ h₁ hb => ?_
    refine (ih fun a' ha M' hE => hf a' (by simp [ha]) M' (h₁.trans hE)).bind
      fun bs M₂ h₂ hbs => keeps_pure ?_
    exact List.forall_mem_cons.2 ⟨mono hb h₂, hbs⟩

/-- A fold over a list with an invariant. -/
theorem keeps_foldlM {f : β → α → Resolve β} (l : List α) {b : β} (hb : Q b M)
    (hf : ∀ b, ∀ a ∈ l, ∀ M', M.Extends M' → Q b M' → Keeps p (f b a) M' Q) :
    Keeps p (l.foldlM f b) M Q := by
  induction l generalizing M b with
  | nil => exact keeps_pure hb
  | cons a l ih =>
    rw [List.foldlM_cons]
    refine (hf b a (by simp) M (.refl M) hb).bind fun b' M₁ h₁ hb' => ?_
    exact ih hb' fun b'' a' ha M' hE => hf b'' a' (by simp [ha]) M' (h₁.trans hE)

end Rules

/-! ### Reading the tables -/

theorem mem_of_lookup {α β : Type} [BEq α] [LawfulBEq α] {l : List (α × β)} {a : α} {b : β}
    (h : l.lookup a = some b) : (a, b) ∈ l := by
  obtain ⟨l₁, l₂, rfl, -⟩ := List.lookup_eq_some_iff.1 h
  exact List.mem_append_right _ List.mem_cons_self

namespace Memory

/-- The data of a type; that of a type that is not there says nothing. -/
def dataOf (M : Memory) (t : TypeId) : TypeData := M.types.getD t .any

/-- A symbol; one that is not there is a library name. -/
def symbolOf (M : Memory) (s : SymbolId) : Symbol :=
  M.symbols.getD s ⟨.builtin "", "", .builtin⟩

theorem getElem?_of_dataOf {t : TypeId} {d : TypeData} (h : M.dataOf t = d) (hd : d ≠ .any) :
    M.types[t]? = some d := by
  rw [dataOf, Array.getD_eq_getD_getElem?] at h
  cases ht : M.types[t]? with
  | none =>
    rw [ht] at h
    exact absurd h.symm hd
  | some d' =>
    rw [ht] at h
    rw [← h]
    rfl

theorem dataOf_of_getElem? {t : TypeId} {d : TypeData} (h : M.types[t]? = some d) :
    M.dataOf t = d := by
  rw [dataOf, Array.getD_eq_getD_getElem?, h]
  rfl

theorem symbolOf_of_getElem? {s : SymbolId} {sym : Symbol} (h : M.symbols[s]? = some sym) :
    M.symbolOf s = sym := by
  rw [symbolOf, Array.getD_eq_getD_getElem?, h]
  rfl

theorem getElem?_of_symbolOf {s : SymbolId} (h : (M.symbolOf s).kind ≠ .builtin) :
    M.symbols[s]? = some (M.symbolOf s) := by
  rw [symbolOf, Array.getD_eq_getD_getElem?] at h ⊢
  cases hs : M.symbols[s]? with
  | none =>
    rw [hs] at h
    exact absurd rfl h
  | some sym => rfl

end Memory

theorem keeps_data_bind {t : TypeId} {f : TypeData → Resolve β} {Q : β → Memory → Prop}
    (h : Keeps p (f (M.dataOf t)) M Q) : Keeps p (data t >>= f) M Q := by
  unfold data
  simp only [bind_assoc, pure_bind]
  exact keeps_get_bind h

theorem keeps_symbol_bind {s : SymbolId} {f : Symbol → Resolve β} {Q : β → Memory → Prop}
    (h : Keeps p (f (M.symbolOf s)) M Q) : Keeps p (symbol s >>= f) M Q := by
  unfold symbol
  simp only [bind_assoc, pure_bind]
  exact keeps_get_bind h

/-- The data of a type is made of types before it. -/
theorem Sound.fits (hM : Sound p M) {t : TypeId} {d : TypeData} (h : M.dataOf t = d)
    (hd : d ≠ .any) : TypeIn t M ∧ Fits p M t d := by
  have ht := Memory.getElem?_of_dataOf h hd
  exact ⟨typeIn_of_getElem? ht, hM.types t d ht⟩

/-- Types before one that is in the table are in the table. -/
theorem typesIn_of_lt {t : TypeId} {types : List TypeId} (ht : TypeIn t M)
    (h : ∀ u ∈ types, u < t) : TypesIn types M := fun u hu => lt_trans (h u hu) ht

section Symbols

variable {s : SymbolId} {d : NodeId}

theorem bindingEntry_kind (p : Program) (binding : NodeId) :
    (bindingEntry p binding).kind = .declared binding ∨
    (∃ source name, (bindingEntry p binding).kind = .imported binding source name) ∨
    ∃ unit, (bindingEntry p binding).kind = .module unit := by
  unfold bindingEntry
  dsimp only
  split
  · exact Or.inl rfl
  · exact Or.inr (Or.inl ⟨_, _, rfl⟩)
  · exact Or.inr (Or.inr ⟨_, rfl⟩)

/-- Only a node of an import statement is no declaration. -/
theorem describe_declared (h : p.kind d ∉ ["import_specifier", "namespace_import", "identifier"]) :
    (Names.describe p d).2 = .declared := by
  simp only [List.mem_cons, List.not_mem_nil, or_false, not_or] at h
  unfold Names.describe
  dsimp only
  rw [if_neg h.1, if_neg h.2.1, if_neg fun hand => h.2.2 hand.1]

/-- What a symbol other than that of a library name can be. -/
theorem Sound.symbol_cases (hM : Sound p M) (h : (M.symbolOf s).kind ≠ .builtin) :
    (∃ d, IsBinding p d ∧ M.keyOf? s = some (.decl d) ∧ M.symbolOf s = bindingEntry p d) ∨
    (∃ d value, (M.symbolOf s).kind = .enumMember d value ∧ TypeIn value M) ∨
    (∃ owner decl source isOptional, (M.symbolOf s).kind = .property owner decl source isOptional ∧
      SourceIn p M source) ∨
    ∃ unit, (M.symbolOf s).kind = .module unit := by
  have hs := Memory.getElem?_of_symbolOf h
  have hfits := hM.symbols s _ hs
  unfold SymbolFits at hfits
  split at hfits
  · next d hkey =>
    rcases hfits with ⟨hb, he⟩ | ⟨-, value, hk, hv⟩
    · exact Or.inl ⟨d, hb, Option.map_eq_some_iff.2 ⟨_, hs, hkey⟩, he⟩
    · exact Or.inr (Or.inl ⟨d, value, hk, hv⟩)
  · rw [hfits] at h
    exact absurd rfl h
  · obtain ⟨-, decl, source, isOptional, hk, -, hsource⟩ := hfits
    exact Or.inr (Or.inr (Or.inl ⟨_, decl, source, isOptional, hk, hsource⟩))
  · exact Or.inr (Or.inr (Or.inr ⟨_, congrArg Symbol.kind hfits⟩))

/-- A symbol that stands for a declaration has its key. -/
theorem Sound.declared (hM : Sound p M) (h : (M.symbolOf s).kind = .declared d) :
    M.keyOf? s = some (.decl d) := by
  rcases hM.symbol_cases (by rw [h]; exact SymbolKind.noConfusion) with
    ⟨d', -, hkey, he⟩ | ⟨_, _, hk, -⟩ | ⟨_, _, _, _, hk, -⟩ | ⟨_, hk⟩
  · rw [he] at h
    rcases bindingEntry_kind p d' with hk | ⟨_, _, hk⟩ | ⟨_, hk⟩
    · rw [hk] at h; cases h; exact hkey
    · rw [hk] at h; cases h
    · rw [hk] at h; cases h
  all_goals rw [hk] at h; cases h

/-- The symbol of a declaration of types stands for the declaration. -/
theorem Sound.symbolOf_declaration (hM : Sound p M) (hs : M.keyOf? s = some (.decl d))
    (h : p.kind d ∈ "type_alias_declaration" :: objectDeclarationKinds) :
    (M.symbolOf s).kind = .declared d := by
  have other : ∀ k ∈ "type_alias_declaration" :: objectDeclarationKinds,
      k ∉ ["import_specifier", "namespace_import", "identifier"] ∧ k ∉ enumMemberKinds := by decide
  obtain ⟨sym, hsym, hkey⟩ := Option.map_eq_some_iff.1 hs
  have hfits := hM.symbols s sym hsym
  rw [SymbolFits, hkey] at hfits
  rcases hfits with ⟨-, rfl⟩ | ⟨hmember, -⟩
  · rw [Memory.symbolOf_of_getElem? hsym, bindingEntry, describe_declared (other _ h).1]
  · exact absurd hmember.1 (other _ h).2

/-- A symbol that stands for an import is that of a binding, and has its key. -/
theorem Sound.imported (hM : Sound p M) {source : Option Nat} {name : String}
    (h : (M.symbolOf s).kind = .imported d source name) :
    IsBinding p d ∧ M.keyOf? s = some (.decl d) := by
  rcases hM.symbol_cases (by rw [h]; exact SymbolKind.noConfusion) with
    ⟨d', hb, hkey, he⟩ | ⟨_, _, hk, -⟩ | ⟨_, _, _, _, hk, -⟩ | ⟨_, hk⟩
  · rw [he] at h
    rcases bindingEntry_kind p d' with hk | ⟨_, _, hk⟩ | ⟨_, hk⟩
    · rw [hk] at h; cases h
    · rw [hk] at h; cases h; exact ⟨hb, hkey⟩
    · rw [hk] at h; cases h
  all_goals rw [hk] at h; cases h

/-- What a property gets its type from is in the table. -/
theorem Sound.property (hM : Sound p M) {owner : TypeId} {decl : Option NodeId}
    {source : PropSource} {isOptional : Bool}
    (h : (M.symbolOf s).kind = .property owner decl source isOptional) : SourceIn p M source := by
  rcases hM.symbol_cases (by rw [h]; exact SymbolKind.noConfusion) with
    ⟨d', -, -, he⟩ | ⟨_, _, hk, -⟩ | ⟨_, _, _, _, hk, hs⟩ | ⟨_, hk⟩
  · rw [he] at h
    rcases bindingEntry_kind p d' with hk | ⟨_, _, hk⟩ | ⟨_, hk⟩ <;> rw [hk] at h <;> cases h
  · rw [hk] at h; cases h
  · rw [hk] at h; cases h; exact hs
  · rw [hk] at h; cases h

/-- The value of an enum member is in the table. -/
theorem Sound.enumMember (hM : Sound p M) {value : TypeId}
    (h : (M.symbolOf s).kind = .enumMember d value) : TypeIn value M := by
  rcases hM.symbol_cases (by rw [h]; exact SymbolKind.noConfusion) with
    ⟨d', -, -, he⟩ | ⟨_, _, hk, hv⟩ | ⟨_, _, _, _, hk, -⟩ | ⟨_, hk⟩
  · rw [he] at h
    rcases bindingEntry_kind p d' with hk | ⟨_, _, hk⟩ | ⟨_, hk⟩ <;> rw [hk] at h <;> cases h
  · rw [hk] at h; cases h; exact hv
  · rw [hk] at h; cases h
  · rw [hk] at h; cases h

end Symbols

/-! ### Adding to the tables -/

theorem Memory.extends_pushType (M : Memory) (d : TypeData) :
    M.Extends { M with types := M.types.push d } := by
  refine ⟨fun t d' ht => ?_, fun _ _ h => h⟩
  rw [Array.getElem?_push, if_neg (typeIn_of_getElem? ht).ne]
  exact ht

/-- A memory with one more type. -/
theorem Sound.pushType (hM : Sound p M) {d : TypeData} (hd : Fits p M M.types.size d)
    (hnew : ∀ (t : TypeId), M.types[t]? ≠ some d) :
    Sound p { M with types := M.types.push d } ∧
      M.Extends { M with types := M.types.push d } := by
  have hE := M.extends_pushType d
  -- a type of the new table is an old one, or the one that was added
  have cases : ∀ (t : TypeId) d', (M.types.push d)[t]? = some d' →
      M.types[t]? = some d' ∨ (t = M.types.size ∧ d' = d) := by
    intro t d' ht
    rw [Array.getElem?_push] at ht
    split at ht
    · next h => cases ht; exact Or.inr ⟨h, rfl⟩
    · exact Or.inl ht
  refine ⟨?_, hE⟩
  constructor
  · intro t u d' ht hu
    rcases cases t d' ht with ht₀ | ⟨rfl, rfl⟩
    · rcases cases u d' hu with hu₀ | ⟨rfl, rfl⟩
      · exact hM.types_once t u d' ht₀ hu₀
      · exact absurd ht₀ (hnew t)
    · rcases cases u d' hu with hu₀ | ⟨rfl, -⟩
      · exact absurd hu₀ (hnew u)
      · rfl
  · exact hM.keys_once
  · intro t d' ht
    rcases cases t d' ht with ht | ⟨rfl, rfl⟩
    · exact (hM.types t d' ht).mono hE
    · exact hd.mono hE
  · exact fun s sym hs => (hM.symbols s sym hs).mono hE
  · exact fun e he => ⟨(hM.members e he).1.mono hE,
      (hM.members e he).2.imp_right hE.hasMembers⟩
  · exact fun e he => (hM.aliases e he).mono hE
  · exact fun e he => (hM.nodeTypes e he).mono hE

/-- The handle of a type that fits. -/
theorem keeps_intern {d : TypeData} (hd : Fits p M M.types.size d) :
    Keeps p (intern d) M fun t M' => M'.types[t]? = some d := by
  refine keeps_get_bind fun hM => ?_
  split
  · next t ht =>
    obtain ⟨h, heq, -⟩ := Array.findIdx?_eq_some_iff_getElem.1 ht
    refine ensures_pure ⟨hM, ⟨.refl M, .refl M⟩, ?_⟩
    rw [Array.getElem?_eq_getElem h, of_decide_eq_true heq]
  · next ht =>
    have hnew : ∀ (t : TypeId), M.types[t]? ≠ some d := fun t h => by
      have := Array.findIdx?_eq_none_iff.1 ht d (Array.mem_of_getElem? h)
      simp at this
    obtain ⟨hM', hE⟩ := hM.pushType hd hnew
    refine ensures_set_bind (ensures_pure ⟨hM', ⟨hE, ⟨?_, ?_, ?_, rfl, rfl, rfl⟩⟩, ?_⟩)
    · exact Adds.refl _ _
    · exact Adds.refl _ _
    · exact Adds.refl _ _
    · exact Array.getElem?_push_size

theorem keeps_type {d : TypeData} (hd : Fits p M M.types.size d) : Keeps p (intern d) M TypeIn :=
  (keeps_intern hd).imp fun _ _ _ _ h => typeIn_of_getElem? h

theorem keeps_anyType : Keeps p anyType M TypeIn := keeps_type trivial

/-- A memory with one more symbol. -/
theorem Sound.pushSymbol (hM : Sound p M) {sym : Symbol} (hsym : SymbolFits p M sym)
    (hnew : ∀ s, M.keyOf? s ≠ some sym.key) :
    Sound p { M with symbols := M.symbols.push sym } ∧
      M.Extends { M with symbols := M.symbols.push sym } := by
  have cases : ∀ (s : SymbolId) sym', (M.symbols.push sym)[s]? = some sym' →
      M.symbols[s]? = some sym' ∨ (s = M.symbols.size ∧ sym' = sym) := by
    intro s sym' hs
    rw [Array.getElem?_push] at hs
    split at hs
    · next h => cases hs; exact Or.inr ⟨h, rfl⟩
    · exact Or.inl hs
  have hE : M.Extends { M with symbols := M.symbols.push sym } := by
    refine ⟨fun _ _ h => h, fun s sym' hs => ?_⟩
    rw [Array.getElem?_push, if_neg (Array.getElem?_eq_some_iff.1 hs).1.ne]
    exact hs
  refine ⟨?_, hE⟩
  constructor
  · exact hM.types_once
  · intro s r key hs hr
    obtain ⟨sym₁, hs₁, hk₁⟩ := Option.map_eq_some_iff.1 hs
    obtain ⟨sym₂, hr₂, hk₂⟩ := Option.map_eq_some_iff.1 hr
    rcases cases s sym₁ hs₁ with hs₀ | ⟨rfl, rfl⟩
    · have hs' : M.keyOf? s = some key := Option.map_eq_some_iff.2 ⟨sym₁, hs₀, hk₁⟩
      rcases cases r sym₂ hr₂ with hr₀ | ⟨rfl, rfl⟩
      · exact hM.keys_once s r key hs' (Option.map_eq_some_iff.2 ⟨sym₂, hr₀, hk₂⟩)
      · exact absurd (hk₂ ▸ hs') (hnew s)
    · rcases cases r sym₂ hr₂ with hr₀ | ⟨rfl, -⟩
      · have hr' : M.keyOf? r = some key := Option.map_eq_some_iff.2 ⟨sym₂, hr₀, hk₂⟩
        exact absurd (hk₁ ▸ hr') (hnew r)
      · rfl
  · exact fun t d ht => (hM.types t d ht).mono hE
  · intro s sym' hs
    rcases cases s sym' hs with hs | ⟨rfl, rfl⟩
    · exact (hM.symbols s sym' hs).mono hE
    · exact hsym.mono hE
  · exact fun e he => ⟨(hM.members e he).1.mono hE,
      (hM.members e he).2.imp_right hE.hasMembers⟩
  · exact fun e he => (hM.aliases e he).mono hE
  · exact fun e he => (hM.nodeTypes e he).mono hE

/-- The handle of a symbol that is what its key says. -/
theorem keeps_internSymbol {sym : Symbol} (hsym : SymbolFits p M sym) :
    Keeps p (internSymbol sym) M fun s M' => M'.keyOf? s = some sym.key := by
  refine keeps_get_bind fun hM => ?_
  split
  · next s hs =>
    obtain ⟨h, heq, -⟩ := Array.findIdx?_eq_some_iff_getElem.1 hs
    refine ensures_pure ⟨hM, ⟨.refl M, .refl M⟩, Option.map_eq_some_iff.2 ⟨M.symbols[s], ?_, ?_⟩⟩
    · exact Array.getElem?_eq_getElem h
    · exact of_decide_eq_true heq
  · next hs =>
    have hnew : ∀ s, M.keyOf? s ≠ some sym.key := fun s h => by
      obtain ⟨sym', hs', hk⟩ := Option.map_eq_some_iff.1 h
      have := Array.findIdx?_eq_none_iff.1 hs sym' (Array.mem_of_getElem? hs')
      simp [hk] at this
    obtain ⟨hM', hE⟩ := hM.pushSymbol hsym hnew
    refine ensures_set_bind (ensures_pure ⟨hM', ⟨hE, ⟨?_, ?_, ?_, rfl, rfl, rfl⟩⟩, ?_⟩)
    · exact Adds.refl _ _
    · exact Adds.refl _ _
    · exact Adds.refl _ _
    · exact Option.map_eq_some_iff.2 ⟨sym, Array.getElem?_push_size, rfl⟩

theorem keeps_builtinSymbol (name : String) :
    Keeps p (builtinSymbol name) M fun s M' => M'.keyOf? s = some (.builtin name) :=
  keeps_internSymbol rfl

theorem keeps_bindingSymbol {d : NodeId} (hd : IsBinding p d) :
    Keeps p (bindingSymbol p d) M fun s M' => M'.keyOf? s = some (.decl d) := by
  have hentry : SymbolFits p M (bindingEntry p d) := Or.inl ⟨hd, rfl⟩
  exact keeps_internSymbol hentry

/-! ### Symbols behind exports and imports -/

/-- A symbol that may be absent is in the table. -/
def SymbolIn? (s : Option SymbolId) (M : Memory) : Prop := ∀ i, s = some i → SymbolIn i M

theorem symbolIn?_none : SymbolIn? none M := fun _ h => absurd h (Option.some_ne_none _).symm

theorem symbolIn?_some {s : SymbolId} (h : SymbolIn s M) : SymbolIn? (some s) M := by
  intro i hi
  cases hi
  exact h

theorem isBinding_of_followWithin? {left : Nat} {target : Names.Target} {d : NodeId}
    (ht : ∀ b, target = .binding b → IsBinding p b)
    (h : Names.followWithin? p left target = some (.binding d)) : IsBinding p d := by
  induction left generalizing target with
  | zero => simp [Names.followWithin?] at h
  | succ left ih =>
    cases target with
    | module unit => simp [Names.followWithin?] at h
    | binding b =>
      rw [Names.followWithin?] at h
      split at h
      · cases h
      · split at h
        · cases h
        · obtain ⟨next, hn, hf⟩ := Option.bind_eq_some_iff.1 h
          exact ih (fun b' hb' => Or.inr (Or.inl ⟨_, _, hb' ▸ hn⟩)) hf
      · cases h
        exact ht d rfl

theorem keeps_moduleSymbol (unit : Nat) : Keeps p (moduleSymbol p unit) M SymbolIn := by
  refine Keeps.imp (keeps_internSymbol ?_) fun _ _ _ _ h => symbolIn_of_keyOf? h
  rfl

theorem keeps_targetSymbol {target : Names.Target} (ht : ∀ d, target = .binding d → IsBinding p d) :
    Keeps p (targetSymbol p target) M SymbolIn := by
  cases target with
  | binding d => exact (keeps_bindingSymbol (ht d rfl)).imp fun _ _ _ _ h => symbolIn_of_keyOf? h
  | module unit => exact keeps_moduleSymbol unit

theorem keeps_exportSymbol? (unit : Nat) (name : String) :
    Keeps p (exportSymbol? p unit name) M SymbolIn? := by
  unfold exportSymbol?
  split
  · next target h =>
    refine (keeps_targetSymbol fun d hd => Or.inr (Or.inl ⟨unit, name, hd ▸ h⟩)).bind ?_
    exact fun s M' _ hs => keeps_pure (symbolIn?_some hs)
  · exact keeps_pure symbolIn?_none

theorem keeps_followAlias? {s : SymbolId} (hs : SymbolIn s M) :
    Keeps p (followAlias? p s) M SymbolIn? := by
  refine keeps_of_sound fun hM => keeps_symbol_bind ?_
  split
  · next decl _ _ hk =>
    split
    · next target h =>
      have hb := (hM.imported hk).1
      refine (keeps_targetSymbol fun d hd => ?_).bind
        fun s M' _ hs => keeps_pure (symbolIn?_some hs)
      exact isBinding_of_followWithin? (fun b h => Names.Target.binding.inj h ▸ hb) (hd ▸ h)
    · exact keeps_pure symbolIn?_none
  · exact keeps_pure (symbolIn?_some hs)

/-! ### Types made of other types -/

theorem typesIn_addNew {types : List TypeId} {t : TypeId} (h : TypesIn types M)
    (ht : TypeIn t M) : TypesIn (addNew types t) M := by
  unfold addNew
  split
  · exact h
  · exact typesIn_append.2 ⟨h, typesIn_cons.2 ⟨ht, typesIn_nil⟩⟩

theorem typesIn_foldl_addNew {types more : List TypeId} (h : TypesIn types M)
    (hm : TypesIn more M) : TypesIn (more.foldl addNew types) M := by
  induction more generalizing types with
  | nil => exact h
  | cons t more ih =>
    rw [typesIn_cons] at hm
    exact ih (typesIn_addNew h hm.1) hm.2

theorem keeps_flatten {members : List TypeId} (h : TypesIn members M) :
    Keeps p (flatten members) M TypesIn := by
  refine keeps_foldlM members typesIn_nil fun flat t ht M' hE hflat => ?_
  refine keeps_of_sound fun hM' => keeps_data_bind ?_
  split
  · next inner hd =>
    obtain ⟨ht', hfits⟩ := hM'.fits hd TypeData.noConfusion
    exact keeps_pure (typesIn_foldl_addNew hflat (typesIn_of_lt ht' hfits))
  · exact keeps_pure hflat
  · exact keeps_pure (typesIn_addNew hflat ((h t ht).mono hE))

theorem mem_of_mem_replace {t a b : TypeId} {types : List TypeId} (h : t ∈ types.replace a b) :
    t ∈ types ∨ t = b := by
  induction types with
  | nil => exact absurd h List.not_mem_nil
  | cons c types ih =>
    rw [List.replace_cons] at h
    split at h
    · rcases List.mem_cons.1 h with h | h
      · exact Or.inr h
      · exact Or.inl (List.mem_cons_of_mem _ h)
    · rcases List.mem_cons.1 h with rfl | h
      · exact Or.inl List.mem_cons_self
      · exact (ih h).imp_left (List.mem_cons_of_mem _)

theorem typesIn_mergeBooleans {yes no both : TypeId} {flat : List TypeId} (h : TypesIn flat M)
    (hb : TypeIn both M) : TypesIn (mergeBooleans yes no both flat) M := by
  unfold mergeBooleans
  split
  · intro t ht
    rcases mem_of_mem_replace (List.mem_of_mem_filter ht) with ht | rfl
    · exact h t ht
    · exact hb
  · exact h

theorem keeps_data (t : TypeId) : Keeps p (data t) M fun _ _ => True :=
  keeps_get_bind (keeps_pure trivial)

/-- The union of types that are flat already. -/
theorem keeps_flatUnion {flat : List TypeId} (hflat : TypesIn flat M) : Keeps p (match flat with
    | [] => intern .never
    | [t] => pure t
    | _ => intern (.union flat)) M TypeIn := by
  split
  · exact keeps_type trivial
  · exact keeps_pure (typesIn_cons.1 hflat).1
  · exact keeps_type hflat

theorem keeps_makeUnion {members : List TypeId} (h : TypesIn members M) :
    Keeps p (makeUnion members) M TypeIn := by
  refine (keeps_flatten h).bind fun flat M₁ _ hflat => ?_
  refine (keeps_mapM (Q := fun _ _ => True) (fun _ _ => trivial) flat
    fun t _ M' _ => keeps_data t).bind fun datas M₂ h₂ _ => ?_
  split
  · exact keeps_anyType
  refine (keeps_type (d := .booleanLit true) trivial).bind fun yes M₃ h₃ _ => ?_
  refine (keeps_type (d := .booleanLit false) trivial).bind fun no M₄ h₄ _ => ?_
  have hflat₄ := hflat.mono ((h₂.trans h₃).trans h₄)
  dsimp only
  split
  · refine (keeps_type (d := .boolean) trivial).bind fun both M₅ h₅ hb => ?_
    rw [pure_bind]
    exact keeps_flatUnion (typesIn_mergeBooleans (hflat₄.mono h₅) hb)
  · rw [pure_bind]
    exact keeps_flatUnion hflat₄

theorem mem_of_mem_dropRepeats {t : TypeId} {types : List TypeId} (h : t ∈ dropRepeats types) :
    t ∈ types := by
  fun_induction dropRepeats types with
  | case1 => exact h
  | case2 => exact h
  | case3 a rest ih => exact List.mem_cons_of_mem _ (ih h)
  | case4 a b rest _ ih =>
    rcases List.mem_cons.1 h with rfl | h
    · exact List.mem_cons_self
    · exact List.mem_cons_of_mem _ (ih h)

theorem keeps_makeIntersection {members : List TypeId} (h : TypesIn members M) :
    Keeps p (makeIntersection members) M TypeIn := by
  refine Keeps.bind (P := TypesIn) ?_ fun flat M₁ h₁ hflat => ?_
  · refine keeps_foldlM members typesIn_nil fun flat t ht M' hE hflat => ?_
    refine keeps_of_sound fun hM' => keeps_data_bind ?_
    split
    · next inner hd =>
      obtain ⟨ht', hfits⟩ := hM'.fits hd TypeData.noConfusion
      exact keeps_pure (typesIn_append.2 ⟨hflat, typesIn_of_lt ht' hfits⟩)
    · exact keeps_pure (typesIn_append.2 ⟨hflat, typesIn_cons.2 ⟨(h t ht).mono hE, typesIn_nil⟩⟩)
  · have hdrop : TypesIn (dropRepeats flat) M₁ := fun t ht => hflat t (mem_of_mem_dropRepeats ht)
    split
    · exact keeps_type trivial
    · next t heq =>
      rw [heq] at hdrop
      exact keeps_pure (typesIn_cons.1 hdrop).1
    · exact keeps_type hdrop

theorem keeps_widenLiteral {t : TypeId} (ht : TypeIn t M) : Keeps p (widenLiteral t) M TypeIn := by
  refine keeps_data_bind ?_
  split
  · exact keeps_type trivial
  · exact keeps_type trivial
  · exact keeps_type trivial
  · exact keeps_pure ht

theorem keeps_widen {t : TypeId} (ht : TypeIn t M) : Keeps p (widen t) M TypeIn := by
  refine keeps_of_sound fun hM => keeps_data_bind ?_
  split
  · next members hd =>
    have hmembers : TypesIn members M := typesIn_of_lt ht (hM.fits hd TypeData.noConfusion).2
    refine (keeps_mapM (Q := TypeIn) TypeIn.mono members fun m hm M' hE =>
      keeps_widenLiteral ((hmembers m hm).mono hE)).bind fun types M' _ h => ?_
    exact keeps_makeUnion h
  · exact keeps_widenLiteral ht

theorem keeps_filterM {f : TypeId → Resolve Bool} (l : List TypeId)
    (hf : ∀ a M, Keeps p (f a) M fun _ _ => True) :
    Keeps p (l.filterM f) M fun l' _ => l' ⊆ l := by
  have aux : ∀ (l acc : List TypeId) M, Keeps p (l.filterAuxM f acc) M fun l' _ =>
      l' ⊆ acc ++ l := by
    intro l
    induction l with
    | nil => exact fun acc M => keeps_pure (by simp)
    | cons a l ih =>
      intro acc M
      refine (hf a M).bind fun b M₁ _ _ => (ih _ M₁).imp fun l' M₂ _ _ h t ht => ?_
      have ht := List.mem_append.1 (h ht)
      cases b with
      | false =>
        rcases ht with ht | ht
        · exact List.mem_append_left _ ht
        · exact List.mem_append_right _ (List.mem_cons_of_mem _ ht)
      | true =>
        rcases ht with ht | ht
        · rcases List.mem_cons.1 ht with rfl | ht
          · exact List.mem_append_right _ List.mem_cons_self
          · exact List.mem_append_left _ ht
        · exact List.mem_append_right _ (List.mem_cons_of_mem _ ht)
  refine (aux l [] M).bind fun l' M' _ h => keeps_pure ?_
  intro t ht
  simpa using h (List.mem_reverse.1 ht)

theorem keeps_presentMembers (members : List TypeId) :
    Keeps p (presentMembers members) M fun present _ => present ⊆ members := by
  refine keeps_filterM members fun t M => keeps_data_bind ?_
  split
  · exact keeps_pure trivial
  · exact keeps_pure trivial
  · exact keeps_pure trivial

theorem keeps_nonNullable {t : TypeId} (ht : TypeIn t M) : Keeps p (nonNullable t) M TypeIn := by
  refine keeps_of_sound fun hM => keeps_data_bind ?_
  split
  · next members hd =>
    have hmembers : TypesIn members M := typesIn_of_lt ht (hM.fits hd TypeData.noConfusion).2
    refine (keeps_presentMembers members).bind fun present M' hE h => ?_
    exact keeps_makeUnion fun m hm => (hmembers m (h hm)).mono hE
  · exact keeps_pure ht

theorem keeps_firstArgument {args : List TypeId} {use : TypeId → Resolve TypeId}
    (h : TypesIn args M) (huse : ∀ t, TypeIn t M → Keeps p (use t) M TypeIn) :
    Keeps p (firstArgument args use) M TypeIn := by
  unfold firstArgument
  split
  · next inner hi => exact huse inner (h inner (List.mem_of_head? hi))
  · exact keeps_anyType

theorem keeps_awaited {t : TypeId} (ht : TypeIn t M) : Keeps p (awaited t) M TypeIn := by
  refine keeps_of_sound fun hM => keeps_data_bind ?_
  split
  · next s args hd =>
    refine keeps_symbol_bind ?_
    dsimp only
    split
    · exact keeps_firstArgument (typesIn_of_lt ht (hM.fits hd TypeData.noConfusion).2.1)
        fun t ht => keeps_pure ht
    · exact keeps_pure ht
  · exact keeps_pure ht

theorem keeps_builtinType (name : String) {args : List TypeId} (h : TypesIn args M) :
    Keeps p (builtinType name args) M TypeIn := by
  unfold builtinType
  split
  · exact (keeps_firstArgument h fun t ht => keeps_pure ht).bind fun t M' _ ht => keeps_type ht
  split
  · exact keeps_firstArgument h fun t ht => keeps_pure ht
  split
  · exact keeps_firstArgument h fun t ht => keeps_nonNullable ht
  split
  · exact keeps_firstArgument h fun t ht => keeps_awaited ht
  split
  · exact keeps_firstArgument h fun t ht =>
      (keeps_builtinSymbol "Partial").bind fun s M' hE hs => keeps_type ⟨rfl, ht.mono hE, hs⟩
  split
  · exact keeps_type trivial
  split
  · exact keeps_type trivial
  split
  · exact keeps_type trivial
  split
  · exact keeps_type trivial
  · exact (keeps_builtinSymbol name).bind fun s M' hE hs => keeps_type ⟨h.mono hE, name, hs⟩

end RouteContract.Types
