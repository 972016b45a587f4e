import Mathlib
import RouteContract.Proofs.Types.Alike
import RouteContract.Proofs.Types.Founded

/-!
# Runs that follow a known one

A run of the resolver is known. A run of the same computation in a shared memory, which remembers
the answers to other questions, then comes to an end and finds the same (`Follows`), where all that
the known run looks up is found in shared memories (`Course.found`). What holds between the two
memories all along is `Tied`: what the known one looks for the shared one looks for too, the shared
one remembers founded answers only, and while the members of a type are collected, the symbols of
these members are alike.

`Follows` has one rule for each way of building a computation, and is shown here for the steps that
change the tables of types and symbols.
-/

namespace RouteContract.Types

open Filter

variable {p : Program} {α β γ : Type}

/-! ### Memories and what they look for -/

/-- A sound memory that looks for certain things, none of which it remembers. -/
structure Seeking (p : Program) (marks : List Key) (M : Memory) : Prop where
  sound : Sound p M
  resolving_in : ∀ e ∈ M.resolving, TypesIn e.2 M
  collecting_in : ∀ t ∈ M.collecting, TypeIn t M
  looksFor : ∀ key, M.LooksFor key ↔ key ∈ marks
  unanswered : ∀ key ∈ marks, ∀ answer, ¬ M.Remembers key answer

/-- Every symbol of a member is owned by a type whose members are remembered or being collected. -/
def Memory.Claimed (p : Program) (M : Memory) : Prop :=
  ∀ (s : SymbolId) sym, M.symbols[s]? = some sym → sym.kind.IsMember →
    ∃ t, M.Owns p t sym ∧ (t ∈ M.collecting ∨ M.members.lookup t ≠ none)

/-- A memory that looks for certain things and remembers founded answers. -/
structure InStep (p : Program) (marks : List Key) (M : Memory) : Prop
    extends Seeking p marks M where
  aliases_in : ∀ e ∈ M.aliases, TypesIn e.1.2 M
  members_in : ∀ e ∈ M.members, TypeIn e.1 M
  founded : M.Founded p
  claimed : M.Claimed p

section Memories

variable {M M' : Memory} {marks : List Key}

/-- What is marked gets no answer. -/
theorem Adds.lookup_of_mem [BEq α] [LawfulBEq α] {marked : List α} {old new : List (α × β)}
    (h : Adds marked old new) {key : α} (hkey : key ∈ marked) :
    new.lookup key = old.lookup key := by
  obtain ⟨added, rfl, hadded⟩ := h
  have hnone : added.lookup key = none := by
    rw [List.lookup_eq_none_iff]
    intro e he
    have hne : e.1 ≠ key := fun heq => (hadded e he).1 (heq ▸ hkey)
    simpa using Ne.symm hne
  rw [List.lookup_append, hnone, Option.none_or]

/-- After a step that is done, a memory looks for the same. -/
theorem Seeking.later (h : Seeking p marks M) (hM' : Sound p M') (hE : M.Extends M')
    (hR : M.Resumes M') : Seeking p marks M' where
  sound := hM'
  resolving_in e he := by
    rw [hR.resolving] at he
    exact (h.resolving_in e he).mono hE
  collecting_in t ht := by
    rw [hR.collecting] at ht
    exact (h.collecting_in t ht).mono hE
  looksFor key := by
    refine ⟨fun hlooks => (h.looksFor key).1 ?_, fun hkey => ?_⟩
    · cases hlooks with
      | value hn => exact .value (hR.inferring ▸ hn)
      | @synonym decl args _ ha =>
        rw [hR.resolving] at ha
        rw [h.sound.trees_mono hE (h.resolving_in _ ha)]
        exact .synonym (h.resolving_in _ ha) ha
      | @members t _ ht =>
        rw [hR.collecting] at ht
        rw [h.sound.tree_mono hE (h.collecting_in t ht)]
        exact .members (h.collecting_in t ht) ht
    · exact h.sound.looksFor_mono hE hR.inferring hR.resolving hR.collecting
        ((h.looksFor key).2 hkey)
  unanswered key hkey answer hanswer := by
    cases (h.looksFor key).2 hkey with
    | value hn =>
      obtain ⟨t, ht, -⟩ := remembers_value_iff.1 hanswer
      rw [hR.nodeTypes.lookup_of_mem hn] at ht
      exact h.unanswered _ hkey _ (.value ht)
    | @synonym decl args hargs ha =>
      rw [← h.sound.trees_mono hE hargs] at hanswer
      obtain ⟨t, ht, -⟩ := (hM'.remembers_synonym_iff (hargs.mono hE)).1 hanswer
      rw [hR.aliases.lookup_of_mem ha] at ht
      exact h.unanswered _ hkey _ (.synonym hargs ht)
    | @members t ht hc =>
      rw [← h.sound.tree_mono hE ht] at hanswer
      obtain ⟨found, hfound, -⟩ := (hM'.remembers_members_iff (ht.mono hE)).1 hanswer
      rw [hR.members.lookup_of_mem hc] at hfound
      exact h.unanswered _ hkey _ (.members ht hfound)

theorem Memory.Claimed.grows {own : Option TypeId} (h : M.Claimed p) (hg : M.Grows p own M')
    (hown : ∀ t, own = some t → t ∈ M.collecting) : M'.Claimed p := by
  intro s sym hs hk
  rcases hg.members s sym hs hk with hold | ⟨t, ht, hnew⟩
  · obtain ⟨t, ht, hclaim⟩ := h s sym hold hk
    refine ⟨t, ht.mono hg.tables, hclaim.imp (fun hc => ?_) fun hm => ?_⟩
    · rwa [hg.resumes.collecting]
    · obtain ⟨symbols, hsymbols⟩ := Option.ne_none_iff_exists'.1 hm
      rw [hg.resumes.members.lookup hsymbols]
      exact Option.some_ne_none symbols
  · refine ⟨t, ht, hnew.imp (fun ho => ?_) fun hm => hm.2⟩
    rw [hg.resumes.collecting]
    exact hown t ho

/-- Two memories remember the same handles. -/
structure SameAnswers (M M' : Memory) : Prop where
  members : M'.members = M.members
  aliases : M'.aliases = M.aliases
  nodeTypes : M'.nodeTypes = M.nodeTypes

/-- A memory whose tables have grown remembers the same. -/
theorem InStep.remembers_of_same (h : InStep p marks M) (hE : M.Extends M')
    (hsame : SameAnswers M M') {key : Key} {answer : Answer} (hanswer : M'.Remembers key answer) :
    M.Remembers key answer := by
  cases hanswer with
  | value ht =>
    rw [hsame.nodeTypes] at ht
    rw [h.sound.tree_mono hE (h.sound.nodeTypes _ (mem_of_lookup ht))]
    exact .value ht
  | synonym _ ht =>
    rw [hsame.aliases] at ht
    have hargs := h.aliases_in _ (mem_of_lookup ht)
    rw [h.sound.tree_mono hE (h.sound.aliases _ (mem_of_lookup ht)), h.sound.trees_mono hE hargs]
    exact .synonym hargs ht
  | members _ hf =>
    rw [hsame.members] at hf
    have ht := h.members_in _ (mem_of_lookup hf)
    rw [h.sound.tree_mono hE ht, h.sound.symbolTrees_mono hE fun s hs =>
      ((h.sound.members _ (mem_of_lookup hf)).1 s hs).symbolIn]
    exact .members ht hf

/-- A step that only adds to the tables. -/
theorem InStep.tables {own : Option TypeId} (h : InStep p marks M) (hM' : Sound p M')
    (hg : M.Grows p own M') (hown : ∀ t, own = some t → t ∈ M.collecting)
    (hsame : SameAnswers M M') : InStep p marks M' where
  toSeeking := h.toSeeking.later hM' hg.tables hg.resumes
  aliases_in e he := by
    rw [hsame.aliases] at he
    exact (h.aliases_in e he).mono hg.tables
  members_in e he := by
    rw [hsame.members] at he
    exact (h.members_in e he).mono hg.tables
  founded key answer hanswer := h.founded key answer (h.remembers_of_same hg.tables hsame hanswer)
  claimed := h.claimed.grows hg hown

end Memories

/-! ### The symbols of the type whose members are collected -/

/-- The members of enums are no bindings, and each is in the body of one enum. -/
structure EnumMembersApart (p : Program) : Prop where
  not_binding : ∀ d, IsEnumMember p d → ¬ IsBinding p d
  one_body : ∀ {d d' b b' node}, p.field? d "body" = some b → p.field? d' "body" = some b' →
    p.kind d = "enum_declaration" → p.kind d' = "enum_declaration" →
    node ∈ p.namedChildren b → node ∈ p.namedChildren b' → d = d'

/-- The key of the symbol of a member of a type. -/
inductive MemberKey (p : Program) (M : Memory) (t : TypeId) : SymbolKey → Prop
  | property (name : String) : MemberKey p M t (.property t name)
  | enumMember {node : NodeId} {r : SymbolId} (hnode : IsEnumMember p node)
    (ht : M.dataOf t = .enum r) (hr : M.EnumNode p r node) : MemberKey p M t (.decl node)

/-- The symbol of a member of a type is owned by that type. -/
theorem MemberKey.owner {M : Memory} {t u : TypeId} {sym : Symbol} (hp : EnumMembersApart p)
    (hM : Sound p M) (h : MemberKey p M t sym.key) (hsym : SymbolFits p M sym) :
    sym.kind.IsMember ∧ (M.Owns p u sym → u = t) := by
  unfold SymbolFits at hsym
  generalize hkey : sym.key = key at h hsym
  cases h with
  | property name =>
    obtain ⟨-, decl, source, isOptional, hk, -⟩ := hsym
    rw [hk]
    refine ⟨trivial, ?_⟩
    rintro (⟨_, _, _, ho⟩ | ⟨_, _, _, ho, -⟩)
    · rw [hk] at ho
      cases ho
      rfl
    · rw [hk] at ho
      cases ho
  | @enumMember node r hnode ht hr =>
    obtain ⟨-, value, hk, -⟩ := hsym.resolve_left fun h => hp.not_binding node hnode h.1
    rw [hk]
    refine ⟨trivial, ?_⟩
    rintro (⟨_, _, _, ho⟩ | ⟨_, _, r', ho, hu, hr'⟩)
    · rw [hk] at ho
      cases ho
    · rw [hk] at ho
      cases ho
      -- the two enums have the node in their bodies, so they are one
      obtain ⟨decl, body, hdecl, hbody, hmem⟩ := hr
      obtain ⟨decl', body', hdecl', hbody', hmem'⟩ := hr'
      have ht' := Memory.getElem?_of_dataOf ht TypeData.noConfusion
      have hu' := Memory.getElem?_of_dataOf hu TypeData.noConfusion
      obtain ⟨d, hd, hkd⟩ := hM.types t _ ht'
      obtain ⟨d', hd', hkd'⟩ := hM.types u _ hu'
      cases hd.symm.trans (hM.declared hdecl)
      cases hd'.symm.trans (hM.declared hdecl')
      cases hp.one_body hbody hbody' hkd hkd' hmem hmem'
      cases hM.keys_once _ _ _ hd hd'
      exact hM.types_once u t _ hu' ht'

/-- Keys of the symbols of a member of a type. -/
inductive OwnKey (p : Program) (M : Side → Memory) (o : Side → TypeId) : (Side → SymbolKey) → Prop
  | property (name : String) : OwnKey p M o fun s => .property (o s) name
  | enumMember (node : NodeId) (h : ∀ s, MemberKey p (M s) (o s) (.decl node)) :
    OwnKey p M o fun _ => .decl node

/-- Both runs collect the members of a type, and have alike symbols for them. -/
structure Owned (p : Program) (M : Side → Memory) (o : Side → TypeId) : Prop where
  collecting : ∀ s, o s ∈ (M s).collecting
  alike : AlikeType o M
  symbols : ∀ key, OwnKey p M o key → (∀ s r, (M s).keyOf? r ≠ some (key s)) ∨
    ∃ r : Side → SymbolId, (∀ s, (M s).keyOf? (r s) = some (key s)) ∧ AlikeSymbol r M

section Owned

variable {M M' : Side → Memory} {o : Side → TypeId} {key : Side → SymbolKey}

theorem OwnKey.memberKey (h : OwnKey p M o key) (s : Side) : MemberKey p (M s) (o s) (key s) := by
  cases h with
  | property name => exact .property name
  | enumMember node h => exact h s

theorem OwnKey.eq_of_eq (h : OwnKey p M o key) {key' : Side → SymbolKey} (h' : OwnKey p M o key')
    {s : Side} (heq : key s = key' s) : key = key' := by
  cases h with
  | property name =>
    cases h' with
    | property name' => rw [(SymbolKey.property.inj heq).2]
    | enumMember _ _ => cases heq
  | enumMember node _ =>
    cases h' with
    | property _ => cases heq
    | enumMember node' _ => rw [SymbolKey.decl.inj heq]

/-- The keys of members of a type do not become more. -/
theorem OwnKey.earlier (hE : Onward p M M') (ho : ∀ s, TypeIn (o s) (M s))
    (h : OwnKey p M' o key) : OwnKey p M o key := by
  cases h with
  | property name => exact .property name
  | enumMember node h =>
    refine .enumMember node fun s => ?_
    generalize hkey : SymbolKey.decl node = key at h
    cases h s with
    | property name => cases hkey
    | @enumMember node' r hnode ht hr =>
      cases hkey
      rw [(hE.tables s).dataOf_eq (ho s)] at ht
      have hr' : SymbolIn r (M s) :=
        (hE.sound s).symbols_of (ho s) r (by rw [ht]; exact List.mem_singleton_self r)
      obtain ⟨decl, body, hdecl, hrest⟩ := hr
      rw [(hE.tables s).symbolOf_eq hr'] at hdecl
      exact .enumMember hnode ht ⟨decl, body, hdecl, hrest⟩

/-- Steps that collect the members of other types. -/
theorem Owned.grow (hp : EnumMembersApart p) (h : Owned p M o) (hE : Onward p M M')
    (hM' : ∀ s, Sound p (M' s)) (hg : ∀ s, (M s).Grows p none (M' s)) : Owned p M' o where
  collecting s := by
    rw [(hg s).resumes.collecting]
    exact h.collecting s
  alike := h.alike.mono hE
  symbols key hkey := by
    rcases h.symbols key (hkey.earlier hE h.alike.1) with hnone | ⟨r, hr, halike⟩
    · refine Or.inl fun s r hr => ?_
      obtain ⟨sym, hsym, hk⟩ := Option.map_eq_some_iff.1 hr
      have hmember := hkey.memberKey s
      rw [← hk] at hmember
      have hfits := (hM' s).symbols r sym hsym
      have howner := fun u => hmember.owner (u := u) hp (hM' s) hfits
      have hnew : (M s).symbols[r]? ≠ some sym := fun hold =>
        hnone s r (Option.map_eq_some_iff.2 ⟨sym, hold, hk⟩)
      obtain ⟨u, hne, hu⟩ := (hg s).not_owns (h.collecting s) hsym (howner (o s)).1 hnew
      exact hne ((howner u).2 hu)
    · exact Or.inr ⟨r, fun s => (hE.tables s).keyOf? (hr s), halike.mono hE⟩

end Owned

/-! ### The course of a known run -/

/-- A lookup of `key` has an answer, in every memory that looks for `marks` and remembers founded
answers, once its steps may nest deep enough. -/
def Finds (p : Program) (marks : List Key) (key : Key) (answer : Answer) : Prop :=
  ∀ M (l : Lookup), InStep p marks M → l.Fits p M → l.key M = key → ∃ found M',
    (∀ᶠ n in atTop, (l.run p (calls p n)).run M = some (found, M')) ∧ InStep p marks M' ∧
      l.answer M' found = answer

/-- The course of a known run: the memory at its end, and what the two runs are looking for all
along. All that the known run remembers at its end is found in the shared memories. -/
structure Course (p : Program) where
  final : Memory
  marks : Side → List Key
  marks_subset : marks .known ⊆ marks .shared
  apart : EnumMembersApart p
  found : ∀ {key answer}, final.Remembers key answer →
    key ∉ marks .shared ∧ Finds p (marks .shared) key answer

/-- The memories of a known run and of a shared one, in the course of which the members of `own` may
be collected. -/
structure Tied (C : Course p) (own : Side → Option TypeId) (M : Side → Memory) : Prop where
  known : Seeking p (C.marks .known) (M .known)
  shared : InStep p (C.marks .shared) (M .shared)
  own : ∀ o : Side → TypeId, (own = fun s => some (o s)) → Owned p M o

/-- From tied memories, a run with certain steps is followed by runs in the shared memory, once
their steps may nest deep enough: these come to an end with values in a relation to that of the
known run. -/
def Follows (C : Course p) (own : Side → Option TypeId) (steps : Calls)
    (x : Side → Calls → Resolve α) (M : Side → Memory)
    (P : (Side → α) → (Side → Memory) → Prop) : Prop :=
  Tied C own M → ∀ a N, (x .known steps).run (M .known) = some (a, N) → N.Within C.final →
    ∃ b M', b .known = a ∧ M' .known = N ∧
      (∀ᶠ n in atTop, (x .shared (calls p n)).run (M .shared) = some (b .shared, M' .shared)) ∧
      Tied C own M' ∧ Onward p M M' ∧ P b M'

variable {C : Course p} {own : Side → Option TypeId} {steps : Calls} {M M' : Side → Memory}
  {P : (Side → α) → (Side → Memory) → Prop} {Q : (Side → β) → (Side → Memory) → Prop}

theorem Tied.sound (h : Tied C own M) : ∀ s, Sound p (M s) :=
  Side.forall_iff.2 ⟨h.known.sound, h.shared.sound⟩

theorem onward_refl (hM : ∀ s, Sound p (M s)) : Onward p M M := ⟨hM, fun s => .refl (M s)⟩

/-- Steps that only add to the tables, and no symbols of members. -/
theorem Tied.tables (h : Tied C own M) (hM' : ∀ s, Sound p (M' s))
    (hg : ∀ s, (M s).Grows p none (M' s)) (hsame : ∀ s, SameAnswers (M s) (M' s)) :
    Tied C own M' ∧ Onward p M M' := by
  have hE : Onward p M M' := ⟨h.sound, fun s => (hg s).tables⟩
  refine ⟨⟨?_, ?_, fun o ho => (h.own o ho).grow C.apart hE hM' hg⟩, hE⟩
  · exact h.known.later (hM' _) (hg _).tables (hg _).resumes
  · exact h.shared.tables (hM' _) (hg _) (fun t ht => by cases ht) (hsame _)

section Rules

theorem follows_of_run {x : Side → Calls → Resolve α} {b : Side → α}
    (hrun : ∀ s c, (x s c).run (M s) = some (b s, M' s))
    (hM' : Tied C own M → Tied C own M' ∧ Onward p M M') (hb : P b M') :
    Follows C own steps x M P := by
  intro hM a N h _
  rw [hrun] at h
  cases h
  exact ⟨b, M', rfl, rfl, Eventually.of_forall fun n => hrun _ _, (hM' hM).1, (hM' hM).2, hb⟩

/-- A run that only reads the memories. -/
theorem follows_reads {x : Side → Calls → Resolve α} {b : Side → α}
    (h : ∀ s c, Reads (x s c) (M s) (b s)) (hb : P b M) : Follows C own steps x M P :=
  follows_of_run h (fun hM => ⟨hM, onward_refl hM.sound⟩) hb

theorem follows_pure {a : Side → α} (h : P a M) : Follows C own steps (fun s _ => pure (a s)) M P :=
  follows_reads (fun _ _ => rfl) h

/-- What follows may rest on the memories being tied. -/
theorem follows_of_tied {x : Side → Calls → Resolve α}
    (h : Tied C own M → Follows C own steps x M P) : Follows C own steps x M P :=
  fun hM => h hM hM

theorem Follows.bind_of_widens {x : Side → Calls → Resolve α} {f : Side → Calls → α → Resolve β}
    (hx : Follows C own steps x M P)
    (hf : ∀ b M', Onward p M M' → P b M' → Follows C own steps (fun s c => f s c (b s)) M' Q)
    (hg : ∀ a, Widens (f .known steps a)) :
    Follows C own steps (fun s c => x s c >>= f s c) M Q := by
  intro hM a N h hN
  obtain ⟨a₁, N₁, h₁, h₂⟩ := run_bind_eq_some h
  have hN₁ : N₁.Within C.final := ((hg a₁).within h₂).trans hN
  obtain ⟨b, M₁, rfl, rfl, hev, hM₁, hE₁, hb⟩ := hx hM a₁ N₁ h₁ hN₁
  obtain ⟨b', M₂, hb', hM₂, hev', htied, hE₂, hQ⟩ := hf b M₁ hE₁ hb hM₁ a N h₂ hN
  refine ⟨b', M₂, hb', hM₂, ?_, htied, hE₁.trans hE₂, hQ⟩
  filter_upwards [hev, hev'] with n hn hn'
  rw [StateT.run_bind, hn]
  exact hn'

theorem Follows.bind_of_growing {x : Side → Calls → Resolve α}
    {f : Side → Calls → α → Resolve β} (hx : Follows C own steps x M P)
    (hf : ∀ b M', Onward p M M' → P b M' → Follows C own steps (fun s c => f s c (b s)) M' Q)
    (hg : ∀ a, Growing p (own .known) (f .known steps a)) :
    Follows C own steps (fun s c => x s c >>= f s c) M Q :=
  hx.bind_of_widens hf fun a => (hg a).widens

theorem Follows.bind {x : Side → Calls → Resolve α} {f : Side → Calls → α → Resolve β}
    (hx : Follows C own steps x M P)
    (hf : ∀ b M', Onward p M M' → P b M' → Follows C own steps (fun s c => f s c (b s)) M' Q)
    [hg : ∀ a, Growing p (own .known) (f .known steps a)] :
    Follows C own steps (fun s c => x s c >>= f s c) M Q :=
  hx.bind_of_growing hf hg

theorem Follows.imp {x : Side → Calls → Resolve α} {R : (Side → α) → (Side → Memory) → Prop}
    (hx : Follows C own steps x M P)
    (h : ∀ b M', Onward p M M' → (∀ s, Sound p (M' s)) → P b M' → R b M') :
    Follows C own steps x M R := by
  intro hM a N hrun hN
  obtain ⟨b, M', hb, hM', hev, htied, hE, hP⟩ := hx hM a N hrun hN
  exact ⟨b, M', hb, hM', hev, htied, hE, h b M' hE htied.sound hP⟩

/-- A computation that runs like another one in the memories at hand. -/
theorem Follows.congr {x y : Side → Calls → Resolve α} (hy : Follows C own steps y M P)
    (h : ∀ s c, (x s c).run (M s) = (y s c).run (M s)) : Follows C own steps x M P := by
  intro hM a N hrun hN
  rw [h] at hrun
  obtain ⟨b, M', hb, hM', hev, hrest⟩ := hy hM a N hrun hN
  exact ⟨b, M', hb, hM', hev.mono fun n hn => (h _ _).trans hn, hrest⟩

theorem follows_dataOf_bind {t : Side → TypeId} {f : Side → Calls → TypeData → Resolve β}
    (ht : AlikeType t M)
    (hf : ∀ d, AlikeData p M d → (∀ s, (M s).dataOf (t s) = d s) →
      Follows C own steps (fun s c => f s c (d s)) M Q) :
    Follows C own steps (fun s c => data (t s) >>= f s c) M Q :=
  follows_of_tied fun hM => (hf _ (ht.data hM.sound) fun _ => rfl).congr fun _ _ => rfl

theorem follows_data_bind {t : Side → TypeId} {f : Side → Calls → TypeData → Resolve β}
    (ht : AlikeType t M)
    (hf : ∀ d, AlikeData p M d → Follows C own steps (fun s c => f s c (d s)) M Q) :
    Follows C own steps (fun s c => data (t s) >>= f s c) M Q :=
  follows_dataOf_bind ht fun d hd _ => hf d hd

theorem follows_symbol_bind {r : Side → SymbolId} {f : Side → Calls → Symbol → Resolve β}
    (hr : AlikeSymbol r M)
    (hf : ∀ sym, AlikeEntry M sym → (∀ s, (M s).symbolOf (r s) = sym s) →
      Follows C own steps (fun s c => f s c (sym s)) M Q) :
    Follows C own steps (fun s c => symbol (r s) >>= f s c) M Q :=
  follows_of_tied fun hM =>
    (hf _ (hr.entry hM.sound) fun _ => rfl).congr fun _ _ => rfl

/-- A loop over a list, with steps that follow each other. -/
theorem follows_mapM_of_widens {f : Side → Calls → γ → Resolve β}
    (mono : ∀ {b M M'}, Q b M → Onward p M M' → Q b M') (l : List γ)
    (hf : ∀ a ∈ l, ∀ M', Onward p M M' → Follows C own steps (fun s c => f s c a) M' Q)
    (hg : ∀ a, Widens (f .known steps a)) :
    Follows C own steps (fun s c => l.mapM (f s c)) M (Each Q) := by
  induction l generalizing M with
  | nil =>
    simp only [List.mapM_nil]
    exact follows_pure (a := fun _ => []) ⟨[], rfl, fun _ h => absurd h List.not_mem_nil⟩
  | cons a l ih =>
    simp only [List.mapM_cons]
    refine follows_of_tied fun hM =>
      (hf a List.mem_cons_self M (onward_refl hM.sound)).bind_of_widens ?_ fun b =>
        (Widens.mapM hg l).bind fun bs => widens_pure (b :: bs)
    intro b M₁ h₁ hb
    refine (ih fun a' ha M' hE => hf a' (List.mem_cons_of_mem _ ha) M' (h₁.trans hE)).bind ?_
    rintro _ M₂ h₂ ⟨each, rfl, heach⟩
    have hall : Each Q (fun s => b s :: each.map (· s)) M₂ :=
      ⟨b :: each, rfl, List.forall_mem_cons.2 ⟨mono hb h₂, heach⟩⟩
    exact follows_pure hall

theorem follows_mapM {f : Side → Calls → γ → Resolve β}
    (mono : ∀ {b M M'}, Q b M → Onward p M M' → Q b M') (l : List γ)
    (hf : ∀ a ∈ l, ∀ M', Onward p M M' → Follows C own steps (fun s c => f s c a) M' Q)
    [hg : ∀ a, Growing p (own .known) (f .known steps a)] :
    Follows C own steps (fun s c => l.mapM (f s c)) M (Each Q) :=
  follows_mapM_of_widens (Q := Q) mono l hf fun a => (hg a).widens

/-- A fold over a list with an invariant. -/
theorem follows_foldlM_of_growing {f : Side → Calls → β → γ → Resolve β} (l : List γ)
    {b : Side → β} (hb : Q b M)
    (hf : ∀ b, ∀ a ∈ l, ∀ M', Onward p M M' → Q b M' →
      Follows C own steps (fun s c => f s c (b s) a) M' Q)
    (hg : ∀ b a, Growing p (own .known) (f .known steps b a)) :
    Follows C own steps (fun s c => l.foldlM (f s c) (b s)) M Q := by
  induction l generalizing M b with
  | nil => exact follows_pure hb
  | cons a l ih =>
    simp only [List.foldlM_cons]
    refine follows_of_tied fun hM =>
      (hf b a List.mem_cons_self M (onward_refl hM.sound) hb).bind ?_
    intro b' M₁ h₁ hb'
    exact ih hb' fun b'' a' ha M' hE => hf b'' a' (List.mem_cons_of_mem _ ha) M' (h₁.trans hE)

theorem follows_foldlM {f : Side → Calls → β → γ → Resolve β} (l : List γ) {b : Side → β}
    (hb : Q b M)
    (hf : ∀ b, ∀ a ∈ l, ∀ M', Onward p M M' → Q b M' →
      Follows C own steps (fun s c => f s c (b s) a) M' Q)
    [hg : ∀ b a, Growing p (own .known) (f .known steps b a)] :
    Follows C own steps (fun s c => l.foldlM (f s c) (b s)) M Q :=
  follows_foldlM_of_growing l hb hf hg

/-- Steps that nest one deeper. -/
theorem Follows.deeper {x y : Side → Calls → Resolve α} {bound : Nat}
    (hy : Follows C own (calls p bound) y M P)
    (h : ∀ s n, x s (calls p (n + 1)) = y s (calls p n)) :
    Follows C own (calls p (bound + 1)) x M P := by
  intro hM a N hrun hN
  rw [h] at hrun
  obtain ⟨b, M', hb, hM', hev, hrest⟩ := hy hM a N hrun hN
  refine ⟨b, M', hb, hM', ?_, hrest⟩
  filter_upwards [(tendsto_sub_atTop_nat 1).eventually hev, eventually_ge_atTop 1] with n hn h1
  obtain ⟨m, rfl⟩ := Nat.exists_eq_add_of_le' h1
  rw [h]
  exact hn

end Rules

end RouteContract.Types
