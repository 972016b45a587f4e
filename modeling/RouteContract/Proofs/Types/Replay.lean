import Mathlib
import RouteContract.Proofs.Types.Handles

/-!
# Answers that are found again

What a query found is found again by the same query in every later memory, which it leaves as it
is. `Repeats p x M P` says so of a computation `x` from a memory `M` in which nothing is looked for,
next to what `Keeps` says. Evaluation is not remembered, and is done again from tables and answers
that have grown meanwhile; but each step that is guarded by a mark was remembered by its end, and
from a memory in which nothing is looked for no guard stops a step. So the rules for putting
computations together are those of `Keeps`, except that data is only read of handles that are in the
tables.
-/

namespace RouteContract.Types

variable {p : Program} {M M' : Memory} {α β : Type}

/-- From a sound memory in which nothing is looked for, a computation leaves a later sound memory
and a result in a set, and gives the same result in every memory that has all that it left. -/
def Repeats (p : Program) (x : Resolve α) (M : Memory) (P : α → Memory → Prop) : Prop :=
  Sound p M → M.Idle → ∀ a M', x.run M = some (a, M') →
    (Sound p M' ∧ (M.Extends M' ∧ M.Resumes M') ∧ P a M') ∧
      ∀ K, Sound p K → M'.Within K → Reads x K a

section Rules

variable {P : α → Memory → Prop} {Q : β → Memory → Prop}

theorem repeats_pure {a : α} (h : P a M) : Repeats p (pure a) M P := by
  rintro hM - _ _ ⟨⟩
  exact ⟨⟨hM, ⟨.refl M, .refl M⟩, h⟩, fun K _ _ => reads_pure a⟩

theorem repeats_exhausted : Repeats p exhausted M P := by
  intro _ _ a M' h
  simp [exhausted, StateT.run] at h

/-- A computation that reads the same from every memory with these tables. -/
theorem repeats_reads {x : Resolve α} {a : α} (h : ∀ K, M.Extends K → Reads x K a) (ha : P a M) :
    Repeats p x M P := by
  intro hM _ a' M' hrun
  rw [h M (.refl M)] at hrun
  cases hrun
  exact ⟨⟨hM, ⟨.refl M, .refl M⟩, ha⟩, fun K _ hwithin => h K hwithin.tables⟩

/-- A computation that keeps the memory sound, and whose result can be read off what it left. -/
theorem Keeps.repeats {x : Resolve α} (h : Keeps p x M P)
    (hx : Sound p M → M.Idle → ∀ a M', x.run M = some (a, M') → P a M' →
      ∀ K, Sound p K → M'.Within K → Reads x K a) : Repeats p x M P := by
  intro hM hidle a M' hrun
  have hkept := ensures_option_iff.1 (h hM) a M' hrun
  exact ⟨hkept, hx hM hidle a M' hrun hkept.2.2⟩

theorem run_bind_eq_some {x : Resolve α} {f : α → Resolve β} {b : β}
    (h : (x >>= f).run M = some (b, M')) :
    ∃ a M₁, x.run M = some (a, M₁) ∧ (f a).run M₁ = some (b, M') := by
  rw [StateT.run_bind] at h
  obtain ⟨⟨a, M₁⟩, hx, hf⟩ := Option.bind_eq_some_iff.1 h
  exact ⟨a, M₁, hx, hf⟩

theorem Repeats.bind {x : Resolve α} {f : α → Resolve β} (hx : Repeats p x M P)
    (hf : ∀ a M', M.Extends M' → P a M' → Repeats p (f a) M' Q) : Repeats p (x >>= f) M Q := by
  intro hM hidle b M₂ hrun
  obtain ⟨a, M₁, hrun₁, hrun₂⟩ := run_bind_eq_some hrun
  obtain ⟨⟨hM₁, hE₁, ha⟩, hagain₁⟩ := hx hM hidle a M₁ hrun₁
  obtain ⟨⟨hM₂, hE₂, hb⟩, hagain₂⟩ :=
    hf a M₁ hE₁.1 ha hM₁ (hidle.resumes hE₁.2) b M₂ hrun₂
  refine ⟨⟨hM₂, ⟨hE₁.1.trans hE₂.1, hE₁.2.trans hE₂.2⟩, hb⟩, fun K hK hwithin => ?_⟩
  -- what the first step left is there at the end
  have hwithin₁ := (Memory.within_of_resumes hE₂.1 hE₂.2).trans hwithin
  exact (hagain₁ K hK hwithin₁).bind (hagain₂ K hK hwithin)

theorem Repeats.imp {R : α → Memory → Prop} {x : Resolve α} (hx : Repeats p x M P)
    (h : ∀ a M', Sound p M' → M.Extends M' → P a M' → R a M') : Repeats p x M R := by
  intro hM hidle a M' hrun
  obtain ⟨⟨hM', hE, ha⟩, hagain⟩ := hx hM hidle a M' hrun
  exact ⟨⟨hM', hE, h a M' hM' hE.1 ha⟩, hagain⟩

theorem repeats_of_sound {x : Resolve α} (h : Sound p M → Repeats p x M P) : Repeats p x M P :=
  fun hM => h hM hM

theorem repeats_mapM {f : α → Resolve β} (mono : ∀ {b M M'}, Q b M → M.Extends M' → Q b M')
    (l : List α) (hf : ∀ a ∈ l, ∀ M', M.Extends M' → Repeats p (f a) M' Q) :
    Repeats p (l.mapM f) M fun bs M' => ∀ b ∈ bs, Q b M' := by
  induction l generalizing M with
  | nil =>
    rw [List.mapM_nil]
    exact repeats_pure (by simp)
  | cons a l ih =>
    rw [List.mapM_cons]
    refine (hf a (by simp) M (.refl M)).bind fun b M₁ h₁ hb => ?_
    refine (ih fun a' ha M' hE => hf a' (by simp [ha]) M' (h₁.trans hE)).bind
      fun bs M₂ h₂ hbs => repeats_pure ?_
    exact List.forall_mem_cons.2 ⟨mono hb h₂, hbs⟩

theorem repeats_foldlM {f : β → α → Resolve β} (l : List α) {b : β} (hb : Q b M)
    (hf : ∀ b, ∀ a ∈ l, ∀ M', M.Extends M' → Q b M' → Repeats p (f b a) M' Q) :
    Repeats p (l.foldlM f b) M Q := by
  induction l generalizing M b with
  | nil => exact repeats_pure hb
  | cons a l ih =>
    rw [List.foldlM_cons]
    refine (hf b a (by simp) M (.refl M) hb).bind fun b' M₁ h₁ hb' => ?_
    exact ih hb' fun b'' a' ha M' hE => hf b'' a' (by simp [ha]) M' (h₁.trans hE)

end Rules

/-! ### The tables -/

theorem Memory.Extends.dataOf_eq (hE : M.Extends M') {t : TypeId} (ht : TypeIn t M) :
    M'.dataOf t = M.dataOf t := by
  have h := Array.getElem?_eq_getElem ht
  rw [dataOf_of_getElem? (hE.types t _ h), dataOf_of_getElem? h]

theorem repeats_data_bind {t : TypeId} (ht : TypeIn t M) {f : TypeData → Resolve β}
    {Q : β → Memory → Prop} (h : Repeats p (f (M.dataOf t)) M Q) :
    Repeats p (data t >>= f) M Q := by
  intro hM hidle b M' hrun
  obtain ⟨hkept, hagain⟩ := h hM hidle b M' hrun
  refine ⟨hkept, fun K hK hwithin => ?_⟩
  have hdata : K.dataOf t = M.dataOf t := (hkept.2.1.1.trans hwithin.tables).dataOf_eq ht
  exact (reads_data t).bind (hdata ▸ hagain K hK hwithin)

theorem repeats_symbol_bind {s : SymbolId} (hs : SymbolIn s M) {f : Symbol → Resolve β}
    {Q : β → Memory → Prop} (h : Repeats p (f (M.symbolOf s)) M Q) :
    Repeats p (symbol s >>= f) M Q := by
  intro hM hidle b M' hrun
  obtain ⟨hkept, hagain⟩ := h hM hidle b M' hrun
  refine ⟨hkept, fun K hK hwithin => ?_⟩
  have hsymbol : K.symbolOf s = M.symbolOf s := (hkept.2.1.1.trans hwithin.tables).symbolOf hs
  have hreads : Reads (symbol s) K (M.symbolOf s) := hsymbol ▸ rfl
  exact hreads.bind (hagain K hK hwithin)

theorem repeats_data {t : TypeId} (ht : TypeIn t M) : Repeats p (data t) M fun _ _ => True := by
  have h := repeats_data_bind (p := p) (f := pure) (Q := fun _ _ => True) ht (repeats_pure trivial)
  rwa [bind_pure] at h

theorem repeats_intern {d : TypeData} (hd : Fits p M M.types.size d) :
    Repeats p (intern d) M fun t M' => M'.types[t]? = some d :=
  (keeps_intern hd).repeats fun _ _ t _ _ ht _ hK hwithin =>
    hK.run_intern (hwithin.tables.types t d ht)

theorem repeats_type {d : TypeData} (hd : Fits p M M.types.size d) :
    Repeats p (intern d) M TypeIn :=
  (repeats_intern hd).imp fun _ _ _ _ h => typeIn_of_getElem? h

theorem repeats_anyType : Repeats p anyType M TypeIn := repeats_type trivial

/-- A symbol that is there for a key has the handle at which it stands. -/
theorem Sound.reads_internSymbol (hM : Sound p M) {s : SymbolId} {sym : Symbol}
    (h : M.keyOf? s = some sym.key) : Reads (internSymbol sym) M s := by
  rw [Reads, internSymbol, reads_get.run_bind]
  obtain ⟨old, hold, hkey⟩ := Option.map_eq_some_iff.1 h
  split
  · next r hr =>
    obtain ⟨hlt, heq, -⟩ := Array.findIdx?_eq_some_iff_getElem.1 hr
    have hr' : M.keyOf? r = some sym.key := by
      rw [Memory.keyOf?, Array.getElem?_eq_getElem hlt, Option.map_some,
        of_decide_eq_true heq]
    rw [hM.keys_once r s _ hr' h]
    rfl
  · next hnone =>
    have hne := Array.findIdx?_eq_none_iff.1 hnone old (Array.mem_of_getElem? hold)
    simp [hkey] at hne

theorem repeats_internSymbol {sym : Symbol} (hsym : SymbolFits p M sym) :
    Repeats p (internSymbol sym) M fun s M' => M'.keyOf? s = some sym.key :=
  (keeps_internSymbol hsym).repeats fun _ _ _ _ _ hs _ hK hwithin =>
    hK.reads_internSymbol (hwithin.tables.keyOf? hs)

theorem repeats_builtinSymbol (name : String) :
    Repeats p (builtinSymbol name) M fun s M' => M'.keyOf? s = some (.builtin name) :=
  repeats_internSymbol rfl

theorem repeats_bindingSymbol {d : NodeId} (hd : IsBinding p d) :
    Repeats p (bindingSymbol p d) M fun s M' => M'.keyOf? s = some (.decl d) := by
  have hentry : SymbolFits p M (bindingEntry p d) := Or.inl ⟨hd, rfl⟩
  exact repeats_internSymbol hentry

theorem repeats_moduleSymbol (unit : Nat) : Repeats p (moduleSymbol p unit) M SymbolIn := by
  refine Repeats.imp (repeats_internSymbol ?_) fun _ _ _ _ h => symbolIn_of_keyOf? h
  rfl

theorem repeats_targetSymbol {target : Names.Target}
    (ht : ∀ d, target = .binding d → IsBinding p d) :
    Repeats p (targetSymbol p target) M SymbolIn := by
  cases target with
  | binding d =>
    exact (repeats_bindingSymbol (ht d rfl)).imp fun _ _ _ _ h => symbolIn_of_keyOf? h
  | module unit => exact repeats_moduleSymbol unit

theorem repeats_exportSymbol? (unit : Nat) (name : String) :
    Repeats p (exportSymbol? p unit name) M SymbolIn? := by
  unfold exportSymbol?
  split
  · next target h =>
    refine (repeats_targetSymbol fun d hd => Or.inr (Or.inl ⟨unit, name, hd ▸ h⟩)).bind ?_
    exact fun s M' _ hs => repeats_pure (symbolIn?_some hs)
  · exact repeats_pure symbolIn?_none

theorem repeats_followAlias? {s : SymbolId} (hs : SymbolIn s M) :
    Repeats p (followAlias? p s) M SymbolIn? := by
  refine repeats_of_sound fun hM => repeats_symbol_bind hs ?_
  split
  · next decl _ _ hk =>
    split
    · next target h =>
      have hb := (hM.imported hk).1
      refine (repeats_targetSymbol fun d hd => ?_).bind
        fun s M' _ hs => repeats_pure (symbolIn?_some hs)
      exact isBinding_of_followWithin? (fun b h => Names.Target.binding.inj h ▸ hb) (hd ▸ h)
    · exact repeats_pure symbolIn?_none
  · exact repeats_pure (symbolIn?_some hs)

/-! ### Types made of other types -/

theorem repeats_flatten {members : List TypeId} (h : TypesIn members M) :
    Repeats p (flatten members) M TypesIn := by
  refine repeats_foldlM members typesIn_nil fun flat t ht M' hE hflat => ?_
  have ht' : TypeIn t M' := (h t ht).mono hE
  refine repeats_of_sound fun hM' => repeats_data_bind ht' ?_
  split
  · next inner hd =>
    obtain ⟨-, hfits⟩ := hM'.fits hd TypeData.noConfusion
    exact repeats_pure (typesIn_foldl_addNew hflat (typesIn_of_lt ht' hfits))
  · exact repeats_pure hflat
  · exact repeats_pure (typesIn_addNew hflat ht')

/-- The union of types that are flat already. -/
theorem repeats_flatUnion {flat : List TypeId} (hflat : TypesIn flat M) : Repeats p (match flat with
    | [] => intern .never
    | [t] => pure t
    | _ => intern (.union flat)) M TypeIn := by
  split
  · exact repeats_type trivial
  · exact repeats_pure (typesIn_cons.1 hflat).1
  · exact repeats_type hflat

theorem repeats_makeUnion {members : List TypeId} (h : TypesIn members M) :
    Repeats p (makeUnion members) M TypeIn := by
  refine (repeats_flatten h).bind fun flat M₁ _ hflat => ?_
  refine (repeats_mapM (Q := fun _ _ => True) (fun _ _ => trivial) flat
    fun t ht M' hE => repeats_data ((hflat t ht).mono hE)).bind fun datas M₂ h₂ _ => ?_
  split
  · exact repeats_anyType
  refine (repeats_type (d := .booleanLit true) trivial).bind fun yes M₃ h₃ _ => ?_
  refine (repeats_type (d := .booleanLit false) trivial).bind fun no M₄ h₄ _ => ?_
  have hflat₄ := hflat.mono ((h₂.trans h₃).trans h₄)
  dsimp only
  split
  · refine (repeats_type (d := .boolean) trivial).bind fun both M₅ h₅ hb => ?_
    rw [pure_bind]
    exact repeats_flatUnion (typesIn_mergeBooleans (hflat₄.mono h₅) hb)
  · rw [pure_bind]
    exact repeats_flatUnion hflat₄

theorem repeats_makeIntersection {members : List TypeId} (h : TypesIn members M) :
    Repeats p (makeIntersection members) M TypeIn := by
  refine Repeats.bind (P := TypesIn) ?_ fun flat M₁ h₁ hflat => ?_
  · refine repeats_foldlM members typesIn_nil fun flat t ht M' hE hflat => ?_
    have ht' : TypeIn t M' := (h t ht).mono hE
    refine repeats_of_sound fun hM' => repeats_data_bind ht' ?_
    split
    · next inner hd =>
      obtain ⟨-, hfits⟩ := hM'.fits hd TypeData.noConfusion
      exact repeats_pure (typesIn_append.2 ⟨hflat, typesIn_of_lt ht' hfits⟩)
    · exact repeats_pure (typesIn_append.2 ⟨hflat, typesIn_cons.2 ⟨ht', typesIn_nil⟩⟩)
  · have hdrop : TypesIn (dropRepeats flat) M₁ := fun t ht => hflat t (mem_of_mem_dropRepeats ht)
    split
    · exact repeats_type trivial
    · next t heq =>
      rw [heq] at hdrop
      exact repeats_pure (typesIn_cons.1 hdrop).1
    · exact repeats_type hdrop

theorem repeats_widenLiteral {t : TypeId} (ht : TypeIn t M) :
    Repeats p (widenLiteral t) M TypeIn := by
  refine repeats_data_bind ht ?_
  split
  · exact repeats_type trivial
  · exact repeats_type trivial
  · exact repeats_type trivial
  · exact repeats_pure ht

theorem repeats_widen {t : TypeId} (ht : TypeIn t M) : Repeats p (widen t) M TypeIn := by
  refine repeats_of_sound fun hM => repeats_data_bind ht ?_
  split
  · next members hd =>
    have hmembers : TypesIn members M := typesIn_of_lt ht (hM.fits hd TypeData.noConfusion).2
    refine (repeats_mapM (Q := TypeIn) TypeIn.mono members fun m hm M' hE =>
      repeats_widenLiteral ((hmembers m hm).mono hE)).bind fun types M' _ h => ?_
    exact repeats_makeUnion h
  · exact repeats_widenLiteral ht

/-- Whether a type is neither `null` nor `undefined`. -/
def isPresent : TypeData → Bool
  | .null => false
  | .undefined => false
  | _ => true

theorem reads_filterM {f : α → Resolve Bool} {g : α → Bool} (h : ∀ a, Reads (f a) M (g a))
    (l : List α) : Reads (l.filterM f) M (l.filter g) := by
  have aux : ∀ l acc : List α, Reads (l.filterAuxM f acc) M ((l.filter g).reverse ++ acc) := by
    intro l
    induction l with
    | nil => exact fun acc => reads_pure acc
    | cons a l ih =>
      intro acc
      refine (h a).bind ?_
      rw [List.filter_cons]
      cases g a with
      | true =>
        rw [if_pos rfl, List.reverse_cons, List.append_assoc]
        exact ih (a :: acc)
      | false => exact ih acc
  refine (aux l []).bind ?_
  rw [List.append_nil]
  exact (reads_pure _).trans (by rw [List.reverse_reverse])

theorem reads_presentMembers (members : List TypeId) :
    Reads (presentMembers members) M (members.filter fun t => isPresent (M.dataOf t)) := by
  refine reads_filterM (fun t => (reads_data t).bind ?_) members
  cases M.dataOf t <;> exact reads_pure _

theorem repeats_presentMembers {members : List TypeId} (h : TypesIn members M) :
    Repeats p (presentMembers members) M fun present _ => present ⊆ members := by
  refine repeats_reads (fun K hE => ?_) (List.filter_sublist (p := fun t =>
    isPresent (M.dataOf t))).subset
  have hsame : members.filter (fun t => isPresent (K.dataOf t)) =
      members.filter fun t => isPresent (M.dataOf t) := by
    refine List.filter_congr fun t ht => ?_
    rw [hE.dataOf_eq (h t ht)]
  exact hsame ▸ reads_presentMembers members

theorem repeats_nonNullable {t : TypeId} (ht : TypeIn t M) :
    Repeats p (nonNullable t) M TypeIn := by
  refine repeats_of_sound fun hM => repeats_data_bind ht ?_
  split
  · next members hd =>
    have hmembers : TypesIn members M := typesIn_of_lt ht (hM.fits hd TypeData.noConfusion).2
    refine (repeats_presentMembers hmembers).bind fun present M' hE h => ?_
    exact repeats_makeUnion fun m hm => (hmembers m (h hm)).mono hE
  · exact repeats_pure ht

theorem repeats_firstArgument {args : List TypeId} {use : TypeId → Resolve TypeId}
    (h : TypesIn args M) (huse : ∀ t, TypeIn t M → Repeats p (use t) M TypeIn) :
    Repeats p (firstArgument args use) M TypeIn := by
  unfold firstArgument
  split
  · next inner hi => exact huse inner (h inner (List.mem_of_head? hi))
  · exact repeats_anyType

theorem repeats_awaited {t : TypeId} (ht : TypeIn t M) : Repeats p (awaited t) M TypeIn := by
  refine repeats_of_sound fun hM => repeats_data_bind ht ?_
  split
  · next s args hd =>
    have hargs : TypesIn args M := typesIn_of_lt ht (hM.fits hd TypeData.noConfusion).2.1
    refine repeats_symbol_bind (hM.named_symbol hd) ?_
    dsimp only
    split
    · exact repeats_firstArgument hargs fun t ht => repeats_pure ht
    · exact repeats_pure ht
  · exact repeats_pure ht

theorem repeats_builtinType (name : String) {args : List TypeId} (h : TypesIn args M) :
    Repeats p (builtinType name args) M TypeIn := by
  unfold builtinType
  split
  · exact (repeats_firstArgument h fun t ht => repeats_pure ht).bind
      fun t M' _ ht => repeats_type ht
  split
  · exact repeats_firstArgument h fun t ht => repeats_pure ht
  split
  · exact repeats_firstArgument h fun t ht => repeats_nonNullable ht
  split
  · exact repeats_firstArgument h fun t ht => repeats_awaited ht
  split
  · exact repeats_firstArgument h fun t ht =>
      (repeats_builtinSymbol "Partial").bind
        fun s M' hE hs => repeats_type ⟨rfl, ht.mono hE, hs⟩
  split
  · exact repeats_type trivial
  split
  · exact repeats_type trivial
  split
  · exact repeats_type trivial
  split
  · exact repeats_type trivial
  · exact (repeats_builtinSymbol name).bind
      fun s M' hE hs => repeats_type ⟨h.mono hE, name, hs⟩

/-! ### What is remembered -/

section Remembered

variable {calls : Calls}

/-- The type of an expression is remembered by the time it is found. -/
theorem lookup_of_run_valueType {node : NodeId} (hmark : node ∉ M.inferring) {t : TypeId}
    (h : (valueType p calls node).run M = some (t, M')) :
    M'.nodeTypes.lookup node = some t := by
  rw [valueType, reads_get.run_bind] at h
  split at h
  · next known hknown =>
    cases h
    exact hknown
  · rw [if_neg fun hmem => hmark (List.contains_iff_mem.1 hmem)] at h
    obtain ⟨_, _, hset, h⟩ := run_bind_eq_some h
    cases hset
    obtain ⟨t', M₁, -, h⟩ := run_bind_eq_some h
    cases h
    exact List.lookup_cons_self

/-- The members of a type are remembered by the time they are found. -/
theorem lookup_of_run_membersOf {t : TypeId} (hmark : t ∉ M.collecting)
    {members : List SymbolId} (h : (membersOf p calls t).run M = some (members, M')) :
    M'.members.lookup t = some members := by
  rw [membersOf, reads_get.run_bind] at h
  split at h
  · next known hknown =>
    cases h
    exact hknown
  · rw [if_neg fun hmem => hmark (List.contains_iff_mem.1 hmem)] at h
    obtain ⟨_, _, hset, h⟩ := run_bind_eq_some h
    cases hset
    obtain ⟨members', M₁, -, h⟩ := run_bind_eq_some h
    cases h
    exact List.lookup_cons_self

/-- The type of an alias is remembered by the time it is found. -/
theorem lookup_of_run_knownAlias {decl : NodeId} {s : SymbolId} {args : List TypeId}
    (hmark : (decl, args) ∉ M.resolving) {t : TypeId}
    (h : (knownAlias p calls decl s args).run M = some (t, M')) :
    M'.aliases.lookup (decl, args) = some t := by
  rw [knownAlias, reads_get.run_bind] at h
  split at h
  · next known hknown =>
    cases h
    exact hknown
  · rw [if_neg fun hmem => hmark (List.contains_iff_mem.1 hmem)] at h
    obtain ⟨_, _, hset, h⟩ := run_bind_eq_some h
    cases hset
    obtain ⟨t', M₁, -, h⟩ := run_bind_eq_some h
    cases h
    exact List.lookup_cons_self

end Remembered

end RouteContract.Types
