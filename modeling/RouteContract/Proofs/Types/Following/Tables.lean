import Mathlib
import RouteContract.Proofs.Types.Following

/-!
# Following the steps that change the tables

Interning the same data in both runs gives the same type, and so do the unions, intersections and
library types that are made of the same types.
-/

namespace RouteContract.Types

variable {p : Program} {C : Course p} {own : Side → Option TypeId} {steps : Calls}
  {M M' : Side → Memory}

/-! ### Interning -/

theorem exists_intern {N : Memory} (hN : Sound p N) {d : TypeData}
    (hd : Fits p N N.types.size d) : ∃ t N', (intern d).run N = some (t, N') ∧ Sound p N' ∧
      N'.types[t]? = some d ∧ N.Grows p none N' ∧ SameAnswers N N' := by
  obtain ⟨t, N', hrun, ht, -⟩ := exists_run_intern N d
  obtain ⟨hN', -, -⟩ := ensures_option_iff.1 (keeps_intern hd hN) t N' hrun
  refine ⟨t, N', hrun, hN', ht, (growing_intern d).grows hrun, ?_⟩
  rw [run_intern_eq] at hrun
  split at hrun <;> cases hrun <;> exact ⟨rfl, rfl, rfl⟩

theorem follows_intern {d : Side → TypeData} (hd : AlikeData p M d) :
    Follows C own steps (fun s _ => intern (d s)) M AlikeType := by
  refine follows_of_tied fun hM => ?_
  choose t M' hrun hM' ht hg hsame using fun s => exists_intern (hM.sound s) (hd.fits s)
  have hE : Onward p M M' := ⟨hM.sound, fun s => (hg s).tables⟩
  have htree : ∀ s, (M' s).tree (t s) = (M' s).treeOf (d s) := fun s => by
    rw [(hM' s).tree_eq (typeIn_of_getElem? (ht s)), Memory.dataOf_of_getElem? (ht s)]
    rfl
  refine follows_of_run (fun s _ => hrun s) (fun h => h.tables hM' hg hsame)
    ⟨fun s => typeIn_of_getElem? (ht s), ?_⟩
  rw [htree, htree, (hd.mono hE).treeOf_eq]

/-- The same data without handles. -/
theorem follows_atom (d : TypeData) (hd : d.IsAtom) :
    Follows C own steps (fun _ _ => intern d) M AlikeType := follows_intern (.atom d hd)

theorem follows_anyType : Follows C own steps (fun _ _ => anyType) M AlikeType :=
  follows_atom .any trivial

theorem exists_internSymbol {N : Memory} (hN : Sound p N) {sym : Symbol}
    (hsym : SymbolFits p N sym) (hk : ¬ sym.kind.IsMember) :
    ∃ r N', (internSymbol sym).run N = some (r, N') ∧ Sound p N' ∧
      N'.keyOf? r = some sym.key ∧ N.Grows p none N' ∧ SameAnswers N N' := by
  obtain ⟨⟨r, N'⟩, hrun⟩ : ∃ result, (internSymbol sym).run N = some result := by
    rw [run_internSymbol_eq]
    split <;> exact ⟨_, rfl⟩
  obtain ⟨hN', -, hr⟩ := ensures_option_iff.1 (keeps_internSymbol hsym hN) r N' hrun
  refine ⟨r, N', hrun, hN', hr, (growing_internSymbol hk).grows hrun, ?_⟩
  rw [run_internSymbol_eq] at hrun
  split at hrun <;> cases hrun <;> exact ⟨rfl, rfl, rfl⟩

theorem follows_internSymbol {sym : Symbol} (hsym : ∀ s, SymbolFits p (M s) sym)
    (hk : ¬ sym.kind.IsMember) : Follows C own steps (fun _ _ => internSymbol sym) M
      fun r M' => ∀ s, (M' s).keyOf? (r s) = some sym.key := by
  refine follows_of_tied fun hM => ?_
  choose r M' hrun hM' hr hg hsame using fun s => exists_internSymbol (hM.sound s) (hsym s) hk
  exact follows_of_run (fun s _ => hrun s) (fun h => h.tables hM' hg hsame) hr

theorem follows_builtinSymbol (name : String) :
    Follows C own steps (fun _ _ => builtinSymbol name) M
      fun r M' => ∀ s, (M' s).keyOf? (r s) = some (.builtin name) :=
  follows_internSymbol (fun _ => rfl) fun h => h

theorem sameKey_builtin {name : String} {r : Side → SymbolId}
    (h : ∀ s, (M s).keyOf? (r s) = some (.builtin name)) : SameKey p r M :=
  ⟨.builtin name, trivial, h⟩

theorem follows_bindingSymbol {d : NodeId} (hd : IsBinding p d) :
    Follows C own steps (fun _ _ => bindingSymbol p d) M
      fun r M' => AlikeSymbol r M' ∧ ∀ s, (M' s).keyOf? (r s) = some (.decl d) := by
  have hk : ¬ (bindingEntry p d).kind.IsMember := by
    rcases bindingEntry_kind p d with h | ⟨_, _, h⟩ | ⟨_, h⟩ <;> rw [h] <;> exact fun h => h
  have hfits : ∀ s, SymbolFits p (M s) (bindingEntry p d) := fun _ => Or.inl ⟨hd, rfl⟩
  refine Follows.imp (follows_internSymbol hfits hk) fun r M' _ hM' hr => ⟨?_, hr⟩
  exact SameKey.alike hM' ⟨.decl d, fun h => C.apart.not_binding d h hd, hr⟩

/-! ### Symbols behind exports and imports -/

theorem follows_moduleSymbol (unit : Nat) :
    Follows C own steps (fun _ _ => moduleSymbol p unit) M
      fun r M' => ∀ s, (M' s).keyOf? (r s) = some (.module unit) := by
  have hfits : ∀ s, SymbolFits p (M s) ⟨.module unit, (PathName.stem? (p.unit unit).path).getD "",
    .module unit⟩ := fun _ => rfl
  exact follows_internSymbol hfits fun h => h

theorem follows_targetSymbol {target : Names.Target}
    (ht : ∀ d, target = .binding d → IsBinding p d) :
    Follows C own steps (fun _ _ => targetSymbol p target) M AlikeSymbol := by
  cases target with
  | binding d => exact (follows_bindingSymbol (ht d rfl)).imp fun r M' _ _ hr => hr.1
  | module unit =>
    exact (follows_moduleSymbol unit).imp fun r M' _ hM' hr =>
      SameKey.alike hM' ⟨.module unit, trivial, hr⟩

theorem both_none {α : Type} {R : (Side → α) → (Side → Memory) → Prop} :
    Both R (fun _ => none) M := ⟨none, rfl, fun _ h => by cases h⟩

theorem both_some {α : Type} {R : (Side → α) → (Side → Memory) → Prop} {a : Side → α}
    (h : R a M) : Both R (fun s => some (a s)) M :=
  ⟨some a, rfl, fun b hb => by cases hb; exact h⟩

theorem follows_exportSymbol? (unit : Nat) (name : String) :
    Follows C own steps (fun _ _ => exportSymbol? p unit name) M (Both AlikeSymbol) := by
  unfold exportSymbol?
  split
  · next target h =>
    refine (follows_targetSymbol fun d hd => Or.inr (Or.inl ⟨unit, name, hd ▸ h⟩)).bind ?_
    exact fun r M' _ hr => follows_pure (both_some hr)
  · exact follows_pure both_none

theorem follows_followAlias? {r : Side → SymbolId} (hr : AlikeSymbol r M) :
    Follows C own steps (fun s _ => followAlias? p (r s)) M (Both AlikeSymbol) := by
  refine follows_of_tied fun hM => follows_symbol_bind hr fun sym hsym heq => ?_
  cases hsym with
  | plain sym hk =>
    dsimp only
    split
    · next decl _ _ hkind =>
      have hb := ((hM.sound .known).imported (by rw [heq, hkind])).1
      split
      · next target h =>
        refine (follows_targetSymbol fun d hd => ?_).bind
          fun r M' _ hr => follows_pure (both_some hr)
        exact isBinding_of_followWithin? (fun b h => Names.Target.binding.inj h ▸ hb) (hd ▸ h)
      · exact follows_pure both_none
    · exact follows_pure (both_some hr)
  | property _ _ _ _ _ => exact follows_pure (both_some hr)
  | enumMember _ _ _ => exact follows_pure (both_some hr)

/-! ### Lists of types -/

section Lists

variable {l : List (Side → TypeId)} {t : Side → TypeId} (hM : ∀ s, Sound p (M s))
include hM

/-- A type is in both lists of types that are alike, or in none. -/
theorem mem_map_iff (hl : ∀ a ∈ l, AlikeType a M) (ht : AlikeType t M) (s : Side) :
    t s ∈ l.map (· s) ↔ t ∈ l := by
  refine ⟨fun h => ?_, fun h => List.mem_map_of_mem h⟩
  obtain ⟨a, ha, heq⟩ := List.mem_map.1 h
  exact (hl a ha).eq_of_eq hM ht heq ▸ ha

theorem each_addNew (hl : ∀ a ∈ l, AlikeType a M) (ht : AlikeType t M) :
    Each AlikeType (fun s => addNew (l.map (· s)) (t s)) M := by
  by_cases hmem : t ∈ l
  · refine ⟨l, funext fun s => ?_, hl⟩
    rw [addNew, if_pos ((mem_map_iff hM hl ht s).2 hmem)]
  · refine ⟨l ++ [t], funext fun s => ?_, fun a ha => ?_⟩
    · rw [addNew, if_neg fun h => hmem ((mem_map_iff hM hl ht s).1 h), List.map_append]
      rfl
    · rcases List.mem_append.1 ha with ha | ha
      · exact hl a ha
      · exact List.mem_singleton.1 ha ▸ ht

theorem each_foldl_addNew {more : List (Side → TypeId)} (hl : ∀ a ∈ l, AlikeType a M)
    (hm : ∀ a ∈ more, AlikeType a M) :
    Each AlikeType (fun s => (more.map (· s)).foldl addNew (l.map (· s))) M := by
  induction more generalizing l with
  | nil => exact ⟨l, rfl, hl⟩
  | cons t more ih =>
    obtain ⟨l', hl', hall⟩ := each_addNew hM hl (hm t List.mem_cons_self)
    have heq : (fun s => ((t :: more).map (· s)).foldl addNew (l.map (· s))) =
        fun s => (more.map (· s)).foldl addNew (l'.map (· s)) := by
      funext s
      rw [List.map_cons, List.foldl_cons, congrFun hl' s]
    rw [heq]
    exact ih hall fun a ha => hm a (List.mem_cons_of_mem _ ha)

theorem each_replace {b : Side → TypeId} (hl : ∀ a ∈ l, AlikeType a M) (ht : AlikeType t M)
    (hb : AlikeType b M) : Each AlikeType (fun s => (l.map (· s)).replace (t s) (b s)) M := by
  induction l with
  | nil => exact ⟨[], rfl, hl⟩
  | cons a l ih =>
    have hrest : ∀ a ∈ l, AlikeType a M := fun c hc => hl c (List.mem_cons_of_mem _ hc)
    obtain ⟨l', hl', hall⟩ := ih hrest
    by_cases heq : t = a
    · refine ⟨b :: l, funext fun s => ?_, List.forall_mem_cons.2 ⟨hb, hrest⟩⟩
      rw [heq, List.map_cons, List.replace_cons_self, List.map_cons]
    · have hne : ∀ s, ¬ t s = a s := fun s h =>
        heq (ht.eq_of_eq hM (hl a List.mem_cons_self) h)
      refine ⟨a :: l', funext fun s => ?_,
        List.forall_mem_cons.2 ⟨hl a List.mem_cons_self, hall⟩⟩
      rw [List.map_cons, List.replace_cons, beq_false_of_ne (hne s), List.map_cons,
        ← congrFun hl' s]

theorem each_filter_ne (hl : ∀ a ∈ l, AlikeType a M) (ht : AlikeType t M) :
    Each AlikeType (fun s => (l.map (· s)).filter (· ≠ t s)) M := by
  classical
  refine ⟨l.filter (· ≠ t), funext fun s => ?_, fun a ha => hl a (List.mem_of_mem_filter ha)⟩
  rw [List.filter_map]
  congr 1
  refine List.filter_congr fun a ha => ?_
  have hiff : a s = t s ↔ a = t := ⟨fun h => (hl a ha).eq_of_eq hM ht h, fun h => congrFun h s⟩
  simp [hiff]

theorem each_mergeBooleans {yes no both : Side → TypeId} (hl : ∀ a ∈ l, AlikeType a M)
    (hy : AlikeType yes M) (hn : AlikeType no M) (hb : AlikeType both M) :
    Each AlikeType (fun s => mergeBooleans (yes s) (no s) (both s) (l.map (· s))) M := by
  by_cases hmem : yes ∈ l ∧ no ∈ l
  · obtain ⟨l', hl', hall⟩ := each_replace hM hl hy hb
    obtain ⟨l'', hl'', hall'⟩ := each_filter_ne hM hall hn
    refine ⟨l'', funext fun s => ?_, hall'⟩
    rw [mergeBooleans,
      if_pos ⟨(mem_map_iff hM hl hy s).2 hmem.1, (mem_map_iff hM hl hn s).2 hmem.2⟩,
      congrFun hl' s, ← congrFun hl'' s]
  · refine ⟨l, funext fun s => ?_, hl⟩
    rw [mergeBooleans, if_neg fun h =>
      hmem ⟨(mem_map_iff hM hl hy s).1 h.1, (mem_map_iff hM hl hn s).1 h.2⟩]

theorem each_dropRepeats (hl : ∀ a ∈ l, AlikeType a M) :
    Each AlikeType (fun s => dropRepeats (l.map (· s))) M := by
  induction l with
  | nil => exact ⟨[], rfl, hl⟩
  | cons a l ih =>
    have hrest : ∀ a ∈ l, AlikeType a M := fun c hc => hl c (List.mem_cons_of_mem _ hc)
    obtain ⟨l', hl', hall⟩ := ih hrest
    cases l with
    | nil => exact ⟨[a], rfl, hl⟩
    | cons b l =>
      by_cases heq : a = b
      · refine ⟨l', funext fun s => ?_, hall⟩
        rw [List.map_cons, List.map_cons, dropRepeats, if_pos (congrFun heq s)]
        exact congrFun hl' s
      · have hne : ∀ s, ¬ a s = b s := fun s h =>
          heq ((hl a List.mem_cons_self).eq_of_eq hM (hrest b List.mem_cons_self) h)
        refine ⟨a :: l', funext fun s => ?_,
          List.forall_mem_cons.2 ⟨hl a List.mem_cons_self, hall⟩⟩
        rw [List.map_cons, List.map_cons, dropRepeats, if_neg (hne s)]
        exact congrArg (a s :: ·) (congrFun hl' s)

end Lists

/-! ### Types made of other types -/

theorem follows_flatten {members : List (Side → TypeId)} (h : ∀ t ∈ members, AlikeType t M) :
    Follows C own steps (fun s _ => flatten (members.map (· s))) M (Each AlikeType) := by
  unfold flatten
  simp only [List.foldlM_map]
  refine follows_foldlM_of_growing (b := fun _ => []) members
    ⟨[], rfl, fun _ h => absurd h List.not_mem_nil⟩ ?_
    fun _ _ => .bind inferInstance fun _ => by split <;> infer_instance
  rintro _ t ht M₁ h₁ ⟨flat, rfl, hflat⟩
  refine follows_of_tied fun hM₁ => follows_data_bind ((h t ht).mono h₁) fun d hd => ?_
  cases hd with
  | union hinner => exact follows_pure (each_foldl_addNew hM₁.sound hflat hinner)
  | atom d hd =>
    dsimp only
    split
    · exact hd.elim
    · exact follows_pure ⟨flat, rfl, hflat⟩
    · exact follows_pure (each_addNew hM₁.sound hflat ((h t ht).mono h₁))
  | _ => exact follows_pure (each_addNew hM₁.sound hflat ((h t ht).mono h₁))

theorem follows_data {t : Side → TypeId} (ht : AlikeType t M) :
    Follows C own steps (fun s _ => data (t s)) M fun d M' => AlikeData p M' d :=
  follows_of_tied fun hM => follows_reads (fun _ _ => reads_data _) (ht.data hM.sound)

theorem follows_flatUnion {flat : List (Side → TypeId)} (h : ∀ t ∈ flat, AlikeType t M) :
    Follows C own steps (fun s _ => match flat.map (· s) with
      | [] => intern .never
      | [t] => pure t
      | _ => intern (.union (flat.map (· s)))) M AlikeType := by
  cases flat with
  | nil => exact follows_atom .never trivial
  | cons t rest =>
    cases rest with
    | nil => exact follows_pure (h t List.mem_cons_self)
    | cons u rest => exact follows_intern (.union h)

theorem follows_makeUnion {members : List (Side → TypeId)} (h : ∀ t ∈ members, AlikeType t M) :
    Follows C own steps (fun s _ => makeUnion (members.map (· s))) M AlikeType := by
  refine (follows_flatten h).bind_of_growing ?_
    fun flat => .bind inferInstance fun datas => growing_knownUnion datas flat
  rintro _ M₁ h₁ ⟨flat, rfl, hflat⟩
  simp only [List.mapM_map]
  refine (follows_mapM (Q := fun d M => AlikeData p M d) (fun hd hE => hd.mono hE) flat
    fun t ht M' hE => follows_data ((hflat t ht).mono hE)).bind_of_growing ?_
      fun datas => growing_knownUnion datas _
  rintro _ M₂ h₂ ⟨datas, rfl, hdatas⟩
  have hflat₂ : ∀ t ∈ flat, AlikeType t M₂ := fun t ht => (hflat t ht).mono h₂
  by_cases hany : (fun _ => .any) ∈ datas
  · refine follows_anyType.congr fun s c => ?_
    rw [if_pos (List.mem_map.2 ⟨_, hany, rfl⟩)]
  have hany' : ∀ s, ¬ .any ∈ datas.map (· s) := fun s hmem => by
    obtain ⟨d, hd, heq⟩ := List.mem_map.1 hmem
    have hconst := (hdatas d hd).eq_of_isAtom (s := s) (by rw [heq]; trivial)
    rw [heq] at hconst
    exact hany (hconst ▸ hd)
  simp only [hany', if_false]
  refine (follows_atom (.booleanLit true) trivial).bind_of_growing (fun yes M₃ h₃ hyes => ?_)
    fun yes => .bind inferInstance fun no => growing_mergedUnion yes no _
  refine (follows_atom (.booleanLit false) trivial).bind_of_growing (fun no M₄ h₄ hno => ?_)
    fun no => growing_mergedUnion _ no _
  have hflat₄ : ∀ t ∈ flat, AlikeType t M₄ := fun t ht => (hflat₂ t ht).mono (h₃.trans h₄)
  have hyes₄ := hyes.mono h₄
  refine follows_of_tied fun hM₄ => ?_
  by_cases hmem : yes ∈ flat ∧ no ∈ flat
  · have hmem' : ∀ s, yes s ∈ flat.map (· s) ∧ no s ∈ flat.map (· s) := fun s =>
      ⟨(mem_map_iff hM₄.sound hflat₄ hyes₄ s).2 hmem.1,
        (mem_map_iff hM₄.sound hflat₄ hno s).2 hmem.2⟩
    simp only [hmem', and_self, if_true]
    refine (follows_atom .boolean trivial).bind_of_growing (fun both M₅ h₅ hboth => ?_)
      fun _ => .bind inferInstance fun _ => by split <;> infer_instance
    simp only [pure_bind]
    refine follows_of_tied fun hM₅ => ?_
    obtain ⟨merged, hmerged, hall⟩ := each_mergeBooleans hM₅.sound
      (fun t ht => (hflat₄ t ht).mono h₅) (hyes₄.mono h₅) (hno.mono h₅) hboth
    simp only [congrFun hmerged]
    exact follows_flatUnion hall
  · have hmem' : ∀ s, ¬ (yes s ∈ flat.map (· s) ∧ no s ∈ flat.map (· s)) := fun s h =>
      hmem ⟨(mem_map_iff hM₄.sound hflat₄ hyes₄ s).1 h.1,
        (mem_map_iff hM₄.sound hflat₄ hno s).1 h.2⟩
    simp only [hmem', if_false, pure_bind]
    exact follows_flatUnion hflat₄

theorem follows_makeIntersection {members : List (Side → TypeId)}
    (h : ∀ t ∈ members, AlikeType t M) :
    Follows C own steps (fun s _ => makeIntersection (members.map (· s))) M AlikeType := by
  unfold makeIntersection
  simp only [List.foldlM_map]
  refine Follows.bind_of_growing (P := Each AlikeType) ?_ ?_ fun _ => by split <;> infer_instance
  · refine follows_foldlM_of_growing (b := fun _ => []) members
      ⟨[], rfl, fun _ h => absurd h List.not_mem_nil⟩ ?_
      fun _ _ => .bind inferInstance fun _ => by split <;> infer_instance
    rintro _ t ht M₁ h₁ ⟨flat, rfl, hflat⟩
    have more : ∀ {inner : List (Side → TypeId)}, (∀ t ∈ inner, AlikeType t M₁) →
        Each AlikeType (fun s => flat.map (· s) ++ inner.map (· s)) M₁ := fun hinner =>
      ⟨flat ++ _, funext fun s => (List.map_append).symm, List.forall_mem_append.2 ⟨hflat, hinner⟩⟩
    have ht₁ := (h t ht).mono h₁
    have single : Each AlikeType (fun s => flat.map (· s) ++ [t s]) M₁ :=
      @more [t] fun u hu => List.mem_singleton.1 hu ▸ ht₁
    refine follows_data_bind ht₁ fun d hd => ?_
    cases hd with
    | intersection hinner => exact follows_pure (more hinner)
    | atom d hd =>
      dsimp only
      split
      · exact hd.elim
      · exact follows_pure single
    | _ => exact follows_pure single
  · rintro _ M₁ h₁ ⟨flat, rfl, hflat⟩
    refine follows_of_tied fun hM₁ => ?_
    obtain ⟨dropped, hdropped, hall⟩ := each_dropRepeats hM₁.sound hflat
    simp only [congrFun hdropped]
    cases dropped with
    | nil => exact follows_atom .unknown trivial
    | cons t rest =>
      cases rest with
      | nil => exact follows_pure (hall t List.mem_cons_self)
      | cons u rest => exact follows_intern (.intersection hall)

theorem follows_widenLiteral {t : Side → TypeId} (ht : AlikeType t M) :
    Follows C own steps (fun s _ => widenLiteral (t s)) M AlikeType := by
  refine follows_data_bind ht fun d hd => ?_
  cases hd with
  | atom d hd =>
    dsimp only
    split
    · exact follows_atom .string trivial
    · exact follows_atom .number trivial
    · exact follows_atom .boolean trivial
    · exact follows_pure ht
  | _ => exact follows_pure ht

theorem follows_widen {t : Side → TypeId} (ht : AlikeType t M) :
    Follows C own steps (fun s _ => widen (t s)) M AlikeType := by
  refine follows_data_bind ht fun d hd => ?_
  cases hd with
  | union h =>
    simp only [List.mapM_map]
    refine (follows_mapM (Q := AlikeType) AlikeType.mono _ fun m hm M' hE =>
      follows_widenLiteral ((h m hm).mono hE)).bind ?_
    rintro _ M' hE ⟨types, rfl, htypes⟩
    exact follows_makeUnion htypes
  | atom d hd =>
    dsimp only
    split
    · exact hd.elim
    · exact follows_widenLiteral ht
  | _ => exact follows_widenLiteral ht

theorem AlikeData.isPresent_eq {d : Side → TypeData} (h : AlikeData p M d) (s : Side) :
    isPresent (d s) = isPresent (d .known) := by
  cases h <;> rfl

theorem follows_presentMembers {members : List (Side → TypeId)}
    (h : ∀ t ∈ members, AlikeType t M) :
    Follows C own steps (fun s _ => presentMembers (members.map (· s))) M (Each AlikeType) := by
  refine follows_of_tied fun hM => ?_
  have hpresent : ∀ t ∈ members, ∀ s,
      isPresent ((M s).dataOf (t s)) = isPresent ((M .known).dataOf (t .known)) := by
    intro t ht s
    exact ((h t ht).data hM.sound).isPresent_eq s
  refine follows_reads (fun s _ => reads_presentMembers _)
    ⟨members.filter fun t => isPresent ((M .known).dataOf (t .known)), funext fun s => ?_,
      fun t ht => h t (List.mem_of_mem_filter ht)⟩
  rw [List.filter_map]
  congr 1
  exact List.filter_congr fun t ht => hpresent t ht s

theorem follows_nonNullable {t : Side → TypeId} (ht : AlikeType t M) :
    Follows C own steps (fun s _ => nonNullable (t s)) M AlikeType := by
  refine follows_data_bind ht fun d hd => ?_
  cases hd with
  | union h =>
    refine (follows_presentMembers h).bind ?_
    rintro _ M' hE ⟨present, rfl, hpresent⟩
    exact follows_makeUnion hpresent
  | atom d hd =>
    dsimp only
    split
    · exact hd.elim
    · exact follows_pure ht
  | _ => exact follows_pure ht

theorem follows_firstArgument {args : List (Side → TypeId)} {use : TypeId → Resolve TypeId}
    (h : ∀ t ∈ args, AlikeType t M)
    (huse : ∀ t, AlikeType t M → Follows C own steps (fun s _ => use (t s)) M AlikeType) :
    Follows C own steps (fun s _ => firstArgument (args.map (· s)) use) M AlikeType := by
  cases args with
  | nil => exact follows_anyType
  | cons t rest => exact huse t (h t List.mem_cons_self)

theorem follows_awaited {t : Side → TypeId} (ht : AlikeType t M) :
    Follows C own steps (fun s _ => awaited (t s)) M AlikeType := by
  refine follows_of_tied fun hM => follows_data_bind ht fun d hd => ?_
  cases hd with
  | named name hr h =>
    refine follows_symbol_bind (SameKey.alike hM.sound (sameKey_builtin hr)) fun sym hsym _ => ?_
    obtain ⟨name, hname⟩ := hsym.name_eq
    simp only [hname]
    split
    · exact follows_firstArgument h fun t ht => follows_pure ht
    · exact follows_pure ht
  | atom d hd =>
    dsimp only
    split
    · exact hd.elim
    · exact follows_pure ht
  | _ => exact follows_pure ht

theorem follows_builtinType (name : String) {args : List (Side → TypeId)}
    (h : ∀ t ∈ args, AlikeType t M) :
    Follows C own steps (fun s _ => builtinType name (args.map (· s))) M AlikeType := by
  unfold builtinType
  split
  · exact (follows_firstArgument h fun t ht => follows_pure ht).bind
      fun t M' _ ht => follows_intern (.array ht)
  split
  · exact follows_firstArgument h fun t ht => follows_pure ht
  split
  · exact follows_firstArgument h fun t ht => follows_nonNullable ht
  split
  · exact follows_firstArgument h fun t ht => follows_awaited ht
  split
  · refine follows_firstArgument h fun t ht => ?_
    refine (follows_builtinSymbol "Partial").bind fun r M' hE hr => ?_
    exact follows_intern (.plain (.allOptional (ht.mono hE)) (sameKey_builtin hr) fun s =>
      ⟨rfl, (ht.mono hE).1 s, hr s⟩)
  split
  · exact follows_atom .string trivial
  split
  · exact follows_atom .number trivial
  split
  · exact follows_atom .boolean trivial
  split
  · exact follows_atom (.function none) trivial
  · refine (follows_builtinSymbol name).bind fun r M' hE hr => ?_
    exact follows_intern (.named name hr fun t ht => (h t ht).mono hE)

end RouteContract.Types
