import Mathlib
import RouteContract.Proofs.Types.Following.Members

/-!
# Founded answers are found in every memory

A lookup with a founded answer finds it whatever is remembered and whatever is being looked for, as
long as what is remembered is founded and what is being looked for has no answer that is founded in
fewer steps (`FoundedWithin.finds`). By induction on the steps: the run of the lookup by itself is
followed by the run in the memory at hand, since all that it looks up is founded in fewer steps.
-/

namespace RouteContract.Types

open Filter

variable {p : Program} {M N : Memory} {l : Lookup} {marks : List Key}

/-! ### The memories at both ends of a lookup -/

theorem Blank.not_remembers (h : Blank p M) (key : Key) (answer : Answer) :
    ¬ M.Remembers key answer := by
  intro hanswer
  cases hanswer with
  | value ht => simp [h.nodeTypes] at ht
  | synonym _ ht => simp [h.aliases] at ht
  | members _ hf => simp [h.members] at hf

theorem Blank.inStep (h : Blank p M) : InStep p [] M where
  sound := h.sound
  resolving_in e he := by simp [h.idle.resolving] at he
  collecting_in t ht := by simp [h.idle.collecting] at ht
  looksFor key := by
    simp [Memory.looksFor_iff, h.idle.inferring, h.idle.resolving, h.idle.collecting]
  unanswered key hkey := absurd hkey List.not_mem_nil
  aliases_in e he := by simp [h.aliases] at he
  members_in e he := by simp [h.members] at he
  founded key answer hanswer := absurd hanswer (h.not_remembers key answer)
  claimed s sym hs hk := absurd hk (h.symbols s sym hs)

/-- A lookup is marked. -/
theorem Seeking.mark (h : Seeking p marks M) (hl : l.Fits p M)
    (hnew : ∀ answer, ¬ M.Remembers (l.key M) answer) :
    Seeking p (l.key M :: marks) (l.mark M) where
  sound := Lookup.sound_mark h.sound l
  resolving_in e he := by
    cases l with
    | value _ => exact h.resolving_in e he
    | synonym decl s args =>
      rcases List.mem_cons.1 he with rfl | he
      · exact hl.2.2
      · exact h.resolving_in e he
    | members _ => exact h.resolving_in e he
  collecting_in t ht := by
    cases l with
    | value _ => exact h.collecting_in t ht
    | synonym _ _ _ => exact h.collecting_in t ht
    | members _ =>
      rcases List.mem_cons.1 ht with rfl | ht
      · exact hl
      · exact h.collecting_in t ht
  looksFor key := by rw [Lookup.looksFor_mark_iff hl, h.looksFor, List.mem_cons]
  unanswered key hkey answer hanswer := by
    have hM := Lookup.remembers_of_mark hanswer
    rcases List.mem_cons.1 hkey with rfl | hkey
    · exact hnew answer hM
    · exact h.unanswered key hkey answer hM

theorem InStep.mark (h : InStep p marks M) (hl : l.Fits p M)
    (hnew : ∀ answer, ¬ M.Remembers (l.key M) answer) : InStep p (l.key M :: marks) (l.mark M) where
  toSeeking := h.toSeeking.mark hl hnew
  aliases_in e he := by
    cases l <;> exact h.aliases_in e he
  members_in e he := by
    cases l <;> exact h.members_in e he
  founded key answer hanswer := h.founded key answer (Lookup.remembers_of_mark hanswer)
  claimed s sym hs hk := by
    have hs' : M.symbols[s]? = some sym := by cases l <;> exact hs
    obtain ⟨t, ht, hclaim⟩ := h.claimed s sym hs' hk
    refine ⟨t, ht.mono (Lookup.extends_mark l M), ?_⟩
    cases l with
    | value _ => exact hclaim
    | synonym _ _ _ => exact hclaim
    | members _ => exact hclaim.imp_left (List.mem_cons_of_mem _)

/-- What a lookup found is remembered. -/
theorem InStep.remember {key : Key} {S : Memory} {found : l.Found} (h : InStep p marks M)
    (hS : InStep p (key :: marks) S) (hl : l.Fits p S)
    (hfounded : Founded p (l.key S) (l.answer S found))
    (hM' : Sound p (l.remember found S)) (hg : M.Grows p none (l.remember found S)) :
    InStep p marks (l.remember found S) where
  toSeeking := h.toSeeking.later hM' hg.tables hg.resumes
  aliases_in e he := by
    cases l with
    | value _ => exact hS.aliases_in e he
    | synonym decl s args =>
      rcases List.mem_cons.1 he with rfl | he
      · exact hl.2.2
      · exact hS.aliases_in e he
    | members _ => exact hS.aliases_in e he
  members_in e he := by
    cases l with
    | value _ => exact hS.members_in e he
    | synonym _ _ _ => exact hS.members_in e he
    | members _ =>
      rcases List.mem_cons.1 he with rfl | he
      · exact hl
      · exact hS.members_in e he
  founded key answer hanswer := by
    rcases Lookup.remembers_of_remember hanswer with ⟨rfl, rfl⟩ | hanswer
    · exact hfounded
    · exact hS.founded key answer hanswer
  claimed := h.claimed.grows hg fun t ht => by cases ht

/-! ### The run of a lookup by itself is followed -/

/-- Two memories that start to collect the members of a type, which nothing is known of. -/
theorem owned_of_new {M : Side → Memory} {o : Side → TypeId} (hp : EnumMembersApart p)
    (hM : ∀ s, Sound p (M s)) (ho : AlikeType o M) (hclaimed : ∀ s, (M s).Claimed p)
    (hcollecting : ∀ s, o s ∉ (M s).collecting) (hnone : ∀ s, (M s).members.lookup (o s) = none) :
    Owned p (fun s => (Lookup.members (o s)).mark (M s)) o where
  collecting s := List.mem_cons_self
  alike := ho.mono ⟨hM, fun s => Lookup.extends_mark _ _⟩
  symbols key hkey := by
    refine Or.inl fun s r hr => ?_
    obtain ⟨sym, hsym, hk⟩ := Option.map_eq_some_iff.1 hr
    have hmember := hkey.memberKey s
    rw [← hk] at hmember
    have hsound := Lookup.sound_mark (hM s) (.members (o s))
    have howner := fun u => hmember.owner (u := u) hp hsound (hsound.symbols r sym hsym)
    obtain ⟨u, hu, hclaim⟩ := hclaimed s r sym hsym (howner (o s)).1
    have hu' := (howner u).2 (hu.mono (Lookup.extends_mark _ _))
    subst hu'
    exact hclaim.elim (hcollecting s) fun hm => hm (hnone s)

/-- Something to look up that a memory neither remembers nor is looking for. -/
structure Lookup.New (p : Program) (l : Lookup) (M : Memory) : Prop where
  sound : Sound p M
  claimed : M.Claimed p
  fits : l.Fits p M
  unanswered : ∀ answer, ¬ M.Remembers (l.key M) answer
  free : ¬ M.LooksFor (l.key M)

/-- What a lookup finds in the course of a known run is found by the same lookup in a shared
memory. -/
theorem follow_find (C : Course p) {l l' : Lookup} {M M' N : Memory} (hl : l.New p M)
    (hl' : l'.New p M') (hkey : l'.key M' = l.key M)
    (hM : Seeking p (C.marks .known) (l.mark M)) (hM' : InStep p (C.marks .shared) (l'.mark M'))
    {bound : Nat} {found : l.Found}
    (hrun : (l.find p (calls p bound)).run (l.mark M) = some (found, N)) (hN : N.Within C.final) :
    ∃ found' R, (∀ᶠ n in atTop, (l'.find p (calls p n)).run (l'.mark M') = some (found', R)) ∧
      InStep p (C.marks .shared) R ∧ (l'.mark M').Extends R ∧
      l'.answer R found' = l.answer N found := by
  have hk := keeps_calls p bound
  have tied : ∀ own, (∀ o : Side → TypeId, (own = fun s => some (o s)) →
      Owned p (Side.pair (l.mark M) (l'.mark M')) o) →
      Tied C own (Side.pair (l.mark M) (l'.mark M')) := fun own howned => ⟨hM, hM', howned⟩
  have free : ∀ o : Side → TypeId, ((fun _ => none) = fun s => some (o s)) →
      Owned p (Side.pair (l.mark M) (l'.mark M')) o := fun o ho => by
    cases congrFun ho .known
  cases l with
  | value node =>
    cases l' with
    | value node' =>
      cases hkey
      obtain ⟨b, R, rfl, rfl, hev, htied, hE, halike⟩ :=
        follows_infer (follow_calls C _ bound) hk node (tied _ free) found N hrun hN
      exact ⟨b .shared, R .shared, hev, htied.shared, hE.tables .shared,
        congrArg Answer.type halike.2.symm⟩
    | _ => cases hkey
  | synonym decl r args =>
    cases l' with
    | synonym decl' r' args' =>
      obtain ⟨rfl, hargs⟩ := Key.synonym.inj hkey
      have hpair : Onward p (Side.pair M M') (Side.pair ((Lookup.synonym decl' r args).mark M)
          ((Lookup.synonym decl' r' args').mark M')) :=
        ⟨Side.forall_iff.2 ⟨hl.sound, hl'.sound⟩,
          Side.forall_iff.2 ⟨Lookup.extends_mark (.synonym decl' r args) M,
            Lookup.extends_mark (.synonym decl' r' args') M'⟩⟩
      obtain ⟨each, heach, hall⟩ :=
        each_of_trees (M := Side.pair M M') hl.fits.2.2 hl'.fits.2.2 hargs.symm
      obtain rfl : args = each.map (· .known) := congrFun heach .known
      obtain rfl : args' = each.map (· .shared) := congrFun heach .shared
      obtain ⟨b, R, rfl, rfl, hev, htied, hE, halike⟩ :=
        follows_aliasValue (r := Side.pair r r') (follow_calls C _ bound)
          (fun t ht => (hall t ht).mono hpair) (Side.forall_iff.2 ⟨hl.fits.2.1, hl'.fits.2.1⟩)
          hl.fits.1 (tied _ free) found N hrun hN
      exact ⟨b .shared, R .shared, hev, htied.shared, hE.tables .shared,
        congrArg Answer.type halike.2.symm⟩
    | _ => cases hkey
  | members t =>
    cases l' with
    | members t' =>
      have halike : AlikeType (Side.pair t t') (Side.pair M M') :=
        ⟨Side.forall_iff.2 ⟨hl.fits, hl'.fits⟩, (Key.members.inj hkey).symm⟩
      have howned := owned_of_new C.apart (Side.forall_iff.2 ⟨hl.sound, hl'.sound⟩) halike
        (Side.forall_iff.2 ⟨hl.claimed, hl'.claimed⟩)
        (Side.forall_iff.2 ⟨fun h => hl.free (.members hl.fits h),
          fun h => hl'.free (.members hl'.fits h)⟩)
        (Side.forall_iff.2 ⟨Memory.members_eq_none hl.fits hl.unanswered,
          Memory.members_eq_none hl'.fits hl'.unanswered⟩)
      rw [Side.eq_pair fun s => (Lookup.members (Side.pair t t' s)).mark (Side.pair M M' s)]
        at howned
      obtain ⟨b, R, rfl, rfl, hev, htied, hE, each, rfl, hall⟩ :=
        follows_collectMembers (follow_calls C _ bound) hk
          (tied (fun s => some (Side.pair t t' s)) fun o ho => by
            obtain rfl : Side.pair t t' = o := funext fun s => Option.some.inj (congrFun ho s)
            exact howned) found N hrun hN
      have htrees : (each.map (· .shared)).map (R .shared).symbolTree =
          (each.map (· .known)).map (R .known).symbolTree := by
        rw [List.map_map, List.map_map]
        exact List.map_congr_left fun a ha => (hall a ha).2.symm
      exact ⟨_, R .shared, hev, htied.shared, hE.tables .shared, congrArg Answer.members htrees⟩
    | _ => cases hkey

/-! ### Founded answers -/

/-- A lookup by itself has one answer. -/
theorem AskedAlone.answer_eq {key : Key} {answer answer' : Answer}
    (h : AskedAlone p key answer' N)
    (hfinds : ∀ M (l : Lookup), Blank p M → l.Fits p M → l.key M = key → ∃ found M',
      (∀ᶠ n in atTop, (l.run p (calls p n)).run M = some (found, M')) ∧
        l.answer M' found = answer) :
    answer' = answer := by
  obtain ⟨l, M, bound, found, hM, hl, hkey, hrun, rfl⟩ := h
  obtain ⟨found', M', hev, rfl⟩ := hfinds M l hM hl hkey
  obtain ⟨n, hn, hle⟩ := (hev.and (eventually_ge_atTop bound)).exists
  have heq := (run_calls_of_le (x := fun c => l.run p c) hle hrun).symm.trans hn
  cases heq
  rfl

/-- A lookup that is neither remembered nor under way has its founded answer, since all that the
lookup by itself looks up is founded in fewer steps. -/
theorem FoundedWithin.finds_new (hp : EnumMembersApart p) {n : Nat}
    (ih : ∀ {key answer marks}, FoundedWithin p n key answer →
      (∀ m ∈ marks, ∀ a, ¬ FoundedWithin p n m a) → Finds p marks key answer)
    {key : Key} {answer : Answer} (h : FoundedWithin p (n + 1) key answer)
    (hlow : ∀ a, ¬ FoundedWithin p n key a)
    (hmarks : ∀ m ∈ marks, ∀ a, ¬ FoundedWithin p (n + 1) m a) (hM : InStep p marks M)
    (hl : l.Fits p M) (hkey : l.key M = key) (hnew : ∀ a, ¬ M.Remembers key a) :
    ∃ found M', (∀ᶠ n in atTop, (l.run p (calls p n)).run M = some (found, M')) ∧
      InStep p marks M' ∧ l.answer M' found = answer := by
  have hfounded : Founded p key answer := ⟨n + 1, h⟩
  have hfree : key ∉ marks := fun hmem => hmarks key hmem answer h
  subst hkey
  have hlnew : l.New p M := ⟨hM.sound, hM.claimed, hl, hnew, fun h => hfree ((hM.looksFor _).1 h)⟩
  obtain ⟨N, ⟨l₀, B, bound, _, hB, hl₀, hkey, hrun, rfl⟩, hrest⟩ := h
  have hBstep := hB.inStep
  have hl₀new : l₀.New p B := ⟨hB.sound, hBstep.claimed, hl₀, hB.not_remembers _,
    fun h => absurd ((hBstep.looksFor _).1 h) List.not_mem_nil⟩
  -- the run of the lookup by itself, once it is marked
  rw [Lookup.run_of_new hl₀ hl₀new.free hl₀new.unanswered] at hrun
  obtain ⟨⟨found, N₁⟩, hfind, heq⟩ := Option.map_eq_some_iff.1 hrun
  cases heq
  have hseek := hBstep.toSeeking.mark hl₀ hl₀new.unanswered
  obtain ⟨hN₁, ⟨hE, hR⟩, -⟩ := ensures_option_iff.1 (Lookup.keeps_find (keeps_calls p bound)
    (hl₀.mono (Lookup.extends_mark l₀ B)) hseek.sound) _ _ hfind
  have hE₁ : B.Extends N₁ := (Lookup.extends_mark l₀ B).trans hE
  have hunanswered : ∀ answer, ¬ N₁.Remembers (l₀.key B) answer :=
    (hseek.later hN₁ hE hR).unanswered _ List.mem_cons_self
  have hwithin : N₁.Within (l₀.remember found N₁) := by
    refine Lookup.within_remember (hl₀.mono hE₁) (fun answer => ?_) found
    rw [Lookup.key_mono hB.sound hl₀ hE₁]
    exact hunanswered answer
  let C : Course p :=
    { final := N₁
      marks := Side.pair [l₀.key B] (l.key M :: marks)
      marks_subset := by
        rw [hkey]
        exact List.cons_subset_cons _ (List.nil_subset _)
      apart := hp
      found := fun {key' answer'} hanswer => by
        have hne : key' ≠ l.key M := fun heq => hunanswered answer' (hkey ▸ heq ▸ hanswer)
        have hbelow := hrest key' answer' (hN₁.remembers_mono hwithin hanswer) hne
        refine ⟨fun hmem => (List.mem_cons.1 hmem).elim hne fun hmem =>
          hmarks key' hmem answer' (hbelow.mono n.le_succ), ih hbelow fun m hm a ha => ?_⟩
        rcases List.mem_cons.1 hm with rfl | hm
        · exact hlow a ha
        · exact hmarks m hm a (ha.mono n.le_succ) }
  obtain ⟨found', S, hev, hS, hES, hanswer⟩ := follow_find C hl₀new hlnew hkey.symm hseek
    (hM.mark hl hnew) hfind (.refl N₁)
  -- the run in the memory at hand
  have hrun' : ∀ᶠ n in atTop, (l.run p (calls p n)).run M =
      some (found', l.remember found' S) := by
    filter_upwards [hev] with n hn
    rw [Lookup.run_of_new hl hlnew.free hnew, hn]
    rfl
  obtain ⟨m, hm⟩ := hrun'.exists
  have hgrows : M.Grows p none (l.remember found' S) := Moves.grows (Lookup.moving_run.moves hm)
  obtain ⟨hsound, -, -⟩ := ensures_option_iff.1
    (Lookup.keeps_run (keeps_calls p m) hl hM.sound) _ _ hm
  have hES' : M.Extends S := (Lookup.extends_mark l M).trans hES
  have hsame : l.answer S found' = l₀.answer (l₀.remember found N₁) found := by
    rw [hanswer, Lookup.answer_remember]
  refine ⟨found', _, hrun', hM.remember hS (hl.mono hES') ?_ hsound hgrows, ?_⟩
  · rw [Lookup.key_mono hM.sound hl hES', hsame]
    exact hfounded
  · rw [Lookup.answer_remember, hsame]

/-- **Founded answers are found in every memory** that remembers founded answers and is looking for
nothing that is founded in as few steps. -/
theorem FoundedWithin.finds (hp : EnumMembersApart p) {n : Nat} {key : Key} {answer : Answer}
    (h : FoundedWithin p n key answer) (hmarks : ∀ m ∈ marks, ∀ a, ¬ FoundedWithin p n m a) :
    Finds p marks key answer := by
  induction n generalizing key answer marks with
  | zero => exact h.elim
  | succ n ih =>
    obtain ⟨N, halone, -⟩ := id h
    by_cases hlow : ∃ a, FoundedWithin p n key a
    · -- founded in fewer steps
      obtain ⟨a, ha⟩ := hlow
      have hfinds : Finds p [] key a := ih ha fun m hm => absurd hm List.not_mem_nil
      obtain rfl := halone.answer_eq fun M l hM hl hkey => by
        obtain ⟨found, M', hev, -, hanswer⟩ := hfinds M l hM.inStep hl hkey
        exact ⟨found, M', hev, hanswer⟩
      exact ih ha fun m hm a ha => hmarks m hm a (ha.mono n.le_succ)
    · have hlow := not_exists.1 hlow
      intro M l hM hl hkey
      by_cases hremembered : ∃ a, M.Remembers key a
      · -- what is remembered is founded, so it is the answer of the lookup by itself
        obtain ⟨a, ha⟩ := hremembered
        obtain ⟨_ | m, hm⟩ := hM.founded key a ha
        · exact hm.elim
        obtain ⟨K, halone', -⟩ := hm
        obtain rfl := halone'.answer_eq fun M l hM hl hkey => by
          obtain ⟨found, M', hev, -, hanswer⟩ := h.finds_new hp ih hlow
            (fun m hm => absurd hm List.not_mem_nil) hM.inStep hl hkey (hM.not_remembers key)
          exact ⟨found, M', hev, hanswer⟩
        obtain ⟨found, hrun, hanswer⟩ := Lookup.run_of_remembers hM.sound hl (hkey ▸ ha)
        exact ⟨found, M, Eventually.of_forall fun n => hrun _, hM, hanswer⟩
      · exact h.finds_new hp ih hlow hmarks hM hl hkey (not_exists.1 hremembered)

end RouteContract.Types
