import Mathlib

/-!
# Outcomes of stateful computations

Schema generation, usage analysis and the crawl change a state on top of the answers of an oracle,
which come from a monad of its own; the resolver changes its memory and may give no answer.
`Ensures x s Q` says of all of them that every outcome of `x` from the state `s`, a value and a
final state, is in `Q`. Nothing is known of an answer of the oracle, so that a statement about
outcomes holds for every oracle.

* one rule for each way of building a computation: a value, a sequence, a question to the oracle,
  reading and changing the state;
* one rule for each loop over a list: an invariant (`ensures_foldlM`, `ensures_forM`), or a
  relation between the states before and after each round (`ensures_mapM`).
-/

namespace RouteContract

variable {m : Type → Type} [Monad m] {σ α β : Type}

/-- Every outcome of a computation from a state is in a set of outcomes. -/
def Ensures (x : StateT σ m α) (s : σ) (Q : α → σ → Prop) : Prop :=
  SatisfiesM (fun r => Q r.1 r.2) (x.run s)

/-- A computation with a fixed function as its oracle has one outcome. -/
theorem ensures_id_iff {x : StateT σ Id α} {s : σ} {Q : α → σ → Prop} :
    Ensures x s Q ↔ Q (x.run s).1 (x.run s).2 :=
  SatisfiesM_Id_eq

/-- A computation that may give no answer has at most one outcome. -/
theorem ensures_option_iff {x : StateT σ Option α} {s : σ} {Q : α → σ → Prop} :
    Ensures x s Q ↔ ∀ a s', x.run s = some (a, s') → Q a s' := by
  rw [Ensures, SatisfiesM_Option_eq]
  constructor
  · intro h a s' hx
    exact h (a, s') hx
  · rintro h ⟨a, s'⟩ hx
    exact h a s' hx

theorem Ensures.and {x : StateT σ Option α} {s : σ} {Q R : α → σ → Prop} (hq : Ensures x s Q)
    (hr : Ensures x s R) : Ensures x s fun a s' => Q a s' ∧ R a s' := by
  rw [ensures_option_iff] at hq hr ⊢
  exact fun a s' h => ⟨hq a s' h, hr a s' h⟩

variable [LawfulMonad m] {s : σ}

theorem Ensures.imp {x : StateT σ m α} {Q R : α → σ → Prop} (hx : Ensures x s Q)
    (h : ∀ a s', Q a s' → R a s') : Ensures x s R :=
  SatisfiesM.imp hx fun hq => h _ _ hq

theorem ensures_of_forall {x : StateT σ m α} {Q : α → σ → Prop} (h : ∀ a s', Q a s') :
    Ensures x s Q :=
  SatisfiesM.of_true fun r => h r.1 r.2

theorem ensures_pure {a : α} {Q : α → σ → Prop} (h : Q a s) :
    Ensures (pure a : StateT σ m α) s Q := by
  show SatisfiesM _ (StateT.run (pure a) s)
  rw [StateT.run_pure]
  exact SatisfiesM.pure h

theorem Ensures.bind {x : StateT σ m α} {f : α → StateT σ m β} {Q : α → σ → Prop}
    {R : β → σ → Prop} (hx : Ensures x s Q) (hf : ∀ a s', Q a s' → Ensures (f a) s' R) :
    Ensures (x >>= f) s R := by
  show SatisfiesM _ (StateT.run (x >>= f) s)
  rw [StateT.run_bind]
  exact SatisfiesM.bind hx fun r hr => hf r.1 r.2 hr

/-- A question to the oracle leaves the state as it is, and any answer may come. -/
theorem ensures_lift {q : m α} {Q : α → σ → Prop} (h : ∀ a, Q a s) :
    Ensures (StateT.lift q : StateT σ m α) s Q := by
  show SatisfiesM _ (StateT.run (StateT.lift q) s)
  rw [StateT.run_lift]
  exact SatisfiesM.bind (SatisfiesM.trivial (x := q)) fun a _ => SatisfiesM.pure (h a)

/-- A computation of the oracle's monad whose results are known, with the rest. -/
theorem ensures_lift_bind_of {q : m α} {P : α → Prop} (hq : SatisfiesM P q)
    {f : α → StateT σ m β} {R : β → σ → Prop} (h : ∀ a, P a → Ensures (f a) s R) :
    Ensures (StateT.lift q >>= f) s R := by
  show SatisfiesM _ (StateT.run (StateT.lift q >>= f) s)
  rw [StateT.run_bind, StateT.run_lift, bind_assoc]
  refine SatisfiesM.bind hq fun a ha => ?_
  rw [pure_bind]
  exact h a ha

/-- A question to the oracle, with the rest of the computation. -/
theorem ensures_lift_bind {q : m α} {f : α → StateT σ m β} {R : β → σ → Prop}
    (h : ∀ a, Ensures (f a) s R) : Ensures (StateT.lift q >>= f) s R :=
  (ensures_lift (Q := fun _ s' => s' = s) fun _ => rfl).bind fun a _ hs => hs ▸ h a

theorem ensures_get {Q : σ → σ → Prop} (h : Q s s) : Ensures (get : StateT σ m σ) s Q := by
  show SatisfiesM _ (StateT.run get s)
  rw [StateT.run_get]
  exact SatisfiesM.pure h

theorem ensures_set {s₁ : σ} {Q : PUnit → σ → Prop} (h : Q ⟨⟩ s₁) :
    Ensures (set s₁ : StateT σ m PUnit) s Q := by
  show SatisfiesM _ (StateT.run (set s₁) s)
  rw [StateT.run_set]
  exact SatisfiesM.pure h

theorem ensures_modify {f : σ → σ} {Q : PUnit → σ → Prop} (h : Q ⟨⟩ (f s)) :
    Ensures (modify f : StateT σ m PUnit) s Q := by
  show SatisfiesM _ (StateT.run (modify f) s)
  rw [StateT.run_modify]
  exact SatisfiesM.pure h

/-- Reading the state, with the rest of the computation. -/
theorem ensures_get_bind {f : σ → StateT σ m β} {R : β → σ → Prop} (h : Ensures (f s) s R) :
    Ensures (get >>= f) s R :=
  (ensures_get (Q := fun a s' => a = s ∧ s' = s) ⟨rfl, rfl⟩).bind
    fun a s' ⟨ha, hs⟩ => by rw [ha, hs]; exact h

/-- Setting the state, with the rest of the computation. -/
theorem ensures_set_bind {s₁ : σ} {f : PUnit → StateT σ m β} {R : β → σ → Prop}
    (h : Ensures (f ⟨⟩) s₁ R) : Ensures (set s₁ >>= f) s R :=
  (ensures_set (Q := fun _ s' => s' = s₁) rfl).bind fun _ _ hs => hs ▸ h

/-- Changing the state, with the rest of the computation. -/
theorem ensures_modify_bind {g : σ → σ} {f : PUnit → StateT σ m β} {R : β → σ → Prop}
    (h : Ensures (f ⟨⟩) (g s) R) : Ensures (modify g >>= f) s R :=
  (ensures_modify (Q := fun _ s' => s' = g s) rfl).bind fun _ _ hs => hs ▸ h

/-! ### Loops -/

/-- An invariant of the accumulator and the state holds after a fold. -/
theorem ensures_foldlM {f : β → α → StateT σ m β} {I : β → σ → Prop} (l : List α)
    (hf : ∀ b s a, I b s → Ensures (f b a) s I) {b : β} (hb : I b s) :
    Ensures (l.foldlM f b) s I := by
  induction l generalizing b s with
  | nil => exact ensures_pure hb
  | cons a l ih =>
    rw [List.foldlM_cons]
    exact (hf b s a hb).bind fun b' s' hb' => ih hb'

/-- An invariant that every round keeps holds after a loop. -/
theorem ensures_forM {f : α → StateT σ m PUnit} {I : σ → Prop} (l : List α)
    (hf : ∀ a ∈ l, ∀ s, I s → Ensures (f a) s fun _ s' => I s') (hs : I s) :
    Ensures (l.forM f) s fun _ s' => I s' := by
  induction l generalizing s with
  | nil => exact ensures_pure hs
  | cons a l ih =>
    rw [List.forM_eq_forM, List.forM_cons]
    refine (hf a List.mem_cons_self s hs).bind fun _ s' hs' => ?_
    exact ih (fun b hb => hf b (List.mem_cons_of_mem a hb)) hs'

/-- When each round moves the state along a relation and gives a result that is good in the new
state and stays so along the relation, then so does the whole loop, and every result is good. -/
theorem ensures_mapM {f : α → StateT σ m β} {R : σ → σ → Prop} {G : β → σ → Prop}
    (refl : ∀ s, R s s) (trans : ∀ {a b c}, R a b → R b c → R a c)
    (mono : ∀ {b s s'}, R s s' → G b s → G b s') (l : List α)
    (hf : ∀ a s, Ensures (f a) s fun b s' => R s s' ∧ G b s') :
    Ensures (l.mapM f) s fun bs s' => R s s' ∧ ∀ b ∈ bs, G b s' := by
  induction l generalizing s with
  | nil =>
    rw [List.mapM_nil]
    exact ensures_pure ⟨refl s, by simp⟩
  | cons a l ih =>
    rw [List.mapM_cons]
    refine (hf a s).bind fun b s₁ ⟨h₁, hb⟩ => ih.bind fun bs s₂ ⟨h₂, hbs⟩ => ensures_pure ?_
    refine ⟨trans h₁ h₂, fun b' hb' => ?_⟩
    rcases List.mem_cons.1 hb' with rfl | hb'
    · exact mono h₂ hb
    · exact hbs b' hb'

end RouteContract
