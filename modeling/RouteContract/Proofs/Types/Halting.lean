import Mathlib
import RouteContract.Proofs.Types.Members

/-!
# Computations that get an answer

`Halts p k x M` says that `x`, from a sound memory `M` in which at most `k` marks are left to be
set, gets its answer as soon as its calls may nest deep enough, and the same one however deep. The
number of marks that are left is what a run of the resolver uses up: an expression, an alias without
type parameters and the members of a class, an interface or an object expression are looked for with
a mark that is not set again before they are found.

* the marks and how many are left (`free`), which a step that is done leaves as they were and a step
  that marks something lowers;
* one rule of `Halts` for each way of building a computation, as for `Keeps`;
* the steps that make no calls always get an answer (`Answers`).
-/

namespace RouteContract.Types

variable {p : Program} {M M' : Memory} {α β : Type}

/-! ### Marks -/

/-- What is marked while it is looked for: an expression, an alias without type parameters, an
object type that collects the members of other types. -/
inductive Mark where
  | value (node : NodeId)
  | synonym (decl : NodeId)
  | owner (key : ObjectKey)
deriving DecidableEq

/-- A mark is set. -/
def Memory.Marked (M : Memory) : Mark → Prop
  | .value node => node ∈ M.inferring
  | .synonym decl => (decl, []) ∈ M.resolving
  | .owner key => ∃ t ∈ M.collecting, ∃ s through, M.types[t]? = some (.object key s through)

/-- The marks that can be set in a program. -/
def marks (p : Program) : List Mark :=
  p.nodes.flatMap fun d => [.value d, .synonym d, .owner (.declared d []), .owner (.value d)]

theorem mem_marks {d : NodeId} (hd : d ∈ p.nodes) {mark : Mark}
    (h : mark ∈ [.value d, .synonym d, .owner (.declared d []), .owner (.value d)]) :
    mark ∈ marks p :=
  List.mem_flatMap.2 ⟨d, hd, h⟩

/-- The number of marks of a program that are not set. -/
noncomputable def free (p : Program) (M : Memory) : Nat :=
  {mark | mark ∈ marks p ∧ ¬ M.Marked mark}.ncard

theorem free_finite (p : Program) (M : Memory) :
    {mark | mark ∈ marks p ∧ ¬ M.Marked mark}.Finite :=
  (List.finite_toSet (marks p)).subset fun _ h => h.1

theorem free_le (h : ∀ mark, M.Marked mark → M'.Marked mark) : free p M' ≤ free p M :=
  Set.ncard_le_ncard (fun mark hm => ⟨hm.1, fun hset => hm.2 (h mark hset)⟩) (free_finite p M)

theorem free_lt (h : ∀ mark, M.Marked mark → M'.Marked mark) {mark : Mark} (hp : mark ∈ marks p)
    (hM : ¬ M.Marked mark) (hM' : M'.Marked mark) : free p M' < free p M := by
  refine Set.ncard_lt_ncard ⟨fun mark hm => ⟨hm.1, fun hset => hm.2 (h mark hset)⟩, ?_⟩
    (free_finite p M)
  exact fun hsub => (hsub ⟨hp, hM⟩).2 hM'

/-- Marks stay set as long as what is looked for only grows. -/
theorem Memory.Marked.mono {mark : Mark} (h : M.Marked mark) (hE : M.Extends M')
    (hi : M.inferring ⊆ M'.inferring) (hr : M.resolving ⊆ M'.resolving)
    (hc : M.collecting ⊆ M'.collecting) : M'.Marked mark := by
  cases mark with
  | value node => exact hi h
  | synonym decl => exact hr h
  | owner key =>
    obtain ⟨t, ht, s, through, hd⟩ := h
    exact ⟨t, hc ht, s, through, hE.types t _ hd⟩

/-- After a step that is done, as many marks are left as before. -/
theorem free_le_of_resumes (hE : M.Extends M') (hR : M.Resumes M') : free p M' ≤ free p M :=
  free_le fun _ h => h.mono hE (hR.inferring ▸ List.Subset.refl _)
    (hR.resolving ▸ List.Subset.refl _) (hR.collecting ▸ List.Subset.refl _)

section Marking

theorem Memory.Marked.infer {mark : Mark} (h : M.Marked mark) (node : NodeId) :
    { M with inferring := node :: M.inferring }.Marked mark :=
  h.mono (Memory.extends_of_tables rfl rfl) (List.subset_cons_self _ _) (List.Subset.refl _)
    (List.Subset.refl _)

theorem Memory.Marked.resolve {mark : Mark} (h : M.Marked mark) (key : AliasKey) :
    { M with resolving := key :: M.resolving }.Marked mark :=
  h.mono (Memory.extends_of_tables rfl rfl) (List.Subset.refl _) (List.subset_cons_self _ _)
    (List.Subset.refl _)

theorem Memory.Marked.collect {mark : Mark} (h : M.Marked mark) (t : TypeId) :
    { M with collecting := t :: M.collecting }.Marked mark :=
  h.mono (Memory.extends_of_tables rfl rfl) (List.Subset.refl _) (List.Subset.refl _)
    (List.subset_cons_self _ _)

/-- One mark less is left while the type of an expression is looked for. -/
theorem free_infer_lt {node : NodeId} (hnode : node ∈ p.nodes) (h : node ∉ M.inferring) :
    free p { M with inferring := node :: M.inferring } < free p M :=
  free_lt (fun _ hm => hm.infer node) (mem_marks hnode (by simp) : Mark.value node ∈ marks p) h
    List.mem_cons_self

/-- One mark less is left while an alias without type parameters is evaluated. -/
theorem free_resolve_lt {decl : NodeId} (hdecl : decl ∈ p.nodes) (h : (decl, []) ∉ M.resolving) :
    free p { M with resolving := (decl, []) :: M.resolving } < free p M :=
  free_lt (fun _ hm => hm.resolve _) (mem_marks hdecl (by simp) : Mark.synonym decl ∈ marks p) h
    List.mem_cons_self

/-- One mark less is left while the members of a type with an identity of its own are collected. -/
theorem free_collect_lt {t : TypeId} {key : ObjectKey} {s : SymbolId} {through : Option SymbolId}
    (ht : M.types[t]? = some (.object key s through)) (hkey : .owner key ∈ marks p)
    (h : ¬ M.Marked (.owner key)) :
    free p { M with collecting := t :: M.collecting } < free p M :=
  free_lt (fun _ hm => hm.collect t) hkey h ⟨t, List.mem_cons_self, s, through, ht⟩

end Marking

/-! ### Steps that make no calls -/

/-- A computation gets an answer from every memory. -/
def Answers (x : Resolve α) : Prop := ∀ M, ∃ r, x.run M = some r

theorem answers_pure (a : α) : Answers (pure a) := fun M => ⟨(a, M), rfl⟩

theorem Answers.bind {x : Resolve α} {f : α → Resolve β} (hx : Answers x)
    (hf : ∀ a, Answers (f a)) : Answers (x >>= f) := by
  intro M
  obtain ⟨⟨a, M₁⟩, h⟩ := hx M
  obtain ⟨r, hr⟩ := hf a M₁
  refine ⟨r, ?_⟩
  rw [StateT.run_bind, h]
  exact hr

theorem answers_get : Answers (get : Resolve Memory) := fun M => ⟨(M, M), rfl⟩

theorem answers_set (M : Memory) : Answers (set M : Resolve PUnit) := fun _ => ⟨(⟨⟩, M), rfl⟩

theorem answers_mapM {f : α → Resolve β} (l : List α) (hf : ∀ a, Answers (f a)) :
    Answers (l.mapM f) := by
  induction l with
  | nil =>
    rw [List.mapM_nil]
    exact answers_pure _
  | cons a l ih =>
    rw [List.mapM_cons]
    exact (hf a).bind fun _ => ih.bind fun _ => answers_pure _

theorem answers_foldlM {f : β → α → Resolve β} (l : List α) (hf : ∀ b a, Answers (f b a)) (b : β) :
    Answers (l.foldlM f b) := by
  induction l generalizing b with
  | nil => exact answers_pure b
  | cons a l ih =>
    rw [List.foldlM_cons]
    exact (hf b a).bind fun b' => ih b'

theorem answers_filterM {f : α → Resolve Bool} (l : List α) (hf : ∀ a, Answers (f a)) :
    Answers (l.filterM f) := by
  have aux : ∀ (l acc : List α), Answers (l.filterAuxM f acc) := by
    intro l
    induction l with
    | nil => exact fun acc => answers_pure acc
    | cons a l ih => exact fun acc => (hf a).bind fun _ => ih _
  exact (aux l []).bind fun _ => answers_pure _

theorem answers_intern (d : TypeData) : Answers (intern d) := by
  refine answers_get.bind fun memory => ?_
  split
  · exact answers_pure _
  · exact (answers_set _).bind fun _ => answers_pure _

theorem answers_internSymbol (s : Symbol) : Answers (internSymbol s) := by
  refine answers_get.bind fun memory => ?_
  split
  · exact answers_pure _
  · exact (answers_set _).bind fun _ => answers_pure _

theorem answers_data (t : TypeId) : Answers (data t) := answers_get.bind fun _ => answers_pure _

theorem answers_symbol (s : SymbolId) : Answers (symbol s) :=
  answers_get.bind fun _ => answers_pure _

theorem answers_targetSymbol (target : Names.Target) : Answers (targetSymbol p target) := by
  cases target with
  | binding d => exact answers_internSymbol _
  | module unit => exact answers_internSymbol _

theorem answers_exportSymbol? (unit : Nat) (name : String) :
    Answers (exportSymbol? p unit name) := by
  unfold exportSymbol?
  split
  · exact (answers_targetSymbol _).bind fun _ => answers_pure _
  · exact answers_pure _

theorem answers_followAlias? (s : SymbolId) : Answers (followAlias? p s) := by
  refine (answers_symbol s).bind fun sym => ?_
  split
  · split
    · exact (answers_targetSymbol _).bind fun _ => answers_pure _
    · exact answers_pure _
  · exact answers_pure _

theorem answers_flatten (members : List TypeId) : Answers (flatten members) := by
  refine answers_foldlM members (fun flat t => (answers_data t).bind fun d => ?_) []
  split <;> exact answers_pure _

theorem answers_flatUnion (flat : List TypeId) : Answers (match flat with
    | [] => intern .never
    | [t] => pure t
    | _ => intern (.union flat)) := by
  split
  · exact answers_intern _
  · exact answers_pure _
  · exact answers_intern _

theorem answers_makeUnion (members : List TypeId) : Answers (makeUnion members) := by
  refine (answers_flatten members).bind fun _ => (answers_mapM _ answers_data).bind fun _ => ?_
  split
  · exact answers_intern _
  refine (answers_intern _).bind fun yes => (answers_intern _).bind fun no => ?_
  dsimp only
  split
  · exact (answers_intern _).bind fun _ => (answers_pure _).bind answers_flatUnion
  · exact (answers_pure _).bind answers_flatUnion

theorem answers_makeIntersection (members : List TypeId) : Answers (makeIntersection members) := by
  refine (answers_foldlM members (fun flat t => (answers_data t).bind fun d => ?_) []).bind
    fun flat => ?_
  · split <;> exact answers_pure _
  · split
    · exact answers_intern _
    · exact answers_pure _
    · exact answers_intern _

theorem answers_widenLiteral (t : TypeId) : Answers (widenLiteral t) := by
  refine (answers_data t).bind fun d => ?_
  split
  · exact answers_intern _
  · exact answers_intern _
  · exact answers_intern _
  · exact answers_pure _

theorem answers_widen (t : TypeId) : Answers (widen t) := by
  refine (answers_data t).bind fun d => ?_
  split
  · exact (answers_mapM _ answers_widenLiteral).bind fun _ => answers_makeUnion _
  · exact answers_widenLiteral t

theorem answers_presentMembers (members : List TypeId) : Answers (presentMembers members) := by
  refine answers_filterM members fun t => (answers_data t).bind fun d => ?_
  split <;> exact answers_pure _

theorem answers_nonNullable (t : TypeId) : Answers (nonNullable t) := by
  refine (answers_data t).bind fun d => ?_
  split
  · exact (answers_presentMembers _).bind fun _ => answers_makeUnion _
  · exact answers_pure _

theorem answers_firstArgument (args : List TypeId) {use : TypeId → Resolve TypeId}
    (huse : ∀ t, Answers (use t)) : Answers (firstArgument args use) := by
  unfold firstArgument
  split
  · exact huse _
  · exact answers_intern _

theorem answers_awaited (t : TypeId) : Answers (awaited t) := by
  refine (answers_data t).bind fun d => ?_
  split
  · refine (answers_symbol _).bind fun sym => ?_
    dsimp only
    split
    · exact answers_firstArgument _ answers_pure
    · exact answers_pure _
  · exact answers_pure _

theorem answers_builtinType (name : String) (args : List TypeId) :
    Answers (builtinType name args) := by
  unfold builtinType
  split
  · exact (answers_firstArgument _ answers_pure).bind fun _ => answers_intern _
  split
  · exact answers_firstArgument _ answers_pure
  split
  · exact answers_firstArgument _ answers_nonNullable
  split
  · exact answers_firstArgument _ answers_awaited
  split
  · exact answers_firstArgument _ fun _ =>
      (answers_internSymbol _).bind fun _ => answers_intern _
  split
  · exact answers_intern _
  split
  · exact answers_intern _
  split
  · exact answers_intern _
  split
  · exact answers_intern _
  · exact (answers_internSymbol _).bind fun _ => answers_intern _

theorem answers_literalType (node : NodeId) : Answers (literalType p node) := by
  unfold literalType
  split
  case h_1 => split <;> exact answers_intern _
  case h_7 =>
    dsimp only
    split
    · split <;> exact answers_intern _
    · exact answers_intern _
  all_goals exact answers_intern _

theorem answers_predefinedType (name : String) : Answers (predefinedType name) := by
  unfold predefinedType
  split
  case h_10 => exact answers_builtinType _ _
  case h_11 => exact answers_builtinType _ _
  all_goals exact answers_intern _

theorem answers_bindEnv (decl : NodeId) (args : List TypeId) : Answers (bindEnv p decl args) :=
  (answers_intern _).bind fun _ => answers_pure _

/-! ### Rules -/

/-- From a sound memory with at most so many marks left, a computation gets the same answer with
every bound that is large enough. -/
def Halts (p : Program) (k : Nat) (x : Calls → Resolve α) (M : Memory) : Prop :=
  Sound p M → free p M ≤ k → ∃ n r, ∀ bound ≥ n, (x (calls p bound)).run M = some r

section Rules

variable {k : Nat} {P : α → Memory → Prop}

theorem Answers.halts {x : Resolve α} (h : Answers x) : Halts p k (fun _ => x) M := by
  intro _ _
  obtain ⟨r, hr⟩ := h M
  exact ⟨0, r, fun _ _ => hr⟩

theorem halts_pure (a : α) : Halts p k (fun _ => pure a) M := (answers_pure a).halts

theorem halts_intern (d : TypeData) : Halts p k (fun _ => intern d) M := (answers_intern d).halts

theorem Halts.mono {j : Nat} {x : Calls → Resolve α} (h : Halts p k x M) (hj : j ≤ k) :
    Halts p j x M := fun hM hfree => h hM (hfree.trans hj)

/-- That a computation gets an answer may rest on the memory being sound. -/
theorem halts_of_sound {x : Calls → Resolve α} (h : Sound p M → Halts p k x M) : Halts p k x M :=
  fun hM => h hM hM

/-- The steps of the resolver may nest one deeper than those that they call. -/
theorem Halts.call {x y : Calls → Resolve α} (hx : Halts p k x M)
    (hy : ∀ bound, y (calls p (bound + 1)) = x (calls p bound)) : Halts p k y M := by
  intro hM hfree
  obtain ⟨n, r, h⟩ := hx hM hfree
  refine ⟨n + 1, r, fun bound hb => ?_⟩
  obtain ⟨bound, rfl⟩ := Nat.exists_eq_add_of_le' (Nat.one_le_of_lt hb)
  rw [hy]
  exact h bound (by omega)

/-- What a step does when it is called gets an answer when the call does. -/
theorem Halts.body {x y : Calls → Resolve α} (hy : Halts p k y M)
    (h : ∀ bound, y (calls p (bound + 1)) = x (calls p bound)) : Halts p k x M := by
  intro hM hfree
  obtain ⟨n, r, hr⟩ := hy hM hfree
  refine ⟨n, r, fun bound hb => ?_⟩
  rw [← h]
  exact hr (bound + 1) (by omega)

/-- A sequence of two computations; the second one runs from what the first one keeps. -/
theorem Halts.bind {x : Calls → Resolve α} {f : Calls → α → Resolve β} (hx : Halts p k x M)
    (hP : ∀ bound, Keeps p (x (calls p bound)) M P)
    (hf : ∀ a M', M.Extends M' → P a M' → Halts p k (fun c => f c a) M') :
    Halts p k (fun c => x c >>= f c) M := by
  intro hM hfree
  obtain ⟨n₁, ⟨a, M₁⟩, h₁⟩ := hx hM hfree
  obtain ⟨hM₁, ⟨hE, hR⟩, ha⟩ := ensures_option_iff.1 (hP n₁ hM) a M₁ (h₁ n₁ le_rfl)
  obtain ⟨n₂, r, h₂⟩ := hf a M₁ hE ha hM₁ ((free_le_of_resumes hE hR).trans hfree)
  refine ⟨max n₁ n₂, r, fun bound hb => ?_⟩
  rw [StateT.run_bind, h₁ bound (le_of_max_le_left hb)]
  exact h₂ bound (le_of_max_le_right hb)

/-- A first step that makes no calls. -/
theorem Answers.halts_bind {x : Resolve α} {f : Calls → α → Resolve β} (hx : Answers x)
    (hP : Keeps p x M P) (hf : ∀ a M', M.Extends M' → P a M' → Halts p k (fun c => f c a) M') :
    Halts p k (fun c => x >>= f c) M :=
  hx.halts.bind (fun _ => hP) hf

/-- A last step that makes no calls. -/
theorem Halts.last {x : Calls → Resolve α} {f : α → Resolve β} (hx : Halts p k x M)
    (hf : ∀ a, Answers (f a)) : Halts p k (fun c => x c >>= f) M := by
  intro hM hfree
  obtain ⟨n, ⟨a, M₁⟩, h⟩ := hx hM hfree
  obtain ⟨r, hr⟩ := hf a M₁
  refine ⟨n, r, fun bound hb => ?_⟩
  rw [StateT.run_bind, h bound hb]
  exact hr

theorem halts_get_bind {f : Calls → Memory → Resolve β} (h : Halts p k (fun c => f c M) M) :
    Halts p k (fun c => get >>= f c) M := h

theorem halts_data_bind {t : TypeId} {f : Calls → TypeData → Resolve β}
    (h : Halts p k (fun c => f c (M.dataOf t)) M) : Halts p k (fun c => data t >>= f c) M := h

theorem halts_symbol_bind {s : SymbolId} {f : Calls → Symbol → Resolve β}
    (h : Halts p k (fun c => f c (M.symbolOf s)) M) : Halts p k (fun c => symbol s >>= f c) M := h

/-- A computation that runs with something marked, and then takes the mark away. -/
theorem halts_marked {x : Calls → Resolve α} {marked : Memory}
    {remember : α → Memory → Memory} (hmarked : Sound p M → Sound p marked)
    (hx : Sound p M → free p M ≤ k → Halts p (free p marked) x marked) :
    Halts p k (fun c => do
      set marked
      let a ← x c
      modify (remember a)
      return a) M := by
  intro hM hk
  obtain ⟨n, ⟨a, M₁⟩, h⟩ := hx hM hk (hmarked hM) le_rfl
  refine ⟨n, (a, remember a M₁), fun bound hb => ?_⟩
  rw [StateT.run_bind, StateT.run_set]
  show (x (calls p bound) >>= fun a => modify (remember a) >>= fun _ => pure a).run marked = _
  rw [StateT.run_bind, h bound hb]
  rfl

theorem halts_mapM {f : Calls → α → Resolve β} {Q : β → Memory → Prop} (l : List α)
    (hf : ∀ a ∈ l, ∀ M', M.Extends M' → Halts p k (fun c => f c a) M')
    (hQ : ∀ a ∈ l, ∀ M', M.Extends M' → ∀ bound, Keeps p (f (calls p bound) a) M' Q) :
    Halts p k (fun c => l.mapM (f c)) M := by
  induction l generalizing M with
  | nil =>
    simp only [List.mapM_nil]
    exact halts_pure _
  | cons a l ih =>
    simp only [List.mapM_cons]
    refine (hf a (by simp) M (.refl M)).bind (hQ a (by simp) M (.refl M)) fun b M₁ h₁ _ => ?_
    refine (ih (fun a' ha M' hE => hf a' (by simp [ha]) M' (h₁.trans hE))
      fun a' ha M' hE => hQ a' (by simp [ha]) M' (h₁.trans hE)).last fun _ => answers_pure _

theorem halts_foldlM {f : Calls → β → α → Resolve β} {Q : β → Memory → Prop} (l : List α) {b : β}
    (hb : Q b M) (hf : ∀ b, ∀ a ∈ l, ∀ M', M.Extends M' → Q b M' → Halts p k (fun c => f c b a) M')
    (hQ : ∀ b, ∀ a ∈ l, ∀ M', M.Extends M' → Q b M' →
      ∀ bound, Keeps p (f (calls p bound) b a) M' Q) :
    Halts p k (fun c => l.foldlM (f c) b) M := by
  induction l generalizing M b with
  | nil => exact halts_pure b
  | cons a l ih =>
    simp only [List.foldlM_cons]
    refine (hf b a (by simp) M (.refl M) hb).bind (hQ b a (by simp) M (.refl M) hb)
      fun b' M₁ h₁ hb' => ?_
    exact ih hb' (fun b a ha M' hE => hf b a (by simp [ha]) M' (h₁.trans hE))
      fun b a ha M' hE => hQ b a (by simp [ha]) M' (h₁.trans hE)

end Rules

end RouteContract.Types
