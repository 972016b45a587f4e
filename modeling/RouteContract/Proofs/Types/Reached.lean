import Mathlib
import RouteContract.Proofs.Types.Queries

/-!
# The memories that questions lead to

A resolver starts with an empty memory, and every question that it answers leaves a memory for the
next one. `Later p M M'` says that answered questions lead from `M` to `M'`, and `Reached p M` that
they lead to `M` from the empty memory. All of these memories are sound, and nothing is being
looked for in them; the later of two has all that is in the earlier one (`Memory.Within`).
-/

namespace RouteContract.Types

variable {p : Program} {M M' N : Memory}

namespace Memory

/-- Nothing is being looked for. -/
structure Idle (M : Memory) : Prop where
  inferring : M.inferring = []
  resolving : M.resolving = []
  collecting : M.collecting = []

/-- All types and symbols of a memory, and all that it remembers, are in another one. -/
structure Within (M M' : Memory) : Prop where
  tables : M.Extends M'
  members : ∀ t symbols, M.members.lookup t = some symbols → M'.members.lookup t = some symbols
  aliases : ∀ key t, M.aliases.lookup key = some t → M'.aliases.lookup key = some t
  nodeTypes : ∀ node t, M.nodeTypes.lookup node = some t → M'.nodeTypes.lookup node = some t

theorem Within.refl (M : Memory) : M.Within M :=
  ⟨.refl M, fun _ _ h => h, fun _ _ h => h, fun _ _ h => h⟩

theorem Within.trans {M₁ M₂ M₃ : Memory} (h : M₁.Within M₂) (h' : M₂.Within M₃) :
    M₁.Within M₃ where
  tables := h.tables.trans h'.tables
  members t symbols ht := h'.members t symbols (h.members t symbols ht)
  aliases key t hk := h'.aliases key t (h.aliases key t hk)
  nodeTypes node t hn := h'.nodeTypes node t (h.nodeTypes node t hn)

/-- A step that is done leaves all that was in the memory. -/
theorem within_of_resumes (hE : M.Extends M') (hR : M.Resumes M') : M.Within M' :=
  ⟨hE, fun _ _ h => hR.members.lookup h, fun _ _ h => hR.aliases.lookup h,
    fun _ _ h => hR.nodeTypes.lookup h⟩

theorem Idle.resumes (h : M.Idle) (hR : M.Resumes M') : M'.Idle :=
  ⟨hR.inferring.trans h.inferring, hR.resolving.trans h.resolving,
    hR.collecting.trans h.collecting⟩

theorem idle_empty : ({} : Memory).Idle := ⟨rfl, rfl, rfl⟩

end Memory

/-- A question was answered, with some bound on nested steps. -/
def Answered (p : Program) (M M' : Memory) : Prop :=
  ∃ bound question, ((oracleWithin p bound).pose question).run M = some ((), M')

theorem run_discard {α : Type} {x : Resolve α} {a : α} (h : x.run M = some (a, M')) :
    (discard x : Resolve PUnit).run M = some ((), M') := by
  have hx : (discard x : Resolve PUnit) = (fun _ => PUnit.unit) <$> x := rfl
  rw [hx, StateT.run_map, h]
  rfl

/-- Answered questions lead from a memory to a later one. -/
abbrev Later (p : Program) : Memory → Memory → Prop := Relation.ReflTransGen (Answered p)

/-- Answered questions lead to a memory from the empty one. -/
def Reached (p : Program) (M : Memory) : Prop := Later p {} M

theorem Answered.keeps (h : Answered p M M') (hM : Sound p M) :
    Sound p M' ∧ M.Extends M' ∧ M.Resumes M' := by
  obtain ⟨bound, question, hrun⟩ := h
  have hkept := (closed_kept p bound).pose question M hM
  obtain ⟨hM', hE, -⟩ := ensures_option_iff.1 hkept () M' hrun
  exact ⟨hM', hE⟩

theorem Later.keeps (h : Later p M M') (hM : Sound p M) :
    Sound p M' ∧ M.Extends M' ∧ M.Resumes M' := by
  induction h with
  | refl => exact ⟨hM, .refl M, .refl M⟩
  | tail _ hstep ih =>
    obtain ⟨hM₁, hE, hR⟩ := ih
    obtain ⟨hM₂, hE', hR'⟩ := hstep.keeps hM₁
    exact ⟨hM₂, hE.trans hE', hR.trans hR'⟩

theorem Reached.sound (h : Reached p M) : Sound p M := (Later.keeps h sound_empty).1

theorem Reached.idle (h : Reached p M) : M.Idle :=
  Memory.idle_empty.resumes (Later.keeps h sound_empty).2.2

theorem Reached.within (h : Reached p M) (h' : Later p M M') : M.Within M' := by
  obtain ⟨-, hE, hR⟩ := h'.keeps h.sound
  exact Memory.within_of_resumes hE hR

end RouteContract.Types
