import Mathlib
import RouteContract.Proofs.Outcome

/-!
# Views of outcomes

The answers of an oracle may depend on a state that is hidden in its monad, and what is asked first
may change what is answered next. A view of a monad tells what is known of the outcomes of its
computations when they lead from world to world. Of any monad that is the values only
(`View.values`), of computations with a state it is the states as well (`View.states`).

What runs on top of such a monad with a state of its own is followed through both (`View.Yields`).
-/

namespace RouteContract

/-- What is known of the outcomes of computations, each a value and the world after it. -/
structure View (m : Type → Type) [Monad m] (W : Type) where
  /-- From a world, every outcome of a computation is in a set of outcomes. -/
  Holds {α : Type} (x : m α) (w : W) (Q : α → W → Prop) : Prop
  pure {α : Type} {a : α} {w : W} {Q : α → W → Prop} (h : Q a w) : Holds (pure a) w Q
  bind {α β : Type} {x : m α} {f : α → m β} {w : W} {Q : α → W → Prop} {R : β → W → Prop}
    (hx : Holds x w Q) (hf : ∀ a w', Q a w' → Holds (f a) w' R) : Holds (x >>= f) w R

namespace View

variable {m : Type → Type} [Monad m] {W σ α β : Type}

/-- The values that computations may give. -/
def values (m : Type → Type) [Monad m] [LawfulMonad m] : View m Unit where
  Holds x _ Q := SatisfiesM (fun a => Q a ()) x
  pure h := SatisfiesM.pure h
  bind hx hf := hx.bind fun a ha => hf a () ha

/-- The values that computations may give, and the states that they may leave. -/
def states (σ : Type) (m : Type → Type) [Monad m] [LawfulMonad m] : View (StateT σ m) σ where
  Holds := Ensures
  pure := ensures_pure
  bind := Ensures.bind

/-- A computation that may give no answer has at most one outcome. -/
theorem holds_states_option_iff {x : StateT σ Option α} {s : σ} {Q : α → σ → Prop} :
    (states σ Option).Holds x s Q ↔ ∀ a s', x.run s = some (a, s') → Q a s' :=
  ensures_option_iff

variable (V : View m W) {w : W} {s : σ}

theorem imp [LawfulMonad m] {x : m α} {Q R : α → W → Prop} (hx : V.Holds x w Q)
    (h : ∀ a w', Q a w' → R a w') : V.Holds x w R := by
  rw [← bind_pure x]
  exact V.bind hx fun a w' ha => V.pure (h a w' ha)

/-! ### Computations with a state of their own -/

/-- From a state and a world, every outcome of a computation is in a set of outcomes. -/
def Yields (x : StateT σ m α) (s : σ) (w : W) (Q : α → σ → W → Prop) : Prop :=
  V.Holds (x.run s) w fun r w' => Q r.1 r.2 w'

variable {V}

theorem Yields.imp [LawfulMonad m] {x : StateT σ m α} {Q R : α → σ → W → Prop}
    (hx : V.Yields x s w Q) (h : ∀ a s' w', Q a s' w' → R a s' w') : V.Yields x s w R :=
  View.imp V hx fun r w' => h r.1 r.2 w'

theorem yields_pure {a : α} {Q : α → σ → W → Prop} (h : Q a s w) :
    V.Yields (Pure.pure a : StateT σ m α) s w Q := by
  show V.Holds (StateT.run (Pure.pure a) s) w _
  rw [StateT.run_pure]
  exact V.pure h

theorem Yields.bind {x : StateT σ m α} {f : α → StateT σ m β} {Q : α → σ → W → Prop}
    {R : β → σ → W → Prop} (hx : V.Yields x s w Q)
    (hf : ∀ a s' w', Q a s' w' → V.Yields (f a) s' w' R) : V.Yields (x >>= f) s w R := by
  show V.Holds (StateT.run (x >>= f) s) w _
  rw [StateT.run_bind]
  exact V.bind hx fun r w' => hf r.1 r.2 w'

/-- What is known of a question to the oracle is known of it here, and the state stays. -/
theorem yields_lift {q : m α} {Q : α → W → Prop} (hq : V.Holds q w Q) :
    V.Yields (StateT.lift q : StateT σ m α) s w fun a s' w' => s' = s ∧ Q a w' := by
  show V.Holds (StateT.run (StateT.lift q) s) w _
  rw [StateT.run_lift]
  exact V.bind hq fun a w' ha => V.pure ⟨rfl, ha⟩

theorem yields_get :
    V.Yields (get : StateT σ m σ) s w fun a s' w' => a = s ∧ s' = s ∧ w' = w := by
  show V.Holds (StateT.run get s) w _
  rw [StateT.run_get]
  exact V.pure ⟨rfl, rfl, rfl⟩

theorem yields_modify {f : σ → σ} :
    V.Yields (modify f : StateT σ m PUnit) s w fun _ s' w' => s' = f s ∧ w' = w := by
  show V.Holds (StateT.run (modify f) s) w _
  rw [StateT.run_modify]
  exact V.pure ⟨rfl, rfl⟩

end View

end RouteContract
