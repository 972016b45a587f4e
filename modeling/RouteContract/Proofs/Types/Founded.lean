import Mathlib
import RouteContract.Proofs.Types.Lookups
import RouteContract.Proofs.Types.Nesting

/-!
# Answers that rest on no circle

An expression, an alias or the members of a type that is met again while it is looked up is cut off,
and what is made of the cut is remembered too. So an answer can depend on what was being looked for
when it was found.

`AskedAlone p key answer N` says that a lookup has an answer when nothing is remembered before it
and nothing else is being looked for, and that `N` is the memory at its end. An answer is founded
when that lookup gives it, and all else that is remembered at its end is founded in turn, with a
bound on how deep this goes (`FoundedWithin`). An alias that leads to itself may be founded, two
aliases that lead to each other are not.
-/

namespace RouteContract.Types

variable {p : Program} {M M' : Memory}

instance rising_lookup (l : Lookup) : Rising fun c => l.run p c := by
  cases l with
  | value node => exact rising_valueType node
  | synonym decl s args => exact rising_knownAlias decl s args
  | members t => exact rising_membersOf t

/-- A sound memory without answers and without symbols of members, in which nothing is being looked
for. -/
structure Blank (p : Program) (M : Memory) : Prop where
  sound : Sound p M
  idle : M.Idle
  members : M.members = []
  aliases : M.aliases = []
  nodeTypes : M.nodeTypes = []
  symbols : ∀ (s : SymbolId) sym, M.symbols[s]? = some sym → ¬ sym.kind.IsMember

/-- The answer to a lookup that starts with a blank memory, and the memory at its end. -/
def AskedAlone (p : Program) (key : Key) (answer : Answer) (N : Memory) : Prop :=
  ∃ (l : Lookup) (M : Memory) (bound : Nat) (found : l.Found), Blank p M ∧ l.Fits p M ∧
    l.key M = key ∧ (l.run p (calls p bound)).run M = some (found, N) ∧ l.answer N found = answer

/-- An answer is that of a lookup by itself, and so are the answers to all else that is looked up on
the way, and on the way to those, to a number of steps. -/
def FoundedWithin (p : Program) : Nat → Key → Answer → Prop
  | 0, _, _ => False
  | left + 1, key, answer => ∃ N, AskedAlone p key answer N ∧
      ∀ key' answer', N.Remembers key' answer' → key' ≠ key → FoundedWithin p left key' answer'

/-- An answer that rests on no circle of lookups other than its own. -/
def Founded (p : Program) (key : Key) (answer : Answer) : Prop :=
  ∃ n, FoundedWithin p n key answer

/-- All that a memory remembers rests on no circle. -/
def Memory.Founded (p : Program) (M : Memory) : Prop :=
  ∀ key answer, M.Remembers key answer → Types.Founded p key answer

theorem FoundedWithin.mono {n m : Nat} {key : Key} {answer : Answer}
    (h : FoundedWithin p n key answer) (hle : n ≤ m) : FoundedWithin p m key answer := by
  induction n generalizing m key answer with
  | zero => exact h.elim
  | succ n ih =>
    obtain ⟨m, rfl⟩ := Nat.exists_eq_succ_of_ne_zero (Nat.ne_zero_of_lt hle)
    obtain ⟨N, halone, hrest⟩ := h
    exact ⟨N, halone, fun key' answer' hkey' hne =>
      ih (hrest key' answer' hkey' hne) (Nat.le_of_succ_le_succ hle)⟩

end RouteContract.Types
