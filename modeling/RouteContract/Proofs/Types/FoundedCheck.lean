import Mathlib
import RouteContract.Proofs.Types.Founded
import RouteContract.Proofs.Types.Queries

/-!
# Checking that answers are founded

That what a memory remembers rests on no circle can be run: each entry is looked up once more, with
the tables of that memory and nothing else, and so is all that these lookups leave behind
(`Lookup.foundedWithin`, `Memory.founded_of_check`).

The check is sound and no more. It says no to tables with symbols of members, since a lookup by
itself starts without them.
-/

namespace RouteContract.Types

variable {p : Program} {M : Memory} {l : Lookup} {bound n : Nat}

instance decidableIsMember : (kind : SymbolKind) → Decidable kind.IsMember
  | .property _ _ _ _ => .isTrue trivial
  | .enumMember _ _ => .isTrue trivial
  | .declared _ => .isFalse id
  | .imported _ _ _ => .isFalse id
  | .module _ => .isFalse id
  | .builtin => .isFalse id

deriving instance DecidableEq for Lookup

instance decidableEqFound : (l : Lookup) → DecidableEq l.Found
  | .value _ => inferInstanceAs (DecidableEq TypeId)
  | .synonym _ _ _ => inferInstanceAs (DecidableEq TypeId)
  | .members _ => inferInstanceAs (DecidableEq (List SymbolId))

instance decidableFits (p : Program) (M : Memory) : (l : Lookup) → Decidable (l.Fits p M)
  | .value _ => .isTrue trivial
  | .synonym decl s args => inferInstanceAs (Decidable (p.kind decl = "type_alias_declaration" ∧
      M.keyOf? s = some (.decl decl) ∧ ∀ t ∈ args, t < M.types.size))
  | .members t => inferInstanceAs (Decidable (t < M.types.size))

namespace Memory

/-- The tables of a memory. -/
def forget (M : Memory) : Memory := { types := M.types, symbols := M.symbols }

/-- The lookups that a memory remembers, and what they found. -/
def lookups (M : Memory) : List ((l : Lookup) × l.Found) :=
  M.nodeTypes.map (fun e => ⟨.value e.1, e.2⟩) ++
  M.aliases.map (fun e => ⟨.synonym e.1.1 (M.symbols.findIdx (·.key = .decl e.1.1)) e.1.2, e.2⟩) ++
  M.members.map (fun e => ⟨.members e.1, e.2⟩)

/-- What a memory remembers is what one of its lookups found. -/
theorem exists_lookup (hM : Sound p M) {key : Key} {answer : Answer}
    (h : M.Remembers key answer) :
    ∃ e ∈ M.lookups, e.1.key M = key ∧ e.1.answer M e.2 = answer ∧ e.1.FoundIn p e.2 M := by
  simp only [lookups, List.mem_append, List.mem_map]
  cases h with
  | value h =>
    have he := mem_of_lookup h
    exact ⟨_, Or.inl (Or.inl ⟨_, he, rfl⟩), rfl, rfl, hM.nodeTypes _ he⟩
  | synonym hargs h =>
    have he := mem_of_lookup h
    exact ⟨_, Or.inl (Or.inr ⟨_, he, rfl⟩), rfl, rfl, hM.aliases _ he⟩
  | members ht h =>
    have he := mem_of_lookup h
    exact ⟨_, Or.inr ⟨_, he, rfl⟩, rfl, rfl, (hM.members _ he).1⟩

theorem extends_forget (M : Memory) : M.Extends M.forget := extends_of_tables rfl rfl

/-- The tables of a memory without symbols of members are blank. -/
theorem blank_forget (hM : Sound p M) (h : ∀ sym ∈ M.symbols, ¬ sym.kind.IsMember) :
    Blank p M.forget where
  sound := hM.remember rfl rfl (fun _ he => absurd he List.not_mem_nil)
    (fun _ he => absurd he List.not_mem_nil) (fun _ he => absurd he List.not_mem_nil)
  idle := ⟨rfl, rfl, rfl⟩
  members := rfl
  aliases := rfl
  nodeTypes := rfl
  symbols _ sym hsym := h sym (Array.mem_of_getElem? hsym)

end Memory

/-- A lookup that starts with the tables of a memory has a certain result again, and so have all the
other lookups that it leaves behind, to a number of steps. -/
def Lookup.foundedWithin (p : Program) (bound : Nat) :
    Nat → Memory → (l : Lookup) → l.Found → Bool
  | 0, _, _, _ => false
  | left + 1, M, l, found =>
    match (l.run p (calls p bound)).run M.forget with
    | none => false
    | some (again, N) =>
      decide (again = found ∧ l.Fits p M ∧ ∀ sym ∈ M.symbols, ¬ sym.kind.IsMember) &&
        N.lookups.all fun e => decide (e.1 = l) || foundedWithin p bound left N e.1 e.2

theorem Lookup.founded_of_check (hM : Sound p M) {found : l.Found} (hfound : l.FoundIn p found M)
    (h : l.foundedWithin p bound n M found = true) :
    FoundedWithin p n (l.key M) (l.answer M found) := by
  induction n generalizing M l with
  | zero => cases h
  | succ n ih =>
    rw [foundedWithin] at h
    split at h
    · cases h
    · next again N hrun =>
      simp only [Bool.and_eq_true, decide_eq_true_eq, List.all_eq_true, Bool.or_eq_true] at h
      obtain ⟨⟨rfl, hfits, hplain⟩, hall⟩ := h
      have hB := M.blank_forget hM hplain
      have hfits' := hfits.mono M.extends_forget
      obtain ⟨hN, ⟨hE, -⟩, -⟩ := ensures_option_iff.1
        (keeps_run (keeps_calls p bound) hfits' hB.sound) _ _ hrun
      have hMN := M.extends_forget.trans hE
      refine ⟨N, ⟨l, M.forget, bound, again, hB, hfits', key_mono hM hfits M.extends_forget, hrun,
        answer_mono hM hfound hMN⟩, fun key answer hanswer hne => ?_⟩
      obtain ⟨e, he, rfl, rfl, hin⟩ := Memory.exists_lookup hN hanswer
      refine ih hN hin ((hall e he).resolve_left fun heq => hne ?_)
      rw [heq, key_mono hM hfits hMN]

/-- All that a memory remembers is found again by itself. -/
def Memory.foundedWithin (p : Program) (bound n : Nat) (M : Memory) : Bool :=
  M.lookups.all fun e => e.1.foundedWithin p bound n M e.2

theorem Memory.founded_of_check (hM : Sound p M) (h : M.foundedWithin p bound n = true) :
    M.Founded p := fun key answer hanswer => by
  obtain ⟨e, he, rfl, rfl, hin⟩ := M.exists_lookup hM hanswer
  exact ⟨n, Lookup.founded_of_check hM hin (List.all_eq_true.1 h e he)⟩

end RouteContract.Types
