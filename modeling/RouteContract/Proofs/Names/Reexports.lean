import Mathlib
import RouteContract.Proofs.Names.Statements
import RouteContract.Proofs.Types.Growth
import RouteContract.Proofs.Types.Halting

/-!
# Chains of re-exports

A name of a unit leads on to a name of another unit, or to the same name of the units all of whose
exports are passed on (`Step`), until a unit has something of its own for it (`Ends`). Chains of
such steps are told apart by their places, the positions of the units that were taken where several
were possible, and depth-first order is the lexicographic order of places.

The search has no set of visited units: it only counts steps. It finds the end of the first chain of
at most so many steps, and nothing exactly when no chain is that short (`decides_resolveWithin?`),
whatever circles the re-exports of a program form. Chains that are too long are left for the next
unit in order, as are those that end at nothing. Which entries a unit has for the names is told by
its statements (`get?_exports_eq_iff`, `stars_exports_eq_iff`).
-/

namespace RouteContract.Names

variable (p : Program)

/-- What a unit has of its own for a name: a name of its top scope, where a value goes before a
type, a declaration, or a whole unit. -/
inductive Ends (unit : Nat) (name : String) : Target → Prop
  | value {own : String} {binding : NodeId}
    (h : Entries.get? name (exports p unit).named = some (.own own))
    (hb : lookup p .value own (.root unit) = some binding) : Ends unit name (.binding binding)
  | type {own : String} {binding : NodeId}
    (h : Entries.get? name (exports p unit).named = some (.own own))
    (hnone : lookup p .value own (.root unit) = none)
    (hb : lookup p .type own (.root unit) = some binding) : Ends unit name (.binding binding)
  | node {binding : NodeId}
    (h : Entries.get? name (exports p unit).named = some (.node binding)) :
    Ends unit name (.binding binding)
  | module {whole : Nat}
    (h : Entries.get? name (exports p unit).named = some (.module whole)) :
    Ends unit name (.module whole)

/-- A step of a chain, with its place: a name that stands for a name of another unit leads there;
one without an entry, other than `default`, leads to each unit all of whose exports are passed
on. -/
inductive Step (unit : Nat) (name : String) : Nat → Nat → String → Prop
  | again {next : Nat} {original : String}
    (h : Entries.get? name (exports p unit).named = some (.again next original)) :
    Step unit name 0 next original
  | star {place next : Nat} (h : Entries.get? name (exports p unit).named = none)
    (hname : name ≠ "default") (hnext : (exports p unit).stars[place]? = some next) :
    Step unit name place next name

/-- A chain of steps with their places, from a name of a unit to an end. -/
inductive Chain : Nat → String → List Nat → Target → Prop
  | ends {unit : Nat} {name : String} {target : Target} (h : Ends p unit name target) :
    Chain unit name [] target
  | step {unit next place : Nat} {name original : String} {places : List Nat} {target : Target}
    (h : Step p unit name place next original) (hc : Chain next original places target) :
    Chain unit name (place :: places) target

/-- The first chain in depth-first order of fewer than so many steps. -/
structure IsFirst (bound unit : Nat) (name : String) (places : List Nat) (target : Target) :
    Prop where
  chain : Chain p unit name places target
  short : places.length < bound
  least : ∀ others other, Chain p unit name others other → others.length < bound → places ≤ others

/-- What is found is the end of the first chain of fewer than so many steps; nothing is found only
when no chain is that short. -/
structure Decides (bound unit : Nat) (name : String) (found : Option Target) : Prop where
  first : ∀ target, found = some target → ∃ places, IsFirst p bound unit name places target
  missed : found = none → ∀ places target, Chain p unit name places target → bound ≤ places.length

variable {p} {unit next place : Nat} {name original : String}

/-! ### Where a name leads -/

/-- A unit with an entry for a name leads on only if the name stands for another one. -/
theorem not_step_of_get? {e : Export} (h : Entries.get? name (exports p unit).named = some e)
    (he : ∀ u n, e ≠ .again u n) : ¬ Step p unit name place next original := by
  rintro (hagain | ⟨hnone, -, -⟩)
  · exact he _ _ (Option.some.inj (h.symm.trans hagain))
  · rw [h] at hnone
    cases hnone

theorem Ends.get?_ne_again {target : Target} (h : Ends p unit name target) :
    ∃ e, Entries.get? name (exports p unit).named = some e ∧ ∀ u n, e ≠ .again u n := by
  cases h with
  | value h _ | type h _ _ | node h | module h => exact ⟨_, h, by simp⟩

/-- A unit with something of its own for a name leads nowhere. -/
theorem Ends.not_step {target : Target} (h : Ends p unit name target) :
    ¬ Step p unit name place next original := by
  obtain ⟨e, he, hne⟩ := h.get?_ne_again
  exact not_step_of_get? he hne

theorem Ends.unique {target target' : Target} (h : Ends p unit name target)
    (h' : Ends p unit name target') : target = target' := by
  cases h <;> cases h' <;> simp_all

/-- The place of a step tells where it leads. -/
theorem Step.unique {next' : Nat} {original' : String} (h : Step p unit name place next original)
    (h' : Step p unit name place next' original') : next = next' ∧ original = original' := by
  cases h <;> cases h' <;> simp_all

/-- The places of a chain tell its end. -/
theorem Chain.unique {places : List Nat} {target target' : Target}
    (h : Chain p unit name places target) (h' : Chain p unit name places target') :
    target = target' := by
  induction h with
  | ends h =>
    cases h' with
    | ends h' => exact h.unique h'
  | step h _ ih =>
    cases h' with
    | step h' hc' =>
      obtain ⟨rfl, rfl⟩ := h.unique h'
      exact ih hc'

theorem IsFirst.unique {bound : Nat} {places places' : List Nat} {target target' : Target}
    (h : IsFirst p bound unit name places target)
    (h' : IsFirst p bound unit name places' target') : target = target' := by
  have hplaces : places = places' :=
    le_antisymm (h.least _ _ h'.chain h'.short) (h'.least _ _ h.chain h.short)
  subst hplaces
  exact h.chain.unique h'.chain

theorem Decides.eq_some_iff {bound : Nat} {found : Option Target}
    (h : Decides p bound unit name found) {target : Target} :
    found = some target ↔ ∃ places, IsFirst p bound unit name places target := by
  refine ⟨h.first target, ?_⟩
  rintro ⟨places, hfirst⟩
  cases hfound : found with
  | none => exact absurd (h.missed hfound places target hfirst.chain) (Nat.not_le.2 hfirst.short)
  | some target' =>
    obtain ⟨places', hfirst'⟩ := h.first target' hfound
    rw [hfirst'.unique hfirst]

/-! ### What the search finds -/

theorem decides_ends {target : Target} (h : Ends p unit name target) (bound : Nat) :
    Decides p (bound + 1) unit name (some target) where
  first := by
    rintro _ ⟨⟩
    exact ⟨[], .ends h, bound.succ_pos, fun _ _ _ _ => not_lt.1 (List.not_lt_nil _)⟩
  missed h := nomatch h

/-- Nothing is found where a name ends and leads nowhere. -/
theorem decides_stuck (bound : Nat) (hends : ∀ target, ¬ Ends p unit name target)
    (hstep : ∀ place next original, ¬ Step p unit name place next original) :
    Decides p bound unit name none where
  first _ h := nomatch h
  missed _ places target hc := by
    cases hc with
    | ends h => exact absurd h (hends target)
    | step h _ => exact absurd h (hstep _ _ _)

theorem decides_again {bound : Nat} {found : Option Target}
    (h : Entries.get? name (exports p unit).named = some (.again next original))
    (hfound : Decides p bound next original found) :
    Decides p (bound + 1) unit name found := by
  have hagain : Step p unit name 0 next original := .again h
  -- every chain goes on from the other name
  have hchain : ∀ places target, Chain p unit name places target →
      ∃ rest, places = 0 :: rest ∧ Chain p next original rest target := by
    intro places target hc
    cases hc with
    | ends h => exact absurd hagain h.not_step
    | step hs hc =>
      cases hs with
      | again h' =>
        rw [h, Option.some.injEq, Export.again.injEq] at h'
        obtain ⟨rfl, rfl⟩ := h'
        exact ⟨_, rfl, hc⟩
      | star h' => simp [h] at h'
  refine ⟨fun target ht => ?_, fun hnone places target hc => ?_⟩
  · obtain ⟨places, hfirst⟩ := hfound.first target ht
    refine ⟨0 :: places, .step hagain hfirst.chain, Nat.succ_lt_succ hfirst.short, ?_⟩
    intro others other hc hshort
    obtain ⟨rest, rfl, hrest⟩ := hchain others other hc
    exact List.cons_le_cons 0 (hfirst.least rest other hrest (Nat.lt_of_succ_lt_succ hshort))
  · obtain ⟨rest, rfl, hrest⟩ := hchain places target hc
    exact Nat.succ_le_succ (hfound.missed hnone rest target hrest)

theorem decides_stars {bound : Nat} {find : Nat → Option Target}
    (h : Entries.get? name (exports p unit).named = none) (hname : name ≠ "default")
    (hfind : ∀ star, Decides p bound star name (find star)) :
    Decides p (bound + 1) unit name ((exports p unit).stars.findSome? find) := by
  -- every chain goes on from one of the units
  have hchain : ∀ places target, Chain p unit name places target →
      ∃ place rest star, places = place :: rest ∧ (exports p unit).stars[place]? = some star ∧
        Chain p star name rest target := by
    intro places target hc
    cases hc with
    | ends h' =>
      obtain ⟨e, he, -⟩ := h'.get?_ne_again
      simp [h] at he
    | step hs hc =>
      cases hs with
      | again h' => simp [h] at h'
      | star _ _ hstar => exact ⟨_, _, _, rfl, hstar, hc⟩
  refine ⟨fun target ht => ?_, fun hnone places target hc => ?_⟩
  · obtain ⟨before, star, behind, hstars, hstar, hbefore⟩ := List.findSome?_eq_some_iff.1 ht
    have hat : (exports p unit).stars[before.length]? = some star := by simp [hstars]
    obtain ⟨places, hfirst⟩ := (hfind star).first target hstar
    refine ⟨before.length :: places, .step (.star h hname hat) hfirst.chain,
      Nat.succ_lt_succ hfirst.short, fun others other hc hshort => ?_⟩
    obtain ⟨place, rest, star', rfl, hat', hrest⟩ := hchain others other hc
    have hrestShort : rest.length < bound := Nat.lt_of_succ_lt_succ hshort
    rcases lt_trichotomy place before.length with hlt | rfl | hgt
    · -- the units before have no chain that is short enough
      have hmem : star' ∈ before := by
        rw [hstars, List.getElem?_append_left hlt] at hat'
        exact List.mem_of_getElem? hat'
      have := (hfind star').missed (hbefore star' hmem) rest other hrest
      omega
    · obtain rfl := Option.some.inj (hat.symm.trans hat')
      exact List.cons_le_cons _ (hfirst.least rest other hrest hrestShort)
    · exact (List.cons_lt_cons_iff.2 (.inl hgt)).le
  · obtain ⟨place, rest, star, rfl, hat, hrest⟩ := hchain places target hc
    have hstar := List.findSome?_eq_none_iff.1 hnone star (List.mem_of_getElem? hat)
    exact Nat.succ_le_succ ((hfind star).missed hstar rest target hrest)

theorem decides_own {own : String}
    (h : Entries.get? name (exports p unit).named = some (.own own)) (bound : Nat) :
    Decides p (bound + 1) unit name
      (((lookup p .value own (.root unit)).or (lookup p .type own (.root unit))).map .binding) := by
  cases hvalue : lookup p .value own (.root unit) with
  | some binding => exact decides_ends (.value h hvalue) bound
  | none =>
    cases htype : lookup p .type own (.root unit) with
    | some binding => exact decides_ends (.type h hvalue htype) bound
    | none =>
      refine decides_stuck _ ?_ fun _ _ _ => not_step_of_get? h (by simp)
      rintro _ (⟨h', hb⟩ | ⟨h', -, hb⟩ | h' | h')
      all_goals
        rw [h] at h'
        cases h'
      · rw [hvalue] at hb
        cases hb
      · rw [htype] at hb
        cases hb

/-- The search for a number of units decides whether there is a chain of fewer steps. -/
theorem decides_resolveWithin? (bound unit : Nat) (name : String) :
    Decides p bound unit name (resolveWithin? p (exports p) bound unit name) := by
  induction bound generalizing unit name with
  | zero => exact ⟨fun _ h => (nomatch h), fun _ _ _ _ => Nat.zero_le _⟩
  | succ bound ih =>
    rw [resolveWithin?]
    split
    next own h => exact decides_own h bound
    next binding h => exact decides_ends (.node h) bound
    next next original h => exact decides_again h (ih next original)
    next whole h => exact decides_ends (.module h) bound
    next h =>
      refine decides_stuck _ ?_ fun _ _ _ => not_step_of_get? h (by simp)
      rintro _ (⟨h', -⟩ | ⟨h', -, -⟩ | h' | h') <;> simp [h] at h'
    next h =>
      split
      next hname =>
        refine decides_stuck _ ?_ ?_
        · intro target hends
          obtain ⟨e, he, -⟩ := hends.get?_ne_again
          simp [h] at he
        · rintro _ _ _ (hagain | ⟨-, hne, -⟩)
          · simp [h] at hagain
          · exact hne hname
      next hname => exact decides_stars h hname fun star => ih star name

theorem decides_resolve? (unit : Nat) (name : String) :
    Decides p maxExportUnits unit name (resolve? p unit name) := by
  unfold resolve?
  simp only [exportsIn_exportTable]
  exact decides_resolveWithin? maxExportUnits unit name

end RouteContract.Names

namespace RouteContract.Types

open Names (Chain IsFirst Target)

variable {p : Program}

/-- The key of the symbol of an end. -/
def endKey : Target → SymbolKey
  | .binding id => .decl id
  | .module unit => .module unit

theorem exists_run_targetSymbol (target : Target) (M : Memory) :
    ∃ s M', (targetSymbol p target).run M = some (s, M') ∧ M'.keyOf? s = some (endKey target) := by
  obtain ⟨⟨s, M'⟩, hrun⟩ := answers_targetSymbol (p := p) target M
  refine ⟨s, M', hrun, ?_⟩
  cases target with
  | binding id => exact keyOf?_of_run_internSymbol hrun
  | module unit => exact keyOf?_of_run_internSymbol hrun

theorem endKey_injective : Function.Injective endKey := by
  rintro (id | unit) (id' | unit') h <;> cases h <;> rfl

/-- **Re-exports are followed to the end of their first chain.** Looking for what a unit exports
under a name always gives an answer. It is the symbol of the end of the first chain, in depth-first
order, of at most sixteen steps; and it is nothing exactly when every chain is longer, however the
re-exports of the program go round. -/
theorem exportSymbol?_ends_first_chain (p : Program) (unit : Nat) (name : String) (M : Memory) :
    ∃ found M', (exportSymbol? p unit name).run M = some (found, M') ∧
      (∀ target, (∃ s, found = some s ∧ M'.keyOf? s = some (endKey target)) ↔
        ∃ places, IsFirst p 17 unit name places target) ∧
      (found = none ↔ ∀ places target, Chain p unit name places target → 16 < places.length) := by
  have hdecides : Names.Decides p 17 unit name (Names.resolve? p unit name) :=
    Names.decides_resolve? unit name
  cases hresolve : Names.resolve? p unit name with
  | none =>
    refine ⟨none, M, ?_, fun target => ?_, fun _ => hdecides.missed hresolve, fun _ => rfl⟩
    · rw [exportSymbol?, hresolve]
      rfl
    · have hiff : _ = some target ↔ _ := hdecides.eq_some_iff
      rw [hresolve] at hiff
      simpa using hiff
  | some target =>
    obtain ⟨places, hfirst⟩ := hdecides.first target hresolve
    obtain ⟨s, M', hrun, hkey⟩ := exists_run_targetSymbol (p := p) target M
    refine ⟨some s, M', ?_, fun other => ?_, fun h => (nomatch h), fun hlong => ?_⟩
    · rw [exportSymbol?, hresolve]
      show (do let s ← targetSymbol p target; return some s : Resolve (Option SymbolId)).run M = _
      rw [StateT.run_bind, hrun]
      rfl
    · rw [← hdecides.eq_some_iff]
      constructor
      · rintro ⟨_, ⟨⟩, h⟩
        rw [hkey, Option.some.injEq] at h
        exact endKey_injective h ▸ hresolve
      · intro h
        obtain rfl := Option.some.inj (hresolve.symm.trans h)
        exact ⟨s, rfl, hkey⟩
    · have hshort := Nat.le_of_lt_succ hfirst.short
      exact absurd (hlong places target hfirst.chain) (Nat.not_lt.2 hshort)

end RouteContract.Types
