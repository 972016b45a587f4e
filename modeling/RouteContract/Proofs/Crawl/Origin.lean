import Mathlib
import RouteContract.Proofs.Crawl.Watch

/-!
# The crawl stays in the project

References are followed into units of the project only, and function expressions and helper
functions are in the unit that they are met in. So a crawl that starts in the project never walks a
unit, never merges a handler and never analyses a function of a declaration file or of a dependency,
however far it goes.
-/

namespace RouteContract

/-- A unit is there and comes from the project's own sources. -/
def Program.InProject (p : Program) (unit : ℕ) : Prop :=
  unit < p.units.size ∧ (p.unit unit).origin = .project

instance (p : Program) (unit : ℕ) : Decidable (p.InProject unit) :=
  inferInstanceAs (Decidable (_ ∧ _))

/-- An oracle finds the declarations of symbols in units of the program. -/
def Oracle.Declares {m : Type → Type} [Monad m] (o : Oracle m) (p : Program) : Prop :=
  ∀ s, SatisfiesM (fun ds => ∀ d ∈ ds, d.unit < p.units.size) (o.declarations s)

namespace Crawl

/-- An event is about units of the project: the unit that is walked and those of its branch, or the
unit of a function. -/
def Event.InProject (p : Program) : Event → Prop
  | .walk unit stack => p.InProject unit ∧ ∀ mounted ∈ stack, p.InProject mounted
  | .merge handler => p.InProject handler.unit
  | .enter body => p.InProject body.unit

instance (p : Program) : DecidablePred (Event.InProject p)
  | .walk _ stack => inferInstanceAs (Decidable (_ ∧ ∀ mounted ∈ stack, p.InProject mounted))
  | .merge handler => inferInstanceAs (Decidable (p.InProject handler.unit))
  | .enter body => inferInstanceAs (Decidable (p.InProject body.unit))

variable {m : Type → Type} [Monad m] [LawfulMonad m] {p : Program} {o : Oracle m}

/-- What a crawl comes to from the project is in the project. -/
theorem confines_inProject (ho : o.Declares p) :
    Confines p o p.InProject fun unit stack => Event.InProject p (.walk unit stack) where
  declared s := (ho s).imp fun h d hd horigin => ⟨h d hd, horigin⟩
  unit h := h.1
  mount h _ ht _ := by
    refine ⟨ht, fun mounted hm => ?_⟩
    rcases List.mem_append.1 hm with hm | hm
    · exact h.2 mounted hm
    · rw [List.mem_singleton.1 hm]
      exact ht

/-- **A crawl from the project stays in the project.** Every unit that is walked and every unit of
its branch, every handler that is merged and every function that is analysed is in the project: a
watch that is silent on these is never heard, whatever it does on other events. -/
theorem crawlWatched_eq_of_inProject (ho : o.Declares p) {entry : ℕ} (hentry : p.InProject entry)
    {watch : Event → m Unit} (hwatch : ∀ e, e.InProject p → watch e = pure ())
    (markers : List String) :
    crawlWatched p o markers watch entry = crawl p o markers entry :=
  crawlWatched_eq
    ⟨fun unit stack => hwatch (.walk unit stack), fun handler => hwatch (.merge handler),
      fun body => hwatch (.enter body)⟩
    (confines_inProject ho) markers ⟨hentry, by simpa using hentry⟩

/-! ### A mount of a declaration file -/

/-- The unit `app.use(path, router)`. -/
def mountingUnit (origin : Origin) : SourceUnit where
  origin := origin
  nodes := #[
    { kind := "call_expression", named := true, children := [1, 4] },
    { kind := "member_expression", field := some "function", named := true, parent := some 0,
      children := [2, 3] },
    { kind := "identifier", field := some "object", named := true, parent := some 1,
      text := "app" },
    { kind := "property_identifier", field := some "property", named := true, parent := some 1,
      text := "use" },
    { kind := "arguments", field := some "arguments", named := true, parent := some 0,
      children := [5, 6] },
    { kind := "identifier", named := true, parent := some 4, text := "path" },
    { kind := "identifier", named := true, parent := some 4, text := "router" }]

/-- An oracle that finds what a unit mounts in the next one, in a monad that can fail. -/
def routerOracle (next : ℕ → ℕ) : Oracle Option where
  typeAt _ := some 0
  typeOfTypeNode _ := some 0
  symbolAt node := some (some node.unit)
  symbolName _ := some "router"
  isAlias _ := some false
  aliasedSymbol _ := some none
  declarations s := some [⟨next s, 0⟩]
  typeOfSymbol _ := some 0
  isOptional _ := some false
  containerName _ := some none
  docText _ := some none
  shape _ := some .any
  typeSymbol _ := some none
  aliasSymbol _ := some none
  typeArguments _ := some []
  isTuple _ := some false
  constituents _ := some []
  properties _ := some []
  callSignatureCount _ := some 0
  enumLiterals _ := some []
  promiseDepth _ := 0

/-- A chain of mounts that leads to a declaration file. -/
def chainProgram : Program :=
  ⟨#[mountingUnit .project, mountingUnit .project, mountingUnit .ambient]⟩

/-- The unit of the declaration file would stop the crawl, but it is not walked. -/
theorem crawlWatched_eq_of_inProject_chain :
    (routerOracle fun unit => min (unit + 1) 2).Declares chainProgram ∧
    chainProgram.InProject 0 ∧ ¬ chainProgram.InProject 2 ∧
    crawlWatched chainProgram (routerOracle fun unit => min (unit + 1) 2) []
        (fun e => if e.InProject chainProgram then some () else none) 0 =
      crawl chainProgram (routerOracle fun unit => min (unit + 1) 2) [] 0 := by
  have ho : (routerOracle fun unit => min (unit + 1) 2).Declares chainProgram := by
    intro s
    rw [SatisfiesM_Option_eq]
    rintro ds ⟨⟩ d hd
    rw [List.mem_singleton.1 hd]
    exact Nat.lt_succ_of_le (Nat.min_le_right _ _)
  refine ⟨ho, by decide +kernel, by decide +kernel, ?_⟩
  exact crawlWatched_eq_of_inProject ho (by decide +kernel) (fun e he => if_pos he) []

end Crawl

end RouteContract
