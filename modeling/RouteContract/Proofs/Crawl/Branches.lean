import Mathlib
import RouteContract.Proofs.Crawl.Inquiry
import RouteContract.Proofs.Crawl.Origin
import RouteContract.Proofs.Crawl.Walk

/-!
# The crawl ends

A unit that is on its branch is not mounted again, so that the recursion of the crawl needs no
bound: every mount of a unit that is there leaves fewer units off the branch (`free_append_lt`).
`Crawls` is the recursion without a bound, and the crawl of units is the only function that solves
it (`crawls_iff`). The branches on which units are walked are those that `Branch` describes.
-/

namespace RouteContract.Crawl

open Program

variable {m : Type → Type} [Monad m]

/-! ### The recursion without a bound -/

/-- A function crawls units: it walks a unit on a branch, and goes on with itself at the mounts. -/
def Crawls (p : Program) (o : Oracle m) (markers : List String)
    (crawlFrom : ℕ → String → List ℕ → Crawling m Unit) : Prop :=
  ∀ unit base stack, crawlFrom unit base stack =
    p.walkM (visitCallSite p o markers crawlFrom base stack) [.root unit]

/-- The number of units that are not on a branch. -/
def free (p : Program) (stack : List ℕ) : ℕ :=
  (Finset.range p.units.size \ stack.toFinset).card

variable {p : Program} {o : Oracle m} {markers : List String}

theorem free_le (stack : List ℕ) : free p stack ≤ p.units.size :=
  (Finset.card_le_card Finset.sdiff_subset).trans_eq (Finset.card_range _)

/-- A mount of a unit leaves fewer units off the branch. -/
theorem free_append_lt {stack : List ℕ} {target : ℕ} (h : target < p.units.size)
    (hn : target ∉ stack) : free p (stack ++ [target]) < free p stack := by
  refine Finset.card_lt_card (Finset.ssubset_iff_of_subset ?_ |>.2 ⟨target, ?_, ?_⟩)
  · exact Finset.sdiff_subset_sdiff subset_rfl (by simp)
  · simpa using ⟨h, hn⟩
  · simp

variable [LawfulMonad m]

/-- Nothing happens in a unit that is not there. -/
theorem walkM_of_size_le {unit : ℕ} (h : p.units.size ≤ unit)
    (crawlFrom : ℕ → String → List ℕ → Crawling m Unit) (base : String) (stack : List ℕ) :
    p.walkM (visitCallSite p o markers crawlFrom base stack) [.root unit] = pure () := by
  have hidle : ∀ node, node.unit = unit →
      visitCallSite p o markers crawlFrom base stack node = pure () := by
    intro node hnode
    rw [visitCallSite, if_neg fun hkind => absurd (unit_lt_of_call hkind) (by omega)]
  rw [p.walkM_root_congr hidle, walkM_eq_forM]
  generalize ([NodeId.root unit].flatMap p.preorder) = nodes
  induction nodes with
  | nil => rfl
  | cons node nodes ih => rw [List.forM_eq_forM, List.forM_cons, pure_bind, ← List.forM_eq_forM, ih]

/-- Walks are told from what happens at the mounts of units that are not on the branch. -/
theorem walkM_congr_of_mounts {crawlFrom crawlFrom' : ℕ → String → List ℕ → Crawling m Unit}
    {stack : List ℕ}
    (hin : ∀ target base, target < p.units.size → target ∉ stack →
      crawlFrom target base (stack ++ [target]) = crawlFrom' target base (stack ++ [target]))
    (hout : ∀ target base, p.units.size ≤ target →
      crawlFrom target base (stack ++ [target]) = crawlFrom' target base (stack ++ [target]))
    (unit : ℕ) (base : String) :
    p.walkM (visitCallSite p o markers crawlFrom base stack) [.root unit] =
      p.walkM (visitCallSite p o markers crawlFrom' base stack) [.root unit] := by
  refine p.walkM_root_congr fun node _ =>
    visitCallSite_congr (confines_true p o) (fun _ target base _ hn => ?_) markers base
  rcases lt_or_ge target p.units.size with hlt | hge
  · exact hin target base hlt hn
  · exact hout target base hge

theorem crawlUnit_of_size_le (left : ℕ) {unit : ℕ} (h : p.units.size ≤ unit) (base : String)
    (stack : List ℕ) : crawlUnit p o markers left unit base stack = pure () := by
  cases left <;> exact walkM_of_size_le h _ base stack

/-- A bound that leaves room for the units off the branch is not reached. -/
theorem crawlUnit_succ {left : ℕ} {stack : List ℕ} (h : free p stack ≤ left) (unit : ℕ)
    (base : String) :
    crawlUnit p o markers (left + 1) unit base stack =
      crawlUnit p o markers left unit base stack := by
  induction left generalizing unit base stack with
  | zero =>
    refine walkM_congr_of_mounts (fun target base hlt hn => ?_) (fun target base hge => ?_)
      unit base
    · have := free_append_lt hlt hn
      omega
    · exact crawlUnit_of_size_le 0 hge base _
  | succ left ih =>
    refine walkM_congr_of_mounts (fun target base hlt hn => ?_) (fun target base hge => ?_)
      unit base
    · have := free_append_lt hlt hn
      exact ih (by omega) target base
    · rw [crawlUnit_of_size_le _ hge, crawlUnit_of_size_le _ hge]

namespace Crawls

variable {crawlFrom : ℕ → String → List ℕ → Crawling m Unit} (hc : Crawls p o markers crawlFrom)
include hc

theorem of_size_le {unit : ℕ} (h : p.units.size ≤ unit) (base : String) (stack : List ℕ) :
    crawlFrom unit base stack = pure () := by
  rw [hc]
  exact walkM_of_size_le h _ base stack

theorem eq_crawlUnit {left : ℕ} {stack : List ℕ} (h : free p stack ≤ left) (unit : ℕ)
    (base : String) : crawlFrom unit base stack = crawlUnit p o markers left unit base stack := by
  induction left generalizing unit base stack with
  | zero =>
    rw [hc]
    refine walkM_congr_of_mounts (fun target base hlt hn => ?_) (fun target base hge => ?_)
      unit base
    · have := free_append_lt hlt hn
      omega
    · exact hc.of_size_le hge base _
  | succ left ih =>
    rw [hc]
    refine walkM_congr_of_mounts (fun target base hlt hn => ?_) (fun target base hge => ?_)
      unit base
    · have := free_append_lt hlt hn
      exact ih (by omega) target base
    · rw [hc.of_size_le hge, crawlUnit_of_size_le _ hge]

end Crawls

/-- The recursion without a bound has one solution, the crawl of units. -/
theorem crawls_iff {crawlFrom : ℕ → String → List ℕ → Crawling m Unit} :
    Crawls p o markers crawlFrom ↔ crawlFrom = crawlUnit p o markers p.units.size := by
  constructor
  · intro hc
    funext unit base stack
    exact hc.eq_crawlUnit (free_le stack) unit base
  · rintro rfl unit base stack
    rw [← crawlUnit_succ (free_le stack)]
    rfl

/-! ### Branches -/

/-- A unit is walked on a branch of mounts that starts with the entry and ends with the unit, which
was not on it before. All its units are distinct, and there are no more than units of the program.
(A unit that is not there, which a declaration could name, has no nodes and mounts nothing.) -/
structure Branch (p : Program) (entry unit : ℕ) (stack : List ℕ) : Prop where
  nodup : stack.Nodup
  first : stack.head? = some entry
  last : stack.getLast? = some unit
  fresh : unit ∉ stack.dropLast
  inside : unit < p.units.size → ∀ mounted ∈ stack, mounted < p.units.size
  length_le : unit < p.units.size → stack.length ≤ p.units.size

instance (p : Program) (entry unit : ℕ) (stack : List ℕ) : Decidable (Branch p entry unit stack) :=
  decidable_of_iff
    (stack.Nodup ∧ stack.head? = some entry ∧ stack.getLast? = some unit ∧
      unit ∉ stack.dropLast ∧
      (unit < p.units.size → ∀ mounted ∈ stack, mounted < p.units.size) ∧
      (unit < p.units.size → stack.length ≤ p.units.size))
    ⟨fun ⟨nodup, first, last, fresh, inside, length_le⟩ =>
        ⟨nodup, first, last, fresh, inside, length_le⟩,
      fun h => ⟨h.nodup, h.first, h.last, h.fresh, h.inside, h.length_le⟩⟩

theorem length_le_of_inside {stack : List ℕ} (hs : stack.Nodup) {n : ℕ}
    (h : ∀ unit ∈ stack, unit < n) : stack.length ≤ n := by
  rw [← List.toFinset_card_of_nodup hs, ← Finset.card_range n]
  exact Finset.card_le_card fun unit hunit => by simpa using h unit (by simpa using hunit)

omit [LawfulMonad m] in
theorem branch_entry (p : Program) (entry : ℕ) : Branch p entry entry [entry] where
  nodup := List.nodup_singleton entry
  first := rfl
  last := rfl
  fresh := by simp
  inside h := by simpa using h
  length_le h := Nat.succ_le_of_lt (Nat.zero_lt_of_lt h)

/-- A unit that is not on a branch makes a longer one. -/
theorem Branch.mount {entry unit target : ℕ} {stack : List ℕ} (h : Branch p entry unit stack)
    (hunit : unit < p.units.size) (hn : target ∉ stack) :
    Branch p entry target (stack ++ [target]) := by
  have hnodup : (stack ++ [target]).Nodup := by simpa using h.nodup.concat hn
  have hinside : target < p.units.size → ∀ mounted ∈ stack ++ [target], mounted < p.units.size := by
    intro htarget mounted hm
    rcases List.mem_append.1 hm with hm | hm
    · exact h.inside hunit mounted hm
    · rw [List.mem_singleton.1 hm]
      exact htarget
  refine ⟨hnodup, ?_, List.getLast?_concat .., ?_, hinside, fun ht => ?_⟩
  · rw [List.head?_append, h.first, Option.some_or]
  · rwa [List.dropLast_concat]
  · exact length_le_of_inside hnodup (hinside ht)

/-- A unit is walked on a branch from the entry. -/
def Event.OnBranch (p : Program) (entry : ℕ) : Event → Prop
  | .walk unit stack => Branch p entry unit stack
  | _ => True

instance (p : Program) (entry : ℕ) : DecidablePred (Event.OnBranch p entry)
  | .walk unit stack => inferInstanceAs (Decidable (Branch p entry unit stack))
  | .merge _ => .isTrue trivial
  | .enter _ => .isTrue trivial

/-- The branches of a crawl are branches from the entry. -/
theorem confines_branch (p : Program) (o : Oracle m) (entry : ℕ) :
    Confines p o (fun _ => True) (Branch p entry) where
  declared _ := SatisfiesM.of_true fun _ _ _ _ => trivial
  unit _ := trivial
  mount h hunit _ hn := h.mount hunit hn

/-- **The crawl ends**, though units may mount each other or themselves. The recursion over mounts
needs no bound, all that is done besides is made of questions to the oracle, and every unit is
walked on a branch from the entry, a watch that is silent on these being never heard. -/
theorem crawl_ends (p : Program) (o : Oracle m) (markers : List String) (entry : ℕ)
    {K : ∀ {α : Type}, m α → Prop} (hK : o.Closed K) {watch : Event → m Unit}
    (hwatch : ∀ e, e.OnBranch p entry → watch e = pure ()) :
    (∀ crawlFrom, Crawls p o markers crawlFrom ↔
      crawlFrom = crawlUnit p o markers p.units.size) ∧
    K (crawl p o markers entry) ∧
    crawlWatched p o markers watch entry = crawl p o markers entry := by
  refine ⟨fun _ => crawls_iff, hK.crawl p markers entry, ?_⟩
  refine crawlWatched_eq ⟨?_, fun handler _ => ?_, fun body _ => ?_⟩ (confines_branch p o entry)
    markers (branch_entry p entry)
  · exact fun unit stack => hwatch (.walk unit stack)
  · exact hwatch (.merge handler) trivial
  · exact hwatch (.enter body) trivial

/-! ### Units that mount each other -/

/-- Two units that mount each other. -/
def ringProgram : Program := ⟨#[mountingUnit .project, mountingUnit .project]⟩

/-- The entry is mounted by the unit that it mounts, and is not walked again there: the watch, which
would fail, does not, and the crawl answers. -/
theorem crawl_ends_ring :
    ¬ Event.OnBranch ringProgram 0 (.walk 0 [0, 1, 0]) ∧
    (crawl ringProgram (routerOracle fun unit => 1 - unit) [] 0).isSome ∧
    crawlWatched ringProgram (routerOracle fun unit => 1 - unit) []
        (fun e => if e.OnBranch ringProgram 0 then some () else none) 0 =
      crawl ringProgram (routerOracle fun unit => 1 - unit) [] 0 := by
  have hK : (routerOracle fun unit => 1 - unit).Closed fun x => x.isSome := by
    constructor
    case bind =>
      intro α β x f hx hf
      obtain ⟨a, rfl⟩ := Option.isSome_iff_exists.1 hx
      exact hf a
    all_goals exact fun _ => rfl
  have hwatch : ∀ e : Event, e.OnBranch ringProgram 0 →
      (if e.OnBranch ringProgram 0 then some () else none) = pure () := fun _ he => if_pos he
  obtain ⟨-, hanswers, hsilent⟩ :=
    crawl_ends ringProgram (routerOracle fun unit => 1 - unit) [] 0 hK hwatch
  exact ⟨by decide +kernel, hanswers, hsilent⟩

end RouteContract.Crawl
