import Mathlib
import RouteContract.Proofs.Crawl.Sites
import RouteContract.Proofs.Crawl.Walk
import RouteContract.Proofs.Outcome

/-!
# Invariants of the crawl

When the oracle has a state of its own, the sites of a program cannot be told before the crawl runs:
a call may find other handlers each time that it is looked at. But the state of the crawl changes in
one place only, where a call registers an operation. So what every registration keeps, whatever the
oracle answers, the whole crawl keeps (`satisfiesM_crawl`).
-/

namespace RouteContract.Crawl

variable {m : Type → Type} [Monad m] [LawfulMonad m] {p : Program} {o : Oracle m}
  {markers : List String} {resolves : NodeId → Option NodeId → Prop}

variable (p resolves) in
/-- A call of the program registers handlers for a method: they are what its arguments resolve to,
in the order of the arguments, and there is one. -/
def Registers (call : NodeId) (method : Method) (handlers : List NodeId) : Prop :=
  ∃ unit position c, CallAt p unit position call c ∧ Method.ofVerb? c.verb = some method ∧
    (∃ found, List.Forall₂ resolves (handlerArguments p c) found ∧
      handlers = found.reduceOption) ∧ handlers ≠ []

omit [LawfulMonad m] in
/-- A function expression is its own handler, whatever the oracle. -/
theorem resolveHandler_of_functionLiteral {argument : NodeId}
    (h : isFunctionLiteral p (p.skipParens argument) = true) :
    resolveHandler p o argument = pure (some (p.skipParens argument)) := by
  unfold resolveHandler
  simp [h]

theorem satisfiesM_resolveHandlers
    (h : ∀ argument, SatisfiesM (resolves argument) (resolveHandler p o argument))
    (arguments : List NodeId) :
    SatisfiesM (fun handlers => ∃ found, List.Forall₂ resolves arguments found ∧
      handlers = found.reduceOption) (resolveHandlers p o arguments) := by
  induction arguments with
  | nil => exact SatisfiesM.pure ⟨[], .nil, rfl⟩
  | cons a rest ih =>
    refine SatisfiesM.bind (h a) fun answer ha => ?_
    cases answer with
    | none =>
      refine ih.imp ?_
      rintro _ ⟨found, hfound, rfl⟩
      exact ⟨none :: found, .cons ha hfound, (List.reduceOption_cons_of_none _).symm⟩
    | some handler =>
      refine SatisfiesM.bind ih ?_
      rintro _ ⟨found, hfound, rfl⟩
      exact SatisfiesM.pure
        ⟨some handler :: found, .cons ha hfound, (List.reduceOption_cons_of_some _ _).symm⟩

/-- A computation keeps an invariant of the state of the crawl. -/
def KeepsState (I : CrawlState → Prop) (x : Crawling m Unit) : Prop :=
  ∀ s, I s → Ensures x s fun _ s' => I s'

variable (p o markers resolves) in
/-- A registration keeps an invariant, from whatever the analysis of its handlers leaves. -/
def KeptByRegistrations (I : CrawlState → Prop) : Prop :=
  ∀ call method handlers, Registers p resolves call method handlers → ∀ path s, I s →
    SatisfiesM (fun r => ∀ warnings, I ⟨s.routes.register path method r.1, r.2, warnings⟩)
      (analyseHandlers p o (documentedOperation p markers call path handlers).1 s.table handlers)

section

variable {I : CrawlState → Prop}
  (h : ∀ argument, SatisfiesM (resolves argument) (resolveHandler p o argument))
  (hI : KeptByRegistrations p o markers resolves I)
include h hI

theorem keepsState_registerRoute {unit position : Nat} {call : NodeId} {c : MemberCall}
    (hcall : CallAt p unit position call c) {method : Method}
    (hmethod : Method.ofVerb? c.verb = some method) (base : String) :
    KeepsState I (registerRoute p o markers base method call c) := by
  intro s hs
  refine ensures_lift_bind fun path => ?_
  cases path with
  | none => exact ensures_pure hs
  | some path =>
    refine ensures_lift_bind_of (satisfiesM_resolveHandlers h _) fun handlers hhandlers => ?_
    split
    · exact ensures_pure hs
    · next hne =>
      have hregisters : Registers p resolves call method handlers :=
        ⟨unit, position, c, hcall, hmethod, hhandlers, by simpa using hne⟩
      refine ensures_get_bind ?_
      refine ensures_lift_bind_of (hI call method handlers hregisters _ s hs) fun r hr => ?_
      exact ensures_set (hr _)

theorem keepsState_visitCallSite {crawl : Nat → String → List Nat → Crawling m Unit}
    (hcrawl : ∀ unit base stack, KeepsState I (crawl unit base stack)) {unit position : Nat}
    {node : NodeId} (hnode : (p.preorder (.root unit))[position]? = some node) (base : String)
    (stack : List Nat) : KeepsState I (visitCallSite p o markers crawl base stack node) := by
  intro s hs
  unfold visitCallSite
  split
  · next hkind =>
    split
    · exact ensures_pure hs
    · next c hc =>
      split
      · refine ensures_lift_bind fun path => ensures_lift_bind fun target => ?_
        cases target with
        | none => exact ensures_pure hs
        | some target =>
          dsimp only
          split
          · exact ensures_pure hs
          · exact hcrawl _ _ _ s hs
      · split
        · next method hmethod =>
          exact keepsState_registerRoute h hI ⟨hnode, hkind, hc⟩ hmethod base s hs
        · exact ensures_pure hs
  · exact ensures_pure hs

theorem keepsState_walkM {crawl : Nat → String → List Nat → Crawling m Unit}
    (hcrawl : ∀ unit base stack, KeepsState I (crawl unit base stack)) (unit : Nat) (base : String)
    (stack : List Nat) :
    KeepsState I (p.walkM (visitCallSite p o markers crawl base stack) [.root unit]) := by
  intro s hs
  rw [Program.walkM_singleton]
  refine ensures_forM _ (fun node hnode s hs => ?_) hs
  obtain ⟨position, hposition⟩ := List.mem_iff_getElem?.1 hnode
  exact keepsState_visitCallSite h hI hcrawl hposition base stack s hs

theorem keepsState_crawlUnit (left unit : Nat) (base : String) (stack : List Nat) :
    KeepsState I (crawlUnit p o markers left unit base stack) := by
  induction left generalizing unit base stack with
  | zero => exact keepsState_walkM h hI (fun _ _ _ _ hs => ensures_pure hs) unit base stack
  | succ left ih => exact keepsState_walkM h hI ih unit base stack

/-- **What every registration keeps, the crawl keeps.** -/
theorem satisfiesM_crawl (hempty : I {}) (entry : Nat) :
    SatisfiesM (fun r => I ⟨r.1.routes, r.1.schemas, r.2⟩) (crawl p o markers entry) :=
  SatisfiesM.bind (keepsState_crawlUnit h hI p.units.size entry "/" [entry] {} hempty)
    fun _ hr => SatisfiesM.pure hr

end

end RouteContract.Crawl
