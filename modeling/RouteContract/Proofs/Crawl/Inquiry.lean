import Mathlib
import RouteContract.Crawl.Routes
import RouteContract.Proofs.Crawl.Analysis

/-!
# The crawl asks its oracle only

What a crawl does in the monad of its oracle is made of questions to the oracle: every family of
computations that holds the questions, and what is made of them, holds the crawl. So a crawl comes
to an end whenever all answers of its oracle do.
-/

namespace RouteContract.Oracle.Closed

open Crawl

variable {m : Type → Type} [Monad m] {o : Oracle m} {K : ∀ {α : Type}, m α → Prop}
  (hK : o.Closed K)
include hK

theorem resolveHandlers (p : Program) (arguments : List NodeId) :
    K (resolveHandlers p o arguments) := by
  induction arguments with
  | nil => exact hK.pure _
  | cons a rest ih =>
    refine hK.bind (hK.resolveHandler p a) fun handler => ?_
    cases handler with
    | none => exact ih
    | some handler => exact hK.bind ih fun _ => hK.pure _

theorem walkM {σ : Type} {visit : NodeId → StateT σ m Unit} (h : ∀ node, Asks K (visit node))
    (p : Program) (pending : List NodeId) : Asks K (p.walkM visit pending) := by
  fun_induction Program.walkM p visit pending with
  | case1 => exact hK.asks_pure ()
  | case2 node pending ih => exact hK.asks_bind (h node) fun _ => ih

theorem asks_addHeader (name : String) (required : Bool) :
    Asks K (addHeader name required : Usage m Unit) := by
  unfold addHeader
  split
  · exact hK.asks_pure ()
  · exact hK.asks_modify _

variable [LawfulMonad m]

theorem asks_schemaOf (t : TypeId) : Asks K (schemaOf o t) :=
  hK.asks_bind hK.asks_get fun s =>
    hK.asks_bind (hK.asks_ask (hK.ofType t s.table)) fun _ =>
      hK.asks_bind (hK.asks_modify _) fun _ => hK.asks_pure _

theorem asks_addQueryParameter (property : SymbolId) :
    Asks K (addQueryParameter o property) := by
  refine hK.asks_bind ?_ fun _ => hK.asks_modify _
  refine hK.asks_bind (hK.asks_ask (hK.symbolName property)) fun _ => ?_
  refine hK.asks_bind (hK.asks_ask (hK.typeOfSymbol property)) fun t => ?_
  refine hK.asks_bind (hK.asks_schemaOf t) fun _ => ?_
  refine hK.asks_bind (hK.asks_ask (hK.isOptional property)) fun _ => ?_
  exact hK.asks_bind (hK.asks_ask (hK.docText property)) fun _ => hK.asks_pure _

theorem asks_setBody (t : TypeId) : Asks K (setBody o t) := by
  refine hK.asks_bind (hK.asks_schemaOf t) fun schema => ?_
  split
  · exact hK.asks_modify _
  · exact hK.asks_pure ()

theorem asks_sendPayload (t : TypeId) : Asks K (sendPayload o t) := by
  refine hK.asks_bind (hK.asks_modify _) fun _ => hK.asks_bind hK.asks_get fun s => ?_
  dsimp only
  split
  · exact hK.asks_bind (hK.asks_schemaOf t) fun _ => hK.asks_modify _
  · exact hK.asks_pure ()

/-- The steps of usage analysis are made of questions to the oracle. -/
theorem steps_asks : Steps o (Asks K) where
  pure a := hK.asks_pure a
  bind hx hf := hK.asks_bind hx hf
  ask _ hq := hK.asks_ask (hq K hK)
  header := hK.asks_addHeader
  query := hK.asks_addQueryParameter
  looseQuery _ := hK.asks_modify _
  body := hK.asks_setBody
  bodyPlace := hK.asks_modify _
  payload := hK.asks_sendPayload
  status _ := hK.asks_modify _
  visited hf := hK.asks_bind hK.asks_get fun s => hf s.visited
  mark _ := hK.asks_modify _

theorem analyseHandlers (p : Program) (handlers : List NodeId) (op : Operation)
    (table : Entries Schema) : K (analyseHandlers p o op table handlers) := by
  induction handlers generalizing op table with
  | nil => exact hK.pure _
  | cons handler rest ih =>
    have hhandler : K (analyseHandler p o handler op table) :=
      hK.bind (hK.steps_asks.analyseHandlerM p handler ⟨op, table, []⟩) fun _ => hK.pure _
    exact hK.bind hhandler fun r => ih r.1 r.2

theorem registerRoute (p : Program) (markers : List String) (base : String) (method : Method)
    (call : NodeId) (c : MemberCall) :
    Asks K (registerRoute p o markers base method call c) := by
  refine hK.asks_bind (hK.asks_ask (hK.resolvePath p c.first)) fun path => ?_
  cases path with
  | none => exact hK.asks_pure ()
  | some path =>
    refine hK.asks_bind (hK.asks_ask (hK.resolveHandlers p _)) fun handlers => ?_
    split
    · exact hK.asks_pure ()
    · refine hK.asks_bind hK.asks_get fun s => ?_
      exact hK.asks_bind (hK.asks_ask (hK.analyseHandlers p _ _ _)) fun _ => hK.asks_set _

theorem visitCallSite (p : Program) (markers : List String)
    {crawlUnit : ℕ → String → List ℕ → Crawling m Unit}
    (h : ∀ unit base stack, Asks K (crawlUnit unit base stack)) (base : String) (stack : List ℕ)
    (node : NodeId) : Asks K (visitCallSite p o markers crawlUnit base stack node) := by
  unfold Crawl.visitCallSite
  split
  · split
    · exact hK.asks_pure ()
    · split
      · refine hK.asks_bind (hK.asks_ask (hK.resolvePath p _)) fun path => ?_
        refine hK.asks_bind (hK.asks_ask (hK.resolveMount p _)) fun target => ?_
        cases target with
        | none => exact hK.asks_pure ()
        | some target =>
          dsimp only
          split
          · exact hK.asks_pure ()
          · exact h _ _ _
      · split
        · exact hK.registerRoute p markers base _ node _
        · exact hK.asks_pure ()
  · exact hK.asks_pure ()

theorem crawlUnit (p : Program) (markers : List String) (left unit : ℕ) (base : String)
    (stack : List ℕ) : Asks K (crawlUnit p o markers left unit base stack) := by
  induction left generalizing unit base stack with
  | zero =>
    exact hK.walkM (hK.visitCallSite p markers (fun _ _ _ => hK.asks_pure ()) base stack) p _
  | succ left ih => exact hK.walkM (hK.visitCallSite p markers ih base stack) p _

/-- A crawl is made of questions to the oracle. -/
theorem crawl (p : Program) (markers : List String) (entry : ℕ) :
    K (crawl p o markers entry) :=
  hK.bind (hK.crawlUnit p markers p.units.size entry "/" [entry] {}) fun _ => hK.pure _

end RouteContract.Oracle.Closed
