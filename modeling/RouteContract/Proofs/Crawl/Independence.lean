import Mathlib
import RouteContract.Crawl.Routes
import RouteContract.Proofs.Crawl.Analysis
import RouteContract.Proofs.Schema.Independence

/-!
# Operations do not depend on the table of named schemas

Over an oracle that is a fixed function of its arguments, usage analysis reads the table only to
extend it. Two runs that start alike up to the table end alike up to the table, so the operation of
a route is the same whatever was crawled before it.
-/

namespace RouteContract.Crawl

/-- Two states of an analysis are alike up to the table. -/
def Alike (s s' : UsageState) : Prop := s.operation = s'.operation ∧ s.visited = s'.visited

/-- A computation keeps states alike up to the table, and returns the same from such states. -/
def TableFree {α : Type} (x : Usage Id α) : Prop :=
  ∀ s s', Alike s s' → (x.run s).1 = (x.run s').1 ∧ Alike (x.run s).2 (x.run s').2

section

variable {α β : Type}

theorem tableFree_pure (a : α) : TableFree (pure a : Usage Id α) := fun _ _ h => ⟨rfl, h⟩

theorem TableFree.bind {x : Usage Id α} {f : α → Usage Id β} (hx : TableFree x)
    (hf : ∀ a, TableFree (f a)) : TableFree (x >>= f) := by
  intro s s' h
  obtain ⟨hv, hs⟩ := hx s s' h
  show ((f (x.run s).1).run (x.run s).2).1 = ((f (x.run s').1).run (x.run s').2).1 ∧
    Alike ((f (x.run s).1).run (x.run s).2).2 ((f (x.run s').1).run (x.run s').2).2
  rw [hv]
  exact hf _ _ _ hs

theorem tableFree_ask (q : Id α) : TableFree (askOracle q) := fun _ _ h => ⟨rfl, h⟩

theorem tableFree_change (f : Operation → Operation) : TableFree (change f : Usage Id Unit) :=
  fun _ _ h => ⟨rfl, congrArg f h.1, h.2⟩

/-- What a computation does with the operation it finds depends on the operation only. -/
theorem tableFree_get {g : UsageState → β} (hg : ∀ s s', Alike s s' → g s = g s')
    {f : β → Usage Id α} (hf : ∀ b, TableFree (f b)) : TableFree (get >>= fun s => f (g s)) := by
  intro s s' h
  show ((f (g s)).run s).1 = ((f (g s')).run s').1 ∧
    Alike ((f (g s)).run s).2 ((f (g s')).run s').2
  rw [hg s s' h]
  exact hf _ _ _ h

end

variable (p : Program) (o : Oracle Id)

theorem tableFree_schemaOf (t : TypeId) : TableFree (schemaOf o t) := by
  intro s s' h
  refine ⟨?_, h⟩
  show ((Schema.ofType o t).run s.table).1 = ((Schema.ofType o t).run s'.table).1
  exact Schema.tableFree_ofType o t _ _

theorem tableFree_addHeader (name : String) (required : Bool) :
    TableFree (addHeader name required : Usage Id Unit) := by
  unfold addHeader
  split
  · exact tableFree_pure ()
  · exact tableFree_change _

theorem tableFree_setBody (t : TypeId) : TableFree (setBody o t) := by
  refine (tableFree_schemaOf o t).bind fun schema => ?_
  split
  · exact tableFree_change _
  · exact tableFree_pure ()

theorem tableFree_addQueryParameter (property : SymbolId) :
    TableFree (addQueryParameter o property) := by
  refine TableFree.bind ?_ fun parameter => tableFree_change _
  refine (tableFree_ask _).bind fun name => (tableFree_ask _).bind fun t => ?_
  refine (tableFree_schemaOf o t).bind fun schema => (tableFree_ask _).bind fun isOptional => ?_
  exact (tableFree_ask _).bind fun description => tableFree_pure _

theorem tableFree_sendPayload (t : TypeId) : TableFree (sendPayload o t) := by
  refine (tableFree_change _).bind fun _ => ?_
  refine tableFree_get (g := fun s => (Entries.get? "200" s.operation.responses).any
    fun r => !r.content.isEmpty) (fun s s' h => by rw [h.1]) (f := fun described =>
      if !described then _ else _) fun described => ?_
  split
  · exact (tableFree_schemaOf o t).bind fun schema => tableFree_change _
  · exact tableFree_pure ()

/-- No step of usage analysis depends on the table. -/
theorem steps_tableFree : Steps o TableFree where
  pure := tableFree_pure
  bind hx hf := hx.bind hf
  ask q _ := tableFree_ask q
  header := tableFree_addHeader
  query := tableFree_addQueryParameter o
  looseQuery _ := tableFree_change _
  body := tableFree_setBody o
  bodyPlace := tableFree_change _
  payload := tableFree_sendPayload o
  status _ := tableFree_change _
  visited hf := tableFree_get (fun _ _ h => h.2) hf
  mark function := fun _ _ h => ⟨rfl, h.1, congrArg (function :: ·) h.2⟩

/-- The operation of a handler is the same from every table. -/
theorem analyseHandler_tableFree (handler : NodeId) (op : Operation) (T T' : Entries Schema) :
    (analyseHandler p o handler op T).run.1 = (analyseHandler p o handler op T').run.1 :=
  ((steps_tableFree o).analyseHandlerM p handler ⟨op, T, []⟩ ⟨op, T', []⟩ ⟨rfl, rfl⟩).2.1

/-- The operation of a list of handlers is the same from every table. -/
theorem analyseHandlers_tableFree (handlers : List NodeId) (op : Operation)
    (T T' : Entries Schema) :
    (analyseHandlers p o op T handlers).run.1 = (analyseHandlers p o op T' handlers).run.1 := by
  induction handlers generalizing op T T' with
  | nil => rfl
  | cons handler rest ih =>
    show (analyseHandlers p o (analyseHandler p o handler op T).run.1
        (analyseHandler p o handler op T).run.2 rest).run.1 =
      (analyseHandlers p o (analyseHandler p o handler op T').run.1
        (analyseHandler p o handler op T').run.2 rest).run.1
    rw [analyseHandler_tableFree p o handler op T T']
    exact ih _ _ _

end RouteContract.Crawl
