import Mathlib
import RouteContract.Proofs.Crawl.PathParameters
import RouteContract.Proofs.Crawl.Updates
import RouteContract.Proofs.Document.RoundTrip
import RouteContract.Proofs.Schema.Restored

/-!
# Updated and crawled operations read back

Directives send an operation through its JSON form and back, so the two must lose nothing. Every
schema, operation and document that was read is restored, and so is every operation that updates
lead to: all updates keep it so, usage analysis because generated schemas are restored.
-/

namespace RouteContract.Crawl

open Operation (Restored)

/-- That an operation is restored is stable under usage analysis. -/
theorem stable_restored : Stable Schema.Restored Restored where
  header hop _ _ _ := hop.addParameter (Parameter.restored_iff.2 (Schema.restored_typed _))
  query hop _ hs _ _ _ := hop.addParameter (Parameter.restored_iff.2 hs)
  body hop _ hs := hop.setBody hs
  response hop := hop.ensureResponse
  payload hop _ hs code := hop.fillResponse code hs

/-- Every analysis of a restored operation leaves a restored operation. -/
theorem analyseHandler_restored {m : Type → Type} [Monad m] [LawfulMonad m] (p : Program)
    (o : Oracle m) (handler : NodeId) {op : Operation} (hop : op.Restored) (T : Entries Schema) :
    SatisfiesM (fun r => r.1.Restored) (analyseHandler p o handler op T) :=
  stable_restored.handler (Schema.generatesRestored_ofType o) (Schema.restored_typed _)
    Schema.restored_inferredObject p handler hop T

/-- Updates lead to restored operations, when the parameters that are added are restored. -/
theorem restored_of_reached {settable : String → Prop} {added : List Parameter} {op : Operation}
    (h : Reached settable added op) (hadded : ∀ q ∈ added, q.Restored) : op.Restored := by
  induction h with
  | fresh => exact Operation.restored_fresh
  | parameter _ q ih =>
    rw [List.forall_mem_append] at hadded
    exact (ih hadded.1).addParameter (hadded.2 q (by simp))
  | tags _ tags ih => exact (ih hadded).addTags tags
  | response _ code ih => exact (ih hadded).ensureResponse code
  | documentation _ doc ih => exact (ih hadded).mergeInto doc
  | directive _ d _ ih => exact (ih hadded).applyDirective d
  | analysis _ p o handler hrun ih =>
    exact stable_restored.of_run (Schema.generatesRestored_ofType o) (Schema.restored_typed _)
      Schema.restored_inferredObject (ih hadded) hrun

/-! ### The crawl -/

section Crawl

variable {p : Program} {o : Oracle Id} {markers : List String}

theorem restored_routeOperation (call : NodeId) (path : String) :
    (routeOperation p call path).Restored :=
  List.foldlRecOn (motive := Restored) _ _ (Operation.restored_fresh.mergeInto _)
    fun _ hop _ _ => hop.addParameter (Parameter.restored_iff.2 (Schema.restored_typed _))

theorem restored_applyAll {op : Operation} (hop : op.Restored) (ds : List Directive) :
    (Directive.applyAll op ds).1.Restored := by
  induction ds generalizing op with
  | nil => exact hop
  | cons d ds ih => exact ih (hop.applyDirective d)

theorem restored_applyComment {op : Operation} (hop : op.Restored) (comment : String) :
    (Directive.applyComment markers op comment).1.Restored := by
  have hall := restored_applyAll hop (Directive.readable (Directive.parse markers comment))
  unfold Directive.applyComment
  dsimp only
  generalize Directive.applyAll op _ = applied at hall ⊢
  exact hall

theorem restored_applyComments {op : Operation} (hop : op.Restored) (comments : List String) :
    (applyComments markers op comments).1.Restored := by
  induction comments generalizing op with
  | nil => exact hop
  | cons comment comments ih =>
    rw [applyComments]
    exact ih (restored_applyComment hop comment)

theorem restored_applyAllDirectives {op : Operation} (hop : op.Restored)
    (handlers : List NodeId) : (applyAllDirectives p markers op handlers).1.Restored := by
  induction handlers generalizing op with
  | nil => exact hop
  | cons handler handlers ih =>
    rw [applyAllDirectives]
    refine ih ?_
    unfold applyDirectives
    split
    · exact restored_applyComments hop _
    · exact hop

theorem restored_documentedOperation (call : NodeId) (path : String) (handlers : List NodeId) :
    (documentedOperation p markers call path handlers).1.Restored :=
  restored_applyAllDirectives (List.foldlRecOn (motive := Restored) _ _
    (restored_routeOperation call path) fun _ hop _ _ => hop.mergeInto _) handlers

theorem restored_analyseHandlers {op : Operation} (hop : op.Restored) (T : Entries Schema)
    (handlers : List NodeId) : (analyseHandlers p o op T handlers).run.1.Restored := by
  induction handlers generalizing op T with
  | nil => exact hop
  | cons handler handlers ih =>
    have hnext : (analyseHandler p o handler op T).run.1.Restored :=
      (SatisfiesM_Id_eq (p := fun r : Operation × Entries Schema => r.1.Restored)).1
        (analyseHandler_restored p o handler hop T)
    exact ih hnext _

/-- Every operation that the crawl registers is restored. -/
theorem crawl_restored (p : Program) (o : Oracle Id) (markers : List String) (entry : Nat) :
    ∀ e ∈ (crawl p o markers entry).run.1.routes, ∀ operation ∈ e.2, operation.2.Restored := by
  rw [crawl_run]
  intro e he operation hoperation
  obtain ⟨site, -, -, T, hop⟩ := exists_site_of_mem_record he hoperation
  rw [← hop]
  exact restored_analyseHandlers (restored_documentedOperation _ _ _) _ _

end Crawl

/-- **What is written reads back.** A schema, an operation or a document that was read of a JSON
value has a JSON form that reads back as itself and is then written in the same way, with its fields
in the same order. The same holds of every operation that updates lead to from the fresh one, when
the parameters that are added directly read back, and of every operation of the crawl. -/
theorem written_reads_back :
    (∀ v s, Schema.ofJson? v = some s →
      Schema.ofJson? s.toJson = some s ∧
        (Schema.ofJson? s.toJson).map Schema.toJson = some s.toJson) ∧
    (∀ v op, Operation.ofJson? v = some op →
      Operation.ofJson? op.toJson = some op ∧
        (Operation.ofJson? op.toJson).map Operation.toJson = some op.toJson) ∧
    (∀ v d, Document.ofJson? v = some d →
      Document.ofJson? d.toJson = some d ∧
        (Document.ofJson? d.toJson).map Document.toJson = some d.toJson) ∧
    (∀ added op, Reached (fun _ => True) added op →
      (∀ q ∈ added, Parameter.ofJson? q.toJson = some q) →
      Operation.ofJson? op.toJson = some op ∧
        (Operation.ofJson? op.toJson).map Operation.toJson = some op.toJson) ∧
    ∀ (p : Program) (o : Oracle Id) markers entry,
      ∀ e ∈ (crawl p o markers entry).run.1.routes, ∀ operation ∈ e.2,
        Operation.ofJson? operation.2.toJson = some operation.2 := by
  have again {α : Type} {read : Json → Option α} {write : α → Json} {a : α}
      (h : Json.Restored read write a) :
      read (write a) = some a ∧ (read (write a)).map write = some (write a) :=
    ⟨h, congrArg (Option.map write) h⟩
  exact ⟨fun _ _ h => again (Schema.restored_of_ofJson? h),
    fun _ _ h => again (Operation.restored_of_ofJson? h),
    fun _ _ h => again (Document.restored_of_ofJson? h),
    fun _ _ h hadded => again (restored_of_reached h hadded), crawl_restored⟩

/-- A document with an operation whose parameter is a row of values and whose extension repeats a
name; the keys of the document are not in the order in which they are written. -/
def petsValue : Json :=
  .obj [("paths", .obj [("/pets", .obj [("get", .obj [
      ("x-rate", .obj [("limit", .num (.int 1)), ("limit", .num (.int 2))]),
      ("parameters", .arr [.arr [.str "limit", .str "query"]])])])]),
    ("info", .obj [("version", .str "1"), ("title", .str "Pets")]), ("openapi", .str "3.0.0")]

/-- The document of the pets and an operation with a limit and a rate both read back. -/
theorem written_reads_back_pets :
    (∃ d, Document.ofJson? petsValue = some d ∧ Document.ofJson? d.toJson = some d) ∧
    let limit : Parameter := { name := "limit", location := .query }
    let op := ((Operation.fresh.addParameter limit).addTags ["pets"])
    Reached (fun _ => True) [limit] op ∧ Operation.ofJson? op.toJson = some op := by
  obtain ⟨-, -, documents, updates, -⟩ := written_reads_back
  constructor
  · obtain ⟨d, hd⟩ := Option.isSome_iff_exists.1
      (show (Document.ofJson? petsValue).isSome = true by decide +kernel)
    exact ⟨d, hd, (documents _ _ hd).1⟩
  · have hreached : Reached (fun _ => True) [{ name := "limit", location := .query }]
        ((Operation.fresh.addParameter { name := "limit", location := .query }).addTags ["pets"]) :=
      (Reached.fresh.parameter _).tags _
    refine ⟨hreached, (updates _ _ hreached fun q hq => ?_).1⟩
    rw [List.mem_singleton.1 hq]
    exact Parameter.restored_iff.2 Schema.restored_empty

end RouteContract.Crawl
