import Mathlib
import RouteContract.Proofs.Crawl.Analysis
import RouteContract.Proofs.Crawl.Sites
import RouteContract.Proofs.Document.Reference
import RouteContract.Proofs.Schema.Generation

/-!
# References in crawled documents

An operation is closed in a table when every reference in it leads into the table. Each step of
usage analysis keeps the operation closed: a schema is closed in the table that its description
leaves, and every later step only grows the table. The crawl keeps all operations so far closed for
the same reason, and the schemas of the user add names only.
-/

namespace RouteContract.Crawl

open Schema (Grown)

section Analysis

variable {m : Type → Type} [Monad m] [LawfulMonad m] (o : Oracle m)

/-- A computation grows the table and keeps the operation closed in it. -/
def KeepsClosed {α : Type} (x : Usage m α) : Prop :=
  ∀ s, s.operation.RefersInto s.table.names → Ensures x s fun _ s' =>
    Grown s.table s'.table ∧ s'.operation.RefersInto s'.table.names

section

variable {α β : Type}

theorem keepsClosed_pure (a : α) : KeepsClosed (pure a : Usage m α) :=
  fun _ hs => ensures_pure ⟨Grown.refl _, hs⟩

theorem KeepsClosed.bind {x : Usage m α} {f : α → Usage m β} (hx : KeepsClosed x)
    (hf : ∀ a, KeepsClosed (f a)) : KeepsClosed (x >>= f) := fun s hs =>
  (hx s hs).bind fun a s₁ ⟨h₁, hs₁⟩ => (hf a s₁ hs₁).imp fun _ _ h => ⟨h₁.trans h.1, h.2⟩

theorem keepsClosed_ask (q : m α) : KeepsClosed (askOracle q) :=
  fun _ hs => ensures_lift fun _ => ⟨Grown.refl _, hs⟩

theorem keepsClosed_change {f : Operation → Operation}
    (hf : ∀ names op, op.RefersInto names → (f op).RefersInto names) :
    KeepsClosed (change f : Usage m Unit) :=
  fun _ hs => ensures_modify ⟨Grown.refl _, hf _ _ hs⟩

end

/-- The schema of a type is closed in the table that it leaves; the operation is not touched. -/
theorem ensures_schemaOf (t : TypeId) (s : UsageState) :
    Ensures (schemaOf o t) s fun schema s' =>
      Grown s.table s'.table ∧ s'.operation = s.operation ∧ schema.RefersInto s'.table.names := by
  refine ensures_get_bind ?_
  refine ensures_lift_bind_of (Schema.generates_ofType o t s.table) fun r hr => ?_
  exact ensures_modify_bind (ensures_pure ⟨hr.1, rfl, hr.2⟩)

/-- A schema is generated, and then the operation is changed with it. -/
theorem keepsClosed_schemaOf {t : TypeId} {f : Schema → Usage m Unit}
    (hf : ∀ schema s, s.operation.RefersInto s.table.names → schema.RefersInto s.table.names →
      Ensures (f schema) s fun _ s' =>
        Grown s.table s'.table ∧ s'.operation.RefersInto s'.table.names) :
    KeepsClosed (schemaOf o t >>= f) := fun s hs =>
  (ensures_schemaOf o t s).bind fun schema s₁ ⟨hg, hop, hschema⟩ => by
    have hs₁ : s₁.operation.RefersInto s₁.table.names := by
      rw [hop]
      exact hs.mono hg.names_subset
    exact (hf schema s₁ hs₁ hschema).imp fun _ _ h => ⟨hg.trans h.1, h.2⟩

theorem keepsClosed_addHeader (name : String) (required : Bool) :
    KeepsClosed (addHeader name required : Usage m Unit) := by
  unfold addHeader
  split
  · exact keepsClosed_pure ()
  · exact keepsClosed_change fun names op h => h.addParameter (Schema.refersInto_typed _)

theorem keepsClosed_setBody (t : TypeId) : KeepsClosed (setBody o t) := by
  refine keepsClosed_schemaOf o fun schema s hs hschema => ?_
  split
  · exact ensures_modify ⟨Grown.refl _, hs.setBody hschema⟩
  · exact ensures_pure ⟨Grown.refl _, hs⟩

theorem keepsClosed_addQueryParameter (property : SymbolId) :
    KeepsClosed (addQueryParameter o property) := by
  unfold addQueryParameter queryParameter
  simp only [bind_assoc, pure_bind]
  refine (keepsClosed_ask _).bind fun name => (keepsClosed_ask _).bind fun t => ?_
  refine keepsClosed_schemaOf o fun schema s hs hschema => ?_
  refine ensures_lift_bind fun isOptional => ensures_lift_bind fun description => ?_
  refine ensures_modify ⟨Grown.refl _, hs.addParameter ?_⟩
  dsimp only
  split
  · exact Schema.refersInto_typed _
  · exact hschema

theorem keepsClosed_sendPayload (t : TypeId) : KeepsClosed (sendPayload o t) := by
  refine (keepsClosed_change fun names op h => h.ensureResponse "200").bind fun _ s hs => ?_
  refine ensures_get_bind ?_
  dsimp only
  split
  · refine keepsClosed_schemaOf o (fun schema s hs hschema => ?_) s hs
    exact ensures_modify ⟨Grown.refl _, hs.fillResponse "200" hschema⟩
  · exact ensures_pure ⟨Grown.refl _, hs⟩

theorem refersInto_placeBody {names : List String} {op : Operation} (h : op.RefersInto names) :
    (placeBody op).RefersInto names := by
  unfold placeBody
  split
  · refine h.setBody ?_
    rw [Schema.refersInto_iff]
    simp [Schema.inferredObject, Json.refersInto_obj]
  · exact h

/-- Every step of usage analysis keeps the operation closed. -/
theorem steps_keepsClosed : Steps o KeepsClosed where
  pure := keepsClosed_pure
  bind hx hf := hx.bind hf
  ask q _ := keepsClosed_ask q
  header := keepsClosed_addHeader
  query := keepsClosed_addQueryParameter o
  looseQuery _ := keepsClosed_change fun _ _ h => h.addParameter (Schema.refersInto_typed _)
  body := keepsClosed_setBody o
  bodyPlace := keepsClosed_change fun _ _ h => refersInto_placeBody h
  payload := keepsClosed_sendPayload o
  status code := keepsClosed_change fun _ _ h => h.ensureResponse code
  visited hf := fun s hs => ensures_get_bind (hf s.visited s hs)
  mark _ := fun _ hs => ensures_modify ⟨Grown.refl _, hs⟩

end Analysis

variable {p : Program} {o : Oracle Id} {markers : List String}

theorem analyseHandler_closed (handler : NodeId) {op : Operation} {T : Entries Schema}
    (h : op.RefersInto T.names) :
    Grown T (analyseHandler p o handler op T).run.2 ∧
      (analyseHandler p o handler op T).run.1.RefersInto
        (analyseHandler p o handler op T).run.2.names :=
  ensures_id_iff.1 ((steps_keepsClosed o).analyseHandlerM p handler ⟨op, T, []⟩ h)

/-- The handlers of a route keep its operation closed, one after the other. -/
theorem analyseHandlers_closed (handlers : List NodeId) {op : Operation} {T : Entries Schema}
    (h : op.RefersInto T.names) :
    Grown T (analyseHandlers p o op T handlers).run.2 ∧
      (analyseHandlers p o op T handlers).run.1.RefersInto
        (analyseHandlers p o op T handlers).run.2.names := by
  induction handlers generalizing op T with
  | nil => exact ⟨Grown.refl T, h⟩
  | cons handler rest ih =>
    obtain ⟨hg, hop⟩ := analyseHandler_closed (p := p) (o := o) handler h
    obtain ⟨hg', hop'⟩ := ih hop
    exact ⟨hg.trans hg', hop'⟩

/-! ### Operations before their analysis -/

variable (p markers) in
/-- No comment in the body of a handler holds a directive. -/
def Undirected (handler : NodeId) : Prop :=
  ∀ body, p.field? handler "body" = some body →
    ∀ comment ∈ bodyComments p body, Directive.parse markers comment = []

theorem applyComments_of_parse_eq_nil (op : Operation) {comments : List String}
    (h : ∀ comment ∈ comments, Directive.parse markers comment = []) :
    applyComments markers op comments = (op, []) := by
  induction comments with
  | nil => rfl
  | cons comment rest ih =>
    have hc : Directive.applyComment markers op comment = (op, []) := by
      rw [Directive.applyComment, h comment (by simp)]
      rfl
    rw [applyComments, hc]
    dsimp only
    rw [ih fun c hm => h c (by simp [hm])]
    rfl

theorem Undirected.applyDirectives {handler : NodeId} (h : Undirected p markers handler)
    (op : Operation) : applyDirectives p markers op handler = (op, []) := by
  unfold Crawl.applyDirectives
  split
  · next body hb => exact applyComments_of_parse_eq_nil op (h body hb)
  · rfl

theorem applyAllDirectives_of_undirected (op : Operation) {handlers : List NodeId}
    (h : ∀ handler ∈ handlers, Undirected p markers handler) :
    applyAllDirectives p markers op handlers = (op, []) := by
  induction handlers with
  | nil => rfl
  | cons handler rest ih =>
    rw [applyAllDirectives, (h handler (by simp)).applyDirectives]
    dsimp only
    rw [ih fun other ho => h other (by simp [ho])]
    rfl

theorem refersInto_routeOperation {names : List String} (call : NodeId) (path : String) :
    (routeOperation p call path).RefersInto names := by
  unfold routeOperation
  refine List.foldlRecOn _ _ (Operation.refersInto_fresh.mergeInto _) fun op h name _ => ?_
  exact h.addParameter (Schema.refersInto_typed _)

/-- Without directives the operation of a route has no references before its analysis. -/
theorem refersInto_documentedOperation {names : List String} {handlers : List NodeId}
    (h : ∀ handler ∈ handlers, Undirected p markers handler) (call : NodeId) (path : String) :
    (documentedOperation p markers call path handlers).1.RefersInto names := by
  rw [documentedOperation, applyAllDirectives_of_undirected _ h]
  refine List.foldlRecOn _ _ (refersInto_routeOperation call path) fun op hop handler _ => ?_
  exact hop.mergeInto _

/-! ### The crawl -/

/-- Every operation of every path. -/
def AllOperations (P : Operation → Prop) (routes : Routes) : Prop :=
  ∀ e ∈ routes, ∀ entry ∈ e.2, P entry.2

theorem mem_put_pathItem {item : PathItem} {method : Method} {op : Operation}
    {entry : Method × Operation} (h : entry ∈ PathItem.put method op item) :
    entry = (method, op) ∨ entry ∈ item := by
  induction item with
  | nil => exact Or.inl (List.mem_singleton.1 h)
  | cons head rest ih =>
    obtain ⟨m, old⟩ := head
    rw [PathItem.put] at h
    split at h
    · next hm =>
      subst hm
      rcases List.mem_cons.1 h with h | h
      · exact Or.inl h
      · exact Or.inr (List.mem_cons_of_mem _ h)
    · rcases List.mem_cons.1 h with rfl | h
      · exact Or.inr List.mem_cons_self
      · exact (ih h).imp_right (List.mem_cons_of_mem _)

/-- An operation behind a registration is the new one under its path, or was there under its
path. -/
theorem mem_register {routes : Routes} {path : String} {method : Method} {op : Operation}
    {e : String × PathItem} (he : e ∈ routes.register path method op)
    {entry : Method × Operation} (hentry : entry ∈ e.2) :
    (e.1 = path ∧ entry = (method, op)) ∨ ∃ item, (e.1, item) ∈ routes ∧ entry ∈ item := by
  rcases Entries.mem_put he with rfl | he
  · rcases mem_put_pathItem hentry with rfl | hold
    · exact Or.inl ⟨rfl, rfl⟩
    · cases hi : Entries.get? path routes with
      | none => simp [hi] at hold
      | some item =>
        rw [hi] at hold
        exact Or.inr ⟨item, Entries.mem_of_get?_eq_some hi, hold⟩
  · exact Or.inr ⟨e.2, he, hentry⟩

theorem AllOperations.register {P : Operation → Prop} {routes : Routes}
    (h : AllOperations P routes) {op : Operation} (hop : P op) (path : String) (method : Method) :
    AllOperations P (routes.register path method op) := by
  intro e he entry hentry
  rcases mem_register he hentry with ⟨-, rfl⟩ | ⟨item, hitem, hold⟩
  · exact hop
  · exact h (e.1, item) hitem entry hold

/-- What the crawl has found is closed: its table is finished, its operations refer into it. -/
structure ClosedCrawl (s : CrawlState) : Prop where
  table : ∀ e ∈ s.table, Schema.Finished s.table.names e
  routes : AllOperations (Operation.RefersInto s.table.names) s.routes

/-- Recording a site without directives keeps what was found closed. -/
theorem ClosedCrawl.record {s : CrawlState} (hs : ClosedCrawl s) {site : Site}
    (h : ∀ handler ∈ site.handlers, Undirected p markers handler) (base : String) :
    ClosedCrawl (site.record p o markers base s) := by
  have hdocumented : (documentedOperation p markers site.call (site.keyUnder base)
      site.handlers).1.RefersInto s.table.names := refersInto_documentedOperation h _ _
  obtain ⟨hg, hop⟩ := analyseHandlers_closed (p := p) (o := o) site.handlers hdocumented
  constructor
  · intro e he
    rcases hg.mem he with he | he
    · exact (hs.table e he).mono hg.names_subset
    · exact he
  · refine AllOperations.register ?_ hop _ _
    exact fun e he entry hentry => (hs.routes e he entry hentry).mono hg.names_subset

theorem closedCrawl_sites {sites : List Site}
    (h : ∀ site ∈ sites, ∀ handler ∈ site.handlers, Undirected p markers handler) (base : String) :
    ClosedCrawl (sites.foldl (Site.record p o markers base) {}) := by
  refine List.foldlRecOn _ _ ⟨by simp, fun e he => by simp at he⟩ fun s hs site hsite => ?_
  exact hs.record (h site hsite) base

theorem refersInto_toJson_routes {names : List String} {routes : Routes}
    (h : AllOperations (Operation.RefersInto names) routes) :
    (Routes.toJson routes).RefersInto names := by
  rw [Routes.toJson, Json.refersInto_ofTable fun _ _ => Json.noConfusion]
  intro e he
  rw [PathItem.toJson, Json.refersInto_obj]
  intro field hfield
  obtain ⟨entry, hentry, rfl⟩ := List.mem_map.1 hfield
  rw [Json.fieldRefersInto_of_notStr entry.2.toJson_ne_str]
  exact h e he entry hentry

/-- **References of a crawled document are not dangling.** When no handler of the crawl holds a
directive, every reference in the paths, or in a schema that none of the user's replaces, leads to a
schema of the document. -/
theorem build_crawl_refersInto (p : Program) (o : Oracle Id) (markers : List String) (entry : Nat)
    (parts : Parts)
    (h : ∀ site, IsSite p o entry site → ∀ handler ∈ site.handlers,
      Undirected p markers handler) :
    let document := parts.build (crawl p o markers entry).run.1
    let names := document.components.schemas.names
    (Routes.toJson document.paths).RefersInto names ∧
    ∀ e ∈ document.components.schemas, e.1 ∉ parts.schemas.names → e.2.RefersInto names := by
  intro document names
  have hclosed : ClosedCrawl ((sites p o entry).foldl (Site.record p o markers "/") {}) :=
    closedCrawl_sites (fun site hs => h site (mem_sites.1 hs)) "/"
  have hcrawled : (crawl p o markers entry).run.1 = ⟨_, _⟩ := congrArg Prod.fst (crawl_run entry)
  have hsub : ∀ n ∈ ((sites p o entry).foldl (Site.record p o markers "/") {}).table.names,
      n ∈ names := by
    intro n hn
    show n ∈ (Entries.putAll (crawl p o markers entry).run.1.schemas parts.schemas).names
    rw [hcrawled]
    exact Entries.mem_names_putAll.2 (Or.inl hn)
  constructor
  · show (Routes.toJson (crawl p o markers entry).run.1.routes).RefersInto names
    rw [hcrawled]
    exact (refersInto_toJson_routes hclosed.routes).mono hsub
  · intro e he hn
    have hold : e ∈ (crawl p o markers entry).run.1.schemas := Entries.mem_of_mem_putAll he hn
    rw [hcrawled] at hold
    exact ((hclosed.table e hold).refersInto).mono hsub

/-- The program `app.get("/comments", (req, res) => res.json(c))`. -/
def commentsProgram : Program where
  units := #[{
    path := "app.ts"
    nodes := #[
      { kind := "program", named := true, children := [1] },
      { kind := "expression_statement", named := true, parent := some 0, children := [2] },
      { kind := "call_expression", named := true, parent := some 1, children := [3, 6] },
      { kind := "member_expression", field := some "function", named := true, parent := some 2,
        children := [4, 5] },
      { kind := "identifier", field := some "object", named := true, parent := some 3,
        text := "app" },
      { kind := "property_identifier", field := some "property", named := true, parent := some 3,
        text := "get" },
      { kind := "arguments", field := some "arguments", named := true, parent := some 2,
        children := [7, 9] },
      { kind := "string", named := true, parent := some 6, children := [8], text := "'/comments'" },
      { kind := "string_fragment", named := true, parent := some 7, text := "/comments" },
      { kind := "arrow_function", named := true, parent := some 6, children := [10, 15] },
      { kind := "formal_parameters", field := some "parameters", named := true, parent := some 9,
        children := [11, 13] },
      { kind := "required_parameter", named := true, parent := some 10, children := [12] },
      { kind := "identifier", field := some "pattern", named := true, parent := some 11,
        text := "req" },
      { kind := "required_parameter", named := true, parent := some 10, children := [14] },
      { kind := "identifier", field := some "pattern", named := true, parent := some 13,
        text := "res" },
      { kind := "call_expression", field := some "body", named := true, parent := some 9,
        children := [16, 19] },
      { kind := "member_expression", field := some "function", named := true, parent := some 15,
        children := [17, 18] },
      { kind := "identifier", field := some "object", named := true, parent := some 16,
        text := "res" },
      { kind := "property_identifier", field := some "property", named := true, parent := some 16,
        text := "json" },
      { kind := "arguments", field := some "arguments", named := true, parent := some 15,
        children := [20] },
      { kind := "identifier", named := true, parent := some 19, text := "c" }] }]

theorem handlers_commentsProgram :
    (sites commentsProgram Schema.commentOracle 0).map Site.handlers = [[⟨0, 9⟩]] := by
  decide +kernel

/-- The one handler answers with a comment, whose schema is in the document. -/
theorem build_crawl_refersInto_comments :
    (∀ site, IsSite commentsProgram Schema.commentOracle 0 site → ∀ handler ∈ site.handlers,
      Undirected commentsProgram ["swagger"] handler) ∧
    let crawled := (crawl commentsProgram Schema.commentOracle ["swagger"] 0).run.1
    let document := ({} : Parts).build crawled
    let names := document.components.schemas.names
    (Routes.toJson document.paths).RefersInto names ∧
    ∀ e ∈ document.components.schemas, e.1 ∉ Entries.names ([] : Entries Schema) →
      e.2.RefersInto names := by
  have undirected : ∀ site, IsSite commentsProgram Schema.commentOracle 0 site →
      ∀ handler ∈ site.handlers, Undirected commentsProgram ["swagger"] handler := by
    intro site hsite handler hhandler body hbody comment hcomment
    have hs : site.handlers ∈ (sites commentsProgram Schema.commentOracle 0).map Site.handlers :=
      List.mem_map_of_mem (mem_sites.2 hsite)
    rw [handlers_commentsProgram, List.mem_singleton] at hs
    rw [hs, List.mem_singleton] at hhandler
    have hb : commentsProgram.field? ⟨0, 9⟩ "body" = some ⟨0, 15⟩ := by decide +kernel
    have hc : bodyComments commentsProgram ⟨0, 15⟩ = [] := by decide +kernel
    rw [hhandler, hb] at hbody
    cases hbody
    rw [hc] at hcomment
    cases hcomment
  exact ⟨undirected, build_crawl_refersInto commentsProgram Schema.commentOracle ["swagger"] 0 {}
    undirected⟩

end RouteContract.Crawl
