import Mathlib
import RouteContract.Proofs.Crawl.References
import RouteContract.Proofs.Crawl.Registration
import RouteContract.Proofs.Route.Path

/-!
# Path parameters

An operation starts out with the placeholders of its path as its parameters. Documentation adds no
parameters, and usage analysis adds parameters of the query and of headers only, always at the end.
So without directives the path parameters of an operation are the placeholders of its path, in
order and in front. The path itself is in normal form, since it is joined and then put in braces.
-/

namespace RouteContract

namespace Operation

/-- The parameters start with given ones, and no later one is a path parameter. -/
def FrontedBy (front : List Parameter) (op : Operation) : Prop :=
  ∃ later, op.parameters = front ++ later ∧ ∀ parameter ∈ later, parameter.location ≠ .path

variable {front : List Parameter} {op : Operation}

theorem FrontedBy.of_parameters_eq (h : op.FrontedBy front) {op' : Operation}
    (heq : op'.parameters = op.parameters) : op'.FrontedBy front := by
  obtain ⟨later, hop, hlater⟩ := h
  exact ⟨later, heq.trans hop, hlater⟩

theorem FrontedBy.addParameter (h : op.FrontedBy front) {parameter : Parameter}
    (hp : parameter.location ≠ .path) : (op.addParameter parameter).FrontedBy front := by
  obtain ⟨later, hop, hlater⟩ := h
  unfold Operation.addParameter
  split
  · exact ⟨later, hop, hlater⟩
  · refine ⟨later ++ [parameter], ?_, fun other ho => ?_⟩
    · rw [hop, List.append_assoc]
    · rcases List.mem_append.1 ho with ho | ho
      · exact hlater other ho
      · rw [List.mem_singleton.1 ho]
        exact hp

@[simp] theorem parameters_ensureResponse (op : Operation) (code : String) :
    (op.ensureResponse code).parameters = op.parameters := by
  unfold ensureResponse
  split
  · rfl
  · rfl

@[simp] theorem parameters_addTags (op : Operation) (tags : List String) :
    (op.addTags tags).parameters = op.parameters := by
  refine List.foldlRecOn (motive := fun tagged : Operation => tagged.parameters = op.parameters)
    _ _ rfl fun tagged h tag _ => ?_
  unfold addTag
  split
  · exact h
  · exact h

@[simp] theorem parameters_mergeInto (doc : DocMetadata) (op : Operation) :
    (doc.mergeInto op).parameters = op.parameters :=
  parameters_addTags _ _

end Operation

namespace Crawl

open Operation (FrontedBy)

/-! ### Operations before their analysis -/

/-- A path parameter is there when one of its name is. -/
theorem sameAs_pathParameter {name other : String} :
    (pathParameter name).sameAs other .path = true ↔ name = other := by
  simp [pathParameter, Parameter.sameAs]

/-- Path parameters of distinct names are all added, in order. -/
theorem parameters_foldl_pathParameter {names before : List String} {op : Operation}
    (hop : op.parameters = before.map pathParameter) (h : (before ++ names).Nodup) :
    (names.foldl (fun op name => op.addParameter (pathParameter name)) op).parameters =
      (before ++ names).map pathParameter := by
  induction names generalizing op before with
  | nil => rw [List.append_nil, List.foldl_nil, hop]
  | cons name names ih =>
    rw [List.append_cons] at h ⊢
    have hnew : name ∉ before := by
      intro hmem
      have hnodup := (List.nodup_append.1 (List.nodup_append.1 h).1).2.2
      exact hnodup name hmem name (by simp) rfl
    refine ih ?_ h
    have habsent : op.hasParameter (pathParameter name).name (pathParameter name).location
        = false := by
      rw [Operation.hasParameter, hop, List.any_map, List.any_eq_false]
      intro other hother hsame
      have hname : other = name := sameAs_pathParameter.1 hsame
      exact hnew (hname ▸ hother)
    show (Operation.addParameter op (pathParameter name)).parameters = _
    rw [Operation.addParameter, if_neg (by simp [habsent]), List.map_append, ← hop]
    rfl

theorem parameters_routeOperation (p : Program) (call : NodeId) (path : String) :
    (routeOperation p call path).parameters = (Route.placeholders path).map pathParameter := by
  have hfresh : ((callSiteDocs p call).mergeInto .fresh).parameters
      = ([] : List String).map pathParameter := Operation.parameters_mergeInto _ _
  exact parameters_foldl_pathParameter hfresh (Route.nodup_placeholders path)

theorem parameters_documentedOperation {p : Program} {markers : List String}
    {handlers : List NodeId} (h : ∀ handler ∈ handlers, Undirected p markers handler)
    (call : NodeId) (path : String) :
    (documentedOperation p markers call path handlers).1.parameters =
      (Route.placeholders path).map pathParameter := by
  rw [documentedOperation, applyAllDirectives_of_undirected _ h]
  refine List.foldlRecOn
    (motive := fun op : Operation =>
      op.parameters = (Route.placeholders path).map pathParameter) _ _
    (parameters_routeOperation p call path) fun op hop handler _ => ?_
  rw [Operation.parameters_mergeInto, hop]

/-! ### Usage analysis -/

section Analysis

variable {m : Type → Type} [Monad m] [LawfulMonad m] (o : Oracle m) (front : List Parameter)

/-- A computation keeps the parameters in front, and adds no path parameter. -/
def KeepsFront {α : Type} (x : Usage m α) : Prop :=
  ∀ s, s.operation.FrontedBy front → Ensures x s fun _ s' => s'.operation.FrontedBy front

variable {front}

theorem keepsFront_pure {α : Type} (a : α) : KeepsFront front (pure a : Usage m α) :=
  fun _ hs => ensures_pure hs

theorem KeepsFront.bind {α β : Type} {x : Usage m α} {f : α → Usage m β}
    (hx : KeepsFront front x) (hf : ∀ a, KeepsFront front (f a)) :
    KeepsFront front (x >>= f) :=
  fun s hs => (hx s hs).bind fun a s' hs' => hf a s' hs'

theorem keepsFront_ask {α : Type} (q : m α) : KeepsFront front (askOracle q) :=
  fun _ hs => ensures_lift fun _ => hs

theorem keepsFront_change {f : Operation → Operation}
    (hf : ∀ op, op.FrontedBy front → (f op).FrontedBy front) :
    KeepsFront front (change f : Usage m Unit) :=
  fun _ hs => ensures_modify (hf _ hs)

theorem keepsFront_addParameter {parameter : Parameter} (hp : parameter.location ≠ .path) :
    KeepsFront front (change fun op => op.addParameter parameter : Usage m Unit) :=
  keepsFront_change fun _ h => h.addParameter hp

theorem keepsFront_schemaOf (t : TypeId) : KeepsFront front (schemaOf o t) := by
  intro s hs
  refine (ensures_schemaOf o t s).imp fun schema s' h => ?_
  rw [h.2.1]
  exact hs

theorem keepsFront_addHeader (name : String) (required : Bool) :
    KeepsFront front (addHeader name required : Usage m Unit) := by
  unfold addHeader
  split
  · exact keepsFront_pure ()
  · exact keepsFront_addParameter Location.noConfusion

theorem keepsFront_addQueryParameter (property : SymbolId) :
    KeepsFront front (addQueryParameter o property) := by
  unfold addQueryParameter queryParameter
  simp only [bind_assoc, pure_bind]
  refine (keepsFront_ask _).bind fun name => (keepsFront_ask _).bind fun t => ?_
  refine (keepsFront_schemaOf o t).bind fun schema => (keepsFront_ask _).bind fun isOptional => ?_
  exact (keepsFront_ask _).bind fun description => keepsFront_addParameter Location.noConfusion

theorem keepsFront_setBody (t : TypeId) : KeepsFront front (setBody o t) := by
  refine (keepsFront_schemaOf o t).bind fun schema => ?_
  split
  · exact keepsFront_change fun op h => h.of_parameters_eq rfl
  · exact keepsFront_pure ()

theorem keepsFront_ensureResponse (code : String) :
    KeepsFront front (change fun op => op.ensureResponse code : Usage m Unit) :=
  keepsFront_change fun _ h => h.of_parameters_eq (Operation.parameters_ensureResponse _ _)

theorem keepsFront_sendPayload (t : TypeId) : KeepsFront front (sendPayload o t) := by
  refine (keepsFront_ensureResponse "200").bind fun _ s hs => ensures_get_bind ?_
  dsimp only
  split
  · refine KeepsFront.bind (keepsFront_schemaOf o t) (fun schema => ?_) s hs
    exact keepsFront_change fun op h => h.of_parameters_eq rfl
  · exact ensures_pure hs

theorem keepsFront_placeBody : KeepsFront front (change placeBody : Usage m Unit) := by
  refine keepsFront_change fun op h => ?_
  unfold placeBody
  split
  · exact h.of_parameters_eq rfl
  · exact h

/-- Every step of usage analysis keeps the parameters in front. -/
theorem steps_keepsFront : Steps o (KeepsFront front) where
  pure := keepsFront_pure
  bind hx hf := hx.bind hf
  ask q _ := keepsFront_ask q
  header := keepsFront_addHeader
  query := keepsFront_addQueryParameter o
  looseQuery _ := keepsFront_addParameter Location.noConfusion
  body := keepsFront_setBody o
  bodyPlace := keepsFront_placeBody
  payload := keepsFront_sendPayload o
  status := keepsFront_ensureResponse
  visited hf := fun s hs => ensures_get_bind (hf s.visited s hs)
  mark _ := fun _ hs => ensures_modify hs

end Analysis

variable {p : Program} {o : Oracle Id} {markers : List String} {front : List Parameter}

theorem analyseHandlers_frontedBy (handlers : List NodeId) {op : Operation}
    (h : op.FrontedBy front) (T : Entries Schema) :
    (analyseHandlers p o op T handlers).run.1.FrontedBy front := by
  induction handlers generalizing op T with
  | nil => exact h
  | cons handler rest ih =>
    have hop : (analyseHandler p o handler op T).run.1.FrontedBy front :=
      ensures_id_iff.1 ((steps_keepsFront o).analyseHandlerM p handler ⟨op, T, []⟩ h)
    exact ih hop _

/-- Without directives the operation of a site has the placeholders of its path in front. -/
theorem Site.operation_frontedBy {site : Site}
    (h : ∀ handler ∈ site.handlers, Undirected p markers handler) (T : Entries Schema) :
    (site.operation p o markers T).FrontedBy
      ((Route.placeholders site.key).map pathParameter) := by
  refine analyseHandlers_frontedBy site.handlers ⟨[], ?_, fun _ hq => nomatch hq⟩ T
  rw [List.append_nil]
  exact parameters_documentedOperation h site.call site.key

/-- The path of a site ends with a join. -/
theorem Site.isNormal_key (site : Site) : Route.IsNormal site.key := by
  rw [Site.key, Site.keyUnder, List.foldl_append]
  exact Route.isNormal_braced_join _ _

/-! ### The crawl -/

/-- Every operation of the crawl is that of a site of its path. -/
theorem exists_site_of_mem_record {sites : List Site} {e : String × PathItem}
    (he : e ∈ (sites.foldl (Site.record p o markers "/") {}).routes) {entry : Method × Operation}
    (hentry : entry ∈ e.2) :
    ∃ site ∈ sites, site.key = e.1 ∧ ∃ T, site.operation p o markers T = entry.2 := by
  induction sites using List.reverseRecOn generalizing e with
  | nil => cases he
  | append_singleton sites site ih =>
    rw [List.foldl_append, List.foldl_cons, List.foldl_nil, Site.routes_record] at he
    rcases mem_register he hentry with ⟨hkey, rfl⟩ | ⟨item, hitem, hold⟩
    · exact ⟨site, by simp, hkey.symm, _, rfl⟩
    · obtain ⟨other, ho, hother⟩ := ih hitem hold
      exact ⟨other, List.mem_append_left _ ho, hother⟩

/-- **Paths and path parameters of the crawl.** Every path is in normal form. When no handler that
is registered under a path holds a directive, the path parameters of each of its operations are the
placeholders of the path, in order and once each; they come first, are required and are texts. -/
theorem crawl_pathParameters (p : Program) (o : Oracle Id) (markers : List String) (entry : Nat) :
    ∀ e ∈ (crawl p o markers entry).run.1.routes, Route.IsNormal e.1 ∧
      ((∀ site, IsSite p o entry site → site.key = e.1 → ∀ handler ∈ site.handlers,
          Undirected p markers handler) →
        (Route.placeholders e.1).Nodup ∧ ∀ operation ∈ e.2, ∃ later,
          operation.2.parameters = (Route.placeholders e.1).map pathParameter ++ later ∧
          (∀ parameter ∈ (Route.placeholders e.1).map pathParameter, parameter.location = .path ∧
            parameter.required = true ∧ parameter.schema = .typed "string") ∧
          ∀ parameter ∈ later, parameter.location ≠ .path) := by
  rw [crawl_run]
  intro e he
  constructor
  · have hname : e.1 ∈ Entries.names
        ((sites p o entry).foldl (Site.record p o markers "/") {}).routes :=
      List.mem_map_of_mem he
    obtain ⟨site, -, hkey⟩ := (mem_names_record _ _).1 hname
    rw [← hkey]
    exact site.isNormal_key
  · intro hundirected
    refine ⟨Route.nodup_placeholders _, fun operation hoperation => ?_⟩
    obtain ⟨site, hsite, hkey, T, hop⟩ := exists_site_of_mem_record he hoperation
    have hhandlers := hundirected site (mem_sites.1 hsite) hkey
    obtain ⟨later, hparameters, hlater⟩ := Site.operation_frontedBy (o := o) hhandlers T
    rw [hop, hkey] at hparameters
    refine ⟨later, hparameters, fun parameter hp => ?_, hlater⟩
    obtain ⟨name, -, rfl⟩ := List.mem_map.1 hp
    exact ⟨rfl, rfl, rfl⟩

/-- A handler whose body has no comments holds no directive. -/
theorem undirected_of_bodyComments_eq_nil {handler body : NodeId}
    (hbody : p.field? handler "body" = some body) (hcomments : bodyComments p body = []) :
    Undirected p markers handler := by
  intro other hother comment hcomment
  rw [hbody] at hother
  cases hother
  rw [hcomments] at hcomment
  cases hcomment

/-- The program `app.get("/posts/:id/:id?", (req, res) => res.json(c))`. -/
def postsProgram : Program where
  units := #[{
    commentsProgram.unit 0 with
    nodes := ((commentsProgram.unit 0).nodes.set! 7
      { kind := "string", named := true, parent := some 6, children := [8],
        text := "'/posts/:id/:id?'" }).set! 8
      { kind := "string_fragment", named := true, parent := some 7, text := "/posts/:id/:id?" } }]

theorem handlers_postsProgram :
    (sites postsProgram Schema.commentOracle 0).map Site.handlers = [[⟨0, 9⟩]] := by
  decide +kernel

/-- The one site of the program. -/
def postsSite : Site where
  position := 2
  call := ⟨0, 2⟩
  method := .get
  path := "/posts/:id/:id?"
  handlers := [⟨0, 9⟩]

theorem key_postsSite : postsSite.key = "/posts/{id}/{id}" := by cbv

theorem isSite_postsSite : IsSite postsProgram Schema.commentOracle 0 postsSite := by
  have hpath : (resolvePath postsProgram Schema.commentOracle ⟨0, 7⟩).run =
      some "/posts/:id/:id?" := by
    have hnode : postsProgram.skipParens ⟨0, 7⟩ = ⟨0, 7⟩ := by decide +kernel
    have hkind : postsProgram.kind ⟨0, 7⟩ = "string" := by decide +kernel
    have hvalue : postsProgram.stringValue? ⟨0, 7⟩ = some "/posts/:id/:id?" := by cbv
    unfold resolvePath
    simp [hnode, hkind, hvalue]
  have hcall : CallAt postsProgram 0 2 ⟨0, 2⟩ ⟨"get", ⟨0, 7⟩, ⟨0, 9⟩, []⟩ :=
    ⟨by decide +kernel, by decide +kernel, rfl⟩
  have hhandlers : handlersOf postsProgram Schema.commentOracle ⟨"get", ⟨0, 7⟩, ⟨0, 9⟩, []⟩ =
      [⟨0, 9⟩] := by decide +kernel
  exact ⟨List.nodup_singleton 0, 0, rfl, _, hcall, by decide +kernel, hpath, hhandlers,
    List.cons_ne_nil _ _⟩

/-- A parameter that occurs twice in the path is one parameter of its operation. -/
theorem crawl_pathParameters_posts :
    ∃ e ∈ (crawl postsProgram Schema.commentOracle ["swagger"] 0).run.1.routes,
      e.1 = "/posts/{id}/{id}" ∧ Route.placeholders e.1 = ["id"] ∧ Route.IsNormal e.1 ∧
      (∀ site, IsSite postsProgram Schema.commentOracle 0 site → site.key = e.1 →
        ∀ handler ∈ site.handlers, Undirected postsProgram ["swagger"] handler) ∧
      ∀ operation ∈ e.2, ∃ later,
        operation.2.parameters = [pathParameter "id"] ++ later ∧
        ∀ parameter ∈ later, parameter.location ≠ .path := by
  have hname : postsSite.key ∈
      (crawl postsProgram Schema.commentOracle ["swagger"] 0).run.1.routes.names := by
    rw [crawl_run]
    exact (mem_names_record _ _).2 ⟨postsSite, mem_sites.2 isSite_postsSite, rfl⟩
  obtain ⟨e, he, hkey⟩ := List.mem_map.1 hname
  have hplaceholders : Route.placeholders e.1 = ["id"] := by
    rw [hkey, key_postsSite]
    cbv
  have hundirected : ∀ site, IsSite postsProgram Schema.commentOracle 0 site → site.key = e.1 →
      ∀ handler ∈ site.handlers, Undirected postsProgram ["swagger"] handler := by
    intro site hsite _ handler hhandler
    have hs : site.handlers ∈ (sites postsProgram Schema.commentOracle 0).map Site.handlers :=
      List.mem_map_of_mem (mem_sites.2 hsite)
    rw [handlers_postsProgram, List.mem_singleton] at hs
    rw [hs, List.mem_singleton] at hhandler
    rw [hhandler]
    have hbody : postsProgram.field? ⟨0, 9⟩ "body" = some ⟨0, 15⟩ := by decide +kernel
    exact undirected_of_bodyComments_eq_nil hbody (by decide +kernel)
  obtain ⟨hnormal, hoperations⟩ :=
    crawl_pathParameters postsProgram Schema.commentOracle ["swagger"] 0 e he
  refine ⟨e, he, hkey.trans key_postsSite, hplaceholders, hnormal, hundirected,
    fun operation hoperation => ?_⟩
  obtain ⟨later, hparameters, -, hlater⟩ := (hoperations hundirected).2 operation hoperation
  rw [hplaceholders] at hparameters
  exact ⟨later, hparameters, hlater⟩

end Crawl

end RouteContract
