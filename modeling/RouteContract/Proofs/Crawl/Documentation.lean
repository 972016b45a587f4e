import Mathlib
import RouteContract.Proofs.Crawl.Blocks
import RouteContract.Proofs.Crawl.Directives
import RouteContract.Proofs.Crawl.Invariants
import RouteContract.Proofs.Crawl.Registration
import RouteContract.Proofs.Distinct
import RouteContract.Types.Resolver

/-!
# The documentation of a route

The documentation of an operation is its summary, description, operation id, deprecation and tags.
It comes from three passes over the handlers of a route: blocks of documentation, directives, usage.
`documentation docs ds` says what the blocks `docs` and the directives `ds`, in their order, make of
it: the last directive for a field decides, and without one the last block that has the field; tags
are all collected. Each pass is a fold, and one more block or directive changes the collected
documentation as it changes the operation (`documentation_mergeInto`, `documentation_apply`).
`Documented` says this of the operation of a registration, and the crawl keeps it for every oracle,
one with a state of its own included (`crawl_documentation`).
-/

namespace RouteContract

/-! ### What blocks and directives say together -/

/-- The documentation in the fields of an operation. -/
def Operation.documentation (op : Operation) : DocMetadata where
  summary := op.summary
  description := op.description
  operationId := op.operationId
  deprecated := op.deprecated
  tags := op.tags

/-- The text that a value gives: a text itself, a number or truth value as it is written, and none
for null, an array or an object. -/
def Json.givenText : Json → Option String
  | .str s => some s
  | .num n => some n.text
  | .bool true => some "true"
  | .bool false => some "false"
  | .null | .arr _ | .obj _ => none

/-- The tags that a value gives: a text itself, or the texts in an array. -/
def Json.givenTags : Json → List String
  | .str tag => [tag]
  | .arr items => items.filterMap Json.text?
  | _ => []

/-- The value of the last directive with a key. -/
def Directive.lastValue? (key : String) (ds : List Directive) : Option Json :=
  ((ds.filter (·.key = key)).getLast?).map Directive.value

/-- The text that the last directive with a key gives, or without one the last text of the
blocks. -/
def Directive.lastText? (key : String) (ds : List Directive) (texts : List String) :
    Option String :=
  match lastValue? key ds with
  | some value => value.givenText
  | none => texts.getLast?

/-- All tags of the blocks and directives, in order. -/
def allTags (docs : List DocMetadata) (ds : List Directive) : List String :=
  docs.flatMap DocMetadata.tags ++ (ds.filter (·.key = "tags")).flatMap (·.value.givenTags)

/-- The documentation that blocks and directives give together. -/
def documentation (docs : List DocMetadata) (ds : List Directive) : DocMetadata where
  summary := Directive.lastText? "summary" ds (docs.filterMap DocMetadata.summary)
  description := Directive.lastText? "description" ds (docs.filterMap DocMetadata.description)
  operationId := Directive.lastText? "operationId" ds (docs.filterMap DocMetadata.operationId)
  deprecated := match Directive.lastValue? "deprecated" ds with
    | some value => Directive.truthy value
    | none => docs.any DocMetadata.deprecated
  tags := ((allTags docs ds).filter (· ≠ "")).eraseDups

theorem Directive.lastValue?_concat (key : String) (ds : List Directive) (d : Directive) :
    lastValue? key (ds ++ [d]) = if d.key = key then some d.value else lastValue? key ds := by
  unfold lastValue?
  by_cases h : d.key = key <;> simp [h]

theorem Directive.lastText?_concat (key : String) (ds : List Directive) (d : Directive)
    (texts : List String) :
    lastText? key (ds ++ [d]) texts =
      if d.key = key then d.value.givenText else lastText? key ds texts := by
  unfold lastText?
  rw [lastValue?_concat]
  by_cases h : d.key = key <;> simp [h]

theorem allTags_concat (docs : List DocMetadata) (ds : List Directive) (d : Directive) :
    allTags docs (ds ++ [d]) =
      allTags docs ds ++ if d.key = "tags" then d.value.givenTags else [] := by
  unfold allTags
  by_cases h : d.key = "tags" <;> simp [h]

/-! ### Tags -/

/-- A tag is added as it is collected: unless it is empty or there already. -/
theorem Operation.tags_addTag {op : Operation} {all : List String}
    (h : op.tags = (all.filter (· ≠ "")).eraseDups) (tag : String) :
    (op.addTag tag).tags = ((all ++ [tag]).filter (· ≠ "")).eraseDups := by
  unfold addTag
  by_cases hempty : tag = ""
  · simp [hempty, h]
  · have hfilter : (all ++ [tag]).filter (· ≠ "") = all.filter (· ≠ "") ++ [tag] := by simp [hempty]
    have hmem : tag ∈ op.tags ↔ tag ∈ all.filter (· ≠ "") := by rw [h, List.mem_eraseDups]
    rw [hfilter, eraseDups_concat, ← h]
    by_cases hthere : tag ∈ op.tags
    · rw [if_pos (.inr hthere), if_pos (hmem.1 hthere)]
    · rw [if_neg (by tauto), if_neg (hmem.not.1 hthere)]

theorem Operation.tags_addTags {op : Operation} {all : List String}
    (h : op.tags = (all.filter (· ≠ "")).eraseDups) (tags : List String) :
    (op.addTags tags).tags = ((all ++ tags).filter (· ≠ "")).eraseDups := by
  induction tags generalizing op all with
  | nil =>
    rw [List.append_nil]
    exact h
  | cons tag tags ih =>
    show ((op.addTag tag).addTags tags).tags = _
    rw [ih (op.tags_addTag h tag), List.append_assoc, List.singleton_append]

/-! ### One more block, one more directive -/

theorem Operation.documentation_eq_iff {op : Operation} {doc : DocMetadata} :
    op.documentation = doc ↔ op.summary = doc.summary ∧ op.description = doc.description ∧
      op.operationId = doc.operationId ∧ op.deprecated = doc.deprecated ∧ op.tags = doc.tags := by
  cases doc
  exact Iff.of_eq (DocMetadata.mk.injEq ..)

/-- The text of a further block comes before that of the blocks so far. -/
theorem or_getLast?_filterMap (get : DocMetadata → Option String) (docs : List DocMetadata)
    (doc : DocMetadata) :
    (get doc).or (docs.filterMap get).getLast? = ((docs ++ [doc]).filterMap get).getLast? := by
  rw [List.filterMap_append, List.getLast?_append]
  cases h : get doc with
  | none => simp [h]
  | some text => simp [h]

/-- A block that is merged is one more block. -/
theorem documentation_mergeInto {op : Operation} {docs : List DocMetadata}
    (h : op.documentation = documentation docs []) (doc : DocMetadata) :
    (doc.mergeInto op).documentation = documentation (docs ++ [doc]) [] := by
  obtain ⟨hsummary, hdescription, hoperationId, hdeprecated, htags⟩ :=
    Operation.documentation_eq_iff.1 h
  have hall : allTags (docs ++ [doc]) [] = allTags docs [] ++ doc.tags := by simp [allTags]
  -- what becomes of the tags is said of the operation with the other fields set
  obtain ⟨op₁, hop₁⟩ : ∃ op₁ : Operation, op₁ = { op with
      summary := doc.summary.or op.summary
      description := doc.description.or op.description
      operationId := doc.operationId.or op.operationId
      deprecated := doc.deprecated || op.deprecated } := ⟨_, rfl⟩
  have htags₁ : op₁.tags = ((allTags docs []).filter (· ≠ "")).eraseDups := by
    rw [hop₁]
    exact htags
  have hadded := Operation.tags_addTags htags₁ doc.tags
  have hmerged : doc.mergeInto op = op₁.addTags doc.tags := by rw [hop₁]; rfl
  obtain ⟨all, htagged⟩ := op₁.exists_addTags_eq doc.tags
  rw [Operation.documentation_eq_iff, hmerged]
  refine ⟨?_, ?_, ?_, ?_, hadded.trans (by rw [← hall]; rfl)⟩
  all_goals rw [htagged, hop₁]
  · show doc.summary.or op.summary = _
    rw [hsummary]
    exact or_getLast?_filterMap _ docs doc
  · show doc.description.or op.description = _
    rw [hdescription]
    exact or_getLast?_filterMap _ docs doc
  · show doc.operationId.or op.operationId = _
    rw [hoperationId]
    exact or_getLast?_filterMap _ docs doc
  · show (doc.deprecated || op.deprecated) = (docs ++ [doc]).any DocMetadata.deprecated
    rw [hdeprecated, List.any_append, Bool.or_comm, List.any_cons, List.any_nil, Bool.or_false]
    rfl

namespace Directive

/-- A directive for a field of the documentation has exactly the name of the field as its key. -/
def Exact (d : Directive) : Prop :=
  ∀ name ∈ directKeys, (Json.pathSegments d.key).head? = some name → d.key = name

theorem scalarText_eq (key : String) (value : Json) :
    (scalarText key value).1 = value.givenText := by
  cases value with
  | bool b => cases b <;> rfl
  | _ => rfl

theorem tagsOf_eq (value : Json) : (tagsOf value).1 = value.givenTags := by
  cases value <;> rfl

/-- A directive for another field leaves the documentation as it is. -/
theorem documentation_apply_of_not_direct {op : Operation} (h : op.Restored) {d : Directive}
    (hd : d.Exact) (hdirect : d.key ∉ directKeys) :
    (d.apply op).1.documentation = op.documentation := by
  cases hkey : (Json.pathSegments d.key).head? with
  | none =>
    rw [apply_of_not_direct hdirect, setField_of_no_segments h (List.head?_eq_none_iff.1 hkey)]
  | some name =>
    have hsame := d.sameBut_apply h hkey
    have hname : ∀ field ∈ directKeys, name ≠ field := by
      rintro field hfield rfl
      exact hdirect (hd name hfield hkey ▸ hfield)
    unfold Operation.documentation
    rw [hsame.summary (hname _ (by decide)), hsame.description (hname _ (by decide)),
      hsame.operationId (hname _ (by decide)), hsame.deprecated (hname _ (by decide)),
      hsame.tags (hname _ (by decide))]

/-- What one more directive adds to the documentation. -/
theorem documentation_concat (docs : List DocMetadata) (ds : List Directive) (d : Directive) :
    documentation docs (ds ++ [d]) = {
      summary := if d.key = "summary" then d.value.givenText else (documentation docs ds).summary
      description :=
        if d.key = "description" then d.value.givenText else (documentation docs ds).description
      operationId :=
        if d.key = "operationId" then d.value.givenText else (documentation docs ds).operationId
      deprecated :=
        if d.key = "deprecated" then truthy d.value else (documentation docs ds).deprecated
      tags := ((allTags docs ds ++ if d.key = "tags" then d.value.givenTags else []).filter
        (· ≠ "")).eraseDups } := by
  unfold documentation
  rw [lastText?_concat, lastText?_concat, lastText?_concat, lastValue?_concat, allTags_concat,
    DocMetadata.mk.injEq]
  refine ⟨rfl, rfl, rfl, ?_, rfl⟩
  by_cases h : d.key = "deprecated" <;> simp [h]

/-- A directive that is applied is one more directive. -/
theorem documentation_apply {op : Operation} (h : op.Restored) {docs : List DocMetadata}
    {ds : List Directive} (hdoc : op.documentation = documentation docs ds) {d : Directive}
    (hd : d.Exact) : (d.apply op).1.documentation = documentation docs (ds ++ [d]) := by
  by_cases hdirect : d.key ∈ directKeys
  · obtain ⟨key, value⟩ := d
    have htags : op.tags = ((allTags docs ds).filter (· ≠ "")).eraseDups :=
      congrArg DocMetadata.tags hdoc
    have hsame : op.tags = ((allTags docs ds ++ []).filter (· ≠ "")).eraseDups := by
      rw [List.append_nil]
      exact htags
    rw [documentation_concat, ← hdoc, Operation.documentation_eq_iff]
    simp only [directKeys, List.mem_cons, List.not_mem_nil, or_false] at hdirect
    rcases hdirect with hkey | hkey | hkey | hkey | hkey <;> subst hkey
    · have happly : (apply op ⟨"tags", value⟩).1 = op.addTags value.givenTags := by
        rw [← tagsOf_eq]
        rfl
      obtain ⟨all, hall⟩ := op.exists_addTags_eq value.givenTags
      rw [happly]
      refine ⟨?_, ?_, ?_, ?_, Operation.tags_addTags htags value.givenTags⟩ <;> rw [hall] <;> rfl
    · exact ⟨scalarText_eq _ _, rfl, rfl, rfl, hsame⟩
    · exact ⟨rfl, scalarText_eq _ _, rfl, rfl, hsame⟩
    · exact ⟨rfl, rfl, scalarText_eq _ _, rfl, hsame⟩
    · exact ⟨rfl, rfl, rfl, rfl, hsame⟩
  · rw [documentation_apply_of_not_direct h hd hdirect, hdoc, documentation_concat]
    simp only [directKeys, List.mem_cons, List.not_mem_nil, or_false, not_or] at hdirect
    simp [hdirect, documentation]

theorem documentation_applyAll {op : Operation} (h : op.Restored) {docs : List DocMetadata}
    {before : List Directive} (hdoc : op.documentation = documentation docs before)
    {ds : List Directive} (hd : ∀ d ∈ ds, d.Exact) :
    (applyAll op ds).1.documentation = documentation docs (before ++ ds) := by
  induction ds generalizing op before with
  | nil =>
    rw [List.append_nil]
    exact hdoc
  | cons d ds ih =>
    rw [List.forall_mem_cons] at hd
    have hnext := ih (h.applyDirective d) (documentation_apply h hdoc hd.1) hd.2
    rw [List.append_assoc, List.singleton_append] at hnext
    exact hnext

theorem applyAll_append (op : Operation) (ds ds' : List Directive) :
    (applyAll op (ds ++ ds')).1 = (applyAll (applyAll op ds).1 ds').1 := by
  induction ds generalizing op with
  | nil => rfl
  | cons d ds ih => exact ih (d.apply op).1

end Directive

namespace Crawl

variable (p : Program) (markers : List String)

/-- The directives of a handler that can be read, in order. -/
def directivesOf (handler : NodeId) : List Directive :=
  match p.field? handler "body" with
  | some body => (bodyComments p body).flatMap fun comment =>
      Directive.readable (Directive.parse markers comment)
  | none => []

/-- The blocks of documentation of a route: that of the call, and those of the handlers in order. -/
def routeDocs (call : NodeId) (handlers : List NodeId) : List DocMetadata :=
  callSiteDocs p call :: handlers.map (handlerDocs p)

/-- The directives of a route, over all its handlers in order. -/
def routeDirectives (handlers : List NodeId) : List Directive :=
  handlers.flatMap (directivesOf p markers)

/-- The documentation of an operation is what blocks and directives have made it for a call with
handlers. When every directive for one of its fields has exactly the name of the field as its key,
it is what they say together. -/
structure Documented (call : NodeId) (handlers : List NodeId) (path : String) (op : Operation) :
    Prop where
  unchanged : op.documentation =
    (documentedOperation p markers call path handlers).1.documentation
  collected : (∀ d ∈ routeDirectives p markers handlers, d.Exact) →
    op.documentation =
      documentation (routeDocs p call handlers) (routeDirectives p markers handlers)

variable {p markers}

/-! ### The passes over the handlers -/

theorem applyComments_eq (op : Operation) (comments : List String) :
    (applyComments markers op comments).1 =
      (Directive.applyAll op (comments.flatMap fun comment =>
        Directive.readable (Directive.parse markers comment))).1 := by
  induction comments generalizing op with
  | nil => rfl
  | cons comment comments ih =>
    have hfirst : (Directive.applyAll op (Directive.readable (Directive.parse markers comment))).1 =
        (Directive.applyComment markers op comment).1 := by
      simp only [Directive.applyComment]
    rw [List.flatMap_cons, Directive.applyAll_append, hfirst, ← ih, applyComments]

theorem applyDirectives_eq (op : Operation) (handler : NodeId) :
    (applyDirectives p markers op handler).1 =
      (Directive.applyAll op (directivesOf p markers handler)).1 := by
  unfold applyDirectives directivesOf
  cases p.field? handler "body" with
  | none => rfl
  | some body => exact applyComments_eq op _

/-- The second pass applies the directives of all handlers. -/
theorem applyAllDirectives_eq (op : Operation) (handlers : List NodeId) :
    (applyAllDirectives p markers op handlers).1 =
      (Directive.applyAll op (handlers.flatMap (directivesOf p markers))).1 := by
  induction handlers generalizing op with
  | nil => rfl
  | cons handler handlers ih =>
    rw [List.flatMap_cons, Directive.applyAll_append, ← applyDirectives_eq]
    exact ih _

theorem documentation_addParameter (op : Operation) (q : Parameter) :
    (op.addParameter q).documentation = op.documentation := by
  unfold Operation.addParameter
  split <;> rfl

theorem documentation_routeOperation (call : NodeId) (path : String) :
    (routeOperation p call path).documentation = documentation [callSiteDocs p call] [] := by
  refine List.foldlRecOn (motive := fun op : Operation =>
    op.documentation = documentation [callSiteDocs p call] []) _ _ ?_ fun op hop name _ => ?_
  · have hfresh : Operation.fresh.documentation = documentation [] [] := rfl
    exact documentation_mergeInto hfresh (callSiteDocs p call)
  · rw [documentation_addParameter, hop]

/-- The first pass merges the blocks of all handlers. -/
theorem documentation_foldl_mergeInto {op : Operation} {docs : List DocMetadata}
    (h : op.documentation = documentation docs []) (handlers : List NodeId) :
    (handlers.foldl (fun op handler => (handlerDocs p handler).mergeInto op) op).documentation =
      documentation (docs ++ handlers.map (handlerDocs p)) [] := by
  induction handlers generalizing op docs with
  | nil =>
    rw [List.map_nil, List.append_nil]
    exact h
  | cons handler handlers ih =>
    rw [List.foldl_cons, ih (documentation_mergeInto h (handlerDocs p handler)), List.map_cons,
      List.append_assoc, List.singleton_append]

/-- The documentation of a route before usage analysis. -/
theorem documentation_documentedOperation (call : NodeId) (path : String) {handlers : List NodeId}
    (h : ∀ d ∈ routeDirectives p markers handlers, d.Exact) :
    (documentedOperation p markers call path handlers).1.documentation =
      documentation (routeDocs p call handlers) (routeDirectives p markers handlers) := by
  rw [documentedOperation, applyAllDirectives_eq]
  set op := handlers.foldl (fun op handler => (handlerDocs p handler).mergeInto op)
    (routeOperation p call path)
  have hrestored : op.Restored :=
    List.foldlRecOn (motive := Operation.Restored) _ _ (restored_routeOperation _ _)
      fun _ hop _ _ => hop.mergeInto _
  have hblocks : op.documentation = documentation (routeDocs p call handlers) [] :=
    documentation_foldl_mergeInto (documentation_routeOperation _ _) _
  exact Directive.documentation_applyAll hrestored hblocks h

/-- That an operation has a documentation is stable under usage analysis. -/
theorem stable_documentation (doc : DocMetadata) :
    Stable (fun _ => True) fun op => op.documentation = doc where
  header hop _ _ _ := (documentation_addParameter _ _).trans hop
  query hop _ _ _ _ _ := (documentation_addParameter _ _).trans hop
  body hop _ _ := hop
  response {op} hop code := by
    unfold Operation.ensureResponse
    split <;> exact hop
  payload hop _ _ _ := hop

section

variable {m : Type → Type} [Monad m] [LawfulMonad m] (o : Oracle m)

/-- The third pass leaves the documentation as it is. -/
theorem documentation_analyseHandlers (op : Operation) (T : Entries Schema)
    (handlers : List NodeId) :
    SatisfiesM (fun r => r.1.documentation = op.documentation)
      (analyseHandlers p o op T handlers) := by
  induction handlers generalizing op T with
  | nil => exact SatisfiesM.pure rfl
  | cons handler handlers ih =>
    refine SatisfiesM.bind (p := fun r => r.1.documentation = op.documentation) ?_ fun r hr =>
      (ih r.1 r.2).imp fun h => h.trans hr
    exact (stable_documentation op.documentation).handler
      (fun _ _ => ensures_of_forall fun _ _ => trivial) trivial trivial p handler rfl T

/-- The three passes document the operation of a route. -/
theorem documented_analyseHandlers (call : NodeId) (handlers : List NodeId) (path : String)
    (T : Entries Schema) :
    SatisfiesM (fun r => Documented p markers call handlers path r.1)
      (analyseHandlers p o (documentedOperation p markers call path handlers).1 T handlers) :=
  (documentation_analyseHandlers o _ T handlers).imp fun h =>
    ⟨h, fun hexact => h.trans (documentation_documentedOperation call path hexact)⟩

end

/-! ### The crawl -/

section

variable {o : Oracle Id}

theorem routes_crawl (entry : Nat) : (crawl p o markers entry).run.1.routes =
    ((sites p o entry).foldl (Site.record p o markers "/") {}).routes := by rw [crawl_run]

/-- Every site leaves an operation. -/
theorem exists_operation?_of_isSite {entry : Nat} {site : Site} (h : IsSite p o entry site) :
    ∃ op, (crawl p o markers entry).run.1.routes.operation? site.key site.method = some op := by
  have hmem : site ∈ (sites p o entry).filter (Site.isAt site.key site.method) :=
    List.mem_filter.2 ⟨mem_sites.2 h, by simp [Site.isAt]⟩
  rw [routes_crawl, operation?_record, ← Option.isSome_iff_exists, Option.isSome_map,
    List.getLast?_isSome]
  exact List.ne_nil_of_mem hmem

theorem Site.documented_operation (site : Site) (T : Entries Schema) :
    Documented p markers site.call site.handlers site.key (site.operation p o markers T) :=
  (SatisfiesM_Id_eq (p := fun r : Operation × Entries Schema =>
    Documented p markers site.call site.handlers site.key r.1)).1
    (documented_analyseHandlers o site.call site.handlers site.key T)

/-- An operation of the crawl is that of the last site of its path and method. -/
theorem exists_isLastSite {entry : Nat} {path : String} {method : Method} {op : Operation}
    (h : (crawl p o markers entry).run.1.routes.operation? path method = some op) :
    ∃ site, IsLastSite p o entry path method site ∧ site.operation p o markers [] = op := by
  rw [routes_crawl, operation?_record, Option.map_eq_some_iff] at h
  obtain ⟨site, hlast, hop⟩ := h
  have hsorted : (sites p o entry).Pairwise fun a b => a.trail < b.trail :=
    sorted_sitesWithin _ _ _
  obtain ⟨hsite, hmax⟩ := (getLast?_eq_some_iff (hsorted.filter _)).1 hlast
  simp only [List.mem_filter, mem_sites, Site.isAt, Bool.and_eq_true, decide_eq_true_eq]
    at hsite hmax
  exact ⟨site, ⟨hsite, fun other ho hk hm => hmax other ⟨ho, hk, hm⟩⟩, hop⟩

end

/-- Every operation is documented by a call that registers its method. -/
def RoutesDocumented (p : Program) (markers : List String)
    (resolves : NodeId → Option NodeId → Prop) (routes : Routes) : Prop :=
  ∀ path method op, routes.operation? path method = some op →
    ∃ call handlers, Registers p resolves call method handlers ∧
      Documented p markers call handlers path op

theorem routesDocumented_nil {resolves : NodeId → Option NodeId → Prop} :
    RoutesDocumented p markers resolves [] := by
  rintro path method op ⟨⟩

/-- A registration replaces the operation of its path and method, and leaves all others. -/
theorem RoutesDocumented.register {resolves : NodeId → Option NodeId → Prop} {routes : Routes}
    (h : RoutesDocumented p markers resolves routes) {call : NodeId} {method : Method}
    {handlers : List NodeId} (hcall : Registers p resolves call method handlers) {path : String}
    {op : Operation} (hop : Documented p markers call handlers path op) :
    RoutesDocumented p markers resolves (routes.register path method op) := by
  intro path' method' op' hop'
  rw [Routes.operation?_register] at hop'
  split at hop'
  · next hsame =>
    obtain ⟨rfl, rfl⟩ := hsame
    cases hop'
    exact ⟨call, handlers, hcall, hop⟩
  · exact h path' method' op' hop'

/-- **The documentation of a registered route.** Usage analysis leaves it as the blocks and
directives have made it. When every directive of the handlers for one of its fields has exactly the
name of the field as its key, the last directive for a field decides over the whole chain, and
without one the last block that has the field, the block of the call being the first; all tags are
collected in this order. Over any oracle this holds of a call that registers the method and of
handlers that its arguments resolved to, over a fixed oracle of the last site. -/
theorem crawl_documentation (p : Program) (markers : List String) (entry : Nat) :
    (∀ {m : Type → Type} [Monad m] [LawfulMonad m] (o : Oracle m)
        (resolves : NodeId → Option NodeId → Prop),
      (∀ argument, SatisfiesM (resolves argument) (resolveHandler p o argument)) →
        SatisfiesM (fun r => ∀ path method op, r.1.routes.operation? path method = some op →
          ∃ call handlers, Registers p resolves call method handlers ∧
            Documented p markers call handlers path op) (crawl p o markers entry)) ∧
    ∀ (o : Oracle Id) (path : String) (method : Method) (op : Operation),
      (crawl p o markers entry).run.1.routes.operation? path method = some op →
        ∃ site, IsLastSite p o entry path method site ∧
          Documented p markers site.call site.handlers path op := by
  constructor
  · intro m _ _ o resolves hresolves
    refine satisfiesM_crawl (I := fun s => RoutesDocumented p markers resolves s.routes) hresolves
      (fun call method handlers hcall path s hs => ?_) routesDocumented_nil entry
    exact (documented_analyseHandlers o call handlers path s.table).imp fun hop _ =>
      hs.register hcall hop
  · intro o path method op hop
    obtain ⟨site, hsite, rfl⟩ := exists_isLastSite hop
    exact ⟨site, hsite, hsite.1.2.1 ▸ site.documented_operation []⟩

/-- The program `app.get("/tags", () => { next() }, () => { res.send() })` with blocks above the
call and in front of both handlers, and directives in both. -/
def tagsProgram : Program where
  units := #[{
    path := "app.ts"
    nodes := #[
      { kind := "program", named := true, children := [1, 2] },
      { kind := "comment", named := true, parent := some 0,
        text := "/** @summary Old\n@description Kept\n@tags a, b */", endLine := 2 },
      { kind := "expression_statement", named := true, parent := some 0, children := [3],
        startLine := 3, endLine := 18 },
      { kind := "call_expression", named := true, parent := some 2, children := [4, 7],
        startLine := 3, endLine := 18 },
      { kind := "member_expression", field := some "function", named := true, parent := some 3,
        children := [5, 6], startLine := 3, endLine := 3 },
      { kind := "identifier", field := some "object", named := true, parent := some 4,
        text := "app", startLine := 3, endLine := 3 },
      { kind := "property_identifier", field := some "property", named := true, parent := some 4,
        text := "get", startLine := 3, endLine := 3 },
      { kind := "arguments", field := some "arguments", named := true, parent := some 3,
        children := [8, 10, 11, 15, 16], startLine := 3, endLine := 18 },
      { kind := "string", named := true, parent := some 7, children := [9], text := "'/tags'",
        startLine := 3, endLine := 3 },
      { kind := "string_fragment", named := true, parent := some 8, text := "/tags",
        startLine := 3, endLine := 3 },
      { kind := "comment", named := true, parent := some 7,
        text := "/** @summary First\n@operationId first\n@tags c */", startLine := 4,
        endLine := 6 },
      { kind := "arrow_function", named := true, parent := some 7, children := [12],
        startLine := 7, endLine := 10 },
      { kind := "statement_block", field := some "body", named := true, parent := some 11,
        children := [13, 14], startLine := 7, endLine := 10 },
      { kind := "comment", named := true, parent := some 12,
        text := "// #swagger.operationId = 'kept'", startLine := 8, endLine := 8 },
      { kind := "expression_statement", named := true, parent := some 12, startLine := 9,
        endLine := 9 },
      { kind := "comment", named := true, parent := some 7,
        text := "/** @summary Second\n@deprecated\n@tags b */", startLine := 11, endLine := 13 },
      { kind := "arrow_function", named := true, parent := some 7, children := [17],
        startLine := 14, endLine := 18 },
      { kind := "statement_block", field := some "body", named := true, parent := some 16,
        children := [18, 19, 20], startLine := 14, endLine := 18 },
      { kind := "comment", named := true, parent := some 17,
        text := "// #swagger.tags = ['d', 'a']", startLine := 15, endLine := 15 },
      { kind := "comment", named := true, parent := some 17, text := "// #swagger.x-rate = 5",
        startLine := 16, endLine := 16 },
      { kind := "expression_statement", named := true, parent := some 17, startLine := 17,
        endLine := 17 }] }]

/-- Whatever an argument resolves to, a function expression resolves to itself. -/
def KeepsFunctions (p : Program) (argument : NodeId) (answer : Option NodeId) : Prop :=
  isFunctionLiteral p (p.skipParens argument) = true → answer = some (p.skipParens argument)

theorem satisfiesM_keepsFunctions {m : Type → Type} [Monad m] [LawfulMonad m] (p : Program)
    (o : Oracle m) (argument : NodeId) :
    SatisfiesM (KeepsFunctions p argument) (resolveHandler p o argument) := by
  by_cases h : isFunctionLiteral p (p.skipParens argument) = true
  · rw [resolveHandler_of_functionLiteral h]
    exact SatisfiesM.pure fun _ => rfl
  · exact SatisfiesM.of_true fun _ hfunction => absurd hfunction h

/-- The only call of the program registers both functions. -/
theorem registers_tagsProgram {call : NodeId} {method : Method} {handlers : List NodeId}
    (h : Registers tagsProgram (KeepsFunctions tagsProgram) call method handlers) :
    call = ⟨0, 3⟩ ∧ handlers = [⟨0, 11⟩, ⟨0, 16⟩] := by
  obtain ⟨unit, position, c, hcall, -, ⟨found, hfound, rfl⟩, -⟩ := h
  have hunit : unit = 0 := Nat.lt_one_iff.1 hcall.unit_lt
  obtain ⟨hnode, hkind, hmember⟩ := hcall
  rw [hunit] at hnode
  have hcalls : ∀ node ∈ tagsProgram.preorder (.root 0),
      tagsProgram.kind node = "call_expression" → node = ⟨0, 3⟩ := by decide +kernel
  obtain rfl := hcalls call (List.mem_of_getElem? hnode) hkind
  refine ⟨rfl, ?_⟩
  have hc : memberCall? tagsProgram ⟨0, 3⟩ = some ⟨"get", ⟨0, 8⟩, ⟨0, 11⟩, [⟨0, 16⟩]⟩ := rfl
  cases hmember.symm.trans hc
  have harguments : handlerArguments tagsProgram ⟨"get", ⟨0, 8⟩, ⟨0, 11⟩, [⟨0, 16⟩]⟩ =
      [⟨0, 11⟩, ⟨0, 16⟩] := by decide +kernel
  rw [harguments] at hfound
  obtain ⟨answer, answer', hanswer, hanswer', rfl⟩ :
      ∃ answer answer', KeepsFunctions tagsProgram ⟨0, 11⟩ answer ∧
        KeepsFunctions tagsProgram ⟨0, 16⟩ answer' ∧ found = [answer, answer'] := by
    rcases hfound with _ | ⟨h₁, _ | ⟨h₂, _ | _⟩⟩
    exact ⟨_, _, h₁, h₂, rfl⟩
  have hfirst : tagsProgram.skipParens ⟨0, 11⟩ = ⟨0, 11⟩ := by decide +kernel
  have hsecond : tagsProgram.skipParens ⟨0, 16⟩ = ⟨0, 16⟩ := by decide +kernel
  unfold KeepsFunctions at hanswer hanswer'
  rw [hfirst] at hanswer
  rw [hsecond] at hanswer'
  rw [hanswer (by decide +kernel), hanswer' (by decide +kernel)]
  rfl

theorem docs_tagsProgram : routeDocs tagsProgram ⟨0, 3⟩ [⟨0, 11⟩, ⟨0, 16⟩] =
    [{ summary := some "Old", description := some "Kept", tags := ["a", "b"] },
      { summary := some "First", operationId := some "first", tags := ["c"] },
      { summary := some "Second", deprecated := true, tags := ["b"] }] := by
  have hcomments : tagsProgram.leadingComments ⟨0, 2⟩ =
      ["/** @summary Old\n@description Kept\n@tags a, b */"] := by decide +kernel
  have hcomments₁ : tagsProgram.leadingComments ⟨0, 11⟩ =
      ["/** @summary First\n@operationId first\n@tags c */"] := by decide +kernel
  have hcomments₂ : tagsProgram.leadingComments ⟨0, 16⟩ =
      ["/** @summary Second\n@deprecated\n@tags b */"] := by decide +kernel
  obtain ⟨doc, hdoc, hsaid⟩ : ∃ doc, HasBlock tagsProgram ⟨0, 2⟩ doc ∧ DocMetadata.ofDoc doc =
      { summary := some "Old", description := some "Kept", tags := ["a", "b"] } :=
    exists_hasBlock hcomments (by cbv)
  obtain ⟨doc₁, hdoc₁, hsaid₁⟩ : ∃ doc, HasBlock tagsProgram ⟨0, 11⟩ doc ∧ DocMetadata.ofDoc doc =
      { summary := some "First", operationId := some "first", tags := ["c"] } :=
    exists_hasBlock hcomments₁ (by cbv)
  obtain ⟨doc₂, hdoc₂, hsaid₂⟩ : ∃ doc, HasBlock tagsProgram ⟨0, 16⟩ doc ∧ DocMetadata.ofDoc doc =
      { summary := some "Second", deprecated := true, tags := ["b"] } :=
    exists_hasBlock hcomments₂ (by cbv)
  -- the block of the call stands above the statement
  have hown : ∀ doc, ¬ HasBlock tagsProgram ⟨0, 3⟩ doc :=
    docComment?_eq_none_iff.1 (by decide +kernel)
  have hcall := (callSiteDocs_blocks tagsProgram ⟨0, 3⟩).1 doc
    (.around hown (by decide +kernel) (by decide +kernel) (.own hdoc))
  have hfirst := (handlerDocs_blocks tagsProgram ⟨0, 11⟩).1 doc₁ (.own hdoc₁)
  have hsecond := (handlerDocs_blocks tagsProgram ⟨0, 16⟩).1 doc₂ (.own hdoc₂)
  rw [routeDocs, List.map_cons, List.map_cons, List.map_nil, hcall, hfirst, hsecond, hsaid, hsaid₁,
    hsaid₂]

theorem directives_tagsProgram :
    routeDirectives tagsProgram ["swagger"] [⟨0, 11⟩, ⟨0, 16⟩] =
      [⟨"operationId", .str "kept"⟩, ⟨"tags", .arr [.str "d", .str "a"]⟩,
        ⟨"x-rate", .num (.int 5)⟩] := by
  cbv

theorem exact_tagsProgram :
    ∀ d ∈ routeDirectives tagsProgram ["swagger"] [⟨0, 11⟩, ⟨0, 16⟩], d.Exact := by
  rw [directives_tagsProgram]
  unfold Directive.Exact
  decide +kernel

/-- What the blocks and directives of the program say together: the last block decides where no
directive does, a directive decides over all blocks, and tags are collected from all of them. -/
def tagsDocumentation : DocMetadata where
  summary := some "Second"
  description := some "Kept"
  operationId := some "kept"
  deprecated := true
  tags := ["a", "b", "c", "d"]

theorem documentation_tagsProgram :
    documentation (routeDocs tagsProgram ⟨0, 3⟩ [⟨0, 11⟩, ⟨0, 16⟩])
      (routeDirectives tagsProgram ["swagger"] [⟨0, 11⟩, ⟨0, 16⟩]) = tagsDocumentation := by
  rw [docs_tagsProgram, directives_tagsProgram]
  decide +kernel

/-- The one site of the program. -/
def tagsSite : Site where
  position := 2
  call := ⟨0, 3⟩
  method := .get
  path := "/tags"
  handlers := [⟨0, 11⟩, ⟨0, 16⟩]

theorem key_tagsSite : tagsSite.key = "/tags" := by cbv

theorem isSite_tagsSite : IsSite tagsProgram Schema.commentOracle 0 tagsSite := by
  have hpath : (resolvePath tagsProgram Schema.commentOracle ⟨0, 8⟩).run = some "/tags" := by
    have hnode : tagsProgram.skipParens ⟨0, 8⟩ = ⟨0, 8⟩ := by decide +kernel
    have hkind : tagsProgram.kind ⟨0, 8⟩ = "string" := by decide +kernel
    have hvalue : tagsProgram.stringValue? ⟨0, 8⟩ = some "/tags" := by cbv
    unfold resolvePath
    simp [hnode, hkind, hvalue]
  have hcall : CallAt tagsProgram 0 2 ⟨0, 3⟩ ⟨"get", ⟨0, 8⟩, ⟨0, 11⟩, [⟨0, 16⟩]⟩ :=
    ⟨by decide +kernel, by decide +kernel, rfl⟩
  have hhandlers : handlersOf tagsProgram Schema.commentOracle
      ⟨"get", ⟨0, 8⟩, ⟨0, 11⟩, [⟨0, 16⟩]⟩ = [⟨0, 11⟩, ⟨0, 16⟩] := by decide +kernel
  exact ⟨List.nodup_singleton 0, 0, rfl, _, hcall, by decide +kernel, hpath, hhandlers,
    List.cons_ne_nil _ _⟩

theorem sites_tagsProgram :
    (sites tagsProgram Schema.commentOracle 0).map (fun site => (site.call, site.handlers)) =
      [(⟨0, 3⟩, [⟨0, 11⟩, ⟨0, 16⟩])] := by
  decide +kernel

/-- With the resolver as its oracle the crawl comes to an end, and the route is there. -/
theorem route_tagsProgram :
    ((crawl tagsProgram (Types.oracle tagsProgram) ["swagger"] 0).run {}).any (fun r =>
      (r.1.1.routes.operation? "/tags" .get).isSome) = true := by
  decide +kernel

/-- Blocks and directives of two handlers, with the resolver and with a fixed function as the
oracle. -/
theorem crawl_documentation_tags :
    (∀ argument, SatisfiesM (KeepsFunctions tagsProgram argument)
      (resolveHandler tagsProgram (Types.oracle tagsProgram) argument)) ∧
    (∃ r M op, (crawl tagsProgram (Types.oracle tagsProgram) ["swagger"] 0).run {} = some (r, M) ∧
      r.1.routes.operation? "/tags" .get = some op ∧ op.documentation = tagsDocumentation) ∧
    ∃ op, (crawl tagsProgram Schema.commentOracle ["swagger"] 0).run.1.routes.operation?
        "/tags" .get = some op ∧
      (∃ site, IsLastSite tagsProgram Schema.commentOracle 0 "/tags" .get site ∧
        ∀ d ∈ routeDirectives tagsProgram ["swagger"] site.handlers, d.Exact) ∧
      op.documentation = tagsDocumentation := by
  have hfunctions := satisfiesM_keepsFunctions tagsProgram (Types.oracle tagsProgram)
  refine ⟨hfunctions, ?_, ?_⟩
  · obtain ⟨⟨r, M⟩, hrun, hroute⟩ :=
      (Option.any_eq_true _ _).1 route_tagsProgram
    obtain ⟨op, hop⟩ := Option.isSome_iff_exists.1 hroute
    have hcrawl := (crawl_documentation tagsProgram ["swagger"] 0).1 _ _ hfunctions
    have hroutes := SatisfiesM_Option_eq.1 (SatisfiesM_StateT_eq.1 hcrawl {}) _ hrun
    obtain ⟨call, handlers, hcall, hdocumented⟩ := hroutes "/tags" .get op hop
    obtain ⟨rfl, rfl⟩ := registers_tagsProgram hcall
    refine ⟨r, M, op, hrun, hop, ?_⟩
    rw [hdocumented.collected exact_tagsProgram, documentation_tagsProgram]
  · obtain ⟨op, hop⟩ : ∃ op, (crawl tagsProgram Schema.commentOracle ["swagger"]
        0).run.1.routes.operation? tagsSite.key tagsSite.method = some op :=
      exists_operation?_of_isSite isSite_tagsSite
    rw [key_tagsSite] at hop
    obtain ⟨site, hlast, hdocumented⟩ :=
      (crawl_documentation tagsProgram ["swagger"] 0).2 Schema.commentOracle "/tags" .get op hop
    have hsite : (site.call, site.handlers) ∈ (sites tagsProgram Schema.commentOracle 0).map
        fun site => (site.call, site.handlers) := List.mem_map_of_mem (mem_sites.2 hlast.1.1)
    rw [sites_tagsProgram, List.mem_singleton, Prod.mk.injEq] at hsite
    rw [hsite.1, hsite.2] at hdocumented
    refine ⟨op, hop, ⟨site, hlast, hsite.2 ▸ exact_tagsProgram⟩, ?_⟩
    rw [hdocumented.collected exact_tagsProgram, documentation_tagsProgram]

end Crawl

end RouteContract
