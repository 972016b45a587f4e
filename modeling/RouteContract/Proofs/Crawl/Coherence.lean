import Mathlib
import RouteContract.Proofs.Crawl.Updates
import RouteContract.Proofs.Document.RoundTrip

/-!
# Coherent operations

No update gives an operation two parameters of one name and location, an empty or repeated tag, or
an extension under the name of a declared field; and a header `content-type` is only there when it
was added directly. Direct updates and usage analysis check for this themselves. A directive sends
the operation through its JSON form: what is written under `parameters` and `tags` is not touched by
setting another field, and reading a written parameter keeps its name and location.
-/

namespace RouteContract

/-- Setting a field of an object leaves every other field as it is. -/
theorem Json.exists_set_obj (fields : List (String × Json)) (key : String) (value : Json) :
    ∃ fields', (Json.obj fields).set key value = .obj fields' ∧
      ∀ name, (pathSegments key).head? ≠ some name →
        Entries.get? name fields' = Entries.get? name fields := by
  unfold Json.set
  cases pathSegments key with
  | nil => exact ⟨fields, rfl, fun _ _ => rfl⟩
  | cons segment rest =>
    refine ⟨_, rfl, fun name h => ?_⟩
    rw [Entries.get?_put, if_neg fun heq => h (congrArg some heq)]
    rfl

/-- Reading a list that was left out if it was empty is reading its items. -/
theorem Json.mapM_of_elim_listOf {α : Type} {read : Json → Option α} {write : α → Json}
    {items items' : List α}
    (h : (if items = [] then none else some (Json.arr (items.map write))).elim (some [])
      (listOf read) = some items') : (items.map write).mapM read = some items' := by
  cases items with
  | nil => exact h
  | cons a rest => exact h

/-- What a reader keeps of every item, it keeps of the list. -/
theorem Json.map_eq_of_mapM {α β : Type} {read : Json → Option α} {write : α → Json} {f : α → β}
    (hf : ∀ a a', read (write a) = some a' → f a' = f a) {items items' : List α}
    (h : (items.map write).mapM read = some items') : items'.map f = items.map f := by
  induction items generalizing items' with
  | nil => cases h; rfl
  | cons a rest ih =>
    rw [List.map_cons, List.mapM_cons] at h
    obtain ⟨a', ha, h⟩ := Option.bind_eq_some_iff.1 h
    obtain ⟨rest', hrest, h⟩ := Option.bind_eq_some_iff.1 h
    cases h
    rw [List.map_cons, List.map_cons, hf a a' ha, ih hrest]

namespace Parameter

/-- What tells a parameter apart. -/
def key (q : Parameter) : Location × String := (q.location, q.name)

/-- Whether two parameters are told apart by nothing but the case of a header name. -/
def SameKey (a b : Location × String) : Prop :=
  (a.1 == b.1 && if b.1 = .header then Text.sameAscii a.2 b.2 else a.2 == b.2) = true

theorem sameAs_iff {q r : Parameter} : q.sameAs r.name r.location = true ↔ SameKey q.key r.key :=
  Iff.rfl

end Parameter

namespace Operation

/-- Parameters are told apart, a header `content-type` was added directly, tags are not empty and
occur once, and extensions have names of their own. -/
structure Coherent (added : List Parameter) (op : Operation) : Prop where
  distinct : op.parameters.Pairwise fun q r => ¬ q.sameAs r.name r.location = true
  contentType : ∀ q ∈ op.parameters, q.location = .header →
    Text.sameAscii q.name Crawl.contentType = true →
      ∃ r ∈ added, r.location = .header ∧ r.name = q.name
  nodup_tags : op.tags.Nodup
  tags_nonempty : ∀ tag ∈ op.tags, tag ≠ ""
  extensions_apart : ∀ name ∈ op.extensions.names, name ∉ fieldNames

variable {added : List Parameter} {op op' : Operation}

theorem Coherent.of_eq (h : op.Coherent added) (hkeys : op'.parameters.map Parameter.key =
    op.parameters.map Parameter.key) (htags : op'.tags = op.tags)
    (hext : ∀ name ∈ op'.extensions.names, name ∉ fieldNames) : op'.Coherent added where
  distinct := by
    have hdistinct := h.distinct
    simp only [Parameter.sameAs_iff] at hdistinct ⊢
    have hmap : (op.parameters.map Parameter.key).Pairwise fun a b => ¬ Parameter.SameKey a b :=
      List.pairwise_map.2 hdistinct
    exact List.pairwise_map.1 (hkeys ▸ hmap)
  contentType q hq hlocation hname := by
    have hmem : q.key ∈ op.parameters.map Parameter.key := hkeys ▸ List.mem_map_of_mem hq
    obtain ⟨q₀, hq₀, hkey⟩ := List.mem_map.1 hmem
    rw [Parameter.key, Parameter.key, Prod.mk.injEq] at hkey
    obtain ⟨r, hr, hrlocation, hrname⟩ := h.contentType q₀ hq₀ (hkey.1.trans hlocation)
      (by rw [hkey.2]; exact hname)
    exact ⟨r, hr, hrlocation, hrname.trans hkey.2⟩
  nodup_tags := htags ▸ h.nodup_tags
  tags_nonempty := htags ▸ h.tags_nonempty
  extensions_apart := hext

theorem coherent_fresh : fresh.Coherent [] := by
  constructor <;> simp [fresh]

/-! ### Direct updates -/

theorem Coherent.mono (h : op.Coherent added) {more : List Parameter}
    (hsub : ∀ q ∈ added, q ∈ more) : op.Coherent more :=
  { h with
    contentType := fun q hq hlocation hname =>
      (h.contentType q hq hlocation hname).imp fun r hr => ⟨hsub r hr.1, hr.2⟩ }

/-- A parameter that is not there yet can be added, and a header `content-type` if it counts as
added directly. -/
theorem Coherent.addParameter (h : op.Coherent added) {q : Parameter}
    (hq : q.location = .header → Text.sameAscii q.name Crawl.contentType = true →
      ∃ r ∈ added, r.location = .header ∧ r.name = q.name) :
    (op.addParameter q).Coherent added := by
  unfold Operation.addParameter
  split
  · exact h
  · next hnew =>
    refine { h with distinct := ?_, contentType := ?_ }
    · refine List.pairwise_append.2 ⟨h.distinct, List.pairwise_singleton _ _, fun r hr s hs => ?_⟩
      rw [List.mem_singleton.1 hs]
      exact fun hsame => hnew (List.any_eq_true.2 ⟨r, hr, hsame⟩)
    · intro r hr hlocation hname
      rcases List.mem_append.1 hr with hr | hr
      · exact h.contentType r hr hlocation hname
      · obtain rfl := List.mem_singleton.1 hr
        exact hq hlocation hname

theorem Coherent.ensureResponse (h : op.Coherent added) (code : String) :
    (op.ensureResponse code).Coherent added := by
  unfold Operation.ensureResponse
  split
  · exact h
  · exact { h with }

theorem Coherent.addTags (h : op.Coherent added) (tags : List String) :
    (op.addTags tags).Coherent added := by
  refine List.foldlRecOn (motive := Coherent added) _ _ h fun op hop tag _ => ?_
  unfold addTag
  split
  · exact hop
  · next hnew =>
    rw [not_or] at hnew
    refine { hop with nodup_tags := ?_, tags_nonempty := ?_ }
    · exact List.nodup_append.2 ⟨hop.nodup_tags, List.nodup_singleton _, fun a ha b hb hab =>
        hnew.2 (by rw [← List.mem_singleton.1 hb, ← hab]; exact ha)⟩
    · rw [List.forall_mem_append]
      exact ⟨hop.tags_nonempty, by simpa using hnew.1⟩

theorem Coherent.mergeInto (h : op.Coherent added) (doc : DocMetadata) :
    (doc.mergeInto op).Coherent added := by
  refine Coherent.addTags ?_ doc.tags
  exact { h with }

/-! ### Directives -/

/-- What is written under `parameters` and `tags`, when extensions have names of their own. -/
theorem exists_toJson_eq (op : Operation) (h : ∀ name ∈ op.extensions.names, name ∉ fieldNames) :
    ∃ fields, op.toJson = .obj fields ∧
      Entries.get? "parameters" fields = (if op.parameters = [] then none
        else some (.arr (op.parameters.map Parameter.toJson))) ∧
      Entries.get? "tags" fields =
        if op.tags = [] then none else some (.arr (op.tags.map .str)) := by
  have hnone : ∀ name ∈ fieldNames, Entries.get? name op.extensions = none := fun name hn =>
    Entries.get?_eq_none_iff.2 fun hmem => h name hmem hn
  refine ⟨_, rfl, ?_, ?_⟩
  · simp [hnone "parameters" (by decide)]
  · simp [hnone "tags" (by decide)]

/-- The keys of directives that set neither parameters nor part of the tags. -/
def Settable (key : String) : Prop :=
  (Json.pathSegments key).head? ≠ some "parameters" ∧
    ((Json.pathSegments key).head? = some "tags" → key = "tags")

theorem Coherent.setField (h : op.Coherent added) {key : String}
    (hparameters : (Json.pathSegments key).head? ≠ some "parameters")
    (htags : (Json.pathSegments key).head? ≠ some "tags") (value : Json) :
    (Directive.setField op key value).1.Coherent added := by
  unfold Directive.setField
  split
  · next op' hread =>
    obtain ⟨fields, hfields, hparametersAt, htagsAt⟩ := op.exists_toJson_eq h.extensions_apart
    obtain ⟨fields', hset, hkeep⟩ := Json.exists_set_obj fields key value
    rw [hfields, hset] at hread
    obtain ⟨r, hr, -, -, -, htags', -, hparameters', -, -, -, hothers⟩ :=
      ofJson?_eq_some_iff.1 hread
    have hknown : ∀ name ∈ fieldNames, (Json.pathSegments key).head? ≠ some name →
        r.known.get? name = Entries.get? name fields := fun name hn hne =>
      (Record.get?_known hr hn).trans (hkeep name hne)
    rw [Record.getD_eq, hknown _ (by decide) hparameters, hparametersAt] at hparameters'
    rw [Record.getD_eq, hknown _ (by decide) htags, htagsAt] at htags'
    refine h.of_eq ?_ ?_ ?_
    · exact Json.map_eq_of_mapM (fun q q' hq => Prod.ext
        (Parameter.name_location_of_reread hq).2 (Parameter.name_location_of_reread hq).1)
        (Json.mapM_of_elim_listOf hparameters')
    · have hread := Json.mapM_of_elim_listOf htags'
      rw [Json.mapM_map_eq_some.2 fun tag _ => Json.restored_text tag] at hread
      exact (Option.some.inj hread).symm
    · rw [← hothers]
      exact (Record.kept_others hr).apart
  · exact h

theorem Coherent.applyDirective (h : op.Coherent added) {d : Directive} (hd : Settable d.key) :
    (d.apply op).1.Coherent added := by
  unfold Directive.apply
  split
  · exact h.addTags _
  next htags =>
  split
  · exact { h with }
  split
  · exact { h with }
  split
  · exact { h with }
  split
  · exact { h with }
  · exact h.setField hd.1 (fun hhead => htags (hd.2 hhead)) _

end Operation

namespace Crawl

open Operation (Coherent Settable)

/-- That an operation is coherent is stable under usage analysis: it adds no header
`content-type`. -/
theorem stable_coherent (added : List Parameter) : Stable (fun _ => True) (Coherent added) where
  header hop _ hname _ := hop.addParameter fun _ htrue => by
    rw [hname] at htrue
    cases htrue
  query hop _ _ _ _ _ := hop.addParameter fun hlocation => nomatch hlocation
  body hop _ _ := { hop with }
  response hop := hop.ensureResponse
  payload hop _ _ _ := { hop with }

/-- **Updates lead to coherent operations.** After any updates of the fresh operation, by direct
calls, documentation, usage analysis with any oracle and directives that set neither `parameters`
nor part of `tags`, no two parameters have one location and name (up to case for headers), a header
`content-type` was added directly, tags are distinct and not empty, and no extension has the name of
a declared field. -/
theorem reached_coherent {added : List Parameter} {op : Operation}
    (h : Reached Settable added op) : op.Coherent added := by
  induction h with
  | fresh => exact Operation.coherent_fresh
  | @parameter added op _ q ih =>
    exact (ih.mono fun r hr => List.mem_append_left _ hr).addParameter fun hlocation _ =>
      ⟨q, by simp, hlocation, rfl⟩
  | tags _ tags ih => exact ih.addTags tags
  | response _ code ih => exact ih.ensureResponse code
  | documentation _ doc ih => exact ih.mergeInto doc
  | directive _ d hd ih => exact ih.applyDirective hd
  | analysis _ p o handler hrun ih =>
    exact (stable_coherent _).of_run (fun _ _ => ensures_of_forall fun _ _ => trivial) trivial
      trivial ih hrun

/-- A header that was added directly, then in another case, and a directive for an own field. -/
theorem reached_coherent_header :
    let accept : Parameter := { name := "Accept", location := .header }
    let again : Parameter := { name := "ACCEPT", location := .header }
    let directive : Directive := ⟨"x-rate.limit", .num (.int 5)⟩
    let op := (directive.apply ((Operation.fresh.addParameter accept).addParameter again)).1
    Settable "x-rate.limit" ∧ Reached Settable [accept, again] op ∧
      op.Coherent [accept, again] := by
  have hkey : Settable "x-rate.limit" := by
    unfold Settable
    decide +kernel
  have hreached := ((Reached.fresh.parameter { name := "Accept", location := .header }).parameter
    { name := "ACCEPT", location := .header }).directive ⟨"x-rate.limit", .num (.int 5)⟩ hkey
  exact ⟨hkey, hreached, reached_coherent hreached⟩

end Crawl

end RouteContract
