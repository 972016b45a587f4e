import Mathlib
import RouteContract.Document.Basic
import RouteContract.Document.Update
import RouteContract.Proofs.Schema.RoundTrip

/-!
# Reading operations and documents back

For each record of a document: it is read off the fields of a record, it is restored when its parts
are, and what is read is restored. A table is restored when its values are and its names are
distinct; the operations of a path when each is and the methods are distinct.
-/

namespace RouteContract

open Json

/-! ### Media types, parameters, bodies and responses -/

namespace MediaType

abbrev Restored (m : MediaType) : Prop := Json.Restored ofJson? toJson m

theorem ofJson?_eq_some_iff {v : Json} {m : MediaType} : ofJson? v = some m ↔
    ∃ r, Record.closed? ["schema"] v = some r ∧
      r.getD "schema" Schema.ofJson? {} = some m.schema := by
  obtain ⟨schema⟩ := m
  simp only [ofJson?, Option.bind_eq_bind, Option.bind_eq_some_iff, Option.pure_def,
    Option.some.injEq, mk.injEq, existsAndEq, and_true]

theorem restored_iff {m : MediaType} : m.Restored ↔ m.schema.Restored := by
  show Json.Restored ofJson? (fun m => .obj (field "schema" m.schema.toJson)) m ↔ _
  rw [Json.Restored, ofJson?_eq_some_iff,
    Record.exists_closed?_written (by decide) names_field_sublist]
  rfl

theorem restored_of_ofJson? {v : Json} {m : MediaType} (h : ofJson? v = some m) : m.Restored := by
  obtain ⟨r, -, hschema⟩ := ofJson?_eq_some_iff.1 h
  exact restored_iff.2 (Record.forall_of_getD (fun _ _ _ => Schema.restored_of_ofJson?)
    Schema.restored_empty hschema)

end MediaType

/-- The content of a body is restored when each media type occurs once and is restored. -/
def ContentRestored (content : Entries MediaType) : Prop :=
  content.names.Nodup ∧ ∀ e ∈ content, e.2.Restored

theorem contentRestored_nil : ContentRestored [] := ⟨List.nodup_nil, by simp⟩

theorem contentRestored_singleton {name : String} {schema : Schema} (h : schema.Restored) :
    ContentRestored [(name, ⟨schema⟩)] :=
  ⟨List.nodup_singleton _, by simpa using MediaType.restored_iff.2 h⟩

theorem contentRestored_of_tableOf {r : Record} {name : String} {content : Entries MediaType}
    (h : r.getD name (tableOf MediaType.ofJson?) [] = some content) : ContentRestored content :=
  Record.forall_of_getD (P := ContentRestored)
    (fun _ _ _ => forall_of_tableOf fun _ _ _ => MediaType.restored_of_ofJson?)
    contentRestored_nil h

namespace Parameter

abbrev Restored (q : Parameter) : Prop := Json.Restored ofJson? toJson q

theorem ofJson?_eq_some_iff {v : Json} {q : Parameter} : ofJson? v = some q ↔
    ∃ r, Record.closed? ["name", "in", "required", "schema", "description"] v = some r ∧
      r.get "name" text? = some q.name ∧
      r.get "in" (fun v => v.case?.bind Location.ofKey?) = some q.location ∧
      r.getD "required" flag? false = some q.required ∧
      r.getD "schema" Schema.ofJson? {} = some q.schema ∧
      r.get? "description" text? = some q.description := by
  obtain ⟨name, location, required, schema, description⟩ := q
  simp only [ofJson?, Option.bind_eq_bind, Option.bind_eq_some_iff, Option.pure_def,
    Option.some.injEq, mk.injEq, existsAndEq, and_true]

@[simp] theorem ofKey?_key (location : Location) :
    Location.ofKey? location.key = some location := by
  cases location <;> decide

theorem names_toJson_sublist (q : Parameter) :
    (Entries.names (field "name" (.str q.name) ++ field "in" (.str q.location.key)
      ++ field "required" (.bool q.required) ++ field "schema" q.schema.toJson
      ++ optionalField "description" .str q.description)).Sublist
        ["name", "in", "required", "schema", "description"] := by
  show List.Sublist _ (["name"] ++ ["in"] ++ ["required"] ++ ["schema"] ++ ["description"])
  repeat' apply names_append_sublist
  exacts [names_field_sublist, names_field_sublist, names_field_sublist, names_field_sublist,
    names_optionalField_sublist]

theorem restored_iff {q : Parameter} : q.Restored ↔ q.schema.Restored := by
  rw [Restored, Json.Restored, ofJson?_eq_some_iff, toJson,
    Record.exists_closed?_written (by decide) q.names_toJson_sublist]
  simp [text?, flag?, case?]
  rfl

/-- Reading a written parameter, restored or not, keeps its name and location. -/
theorem name_location_of_reread {q q' : Parameter} (h : ofJson? q.toJson = some q') :
    q'.name = q.name ∧ q'.location = q.location := by
  rw [ofJson?_eq_some_iff, toJson,
    Record.exists_closed?_written (by decide) q.names_toJson_sublist] at h
  obtain ⟨hname, hlocation, -⟩ := h
  simp [text?] at hname
  simp [case?] at hlocation
  exact ⟨hname.symm, hlocation.symm⟩

theorem restored_of_ofJson? {v : Json} {q : Parameter} (h : ofJson? v = some q) : q.Restored := by
  obtain ⟨r, -, -, -, -, hschema, -⟩ := ofJson?_eq_some_iff.1 h
  exact restored_iff.2 (Record.forall_of_getD (fun _ _ _ => Schema.restored_of_ofJson?)
    Schema.restored_empty hschema)

end Parameter

namespace RequestBody

abbrev Restored (b : RequestBody) : Prop := Json.Restored ofJson? toJson b

theorem ofJson?_eq_some_iff {v : Json} {b : RequestBody} : ofJson? v = some b ↔
    ∃ r, Record.closed? ["description", "required", "content"] v = some r ∧
      r.get? "description" text? = some b.description ∧
      r.getD "required" flag? false = some b.required ∧
      r.getD "content" (tableOf MediaType.ofJson?) [] = some b.content := by
  obtain ⟨description, required, content⟩ := b
  simp only [ofJson?, Option.bind_eq_bind, Option.bind_eq_some_iff, Option.pure_def,
    Option.some.injEq, mk.injEq, existsAndEq, and_true]

@[simp] theorem toJson_ne_null (b : RequestBody) : b.toJson ≠ .null := Json.noConfusion

theorem restored_iff {b : RequestBody} : b.Restored ↔ ContentRestored b.content := by
  rw [Restored, Json.Restored, ofJson?_eq_some_iff, toJson,
    Record.exists_closed?_written (by decide) ?names]
  case names =>
    show List.Sublist _ (["description"] ++ ["required"] ++ ["content"])
    repeat' apply names_append_sublist
    exacts [names_optionalField_sublist, names_flagField_sublist, names_field_sublist]
  simp [ContentRestored]

theorem restored_of_ofJson? {v : Json} {b : RequestBody} (h : ofJson? v = some b) :
    b.Restored := by
  obtain ⟨r, -, -, -, hcontent⟩ := ofJson?_eq_some_iff.1 h
  exact restored_iff.2 (contentRestored_of_tableOf hcontent)

end RequestBody

namespace Response

/-- The names of the declared fields. -/
def fieldNames : List String := ["description", "content"]

abbrev Restored (response : Response) : Prop := Json.Restored ofJson? toJson response

theorem ofJson?_eq_some_iff {v : Json} {response : Response} : ofJson? v = some response ↔
    ∃ r, Record.open? fieldNames v = some r ∧
      r.getD "description" text? "" = some response.description ∧
      r.getD "content" (tableOf MediaType.ofJson?) [] = some response.content ∧
      r.others = response.extensions := by
  obtain ⟨description, content, extensions⟩ := response
  simp only [ofJson?, Option.bind_eq_bind, Option.bind_eq_some_iff, Option.pure_def,
    Option.some.injEq, mk.injEq, existsAndEq, true_and]
  rfl

theorem restored_iff {response : Response} : response.Restored ↔
    Record.Kept fieldNames response.extensions ∧ ContentRestored response.content := by
  rw [Restored, Json.Restored, ofJson?_eq_some_iff, toJson,
    Record.exists_open?_written (by decide) ?names (by tauto)]
  case names =>
    show List.Sublist _ (["description"] ++ ["content"])
    exact names_append_sublist names_field_sublist names_tableField_sublist
  simp [ContentRestored, text?]

theorem restored_of_ofJson? {v : Json} {response : Response} (h : ofJson? v = some response) :
    response.Restored := by
  obtain ⟨r, hr, -, hcontent, hothers⟩ := ofJson?_eq_some_iff.1 h
  cases v with
  | obj fields =>
    exact restored_iff.2 ⟨hothers ▸ Record.kept_others hr, contentRestored_of_tableOf hcontent⟩
  | _ => cases hr

end Response

/-! ### Operations -/

namespace SecurityRequirement

abbrev Restored (requirement : SecurityRequirement) : Prop :=
  Json.Restored ofJson? toJson requirement

theorem restored_iff {requirement : SecurityRequirement} :
    Restored requirement ↔ requirement.names.Nodup := by
  rw [Restored, Json.Restored, ofJson?, toJson, tableOf_ofTable]
  exact and_iff_left fun e _ => restored_list.2 fun s _ => restored_text s

theorem restored_of_ofJson? {v : Json} {requirement : SecurityRequirement}
    (h : ofJson? v = some requirement) : Restored requirement :=
  restored_iff.2 (forall_of_tableOf (P := fun _ => True) (fun _ _ _ _ => trivial) h).1

end SecurityRequirement

namespace Operation

/-- The JSON form of an operation reads back as the operation. -/
abbrev Restored (op : Operation) : Prop := Json.Restored ofJson? toJson op

theorem ofJson?_eq_some_iff {v : Json} {op : Operation} : ofJson? v = some op ↔
    ∃ r, Record.open? fieldNames v = some r ∧
      r.get? "summary" text? = some op.summary ∧
      r.get? "description" text? = some op.description ∧
      r.get? "operationId" text? = some op.operationId ∧
      r.getD "tags" (listOf text?) [] = some op.tags ∧
      r.getD "deprecated" flag? false = some op.deprecated ∧
      r.getD "parameters" (listOf Parameter.ofJson?) [] = some op.parameters ∧
      r.get? "requestBody" RequestBody.ofJson? = some op.requestBody ∧
      r.getD "responses" (tableOf Response.ofJson?) [] = some op.responses ∧
      r.get? "security" (listOf SecurityRequirement.ofJson?) = some op.security ∧
      r.others = op.extensions := by
  cases op
  simp only [ofJson?, Option.bind_eq_bind, Option.bind_eq_some_iff, Option.pure_def,
    Option.some.injEq, mk.injEq, existsAndEq, true_and]

/-- An operation is restored when its parts are and its other fields can be kept. -/
theorem restored_iff {op : Operation} : op.Restored ↔
    Record.Kept fieldNames op.extensions ∧
      (∀ q ∈ op.parameters, q.Restored) ∧
      (∀ b, op.requestBody = some b → b.Restored) ∧
      (op.responses.names.Nodup ∧ ∀ e ∈ op.responses, e.2.Restored) ∧
      ∀ requirements, op.security = some requirements →
        ∀ requirement ∈ requirements, SecurityRequirement.Restored requirement := by
  rw [Restored, Json.Restored, ofJson?_eq_some_iff, toJson,
    Record.exists_open?_written (by decide) ?names (by tauto)]
  case names =>
    show List.Sublist _ (["summary"] ++ ["description"] ++ ["operationId"] ++ ["tags"]
      ++ ["deprecated"] ++ ["parameters"] ++ ["requestBody"] ++ ["responses"] ++ ["security"])
    repeat' apply names_append_sublist
    exacts [names_optionalField_sublist, names_optionalField_sublist, names_optionalField_sublist,
      names_listField_sublist, names_flagField_sublist, names_listField_sublist,
      names_optionalField_sublist, names_field_sublist, names_optionalField_sublist]
  simp

/-- What is read is restored. -/
theorem restored_of_ofJson? {v : Json} {op : Operation} (h : ofJson? v = some op) :
    op.Restored := by
  obtain ⟨r, hr, -, -, -, -, -, hparameters, hbody, hresponses, hsecurity, hothers⟩ :=
    ofJson?_eq_some_iff.1 h
  cases v with
  | obj fields =>
    refine restored_iff.2 ⟨hothers ▸ Record.kept_others hr, ?_, ?_, ?_, ?_⟩
    · exact Record.forall_of_getD (P := fun qs => ∀ q ∈ qs, Parameter.Restored q)
        (fun _ _ _ => forall_of_listOf fun _ _ _ => Parameter.restored_of_ofJson?) (by simp)
        hparameters
    · exact Record.forall_of_get? (fun _ _ _ => RequestBody.restored_of_ofJson?) hbody
    · exact Record.forall_of_getD
        (P := fun entries : Entries Response => entries.names.Nodup ∧ ∀ e ∈ entries, e.2.Restored)
        (fun _ _ _ => forall_of_tableOf fun _ _ _ => Response.restored_of_ofJson?) (by simp)
        hresponses
    · exact Record.forall_of_get?
        (P := fun rs => ∀ requirement ∈ rs, SecurityRequirement.Restored requirement)
        (fun _ _ _ => forall_of_listOf fun _ _ _ => SecurityRequirement.restored_of_ofJson?)
        hsecurity
  | _ => cases hr

/-! ### Updates -/

theorem restored_fresh : fresh.Restored := by
  rw [restored_iff]
  simp [fresh, Record.kept_nil, Response.restored_iff, contentRestored_nil]

theorem Restored.addParameter {op : Operation} (h : op.Restored) {q : Parameter}
    (hq : q.Restored) : (op.addParameter q).Restored := by
  unfold Operation.addParameter
  split
  · exact h
  · rw [restored_iff] at h ⊢
    refine ⟨h.1, fun r hr => ?_, h.2.2⟩
    rcases List.mem_append.1 hr with hr | hr
    · exact h.2.1 r hr
    · rw [List.mem_singleton.1 hr]
      exact hq

theorem Restored.ensureResponse {op : Operation} (h : op.Restored) (code : String) :
    (op.ensureResponse code).Restored := by
  unfold Operation.ensureResponse
  split
  · exact h
  · rw [restored_iff] at h ⊢
    obtain ⟨hkept, hparameters, hbody, ⟨hnodup, hresponses⟩, hsecurity⟩ := h
    refine ⟨hkept, hparameters, hbody, ⟨Entries.nodup_names_put hnodup _ _, fun e he => ?_⟩,
      hsecurity⟩
    rcases Entries.mem_put he with rfl | he
    · exact Response.restored_iff.2 ⟨Record.kept_nil, contentRestored_nil⟩
    · exact hresponses e he

theorem Restored.setBody {op : Operation} (h : op.Restored) {schema : Schema}
    (hs : schema.Restored) : Restored { op with requestBody := some (.json schema) } := by
  rw [restored_iff] at h ⊢
  refine ⟨h.1, h.2.1, fun body hb => ?_, h.2.2.2⟩
  cases hb
  exact RequestBody.restored_iff.2 (contentRestored_singleton hs)

theorem Restored.fillResponse {op : Operation} (h : op.Restored) (code : String) {schema : Schema}
    (hs : schema.Restored) :
    Restored { op with
      responses := Entries.change code
        (fun r => { r with content := [(jsonMediaType, ⟨schema⟩)] }) op.responses } := by
  rw [restored_iff] at h ⊢
  obtain ⟨hkept, hparameters, hbody, ⟨hnodup, hresponses⟩, hsecurity⟩ := h
  refine ⟨hkept, hparameters, hbody, ⟨?_, fun e he => ?_⟩, hsecurity⟩
  · rw [Entries.names_change]
    exact hnodup
  · rcases Entries.mem_change he with he | ⟨old, ho, rfl⟩
    · exact hresponses e he
    · have hold := Response.restored_iff.1 (hresponses _ ho)
      exact Response.restored_iff.2 ⟨hold.1, contentRestored_singleton hs⟩

theorem Restored.addTags {op : Operation} (h : op.Restored) (tags : List String) :
    (op.addTags tags).Restored := by
  refine List.foldlRecOn (motive := Restored) _ _ h fun op hop tag _ => ?_
  unfold addTag
  split
  · exact hop
  · rw [restored_iff] at hop ⊢
    exact hop

theorem Restored.mergeInto {op : Operation} (h : op.Restored) (doc : DocMetadata) :
    (doc.mergeInto op).Restored := by
  refine Restored.addTags ?_ doc.tags
  rw [restored_iff] at h ⊢
  exact h

/-- A field that is set through the JSON form gives what was read of it, or changes nothing. -/
theorem Restored.setField {op : Operation} (h : op.Restored) (key : String) (value : Json) :
    (Directive.setField op key value).1.Restored := by
  unfold Directive.setField
  split
  · next hread => exact restored_of_ofJson? hread
  · exact h

theorem Restored.applyDirective {op : Operation} (h : op.Restored) (d : Directive) :
    (d.apply op).1.Restored := by
  have htexts := restored_iff.1 h
  unfold Directive.apply
  split
  · exact h.addTags _
  split
  · exact restored_iff.2 htexts
  split
  · exact restored_iff.2 htexts
  split
  · exact restored_iff.2 htexts
  split
  · exact restored_iff.2 htexts
  · exact h.setField _ _

end Operation

/-! ### Paths -/

namespace PathItem

abbrev Restored (item : PathItem) : Prop := Json.Restored ofJson? toJson item

/-- The operations of a path under the names of their methods. -/
def byName (item : PathItem) : Entries Operation := item.map fun e => (e.1.key, e.2)

theorem ofKey?_key (method : Method) : Method.ofKey? method.key = some method := by
  cases method <;> decide

theorem key_injective : Function.Injective Method.key := fun m n h =>
  Option.some.inj (by rw [← ofKey?_key m, h, ofKey?_key n])

theorem byName_injective : Function.Injective byName :=
  List.map_injective_iff.2 fun e f h => by
    rw [Prod.ext_iff] at h
    exact Prod.ext (key_injective h.1) h.2

theorem byName_put (method : Method) (op : Operation) (item : PathItem) :
    byName (put method op item) = Entries.put method.key op (byName item) := by
  induction item with
  | nil => rfl
  | cons e rest ih =>
    obtain ⟨m, old⟩ := e
    show byName (if m = method then _ else _) = if m.key = method.key then _ else _
    by_cases h : m = method
    · simp [h, byName]
    · rw [if_neg h, if_neg (key_injective.ne h)]
      exact congrArg (List.cons _) ih

theorem byName_foldl_put (item pairs : PathItem) :
    byName (pairs.foldl (fun item pair => put pair.1 pair.2 item) item) =
      Entries.putAll (byName item) (byName pairs) := by
  induction pairs generalizing item with
  | nil => rfl
  | cons pair rest ih => rw [List.foldl_cons, ih, byName_put]; rfl

/-- Read an operation under the name of its method. -/
def readOperation? (entry : String × Json) : Option (Method × Operation) := do
  return (← Method.ofKey? entry.1, ← Operation.ofJson? entry.2)

/-- The operations of a path are restored when each is and the methods are distinct. -/
theorem restored_of_nodup {item : PathItem} (hnodup : (byName item).names.Nodup)
    (h : ∀ e ∈ item, e.2.Restored) : Restored item := by
  have hread : (item.map fun e => (e.1.key, e.2.toJson)).mapM readOperation? = some item := by
    refine mapM_map_eq_some.2 fun e he => ?_
    have hop : Operation.ofJson? e.2.toJson = some e.2 := h e he
    simp [readOperation?, ofKey?_key, hop]
  have hput : item.foldl (fun item pair => put pair.1 pair.2 item) [] = item :=
    byName_injective (by rw [byName_foldl_put]; exact Entries.putAll_nil_eq_self.2 hnodup)
  show (List.mapM readOperation? _).bind _ = some item
  rw [hread]
  exact congrArg some hput

theorem restored_of_ofJson? {v : Json} {item : PathItem} (h : ofJson? v = some item) :
    Restored item := by
  cases v with
  | obj fields =>
    obtain ⟨pairs, hpairs, h⟩ := Option.bind_eq_some_iff.1 h
    cases h
    have hbyName := byName_foldl_put [] pairs
    refine restored_of_nodup ?_ fun e he => ?_
    · rw [hbyName]
      exact Entries.nodup_names_putAll_nil _
    · have hmem : (e.1.key, e.2) ∈ Entries.putAll (byName []) (byName pairs) :=
        hbyName ▸ List.mem_map_of_mem (f := fun e : Method × Operation => (e.1.key, e.2)) he
      obtain ⟨pair, hpair, heq⟩ :=
        List.mem_map.1 ((Entries.mem_putAll hmem).resolve_left (by simp [byName]))
      rw [Prod.ext_iff] at heq
      rw [← heq.2]
      refine forall_of_mapM (P := fun pair : Method × Operation => pair.2.Restored)
        (fun entry _ pair hread => ?_) hpairs pair hpair
      obtain ⟨method, -, hread⟩ := Option.bind_eq_some_iff.1 hread
      obtain ⟨op, hop, hread⟩ := Option.bind_eq_some_iff.1 hread
      cases hread
      exact Operation.restored_of_ofJson? hop
  | _ => cases h

end PathItem

/-! ### Documents -/

namespace Info

theorem ofJson?_eq_some_iff {v : Json} {info : Info} : ofJson? v = some info ↔
    ∃ r, Record.closed? ["title", "version", "description"] v = some r ∧
      r.get "title" text? = some info.title ∧
      r.get "version" text? = some info.version ∧
      r.get? "description" text? = some info.description := by
  obtain ⟨title, version, description⟩ := info
  simp only [ofJson?, Option.bind_eq_bind, Option.bind_eq_some_iff, Option.pure_def,
    Option.some.injEq, mk.injEq, existsAndEq, and_true]

/-- General information is restored, whatever its texts. -/
theorem restored (info : Info) : Json.Restored ofJson? toJson info := by
  rw [Json.Restored, ofJson?_eq_some_iff, toJson,
    Record.exists_closed?_written (by decide) ?names]
  case names =>
    show List.Sublist _ (["title"] ++ ["version"] ++ ["description"])
    repeat' apply names_append_sublist
    exacts [names_field_sublist, names_field_sublist, names_optionalField_sublist]
  simp [text?]

end Info

namespace Server

theorem ofJson?_eq_some_iff {v : Json} {server : Server} : ofJson? v = some server ↔
    ∃ r, Record.closed? ["url", "description"] v = some r ∧
      r.get "url" text? = some server.url ∧
      r.get? "description" text? = some server.description := by
  obtain ⟨url, description⟩ := server
  simp only [ofJson?, Option.bind_eq_bind, Option.bind_eq_some_iff, Option.pure_def,
    Option.some.injEq, mk.injEq, existsAndEq, and_true]

/-- A server is restored, whatever its texts. -/
theorem restored (server : Server) : Json.Restored ofJson? toJson server := by
  rw [Json.Restored, ofJson?_eq_some_iff, toJson,
    Record.exists_closed?_written (by decide) ?names]
  case names =>
    show List.Sublist _ (["url"] ++ ["description"])
    exact names_append_sublist names_field_sublist names_optionalField_sublist
  simp [text?]

end Server

namespace Components

abbrev Restored (c : Components) : Prop := Json.Restored ofJson? toJson c

theorem ofJson?_eq_some_iff {v : Json} {c : Components} : ofJson? v = some c ↔
    ∃ r, Record.closed? ["schemas", "securitySchemes"] v = some r ∧
      r.getD "schemas" (tableOf Schema.ofJson?) [] = some c.schemas ∧
      r.getD "securitySchemes" (tableOf fun v => some v.merged) [] = some c.securitySchemes := by
  obtain ⟨schemas, securitySchemes⟩ := c
  simp only [ofJson?, Option.bind_eq_bind, Option.bind_eq_some_iff, Option.pure_def,
    Option.some.injEq, mk.injEq, existsAndEq, and_true]

theorem restored_iff {c : Components} : c.Restored ↔
    (c.schemas.names.Nodup ∧ ∀ e ∈ c.schemas, e.2.Restored) ∧
      c.securitySchemes.names.Nodup ∧ ∀ e ∈ c.securitySchemes, e.2.merged = e.2 := by
  rw [Restored, Json.Restored, ofJson?_eq_some_iff, toJson, Schema.tableToJson_eq,
    Record.exists_closed?_written (by decide) ?names]
  case names =>
    show List.Sublist _ (["schemas"] ++ ["securitySchemes"])
    exact names_append_sublist names_field_sublist names_tableField_sublist
  simp

theorem restored_of_ofJson? {v : Json} {c : Components} (h : ofJson? v = some c) :
    c.Restored := by
  obtain ⟨r, -, hschemas, hschemes⟩ := ofJson?_eq_some_iff.1 h
  refine restored_iff.2 ⟨?_, ?_⟩
  · exact Record.forall_of_getD
      (P := fun entries : Entries Schema => entries.names.Nodup ∧ ∀ e ∈ entries, e.2.Restored)
      (fun _ _ _ => forall_of_tableOf fun _ _ _ => Schema.restored_of_ofJson?) (by simp) hschemas
  · refine Record.forall_of_getD
      (P := fun entries : Entries Json => entries.names.Nodup ∧ ∀ e ∈ entries, e.2.merged = e.2)
      (fun _ _ _ => forall_of_tableOf (P := fun v : Json => v.merged = v) fun w _ v hv => ?_)
      (by simp) hschemes
    cases hv
    exact merged_merged w

end Components

namespace Document

/-- The JSON form of a document reads back as the document. -/
abbrev Restored (d : Document) : Prop := Json.Restored ofJson? toJson d

/-- The names of the fields. -/
def fieldNames : List String :=
  ["openapi", "info", "servers", "paths", "components", "security"]

theorem ofJson?_eq_some_iff {v : Json} {d : Document} : ofJson? v = some d ↔
    ∃ r, Record.closed? fieldNames v = some r ∧
      r.get "openapi" text? = some d.openapi ∧
      r.get "info" Info.ofJson? = some d.info ∧
      r.getD "servers" (listOf Server.ofJson?) [] = some d.servers ∧
      r.get "paths" Routes.ofJson? = some d.paths ∧
      r.getD "components" Components.ofJson? {} = some d.components ∧
      r.getD "security" (listOf SecurityRequirement.ofJson?) [] = some d.security := by
  cases d
  simp only [ofJson?, Option.bind_eq_bind, Option.bind_eq_some_iff, Option.pure_def,
    Option.some.injEq, mk.injEq, existsAndEq, and_true]
  rfl

theorem restored_iff {d : Document} : d.Restored ↔
    (d.paths.names.Nodup ∧ ∀ e ∈ d.paths, e.2.Restored) ∧
      d.components.Restored ∧
      ∀ requirement ∈ d.security, SecurityRequirement.Restored requirement := by
  rw [Restored, Json.Restored, ofJson?_eq_some_iff, toJson,
    Record.exists_closed?_written (by decide) ?names]
  case names =>
    show List.Sublist _ (["openapi"] ++ ["info"] ++ ["servers"] ++ ["paths"] ++ ["components"]
      ++ ["security"])
    repeat' apply names_append_sublist
    exacts [names_field_sublist, names_field_sublist, names_field_sublist, names_field_sublist,
      names_field_sublist, names_listField_sublist]
  have hinfo : Info.ofJson? d.info.toJson = some d.info := d.info.restored
  have hpaths : Routes.ofJson? d.paths.toJson = some d.paths ↔
      d.paths.names.Nodup ∧ ∀ e ∈ d.paths, PathItem.Restored e.2 := tableOf_ofTable
  simp [text?, hinfo, hpaths, Server.restored]
  exact fun _ _ _ => Iff.rfl

theorem restored_of_ofJson? {v : Json} {d : Document} (h : ofJson? v = some d) : d.Restored := by
  obtain ⟨r, -, -, -, -, hpaths, hcomponents, hsecurity⟩ := ofJson?_eq_some_iff.1 h
  refine restored_iff.2 ⟨?_, ?_, ?_⟩
  · have paths : ∀ e ∈ r.known, ∀ routes, Routes.ofJson? e.2 = some routes →
        routes.names.Nodup ∧ ∀ e ∈ routes, PathItem.Restored e.2 :=
      fun _ _ _ => forall_of_tableOf fun _ _ _ => PathItem.restored_of_ofJson?
    exact Record.forall_of_get paths hpaths
  · exact Record.forall_of_getD (fun _ _ _ => Components.restored_of_ofJson?)
      (by rw [Components.restored_iff]; simp) hcomponents
  · exact Record.forall_of_getD
      (P := fun rs => ∀ requirement ∈ rs, SecurityRequirement.Restored requirement)
      (fun _ _ _ => forall_of_listOf fun _ _ _ => SecurityRequirement.restored_of_ofJson?)
      (by simp) hsecurity

end Document

end RouteContract
