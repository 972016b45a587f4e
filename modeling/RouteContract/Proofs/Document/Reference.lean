import Mathlib
import RouteContract.Document.Update
import RouteContract.Proofs.Schema.Reference

/-!
# References of operations

The references of the JSON form of an operation stand in the schemas of its parameters and bodies,
and in the extensions that directives add. `Operation.refersInto_iff` says so part by part; the
updates of an operation are then shown to refer no further than it and what they add.
-/

namespace RouteContract

variable {names more : List String}

/-- Every reference in the content of a body leads to a named schema with one of the names. -/
def ContentRefersInto (names : List String) (content : Entries MediaType) : Prop :=
  ∀ e ∈ content, e.2.schema.RefersInto names

theorem contentRefersInto_singleton {name : String} {schema : Schema}
    (h : schema.RefersInto names) : ContentRefersInto names [(name, ⟨schema⟩)] := by
  intro e he
  rw [List.mem_singleton.1 he]
  exact h

theorem MediaType.refersInto_iff {media : MediaType} :
    media.toJson.RefersInto names ↔ media.schema.RefersInto names := by
  rw [MediaType.toJson, Json.refersInto_obj]
  simp only [List.mem_singleton, forall_eq,
    Json.fieldRefersInto_iff (show "schema" ≠ "$ref" by decide)]
  rfl

theorem MediaType.toJson_ne_str (media : MediaType) (r : String) : media.toJson ≠ .str r :=
  Json.noConfusion

theorem Parameter.refersInto_iff {parameter : Parameter} :
    parameter.toJson.RefersInto names ↔ parameter.schema.RefersInto names := by
  rw [Parameter.toJson, Json.refersInto_obj]
  simp only [List.forall_mem_append,
    Json.forall_field (show "name" ≠ "$ref" by decide),
    Json.forall_field (show "in" ≠ "$ref" by decide),
    Json.forall_field (show "required" ≠ "$ref" by decide),
    Json.forall_field (show "schema" ≠ "$ref" by decide),
    Json.forall_optionalField (show "description" ≠ "$ref" by decide),
    Json.refersInto_str, Json.refersInto_bool, implies_true, true_and, and_true]
  rfl

theorem RequestBody.refersInto_iff {body : RequestBody} :
    body.toJson.RefersInto names ↔ ContentRefersInto names body.content := by
  rw [RequestBody.toJson, Json.refersInto_obj]
  simp only [List.forall_mem_append,
    Json.forall_optionalField (show "description" ≠ "$ref" by decide),
    Json.forall_field (show "content" ≠ "$ref" by decide),
    Json.refersInto_ofTable MediaType.toJson_ne_str, MediaType.refersInto_iff,
    Json.refersInto_str, implies_true, true_and]
  exact and_iff_right (Json.forall_flagField (by decide))

theorem Response.refersInto_iff {response : Response} :
    response.toJson.RefersInto names ↔ ContentRefersInto names response.content ∧
      Json.RefersInto names (.obj response.extensions) := by
  rw [Response.toJson, Json.refersInto_obj]
  simp only [List.forall_mem_append, ← Json.refersInto_obj,
    Json.forall_field (show "description" ≠ "$ref" by decide),
    Json.forall_tableField (show "content" ≠ "$ref" by decide) MediaType.toJson_ne_str,
    MediaType.refersInto_iff, Json.refersInto_str, true_and]
  rfl

theorem Response.toJson_ne_str (response : Response) (r : String) : response.toJson ≠ .str r :=
  Json.noConfusion

theorem SecurityRequirement.refersInto (requirement : SecurityRequirement) :
    (SecurityRequirement.toJson requirement).RefersInto names := by
  rw [SecurityRequirement.toJson, Json.refersInto_ofTable fun _ _ => Json.noConfusion]
  intro e _
  rw [Json.refersInto_arr]
  simp

namespace Operation

/-- Every reference in an operation leads to a named schema with one of the names. -/
def RefersInto (names : List String) (op : Operation) : Prop := op.toJson.RefersInto names

theorem RefersInto.mono (h : ∀ n ∈ names, n ∈ more) {op : Operation} (hop : op.RefersInto names) :
    op.RefersInto more := Json.RefersInto.mono h hop

/-- The references of an operation, part by part. -/
theorem refersInto_iff {op : Operation} :
    op.RefersInto names ↔
      (∀ parameter ∈ op.parameters, parameter.schema.RefersInto names) ∧
      (∀ body, op.requestBody = some body → ContentRefersInto names body.content) ∧
      (∀ e ∈ op.responses, ContentRefersInto names e.2.content ∧
        Json.RefersInto names (.obj e.2.extensions)) ∧
      Json.RefersInto names (.obj op.extensions) := by
  have flag : Json.RefersInto names (.obj (Json.flagField "deprecated" op.deprecated)) :=
    Json.refersInto_obj.2 (Json.forall_flagField (by decide))
  have security : ∀ requirements : List SecurityRequirement,
      Json.RefersInto names (.arr (requirements.map SecurityRequirement.toJson)) := by
    intro requirements
    rw [Json.refersInto_arr]
    intro v hv
    obtain ⟨requirement, -, rfl⟩ := List.mem_map.1 hv
    exact requirement.refersInto
  rw [RefersInto, toJson, Json.refersInto_obj]
  simp only [List.forall_mem_append, and_assoc, ← Json.refersInto_obj,
    Json.forall_optionalField (show "summary" ≠ "$ref" by decide),
    Json.forall_optionalField (show "description" ≠ "$ref" by decide),
    Json.forall_optionalField (show "operationId" ≠ "$ref" by decide),
    Json.forall_listField (show "tags" ≠ "$ref" by decide),
    Json.forall_listField (show "parameters" ≠ "$ref" by decide),
    Json.forall_optionalField (show "requestBody" ≠ "$ref" by decide),
    Json.forall_field (show "responses" ≠ "$ref" by decide),
    Json.forall_optionalField (show "security" ≠ "$ref" by decide),
    Json.refersInto_ofTable Response.toJson_ne_str, Parameter.refersInto_iff,
    RequestBody.refersInto_iff, Response.refersInto_iff, Json.refersInto_str, security,
    implies_true, true_and]
  exact and_iff_right flag

theorem toJson_ne_str (op : Operation) (r : String) : op.toJson ≠ .str r := Json.noConfusion

/-! ### Updates -/

theorem refersInto_fresh : fresh.RefersInto names := by
  rw [refersInto_iff]
  simp [fresh, ContentRefersInto, Json.refersInto_obj]

theorem RefersInto.addParameter {op : Operation} (h : op.RefersInto names) {parameter : Parameter}
    (hp : parameter.schema.RefersInto names) : (op.addParameter parameter).RefersInto names := by
  unfold Operation.addParameter
  split
  · exact h
  · rw [refersInto_iff] at h ⊢
    refine ⟨fun q hq => ?_, h.2⟩
    rcases List.mem_append.1 hq with hq | hq
    · exact h.1 q hq
    · rw [List.mem_singleton.1 hq]
      exact hp

theorem RefersInto.ensureResponse {op : Operation} (h : op.RefersInto names) (code : String) :
    (op.ensureResponse code).RefersInto names := by
  unfold Operation.ensureResponse
  split
  · exact h
  · rw [refersInto_iff] at h ⊢
    refine ⟨h.1, h.2.1, fun e he => ?_, h.2.2.2⟩
    rcases Entries.mem_put he with rfl | he
    · simp [ContentRefersInto, Json.refersInto_obj]
    · exact h.2.2.1 e he

theorem RefersInto.setBody {op : Operation} (h : op.RefersInto names) {schema : Schema}
    (hs : schema.RefersInto names) :
    RefersInto names { op with requestBody := some (.json schema) } := by
  rw [refersInto_iff] at h ⊢
  refine ⟨h.1, fun body hb => ?_, h.2.2⟩
  cases hb
  exact contentRefersInto_singleton hs

theorem RefersInto.fillResponse {op : Operation} (h : op.RefersInto names) (code : String)
    {schema : Schema} (hs : schema.RefersInto names) :
    RefersInto names { op with
      responses := Entries.change code
        (fun r => { r with content := [(jsonMediaType, ⟨schema⟩)] }) op.responses } := by
  rw [refersInto_iff] at h ⊢
  refine ⟨h.1, h.2.1, fun e he => ?_, h.2.2.2⟩
  rcases Entries.mem_change he with he | ⟨old, ho, rfl⟩
  · exact h.2.2.1 e he
  · exact ⟨contentRefersInto_singleton hs, (h.2.2.1 _ ho).2⟩

theorem RefersInto.addTags {op : Operation} (h : op.RefersInto names) (tags : List String) :
    (op.addTags tags).RefersInto names := by
  induction tags generalizing op with
  | nil => exact h
  | cons tag tags ih =>
    refine ih ?_
    unfold Operation.addTag
    split
    · exact h
    · rw [refersInto_iff] at h ⊢
      exact h

/-- Documentation adds no references. -/
theorem RefersInto.mergeInto {op : Operation} (h : op.RefersInto names) (doc : DocMetadata) :
    (doc.mergeInto op).RefersInto names := by
  refine RefersInto.addTags ?_ doc.tags
  rw [refersInto_iff] at h ⊢
  exact h

end Operation

end RouteContract
