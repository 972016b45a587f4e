import Mathlib
import RouteContract.Proofs.Document.RoundTrip
import RouteContract.Proofs.Schema.Edit

/-!
# Editing operations

Each record of an operation is a record of slots, and steady at every path because its slots are.
For operations this says two things of an edit of their JSON form at a path: only the field that the
first segment names may differ afterwards (`Operation.Restored.sameBut_of_edit`), and the same edit
once more finds nothing to change (`Operation.steady`).
-/

namespace RouteContract

open Json

/-! ### Media types, parameters, bodies and responses -/

namespace MediaType

/-- How a media type is read and written. -/
def form : RecordForm ofJson? toJson where
  slots := [.always "schema" (·.schema) Schema.ofJson? Schema.toJson {}]
  record? := Record.closed? ["schema"]
  isOpen := false
  others _ := []
  fields m := field "schema" m.schema.toJson
  record?_obj _ := rfl
  read_iff c m := by
    rw [ofJson?_eq_some_iff]
    simp [Slot.always]
  write_eq _ := rfl
  names_nodup := by decide
  names_sublist _ := names_field_sublist
  get?_fields m := by simp [Slot.always]
  kept _ _ _ := Record.kept_nil
  others_closed _ _ := rfl
  back _ _ h := restored_of_ofJson? h

theorem steady (path : List String) : Json.Steady path ofJson? toJson :=
  form.steady fun slot hslot => by
    rw [List.mem_singleton.1 hslot]
    exact Slot.steady_always (Schema.steady _)

end MediaType

theorem steady_content (path : List String) :
    Steady path (tableOf MediaType.ofJson?) (ofTable MediaType.toJson) :=
  steady_tableOf MediaType.form.back (MediaType.steady _)

namespace Parameter

/-- How a parameter is read and written. -/
def form : RecordForm ofJson? toJson where
  slots := [
    .required "name" (·.name) text? .str,
    .required "in" (·.location) (fun v => v.case?.bind Location.ofKey?) (fun l => .str l.key),
    .always "required" (·.required) flag? .bool false,
    .always "schema" (·.schema) Schema.ofJson? Schema.toJson {},
    .optional "description" (·.description) text? .str]
  record? := Record.closed? ["name", "in", "required", "schema", "description"]
  isOpen := false
  others _ := []
  fields q := field "name" (.str q.name) ++ field "in" (.str q.location.key)
    ++ field "required" (.bool q.required) ++ field "schema" q.schema.toJson
    ++ optionalField "description" .str q.description
  record?_obj _ := rfl
  read_iff c q := by
    rw [ofJson?_eq_some_iff]
    simp [Slot.always, Slot.required, Slot.optional]
  write_eq q := by rw [List.append_nil, toJson]
  names_nodup := by decide
  names_sublist := names_toJson_sublist
  get?_fields q := by simp [Slot.always, Slot.required, Slot.optional]
  kept _ _ _ := Record.kept_nil
  others_closed _ _ := rfl
  back _ _ h := restored_of_ofJson? h

theorem steady (path : List String) : Json.Steady path ofJson? toJson :=
  form.steady fun slot hslot => by
    simp only [form, List.mem_cons, List.not_mem_nil, or_false] at hslot
    rcases hslot with rfl | rfl | rfl | rfl | rfl
    · exact Slot.steady_required (steady_of_isScalar isScalar_str)
    · exact Slot.steady_required (steady_of_isScalar fun l => isScalar_str l.key)
    · exact Slot.steady_always (steady_of_isScalar isScalar_bool)
    · exact Slot.steady_always (Schema.steady _)
    · exact Slot.steady_optional (steady_of_isScalar isScalar_str)

end Parameter

namespace RequestBody

/-- How a request body is read and written. -/
def form : RecordForm ofJson? toJson where
  slots := [
    .optional "description" (·.description) text? .str,
    .flag "required" (·.required),
    .always "content" (·.content) (tableOf MediaType.ofJson?) (ofTable MediaType.toJson) []]
  record? := Record.closed? ["description", "required", "content"]
  isOpen := false
  others _ := []
  fields b := optionalField "description" .str b.description ++ flagField "required" b.required
    ++ field "content" (ofTable MediaType.toJson b.content)
  record?_obj _ := rfl
  read_iff c b := by
    rw [ofJson?_eq_some_iff]
    simp [Slot.always, Slot.flag, Slot.optional]
  write_eq b := by rw [List.append_nil, toJson]
  names_nodup := by decide
  names_sublist b := by
    show List.Sublist _ (["description"] ++ ["required"] ++ ["content"])
    repeat' apply names_append_sublist
    exacts [names_optionalField_sublist, names_flagField_sublist, names_field_sublist]
  get?_fields b := by simp [Slot.always, Slot.flag, Slot.optional]
  kept _ _ _ := Record.kept_nil
  others_closed _ _ := rfl
  back _ _ h := restored_of_ofJson? h

theorem steady (path : List String) : Json.Steady path ofJson? toJson :=
  form.steady fun slot hslot => by
    simp only [form, List.mem_cons, List.not_mem_nil, or_false] at hslot
    rcases hslot with rfl | rfl | rfl
    · exact Slot.steady_optional (steady_of_isScalar isScalar_str)
    · exact Slot.steady_flag
    · exact Slot.steady_always (steady_content _)

end RequestBody

namespace Response

/-- How a response is read and written. -/
def form : RecordForm ofJson? toJson where
  slots := [
    .always "description" (·.description) text? .str "",
    .table "content" (·.content) MediaType.ofJson? MediaType.toJson]
  record? := Record.open? fieldNames
  isOpen := true
  others := extensions
  fields r := field "description" (.str r.description)
    ++ tableField "content" MediaType.toJson r.content
  record?_obj _ := rfl
  read_iff c r := by
    rw [ofJson?_eq_some_iff]
    simp [Slot.always, Slot.table, and_assoc]
  write_eq _ := rfl
  names_nodup := by decide
  names_sublist r := by
    show List.Sublist _ (["description"] ++ ["content"])
    exact names_append_sublist names_field_sublist names_tableField_sublist
  get?_fields r := by simp [Slot.always, Slot.table]
  kept _ _ h := (restored_iff.1 (restored_of_ofJson? h)).1
  others_closed := nofun
  back _ _ h := restored_of_ofJson? h

theorem steady (path : List String) : Json.Steady path ofJson? toJson :=
  form.steady fun slot hslot => by
    simp only [form, List.mem_cons, List.not_mem_nil, or_false] at hslot
    rcases hslot with rfl | rfl
    · exact Slot.steady_always (steady_of_isScalar isScalar_str)
    · exact Slot.steady_table (steady_content _)

end Response

theorem SecurityRequirement.steady (path : List String) :
    Steady path SecurityRequirement.ofJson? SecurityRequirement.toJson :=
  steady_tableOf (fun _ _ _ => restored_list.2 fun s _ => restored_text s)
    (steady_listOf (fun _ s _ => restored_text s) (steady_of_isScalar isScalar_str))

/-! ### Operations -/

namespace Operation

/-- How an operation is read and written. -/
def form : RecordForm ofJson? toJson where
  slots := [
    .optional "summary" (·.summary) text? .str,
    .optional "description" (·.description) text? .str,
    .optional "operationId" (·.operationId) text? .str,
    .list "tags" (·.tags) text? .str,
    .flag "deprecated" (·.deprecated),
    .list "parameters" (·.parameters) Parameter.ofJson? Parameter.toJson,
    .optional "requestBody" (·.requestBody) RequestBody.ofJson? RequestBody.toJson,
    .always "responses" (·.responses) (tableOf Response.ofJson?) (ofTable Response.toJson) [],
    .optional "security" (·.security) (listOf SecurityRequirement.ofJson?)
      fun s => .arr (s.map SecurityRequirement.toJson)]
  record? := Record.open? fieldNames
  isOpen := true
  others := extensions
  fields o := optionalField "summary" .str o.summary
    ++ optionalField "description" .str o.description
    ++ optionalField "operationId" .str o.operationId
    ++ listField "tags" .str o.tags
    ++ flagField "deprecated" o.deprecated
    ++ listField "parameters" Parameter.toJson o.parameters
    ++ optionalField "requestBody" RequestBody.toJson o.requestBody
    ++ field "responses" (ofTable Response.toJson o.responses)
    ++ optionalField "security" (fun s => .arr (s.map SecurityRequirement.toJson)) o.security
  record?_obj _ := rfl
  read_iff c o := by
    rw [ofJson?_eq_some_iff]
    simp [Slot.always, Slot.flag, Slot.list, Slot.optional, and_assoc]
  write_eq _ := rfl
  names_nodup := by decide
  names_sublist o := by
    show List.Sublist _ (["summary"] ++ ["description"] ++ ["operationId"] ++ ["tags"]
      ++ ["deprecated"] ++ ["parameters"] ++ ["requestBody"] ++ ["responses"] ++ ["security"])
    repeat' apply names_append_sublist
    exacts [names_optionalField_sublist, names_optionalField_sublist, names_optionalField_sublist,
      names_listField_sublist, names_flagField_sublist, names_listField_sublist,
      names_optionalField_sublist, names_field_sublist, names_optionalField_sublist]
  get?_fields o := by simp [Slot.always, Slot.flag, Slot.list, Slot.optional]
  kept _ _ h := (restored_iff.1 (restored_of_ofJson? h)).1
  others_closed := nofun
  back _ _ h := restored_of_ofJson? h

theorem steady (path : List String) : Json.Steady path ofJson? toJson :=
  form.steady fun slot hslot => by
    have text {name : String} {get : Operation → Option String} :
        (Slot.optional name get text? .str).Steady path.tail :=
      Slot.steady_optional (steady_of_isScalar isScalar_str)
    simp only [form, List.mem_cons, List.not_mem_nil, or_false] at hslot
    rcases hslot with rfl | rfl | rfl | rfl | rfl | rfl | rfl | rfl | rfl
    · exact text
    · exact text
    · exact text
    · exact Slot.steady_list (steady_listOf (fun _ s _ => restored_text s)
        (steady_of_isScalar isScalar_str))
    · exact Slot.steady_flag
    · exact Slot.steady_list (steady_listOf Parameter.form.back (Parameter.steady _))
    · exact Slot.steady_optional (RequestBody.steady _)
    · exact Slot.steady_always (steady_tableOf Response.form.back (Response.steady _))
    · exact Slot.steady_optional (steady_listOf (fun _ _ => SecurityRequirement.restored_of_ofJson?)
        (SecurityRequirement.steady _))

/-- Two operations are the same but for one field: the declared one of the name, or the entry of the
name among the extensions, which is set in its place or added behind the others. -/
structure SameBut (name : String) (op op' : Operation) : Prop where
  summary : name ≠ "summary" → op'.summary = op.summary
  description : name ≠ "description" → op'.description = op.description
  operationId : name ≠ "operationId" → op'.operationId = op.operationId
  tags : name ≠ "tags" → op'.tags = op.tags
  deprecated : name ≠ "deprecated" → op'.deprecated = op.deprecated
  parameters : name ≠ "parameters" → op'.parameters = op.parameters
  requestBody : name ≠ "requestBody" → op'.requestBody = op.requestBody
  responses : name ≠ "responses" → op'.responses = op.responses
  security : name ≠ "security" → op'.security = op.security
  extensions : op'.extensions = op.extensions ∨
    name ∉ fieldNames ∧ ∃ value, op'.extensions = Entries.put name value op.extensions

theorem SameBut.refl (name : String) (op : Operation) : SameBut name op op where
  summary _ := rfl
  description _ := rfl
  operationId _ := rfl
  tags _ := rfl
  deprecated _ := rfl
  parameters _ := rfl
  requestBody _ := rfl
  responses _ := rfl
  security _ := rfl
  extensions := .inl rfl

variable {op op' : Operation} {segment : String} {rest : List String} {value : Json}

/-- What is read after an edit of the JSON form is the same but for the field of the first
segment. -/
theorem Restored.sameBut_of_edit (h : op.Restored)
    (hread : ofJson? (setAt value (segment :: rest) op.toJson) = some op') :
    SameBut segment op op' := by
  obtain ⟨hslots, hothers⟩ := form.reads_of_edit h hread
  -- an entry that is read as the field of both operations
  have same {β : Type} {old new : β} {x : Option β} (hread : x = some old ∧ x = some new) :
      new = old :=
    Option.some.inj (hread.2.symm.trans hread.1)
  simp only [form, List.forall_mem_cons] at hslots
  obtain ⟨summary, description, operationId, tags, deprecated, parameters, requestBody, responses,
    security, -⟩ := hslots
  exact {
    summary := fun hne => same (summary hne.symm)
    description := fun hne => same (description hne.symm)
    operationId := fun hne => same (operationId hne.symm)
    tags := fun hne => same (tags hne.symm)
    deprecated := fun hne => same (deprecated hne.symm)
    parameters := fun hne => same (parameters hne.symm)
    requestBody := fun hne => same (requestBody hne.symm)
    responses := fun hne => same (responses hne.symm)
    security := fun hne => same (security hne.symm)
    extensions := hothers rfl }

end Operation

end RouteContract
