import Mathlib
import RouteContract.Schema.Basic
import RouteContract.Proofs.Json.Entries

/-!
# References and where they lead

A reference is a field `$ref` that holds a text. `Json.Refers r v` says that the reference `r`
stands somewhere in the value `v`, at any level, and `Json.RefersInto names v` that every reference
in `v` leads to a named schema with one of the names.

`Schema.refersInto_iff` breaks this up for the JSON form of a schema into one condition for each
keyword, so that later proofs never open the JSON form of a schema again.
-/

namespace RouteContract

namespace Json

/-- A reference stands somewhere in a value. -/
inductive Refers (r : String) : Json → Prop
  | here {fields : List (String × Json)} (h : ("$ref", .str r) ∈ fields) : Refers r (.obj fields)
  | field {fields : List (String × Json)} {name : String} {v : Json} (h : (name, v) ∈ fields)
      (hv : Refers r v) : Refers r (.obj fields)
  | item {items : List Json} {v : Json} (h : v ∈ items) (hv : Refers r v) : Refers r (.arr items)

/-- A reference leads to a named schema with one of the names. -/
def Leads (names : List String) (r : String) : Prop := ∃ name ∈ names, r = Schema.referencePath name

/-- Every reference in a value leads to a named schema with one of the names. -/
def RefersInto (names : List String) (v : Json) : Prop := ∀ r, Refers r v → Leads names r

/-- A field whose references all lead to named schemas: its own, if it is one, and those below. -/
def FieldRefersInto (names : List String) (entry : String × Json) : Prop :=
  (entry.1 = "$ref" → ∀ r, entry.2 = .str r → Leads names r) ∧ RefersInto names entry.2

variable {names more : List String}

theorem Leads.mono (h : ∀ n ∈ names, n ∈ more) {r : String} (hr : Leads names r) :
    Leads more r := by
  obtain ⟨n, hn, rfl⟩ := hr
  exact ⟨n, h n hn, rfl⟩

theorem RefersInto.mono (h : ∀ n ∈ names, n ∈ more) {v : Json} (hv : RefersInto names v) :
    RefersInto more v := fun r hr => (hv r hr).mono h

theorem refersInto_obj {fields : List (String × Json)} :
    RefersInto names (.obj fields) ↔ ∀ e ∈ fields, FieldRefersInto names e := by
  constructor
  · rintro h ⟨name, v⟩ he
    refine ⟨?_, fun r hr => h r (.field he hr)⟩
    rintro rfl r rfl
    exact h r (.here he)
  · intro h r hr
    cases hr with
    | here he => exact (h _ he).1 rfl r rfl
    | field he hv => exact (h _ he).2 r hv

theorem refersInto_arr {items : List Json} :
    RefersInto names (.arr items) ↔ ∀ v ∈ items, RefersInto names v := by
  constructor
  · intro h v hv r hr
    exact h r (.item hv hr)
  · intro h r hr
    cases hr with
    | item hv hr => exact h _ hv r hr

@[simp] theorem refersInto_str (s : String) : RefersInto names (.str s) := by
  intro r hr; cases hr

@[simp] theorem refersInto_num (n : Number) : RefersInto names (.num n) := by
  intro r hr; cases hr

@[simp] theorem refersInto_bool (b : Bool) : RefersInto names (.bool b) := by
  intro r hr; cases hr

@[simp] theorem refersInto_null : RefersInto names .null := by
  intro r hr; cases hr

/-- A field of another name is no reference itself. -/
theorem fieldRefersInto_iff {name : String} (h : name ≠ "$ref") {v : Json} :
    FieldRefersInto names (name, v) ↔ RefersInto names v :=
  and_iff_right fun hn => absurd hn h

/-- A field that holds no text is no reference itself. -/
theorem fieldRefersInto_of_notStr {name : String} {v : Json} (h : ∀ r, v ≠ .str r) :
    FieldRefersInto names (name, v) ↔ RefersInto names v :=
  and_iff_right fun _ r hr => absurd hr (h r)

/-! ### The ways of writing fields -/

theorem forall_field {name : String} (h : name ≠ "$ref") {v : Json} :
    (∀ e ∈ field name v, FieldRefersInto names e) ↔ RefersInto names v := by
  simp [field, fieldRefersInto_iff h]

theorem forall_optionalField {α : Type} {name : String} (h : name ≠ "$ref") {write : α → Json}
    {value : Option α} :
    (∀ e ∈ optionalField name write value, FieldRefersInto names e) ↔
      ∀ a, value = some a → RefersInto names (write a) := by
  cases value with
  | none => simp [optionalField]
  | some a => simp [optionalField, fieldRefersInto_iff h]

theorem forall_listField {α : Type} {name : String} (h : name ≠ "$ref") {write : α → Json}
    {items : List α} :
    (∀ e ∈ listField name write items, FieldRefersInto names e) ↔
      ∀ a ∈ items, RefersInto names (write a) := by
  cases items with
  | nil => simp [listField]
  | cons a rest => simp [listField, fieldRefersInto_iff h, refersInto_arr]

theorem forall_flagField {name : String} (h : name ≠ "$ref") {flag : Bool} :
    ∀ e ∈ flagField name flag, FieldRefersInto names e := by
  cases flag with
  | false => simp [flagField]
  | true => simp [flagField, fieldRefersInto_iff h]

/-- The references of a table whose values are written as objects or arrays. -/
theorem refersInto_ofTable {α : Type} {write : α → Json} (hw : ∀ a r, write a ≠ .str r)
    {entries : Entries α} :
    RefersInto names (ofTable write entries) ↔ ∀ e ∈ entries, RefersInto names (write e.2) := by
  simp only [ofTable, refersInto_obj, List.mem_map, forall_exists_index, and_imp,
    forall_apply_eq_imp_iff₂]
  refine forall₂_congr fun e _ => ?_
  exact fieldRefersInto_of_notStr (hw e.2)

theorem forall_tableField {α : Type} {name : String} (h : name ≠ "$ref") {write : α → Json}
    (hw : ∀ a r, write a ≠ .str r) {entries : Entries α} :
    (∀ e ∈ tableField name write entries, FieldRefersInto names e) ↔
      ∀ e ∈ entries, RefersInto names (write e.2) := by
  rw [← refersInto_ofTable hw, tableField]
  cases entries with
  | nil => simp [ofTable, refersInto_obj]
  | cons e rest => simp [fieldRefersInto_iff h]

end Json

namespace Schema

/-- Every reference in a schema leads to a named schema with one of the names. -/
def RefersInto (names : List String) (s : Schema) : Prop := s.toJson.RefersInto names

theorem RefersInto.mono {names more : List String} (h : ∀ n ∈ names, n ∈ more) {s : Schema}
    (hs : s.RefersInto names) : s.RefersInto more := Json.RefersInto.mono h hs

theorem propertiesToJson_eq (properties : List (String × Schema)) :
    propertiesToJson properties = properties.map fun e => (e.1, e.2.toJson) := by
  induction properties with
  | nil => rw [propertiesToJson]; rfl
  | cons e rest ih => rw [propertiesToJson, ih]; rfl

theorem listToJson_eq (schemas : List Schema) : listToJson schemas = schemas.map toJson := by
  induction schemas with
  | nil => rw [listToJson]; rfl
  | cons s rest ih => rw [listToJson, ih]; rfl

theorem itemsToJson_eq (items : Option Schema) :
    itemsToJson items = Json.optionalField "items" toJson items := by
  cases items with
  | none => rw [itemsToJson]; rfl
  | some t => rw [itemsToJson]; rfl

/-- The JSON form of a schema through the ways of writing fields. -/
theorem toJson_eq (s : Schema) :
    s.toJson = .obj (Json.optionalField "type" .str s.typeName
      ++ Json.optionalField "format" .str s.format
      ++ Json.optionalField "description" .str s.description
      ++ Json.tableField "properties" toJson s.properties
      ++ Json.listField "required" .str s.required
      ++ Json.optionalField "items" toJson s.items
      ++ Json.listField "enum" id s.enumValues
      ++ Json.optionalField "$ref" .str s.reference
      ++ Json.listField "anyOf" toJson s.anyOf
      ++ Json.listField "allOf" toJson s.allOf
      ++ Json.listField "oneOf" toJson s.oneOf
      ++ s.extensions) := by
  obtain ⟨_, _, _, properties, _, items, _, _, anyOf, allOf, oneOf, _⟩ := s
  rw [toJson.eq_def]
  -- a list that is empty is left out by both forms, so the cases of each list agree
  cases properties <;> cases anyOf <;> cases allOf <;> cases oneOf <;>
    simp [Json.tableField, Json.listField, Json.ofTable, propertiesToJson_eq, listToJson_eq,
      itemsToJson_eq]

theorem toJson_ne_str (s : Schema) (r : String) : s.toJson ≠ .str r := by
  rw [toJson_eq]
  exact Json.noConfusion

/-- The references of a schema, keyword by keyword. -/
theorem refersInto_iff {names : List String} {s : Schema} :
    s.RefersInto names ↔
      (∀ e ∈ s.properties, e.2.RefersInto names) ∧
      (∀ t, s.items = some t → t.RefersInto names) ∧
      (∀ v ∈ s.enumValues, v.RefersInto names) ∧
      (∀ r, s.reference = some r → Json.Leads names r) ∧
      (∀ t ∈ s.anyOf, t.RefersInto names) ∧
      (∀ t ∈ s.allOf, t.RefersInto names) ∧
      (∀ t ∈ s.oneOf, t.RefersInto names) ∧
      Json.RefersInto names (.obj s.extensions) := by
  have reference : (∀ e ∈ Json.optionalField "$ref" .str s.reference,
      Json.FieldRefersInto names e) ↔ ∀ r, s.reference = some r → Json.Leads names r := by
    cases s.reference with
    | none => simp [Json.optionalField]
    | some r => simp [Json.optionalField, Json.FieldRefersInto]
  rw [RefersInto, toJson_eq, Json.refersInto_obj]
  simp only [List.forall_mem_append, reference, ← Json.refersInto_obj, and_assoc,
    Json.forall_optionalField (show "type" ≠ "$ref" by decide),
    Json.forall_optionalField (show "format" ≠ "$ref" by decide),
    Json.forall_optionalField (show "description" ≠ "$ref" by decide),
    Json.forall_tableField (show "properties" ≠ "$ref" by decide) toJson_ne_str,
    Json.forall_listField (show "required" ≠ "$ref" by decide),
    Json.forall_optionalField (show "items" ≠ "$ref" by decide),
    Json.forall_listField (show "enum" ≠ "$ref" by decide),
    Json.forall_listField (show "anyOf" ≠ "$ref" by decide),
    Json.forall_listField (show "allOf" ≠ "$ref" by decide),
    Json.forall_listField (show "oneOf" ≠ "$ref" by decide),
    Json.refersInto_str, implies_true, true_and, id_eq]
  rfl

end Schema

end RouteContract
