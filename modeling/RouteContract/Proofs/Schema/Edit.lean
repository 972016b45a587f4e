import Mathlib
import RouteContract.Proofs.Json.Edit
import RouteContract.Proofs.Schema.RoundTrip

/-!
# Editing schemas

A schema as a record of slots. It is steady at every path, by induction on the path: the schemas
inside a schema are met further down.
-/

namespace RouteContract.Schema

open Json

/-- How a schema is read and written, keyword by keyword. -/
def form : RecordForm ofJson? toJson where
  slots := [
    .optional "type" (·.typeName) text? .str,
    .optional "format" (·.format) text? .str,
    .optional "description" (·.description) text? .str,
    .table "properties" (·.properties) ofJson? toJson,
    .list "required" (·.required) text? .str,
    .optional "items" (·.items) ofJson? toJson,
    .list "enum" (·.enumValues) (fun v => some v.merged) id,
    .optional "$ref" (·.reference) text? .str,
    .list "anyOf" (·.anyOf) ofJson? toJson,
    .list "allOf" (·.allOf) ofJson? toJson,
    .list "oneOf" (·.oneOf) ofJson? toJson]
  record? := Record.open? keywords
  isOpen := true
  others := extensions
  fields s := optionalField "type" .str s.typeName
    ++ optionalField "format" .str s.format
    ++ optionalField "description" .str s.description
    ++ tableField "properties" toJson s.properties
    ++ listField "required" .str s.required
    ++ optionalField "items" toJson s.items
    ++ listField "enum" id s.enumValues
    ++ optionalField "$ref" .str s.reference
    ++ listField "anyOf" toJson s.anyOf
    ++ listField "allOf" toJson s.allOf
    ++ listField "oneOf" toJson s.oneOf
  record?_obj _ := rfl
  read_iff c s := by
    rw [ofJson?_eq_some_iff]
    simp [Slot.optional, Slot.table, Slot.list, and_assoc]
  write_eq := toJson_eq
  names_nodup := by decide
  names_sublist s := by
    show List.Sublist _ (["type"] ++ ["format"] ++ ["description"] ++ ["properties"] ++ ["required"]
      ++ ["items"] ++ ["enum"] ++ ["$ref"] ++ ["anyOf"] ++ ["allOf"] ++ ["oneOf"])
    repeat' apply names_append_sublist
    exacts [names_optionalField_sublist, names_optionalField_sublist, names_optionalField_sublist,
      names_tableField_sublist, names_listField_sublist, names_optionalField_sublist,
      names_listField_sublist, names_optionalField_sublist, names_listField_sublist,
      names_listField_sublist, names_listField_sublist]
  get?_fields s := by simp [Slot.optional, Slot.table, Slot.list]
  kept _ _ h := (restored_iff.1 (restored_of_ofJson? h)).1
  others_closed := nofun
  back _ _ h := restored_of_ofJson? h

/-- What was read of a schema after an edit stays after the same edit. -/
theorem steady (path : List String) : Json.Steady path ofJson? toJson := by
  -- a list or a table of schemas at the rest of the path needs the schemas one segment further
  suffices h : Json.Steady path ofJson? toJson ∧ Json.Steady path.tail ofJson? toJson from h.1
  induction path with
  | nil => exact ⟨steady_nil, steady_nil⟩
  | cons segment rest ih =>
    refine ⟨form.steady fun slot hslot => ?_, ih.1⟩
    have text {name : String} {get : Schema → Option String} :
        (Slot.optional name get text? .str).Steady rest :=
      Slot.steady_optional (steady_of_isScalar isScalar_str)
    have schemas {name : String} {get : Schema → List Schema} :
        (Slot.list name get ofJson? toJson).Steady rest :=
      Slot.steady_list (steady_listOf form.back ih.2)
    have texts {name : String} {get : Schema → List String} :
        (Slot.list name get text? .str).Steady rest :=
      Slot.steady_list (steady_listOf (fun _ s _ => restored_text s)
        (steady_of_isScalar isScalar_str))
    have values {name : String} {get : Schema → List Json} :
        (Slot.list name get (fun v => some v.merged) id).Steady rest :=
      Slot.steady_list (steady_listOf merged_back steady_merged)
    simp only [form, List.mem_cons, List.not_mem_nil, or_false] at hslot
    rcases hslot with rfl | rfl | rfl | rfl | rfl | rfl | rfl | rfl | rfl | rfl | rfl
    · exact text
    · exact text
    · exact text
    · exact Slot.steady_table (steady_tableOf form.back ih.2)
    · exact texts
    · exact Slot.steady_optional ih.1
    · exact values
    · exact text
    · exact schemas
    · exact schemas
    · exact schemas

end RouteContract.Schema
