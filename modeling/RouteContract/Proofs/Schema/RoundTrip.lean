import Mathlib
import RouteContract.Proofs.Json.Record
import RouteContract.Proofs.Schema.Reference

/-!
# Reading schemas back

A schema is read field by field onto an empty one. `ofJson?_eq_some_iff` says the same of all fields
at once: a schema is read off the open record with its keywords. From that a schema is restored when
its parts are and its other keywords can be kept (`restored_iff`), and whatever is read is restored
(`restored_of_ofJson?`).
-/

namespace RouteContract.Schema

open Json
open Record (unknown)

theorem tableOfFields?_eq (fields : List (String × Json)) :
    tableOfFields? fields = fields.mapM (Json.readEntry ofJson?) := by
  induction fields with
  | nil => rfl
  | cons field rest ih =>
    rw [tableOfFields?, List.mapM_cons, ih, Json.readEntry]
    cases ofJson? field.2 <;> cases rest.mapM (Json.readEntry ofJson?) <;> rfl

theorem listOfItems?_eq (items : List Json) : listOfItems? items = items.mapM ofJson? := by
  induction items with
  | nil => rfl
  | cons item rest ih =>
    rw [listOfItems?, List.mapM_cons, ih]
    cases ofJson? item <;> cases rest.mapM ofJson? <;> rfl

/-- Reading one field, with the rest. -/
theorem ofFields?_cons (s : Schema) (name : String) (value : Json)
    (rest : List (String × Json)) : ofFields? s ((name, value) :: rest) =
      if name = "type" then
        (nullable text? value).bind fun v => ofFields? { s with typeName := v } rest
      else if name = "format" then
        (nullable text? value).bind fun v => ofFields? { s with format := v } rest
      else if name = "description" then
        (nullable text? value).bind fun v => ofFields? { s with description := v } rest
      else if name = "properties" then
        (tableOf ofJson? value).bind fun v => ofFields? { s with properties := v } rest
      else if name = "required" then
        (listOf text? value).bind fun v => ofFields? { s with required := v } rest
      else if name = "items" then
        (nullable ofJson? value).bind fun v => ofFields? { s with items := v } rest
      else if name = "enum" then
        (listOf (fun v => some v.merged) value).bind fun v =>
          ofFields? { s with enumValues := v } rest
      else if name = "$ref" then
        (nullable text? value).bind fun v => ofFields? { s with reference := v } rest
      else if name = "anyOf" then
        (listOf ofJson? value).bind fun v => ofFields? { s with anyOf := v } rest
      else if name = "allOf" then
        (listOf ofJson? value).bind fun v => ofFields? { s with allOf := v } rest
      else if name = "oneOf" then
        (listOf ofJson? value).bind fun v => ofFields? { s with oneOf := v } rest
      else ofFields? { s with extensions := Entries.put name value.merged s.extensions } rest := by
  rw [ofFields?.eq_def]
  dsimp only
  refine ite_congr rfl (fun _ => ?type) fun _ => ite_congr rfl (fun _ => ?format) fun _ =>
    ite_congr rfl (fun _ => ?description) fun _ => ite_congr rfl (fun _ => ?properties) fun _ =>
    ite_congr rfl (fun _ => ?required) fun _ => ite_congr rfl (fun _ => ?items) fun _ =>
    ite_congr rfl (fun _ => ?enum) fun _ => ite_congr rfl (fun _ => ?reference) fun _ =>
    ite_congr rfl (fun _ => ?anyOf) fun _ => ite_congr rfl (fun _ => ?allOf) fun _ =>
    ite_congr rfl (fun _ => ?oneOf) fun _ => rfl
  case type | format | description | reference => cases nullable text? value <;> rfl
  case required => cases listOf text? value <;> rfl
  case properties =>
    cases value with
    | obj fields =>
      rw [Json.tableOf_obj, ← tableOfFields?_eq]
      cases h : tableOfFields? fields <;> simp [h]
    | _ => rfl
  case items =>
    split
    · rfl
    · next h =>
      rw [Json.nullable_of_ne_null h]
      cases ofJson? value <;> rfl
  case enum =>
    cases value with
    | arr items =>
      have hmap : items.mapM (fun v => some v.merged) = some (items.map Json.merged) :=
        List.mapM_pure
      rw [listOf, hmap]
      rfl
    | _ => rfl
  case anyOf | allOf | oneOf =>
    cases value with
    | arr items =>
      rw [listOf, ← listOfItems?_eq]
      cases h : listOfItems? items <;> simp [h]
    | _ => rfl

/-- A field is read off a list of entries, or keeps what it has. -/
def fieldOf? {α : Type} (fields : List (String × Json)) (name : String) (read : Json → Option α)
    (old : α) : Option α := (Entries.get? name fields).elim (some old) read

section FieldOf

variable {α : Type} {rest : List (String × Json)} {name key : String} {read : Json → Option α}

@[simp] theorem fieldOf?_nil (old : α) : fieldOf? [] name read old = some old := rfl

theorem fieldOf?_cons_self (value : Json) (old : α) :
    fieldOf? ((name, value) :: rest) name read old = read value := by
  simp [fieldOf?, Entries.get?]

theorem fieldOf?_cons_of_ne (h : key ≠ name) (value : Json) (old : α) :
    fieldOf? ((key, value) :: rest) name read old = fieldOf? rest name read old := by
  simp [fieldOf?, Entries.get?, h]

theorem fieldOf?_of_notMem (h : name ∉ Entries.names rest) (old : α) :
    fieldOf? rest name read old = some old := by
  rw [fieldOf?, Entries.get?_eq_none_iff.2 h]
  rfl

end FieldOf

/-- Reading fields onto a schema, all keywords at once. -/
theorem ofFields?_eq_some_iff {s t : Schema} {fields : List (String × Json)}
    (h : Record.distinct keywords fields = true) : ofFields? s fields = some t ↔
      fieldOf? fields "type" (nullable text?) s.typeName = some t.typeName ∧
      fieldOf? fields "format" (nullable text?) s.format = some t.format ∧
      fieldOf? fields "description" (nullable text?) s.description = some t.description ∧
      fieldOf? fields "properties" (tableOf ofJson?) s.properties = some t.properties ∧
      fieldOf? fields "required" (listOf text?) s.required = some t.required ∧
      fieldOf? fields "items" (nullable ofJson?) s.items = some t.items ∧
      fieldOf? fields "enum" (listOf fun v => some v.merged) s.enumValues = some t.enumValues ∧
      fieldOf? fields "$ref" (nullable text?) s.reference = some t.reference ∧
      fieldOf? fields "anyOf" (listOf ofJson?) s.anyOf = some t.anyOf ∧
      fieldOf? fields "allOf" (listOf ofJson?) s.allOf = some t.allOf ∧
      fieldOf? fields "oneOf" (listOf ofJson?) s.oneOf = some t.oneOf ∧
      Entries.putAll s.extensions (unknown keywords fields) = t.extensions := by
  induction fields generalizing s with
  | nil =>
    cases s
    cases t
    simp [ofFields?, unknown, Entries.putAll]
  | cons field rest ih =>
    obtain ⟨name, value⟩ := field
    obtain ⟨hrest, hname⟩ := Record.distinct_cons h
    have ih {s : Schema} := ih (s := s) hrest
    by_cases hk : name ∈ keywords
    · have habsent := hname hk
      have hunknown : unknown keywords ((name, value) :: rest) = unknown keywords rest := by
        simp [unknown, hk]
      rw [ofFields?_cons, hunknown]
      simp only [keywords, List.mem_cons, List.not_mem_nil, or_false] at hk
      -- the field that is read is set, and does not occur again; the others are read off the rest
      rcases hk with rfl | rfl | rfl | rfl | rfl | rfl | rfl | rfl | rfl | rfl | rfl
      all_goals
        simp only [reduceIte, String.reduceEq, fieldOf?_cons_self, Option.bind_eq_some_iff, ih,
          fieldOf?_of_notMem habsent, Option.some.injEq, existsAndEq, true_and,
          fieldOf?_cons_of_ne, ne_eq, not_false_eq_true] <;> tauto
    · have hne : ∀ keyword ∈ keywords, name ≠ keyword := fun keyword hmem heq => hk (heq ▸ hmem)
      have hunknown : unknown keywords ((name, value) :: rest) =
          (name, value.merged) :: unknown keywords rest := by
        simp [unknown, hk]
      simp only [keywords, List.forall_mem_cons] at hne
      rw [ofFields?_cons, hunknown, Entries.putAll_cons]
      simp only [hne, if_false, ih, fieldOf?_cons_of_ne, ne_eq, not_false_eq_true]

/-- A schema is read off the open record with its keywords. -/
theorem ofJson?_eq_some_iff {v : Json} {s : Schema} : ofJson? v = some s ↔
    ∃ r, Record.open? keywords v = some r ∧
      r.get? "type" text? = some s.typeName ∧
      r.get? "format" text? = some s.format ∧
      r.get? "description" text? = some s.description ∧
      r.getD "properties" (tableOf ofJson?) [] = some s.properties ∧
      r.getD "required" (listOf text?) [] = some s.required ∧
      r.get? "items" ofJson? = some s.items ∧
      r.getD "enum" (listOf fun v => some v.merged) [] = some s.enumValues ∧
      r.get? "$ref" text? = some s.reference ∧
      r.getD "anyOf" (listOf ofJson?) [] = some s.anyOf ∧
      r.getD "allOf" (listOf ofJson?) [] = some s.allOf ∧
      r.getD "oneOf" (listOf ofJson?) [] = some s.oneOf ∧
      r.others = s.extensions := by
  cases v with
  | obj fields =>
    by_cases h : Record.distinct keywords fields = true
    · obtain ⟨r, hr, hothers⟩ := Record.exists_ofFields?_eq_some h
      have hfield {α : Type} {name : String} (hn : name ∈ keywords) (read : Json → Option α)
          (old : α) : r.getD name read old = fieldOf? fields name read old := by
        rw [Record.getD_eq, Record.get?_known hr hn]
        rfl
      rw [ofJson?, if_pos h, ofFields?_eq_some_iff h]
      simp only [Record.open?, hr, Option.some.injEq, exists_eq_left', Record.get?, hothers]
      simp (disch := decide) only [hfield]
    · simp [ofJson?, Record.open?, Record.ofFields?, h]
  | _ => simp [ofJson?, Record.open?]

/-- The JSON form of a schema reads back as the schema. -/
abbrev Restored (s : Schema) : Prop := Json.Restored ofJson? toJson s

@[simp] theorem toJson_ne_null (s : Schema) : s.toJson ≠ .null := by
  rw [toJson_eq]
  exact Json.noConfusion

theorem tableToJson_eq (table : Entries Schema) : tableToJson table = ofTable toJson table :=
  congrArg obj (propertiesToJson_eq table)

/-- A schema is restored when its parts are and its other keywords can be kept. -/
theorem restored_iff {s : Schema} : s.Restored ↔
    Record.Kept keywords s.extensions ∧
      ((Entries.names s.properties).Nodup ∧ ∀ e ∈ s.properties, e.2.Restored) ∧
      (∀ t, s.items = some t → t.Restored) ∧
      (∀ v ∈ s.enumValues, v.merged = v) ∧
      (∀ t ∈ s.anyOf, t.Restored) ∧ (∀ t ∈ s.allOf, t.Restored) ∧ ∀ t ∈ s.oneOf, t.Restored := by
  rw [Restored, Json.Restored, ofJson?_eq_some_iff, toJson_eq,
    Record.exists_open?_written (by decide) ?names (by tauto)]
  case names =>
    show List.Sublist _ (["type"] ++ ["format"] ++ ["description"] ++ ["properties"] ++ ["required"]
      ++ ["items"] ++ ["enum"] ++ ["$ref"] ++ ["anyOf"] ++ ["allOf"] ++ ["oneOf"])
    repeat' apply names_append_sublist
    exacts [names_optionalField_sublist, names_optionalField_sublist, names_optionalField_sublist,
      names_tableField_sublist, names_listField_sublist, names_optionalField_sublist,
      names_listField_sublist, names_optionalField_sublist, names_listField_sublist,
      names_listField_sublist, names_listField_sublist]
  simp

@[simp] theorem restored_empty : Restored {} := by
  rw [restored_iff]
  simp [Record.kept_nil]

/-- What is read is restored. -/
theorem restored_of_ofJson? {v : Json} {s : Schema} (h : ofJson? v = some s) : s.Restored := by
  obtain ⟨r, hr, -, -, -, hproperties, -, hitems, henum, -, hany, hall, hone, hothers⟩ :=
    ofJson?_eq_some_iff.1 h
  cases v with
  | obj fields =>
    -- a schema inside the object is smaller, down to the items of its lists and tables
    have inner : ∀ e ∈ r.known, ∀ w, sizeOf w ≤ sizeOf e.2 → ∀ t, ofJson? w = some t →
        t.Restored := fun e he w hw t ht => by
      have := Record.sizeOf_known_lt hr e he
      exact restored_of_ofJson? ht
    have list {name : String} {ts : List Schema}
        (ht : r.getD name (listOf ofJson?) [] = some ts) : ∀ t ∈ ts, t.Restored :=
      Record.forall_of_getD (P := fun ts => ∀ t ∈ ts, Restored t)
        (fun e he _ hts => forall_of_listOf (fun w hw => inner e he w hw.le) hts) (by simp) ht
    refine restored_iff.2 ⟨hothers ▸ Record.kept_others hr, ?_, ?_, ?_, list hany, list hall,
      list hone⟩
    · exact Record.forall_of_getD
        (P := fun entries : Entries Schema => entries.names.Nodup ∧ ∀ e ∈ entries, e.2.Restored)
        (fun e he _ hts => forall_of_tableOf (fun w hw => inner e he w hw.le) hts) (by simp)
        hproperties
    · exact Record.forall_of_get? (fun e he => inner e he e.2 le_rfl) hitems
    · refine Record.forall_of_getD (P := fun values : List Json => ∀ v ∈ values, v.merged = v)
        (fun e _ _ hvs => forall_of_listOf (fun w _ v hv => ?_) hvs) (by simp) henum
      cases hv
      exact merged_merged w
  | _ => cases hr
termination_by sizeOf v

end RouteContract.Schema
