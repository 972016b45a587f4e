import Mathlib
import RouteContract.Proofs.Crawl.Restored
import RouteContract.Proofs.Document.Edit

/-!
# What a directive changes

A directive sets the field that the first segment of its key names, and no other
(`applyDirective_changes_one_field`). Applied a second time it changes nothing
(`applyDirective_idempotent`), although the operation has gone through its JSON form in between.

Five keys are set directly; every other one is set in the JSON form, which is then read.
-/

namespace RouteContract

open Operation (SameBut Restored)

/-! ### Paths of keys -/

theorem Json.set_of_no_segments {key : String} (h : pathSegments key = []) (t value : Json) :
    t.set key value = t := by
  rw [Json.set, h]

theorem Json.set_of_segments {key segment : String} {rest : List String}
    (h : pathSegments key = segment :: rest) (t value : Json) :
    t.set key value = setAt value (segment :: rest) t := by
  rw [Json.set, h]

namespace Operation

variable {op : Operation}

/-! ### Tags -/

theorem exists_addTags_eq (op : Operation) (tags : List String) :
    ∃ all, op.addTags tags = { op with tags := all } := by
  refine List.foldlRecOn
    (motive := fun op' : Operation => ∃ all : List String, op' = { op with tags := all }) _ _
    ⟨op.tags, rfl⟩ fun op' ⟨all, hop⟩ tag _ => ?_
  unfold addTag
  split
  · exact ⟨all, hop⟩
  · rw [hop]
    exact ⟨_, rfl⟩

theorem mem_tags_addTag {op : Operation} {tag other : String} :
    other ∈ (op.addTag tag).tags ↔ other ∈ op.tags ∨ other = tag ∧ tag ≠ "" := by
  unfold addTag
  split
  · next h =>
    refine ⟨Or.inl, fun hother => hother.elim id ?_⟩
    rintro ⟨rfl, hne⟩
    exact h.resolve_left hne
  · next h =>
    rw [not_or] at h
    simp [h.1]

theorem mem_tags_addTags {op : Operation} {tags : List String} {tag : String} :
    tag ∈ (op.addTags tags).tags ↔ tag ∈ op.tags ∨ tag ∈ tags ∧ tag ≠ "" := by
  induction tags generalizing op with
  | nil => simp [addTags]
  | cons first more ih =>
    show tag ∈ ((op.addTag first).addTags more).tags ↔ _
    rw [ih, mem_tags_addTag, List.mem_cons]
    constructor
    · rintro ((h | ⟨rfl, h⟩) | ⟨h, hne⟩)
      · exact .inl h
      · exact .inr ⟨.inl rfl, h⟩
      · exact .inr ⟨.inr h, hne⟩
    · rintro (h | ⟨rfl | h, hne⟩)
      · exact .inl (.inl h)
      · exact .inl (.inr ⟨rfl, hne⟩)
      · exact .inr ⟨h, hne⟩

/-- Tags that are there, or empty, are not added. -/
theorem addTags_eq_self {tags : List String} (h : ∀ tag ∈ tags, tag = "" ∨ tag ∈ op.tags) :
    op.addTags tags = op := by
  induction tags with
  | nil => rfl
  | cons first more ih =>
    rw [List.forall_mem_cons] at h
    have hfirst : op.addTag first = op := if_pos h.1
    show (op.addTag first).addTags more = op
    rw [hfirst, ih h.2]

theorem addTags_addTags (op : Operation) (tags : List String) :
    (op.addTags tags).addTags tags = op.addTags tags :=
  addTags_eq_self fun tag htag => by
    rw [mem_tags_addTags]
    tauto

end Operation

namespace Directive

variable {op : Operation}

/-- The keys whose field is set directly. -/
def directKeys : List String := ["tags", "summary", "description", "operationId", "deprecated"]

/-- Every other key goes through the JSON form. -/
theorem apply_of_not_direct {d : Directive} (h : d.key ∉ directKeys) (op : Operation) :
    d.apply op = setField op d.key d.value := by
  simp only [directKeys, List.mem_cons, List.not_mem_nil, or_false, not_or] at h
  obtain ⟨htags, hsummary, hdescription, hoperationId, hdeprecated⟩ := h
  rw [apply, if_neg htags, if_neg hsummary, if_neg hdescription, if_neg hoperationId,
    if_neg hdeprecated]

/-- What becomes of an operation whose field is set through the JSON form. -/
theorem setField_cases (op : Operation) (key : String) (value : Json) :
    Operation.ofJson? (op.toJson.set key value) = some (setField op key value).1 ∨
      Operation.ofJson? (op.toJson.set key value) = none ∧ (setField op key value).1 = op := by
  unfold setField
  cases h : Operation.ofJson? (op.toJson.set key value) with
  | none => exact .inr ⟨rfl, rfl⟩
  | some op' => exact .inl rfl

theorem setField_of_no_segments (h : op.Restored) {key : String}
    (hkey : Json.pathSegments key = []) (value : Json) : (setField op key value).1 = op := by
  rcases setField_cases op key value with hread | ⟨-, hsame⟩
  · rw [Json.set_of_no_segments hkey] at hread
    exact Option.some.inj (hread.symm.trans h)
  · exact hsame

theorem sameBut_setField (h : op.Restored) {key segment : String} {rest : List String}
    (hkey : Json.pathSegments key = segment :: rest) (value : Json) :
    SameBut segment op (setField op key value).1 := by
  rcases setField_cases op key value with hread | ⟨-, hsame⟩
  · rw [Json.set_of_segments hkey] at hread
    exact h.sameBut_of_edit hread
  · rw [hsame]
    exact .refl segment op

/-- Setting a field again through the JSON form changes nothing. -/
theorem setField_setField (h : op.Restored) (key : String) (value : Json) :
    (setField (setField op key value).1 key value).1 = (setField op key value).1 := by
  cases hkey : Json.pathSegments key with
  | nil =>
    have hset := setField_of_no_segments h hkey value
    rw [hset, hset]
  | cons segment rest =>
    rcases setField_cases op key value with hread | ⟨-, hsame⟩
    · -- the edited form was read, so the same edit of what was read is read as that
      rw [Json.set_of_segments hkey] at hread
      have hagain := Operation.steady (segment :: rest) value _ _ (.inr ⟨op, rfl, h⟩) hread
      generalize (setField op key value).1 = op' at hagain ⊢
      rw [setField, Json.set_of_segments hkey, hagain]
    · rw [hsame, hsame]

/-- A directive leaves every field but the one that its key names as it is. -/
theorem sameBut_apply (h : op.Restored) (d : Directive) {name : String}
    (hname : (Json.pathSegments d.key).head? = some name) : SameBut name op (d.apply op).1 := by
  by_cases hdirect : d.key ∈ directKeys
  · obtain ⟨key, value⟩ := d
    simp only [directKeys, List.mem_cons, List.not_mem_nil, or_false] at hdirect
    -- each of the direct keys is its only segment
    have segment {word : String} (hword : (Json.pathSegments word).head? = some word)
        (hkey : key = word) : name = word := by
      subst hkey
      exact Option.some.inj (hname.symm.trans hword)
    rcases hdirect with hkey | hkey | hkey | hkey | hkey
    · obtain rfl := segment (by decide +kernel) hkey
      subst hkey
      obtain ⟨all, hall⟩ := op.exists_addTags_eq (tagsOf value).1
      show SameBut "tags" op (op.addTags (tagsOf value).1)
      rw [hall]
      exact { SameBut.refl "tags" op with tags := fun hne => absurd rfl hne }
    · obtain rfl := segment (by decide +kernel) hkey
      subst hkey
      exact { SameBut.refl "summary" op with summary := fun hne => absurd rfl hne }
    · obtain rfl := segment (by decide +kernel) hkey
      subst hkey
      exact { SameBut.refl "description" op with description := fun hne => absurd rfl hne }
    · obtain rfl := segment (by decide +kernel) hkey
      subst hkey
      exact { SameBut.refl "operationId" op with operationId := fun hne => absurd rfl hne }
    · obtain rfl := segment (by decide +kernel) hkey
      subst hkey
      exact { SameBut.refl "deprecated" op with deprecated := fun hne => absurd rfl hne }
  · rw [apply_of_not_direct hdirect]
    obtain ⟨rest, hkey⟩ := List.head?_eq_some_iff.1 hname
    exact sameBut_setField h hkey d.value

/-- A directive that is applied again changes nothing. -/
theorem apply_apply (h : op.Restored) (d : Directive) :
    (d.apply (d.apply op).1).1 = (d.apply op).1 := by
  by_cases hdirect : d.key ∈ directKeys
  · obtain ⟨key, value⟩ := d
    simp only [directKeys, List.mem_cons, List.not_mem_nil, or_false] at hdirect
    rcases hdirect with hkey | hkey | hkey | hkey | hkey <;> subst hkey
    · exact op.addTags_addTags (tagsOf value).1
    · rfl
    · rfl
    · rfl
    · rfl
  · rw [apply_of_not_direct hdirect, apply_of_not_direct hdirect]
    exact setField_setField h d.key d.value

end Directive

namespace Crawl

/-- The operations that directives are applied to: what is read of a JSON value, what updates lead
to from the fresh operation, and what the crawl registers. Of the parameters that are added directly
it is required that they read back, as those do that the crawl adds. -/
inductive Attained : Operation → Prop
  | read {v : Json} {op : Operation} (h : Operation.ofJson? v = some op) : Attained op
  | updated {added : List Parameter} {op : Operation} (h : Reached (fun _ => True) added op)
      (hadded : ∀ q ∈ added, Parameter.ofJson? q.toJson = some q) : Attained op
  | registered {p : Program} {o : Oracle Id} {markers : List String} {entry : Nat} {op : Operation}
      (h : ∃ e ∈ (crawl p o markers entry).run.1.routes, ∃ e' ∈ e.2, e'.2 = op) : Attained op

theorem Attained.restored {op : Operation} (h : Attained op) : op.Restored := by
  cases h with
  | read h => exact Operation.restored_of_ofJson? h
  | updated h hadded => exact restored_of_reached h hadded
  | registered h =>
    obtain ⟨e, he, e', he', rfl⟩ := h
    exact crawl_restored _ _ _ _ e he e' he'

/-- **A directive changes one field at most**, the one that the first segment of its key names: a
declared field, or one entry of the extensions, which keeps its place or is added behind the others.
A key without segments changes nothing, and neither does a directive after which the JSON form is no
operation. -/
theorem applyDirective_changes_one_field {op : Operation} (h : Attained op) (d : Directive) :
    (∀ name, (Json.pathSegments d.key).head? = some name → SameBut name op (d.apply op).1) ∧
    (Json.pathSegments d.key = [] → (d.apply op).1 = op) ∧
    (d.key ∉ Directive.directKeys →
      Operation.ofJson? (op.toJson.set d.key d.value) = none → (d.apply op).1 = op) := by
  refine ⟨fun name hname => d.sameBut_apply h.restored hname, fun hkey => ?_,
    fun hdirect hread => ?_⟩
  · have hdirect : d.key ∉ Directive.directKeys := by
      intro hmem
      have hsegments : ∀ key ∈ Directive.directKeys, Json.pathSegments key ≠ [] := by decide +kernel
      exact hsegments _ hmem hkey
    rw [Directive.apply_of_not_direct hdirect]
    exact Directive.setField_of_no_segments h.restored hkey d.value
  · rw [Directive.apply_of_not_direct hdirect, Directive.setField, hread]

/-- A parameter of the query, added to the fresh operation. -/
def limited : Operation := Operation.fresh.addParameter { name := "limit", location := .query }

theorem attained_limited : Attained limited :=
  .updated (Reached.fresh.parameter _) fun q hq => by
    rw [List.mem_singleton.1 hq]
    exact Parameter.restored_iff.2 Schema.restored_empty

/-- A directive inside the schema of the limit reaches the parameters through their JSON form, and
leaves all else; one that would make their list a text is dropped. -/
theorem applyDirective_changes_one_field_limited :
    (let op := (Directive.apply limited ⟨"parameters.0.schema.type", .str "integer"⟩).1
     op.parameters.map (·.schema.typeName) = [some "integer"] ∧ SameBut "parameters" limited op) ∧
    (Directive.apply limited ⟨"parameters.0", .str "limit"⟩).1 = limited := by
  refine ⟨⟨by decide +kernel, ?_⟩, ?_⟩
  · exact (applyDirective_changes_one_field attained_limited _).1 "parameters" (by decide +kernel)
  · exact (applyDirective_changes_one_field attained_limited
      ⟨"parameters.0", .str "limit"⟩).2.2 (by decide) (by decide +kernel)

/-- **A directive that is applied twice does what it does once**, whether its value fits, is dropped
or is taken apart by the records that read it. -/
theorem applyDirective_idempotent {op : Operation} (h : Attained op) (d : Directive) :
    (d.apply (d.apply op).1).1 = (d.apply op).1 :=
  d.apply_apply h.restored

/-- A parameter that is given as a row of values is read as a record, so the second directive finds
another form than the first. -/
theorem applyDirective_idempotent_limited :
    let d : Directive := ⟨"parameters.0", .arr [.str "page", .str "query", .bool true]⟩
    (d.apply limited).1.parameters.map (·.name) = ["page"] ∧
      (d.apply (d.apply limited).1).1 = (d.apply limited).1 :=
  ⟨by decide +kernel, applyDirective_idempotent attained_limited _⟩

end Crawl

end RouteContract
