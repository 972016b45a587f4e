import Mathlib
import RouteContract.Json.Record
import RouteContract.Proofs.Json.Entries

/-!
# Reading back what was written

A value is restored when its JSON form reads back as the value itself. A list is restored when its
items are, and a table when its values are and no name occurs twice in it. Each way of writing a
field of a record has one lemma that says when the field is restored, and the record of a written
object has the written fields as its known entries (`exists_closed?_written`,
`exists_open?_written`).

What a record does not know is kept merged; merging twice is merging once (`merged_merged`).
-/

namespace RouteContract

open scoped List

namespace Json

/-! ### Merging -/

/-- Fields whose values are merged are not changed by merging. -/
theorem mergedFields_eq_self {fields : List (String × Json)}
    (h : ∀ e ∈ fields, e.2.merged = e.2) : mergedFields fields = fields := by
  induction fields with
  | nil => rfl
  | cons head rest ih =>
    rw [mergedFields, h _ List.mem_cons_self, ih fun e he => h e (List.mem_cons_of_mem _ he)]

mutual

/-- Merging again changes nothing. -/
theorem merged_merged : ∀ v : Json, v.merged.merged = v.merged
  | .arr items => by rw [merged, merged, mergedItems_mergedItems items]
  | .obj fields => by
    -- the first pass leaves distinct names and merged values, so the second changes nothing
    have hfields : mergedFields (Entries.putAll [] (mergedFields fields)) =
        Entries.putAll [] (mergedFields fields) :=
      mergedFields_eq_self fun e he =>
        merged_of_mem_mergedFields fields e ((Entries.mem_putAll he).resolve_left (by simp))
    rw [merged, merged, hfields, Entries.putAll_nil_eq_self.2 (Entries.nodup_names_putAll_nil _)]
  | .null => rfl
  | .bool _ => rfl
  | .num _ => rfl
  | .str _ => rfl

theorem mergedItems_mergedItems :
    ∀ items : List Json, mergedItems (mergedItems items) = mergedItems items
  | [] => rfl
  | item :: rest => by
    rw [mergedItems, mergedItems, merged_merged item, mergedItems_mergedItems rest]

theorem merged_of_mem_mergedFields :
    ∀ (fields : List (String × Json)), ∀ e ∈ mergedFields fields, e.2.merged = e.2
  | (name, value) :: rest, e, he => by
    rcases List.mem_cons.1 he with rfl | he
    · exact merged_merged value
    · exact merged_of_mem_mergedFields rest e he

end

/-! ### Restored values -/

variable {α : Type} {read : Json → Option α} {write : α → Json}

/-- The JSON form of a value reads back as the value. -/
def Restored (read : Json → Option α) (write : α → Json) (a : α) : Prop := read (write a) = some a

@[simp] theorem restored_text (s : String) : Restored text? .str s := rfl

/-- A value of no known type is restored when it is merged. -/
@[simp] theorem restored_merged {v : Json} :
    Restored (fun v => some v.merged) id v ↔ v.merged = v := by
  rw [Restored, id, Option.some.injEq]

theorem mapM_map_eq_some {β : Type} {read : β → Option α} {write : α → β} {items : List α} :
    (items.map write).mapM read = some items ↔ ∀ a ∈ items, read (write a) = some a := by
  induction items with
  | nil => simp
  | cons a rest ih =>
    rw [List.map_cons, List.mapM_cons, List.forall_mem_cons, ← ih]
    simp [Option.bind_eq_some_iff]

/-- A list is restored when its items are. -/
@[simp] theorem listOf_arr_map {items : List α} :
    listOf read (.arr (items.map write)) = some items ↔ ∀ a ∈ items, Restored read write a :=
  mapM_map_eq_some

@[simp] theorem restored_list {items : List α} :
    Restored (listOf read) (fun items => .arr (items.map write)) items ↔
      ∀ a ∈ items, Restored read write a :=
  mapM_map_eq_some

/-- Read the value of an entry. -/
def readEntry (read : Json → Option α) (entry : String × Json) : Option (String × α) :=
  (read entry.2).map fun a => (entry.1, a)

theorem tableOf_obj (fields : List (String × Json)) :
    tableOf read (.obj fields) = (fields.mapM (readEntry read)).map (Entries.putAll []) := rfl

/-- The names of a table are those of the object it was read from. -/
theorem names_of_mapM_readEntry {fields : List (String × Json)} {entries : Entries α}
    (h : fields.mapM (readEntry read) = some entries) : entries.names = Entries.names fields := by
  induction fields generalizing entries with
  | nil => cases h; rfl
  | cons field rest ih =>
    rw [List.mapM_cons] at h
    obtain ⟨entry, he, h⟩ := Option.bind_eq_some_iff.1 h
    obtain ⟨more, hmore, h⟩ := Option.bind_eq_some_iff.1 h
    obtain ⟨a, -, rfl⟩ := Option.map_eq_some_iff.1 he
    cases h
    rw [Entries.names_cons, ih hmore]
    rfl

/-- What holds of everything that is read of the values of a list holds of the whole. -/
theorem forall_of_mapM {β : Type} {read : β → Option α} {values : List β} {P : α → Prop}
    (h : ∀ w ∈ values, ∀ a, read w = some a → P a) {items : List α}
    (hr : values.mapM read = some items) : ∀ a ∈ items, P a := by
  induction values generalizing items with
  | nil => cases hr; simp
  | cons w rest ih =>
    rw [List.mapM_cons] at hr
    obtain ⟨a, ha, hr⟩ := Option.bind_eq_some_iff.1 hr
    obtain ⟨more, hmore, hr⟩ := Option.bind_eq_some_iff.1 hr
    cases hr
    rw [List.forall_mem_cons]
    exact ⟨h w List.mem_cons_self a ha, ih (fun w hw => h w (List.mem_cons_of_mem _ hw)) hmore⟩

/-- A table is restored when its names are distinct and its values are restored. -/
@[simp] theorem tableOf_ofTable {entries : Entries α} :
    tableOf read (ofTable write entries) = some entries ↔
      entries.names.Nodup ∧ ∀ e ∈ entries, Restored read write e.2 := by
  have hvalues : (entries.map fun e => (e.1, write e.2)).mapM (readEntry read) = some entries ↔
      ∀ e ∈ entries, Restored read write e.2 := by
    rw [mapM_map_eq_some]
    refine forall₂_congr fun e _ => ?_
    simp [readEntry, Restored, Prod.ext_iff]
  rw [← hvalues, ofTable, tableOf_obj, Option.map_eq_some_iff]
  constructor
  · rintro ⟨read, hread, rfl⟩
    -- the names of what was read are distinct, so putting them in a table changes nothing
    have hnames := names_of_mapM_readEntry hread
    have hself : Entries.putAll [] read = read := by
      rw [Entries.putAll_nil_eq_self, hnames, Entries.names, List.map_map]
      exact Entries.nodup_names_putAll_nil read
    refine ⟨Entries.nodup_names_putAll_nil read, ?_⟩
    rw [hself] at hread ⊢
    exact hread
  · rintro ⟨hnodup, hread⟩
    exact ⟨entries, hread, Entries.putAll_nil_eq_self.2 hnodup⟩

/-! ### What was read -/

section Read

variable {P : α → Prop} {v : Json}

/-- What holds of everything that is read inside a value holds of the items of a list. -/
theorem forall_of_listOf (h : ∀ w, sizeOf w < sizeOf v → ∀ a, read w = some a → P a)
    {items : List α} (hr : listOf read v = some items) : ∀ a ∈ items, P a := by
  cases v with
  | arr values =>
    have hinside : ∀ w ∈ values, sizeOf w < sizeOf (arr values) := fun w hw => by
      have := List.sizeOf_lt_of_mem hw
      rw [arr.sizeOf_spec]
      omega
    refine forall_of_mapM (fun w hw a ha => h w (hinside w hw) a ha) hr
  | _ => cases hr

/-- What holds of everything that is read inside a value holds of the values of a table, and the
names of a table are distinct. -/
theorem forall_of_tableOf (h : ∀ w, sizeOf w < sizeOf v → ∀ a, read w = some a → P a)
    {entries : Entries α} (hr : tableOf read v = some entries) :
    entries.names.Nodup ∧ ∀ e ∈ entries, P e.2 := by
  cases v with
  | obj fields =>
    have hinside : ∀ e ∈ fields, sizeOf e.2 < sizeOf (obj fields) := fun e he => by
      have hlt := List.sizeOf_lt_of_mem he
      have hspec : sizeOf e = 1 + sizeOf e.1 + sizeOf e.2 := rfl
      rw [obj.sizeOf_spec]
      omega
    rw [tableOf_obj, Option.map_eq_some_iff] at hr
    obtain ⟨read, hread, rfl⟩ := hr
    refine ⟨Entries.nodup_names_putAll_nil _, fun e he => ?_⟩
    have he := (Entries.mem_putAll he).resolve_left (by simp)
    refine forall_of_mapM (P := fun e => P e.2) (fun field hfield entry hentry => ?_) hread e he
    obtain ⟨a, ha, rfl⟩ := Option.map_eq_some_iff.1 hentry
    exact h _ (hinside field hfield) a ha
  | _ => cases hr

theorem nullable_of_ne_null (h : v ≠ .null) : nullable read v = (read v).map some := by
  unfold nullable
  split
  · exact absurd rfl h
  · rfl

/-- What holds of everything that is read of a value holds of a value that may be null. -/
theorem forall_of_nullable (h : ∀ a, read v = some a → P a) {o : Option α}
    (hr : nullable read v = some o) : ∀ a, o = some a → P a := by
  unfold nullable at hr
  split at hr
  · cases hr
    exact fun a ha => nomatch ha
  · obtain ⟨b, hb, rfl⟩ := Option.map_eq_some_iff.1 hr
    rintro _ ⟨⟩
    exact h b hb

end Read

/-! ### Written fields -/

section Written

variable {name other : String} {value : Json} {o : Option α} {items : List α} {entries : Entries α}
  {flag : Bool} {fields more : List (String × Json)} {names others : List String}

theorem names_append_sublist (h : Entries.names fields <+ names)
    (hm : Entries.names more <+ others) :
    Entries.names (fields ++ more) <+ names ++ others := by
  rw [Entries.names_append]
  exact h.append hm

theorem names_field_sublist : Entries.names (field name value) <+ [name] := List.Sublist.refl _

theorem names_optionalField_sublist : Entries.names (optionalField name write o) <+ [name] := by
  cases o with
  | none => exact List.nil_sublist _
  | some a => exact List.Sublist.refl _

theorem names_listField_sublist : Entries.names (listField name write items) <+ [name] := by
  cases items with
  | nil => exact List.nil_sublist _
  | cons a rest => exact List.Sublist.refl _

theorem names_tableField_sublist : Entries.names (tableField name write entries) <+ [name] := by
  cases entries with
  | nil => exact List.nil_sublist _
  | cons e rest => exact List.Sublist.refl _

theorem names_flagField_sublist : Entries.names (flagField name flag) <+ [name] := by
  cases flag with
  | false => exact List.nil_sublist _
  | true => exact List.Sublist.refl _

@[simp] theorem get?_field :
    Entries.get? other (field name value) = if name = other then some value else none := rfl

@[simp] theorem get?_optionalField :
    Entries.get? other (optionalField name write o) =
      if name = other then o.map write else none := by
  cases o with
  | none => exact (ite_self none).symm
  | some a => rfl

@[simp] theorem get?_listField :
    Entries.get? other (listField name write items) =
      if name = other then
        if items = [] then none else some (.arr (items.map write))
      else none := by
  cases items with
  | nil => exact (ite_self none).symm
  | cons a rest => rfl

@[simp] theorem get?_tableField :
    Entries.get? other (tableField name write entries) =
      if name = other then
        if entries = [] then none else some (ofTable write entries)
      else none := by
  cases entries with
  | nil => exact (ite_self none).symm
  | cons e rest => rfl

@[simp] theorem get?_flagField :
    Entries.get? other (flagField name flag) =
      if name = other then if flag then some (.bool true) else none else none := by
  cases flag with
  | false => exact (ite_self none).symm
  | true => rfl

/-- Reading an optional field back. -/
@[simp] theorem elim_nullable (hw : ∀ a, write a ≠ .null) :
    o.elim (some none) (nullable read ∘ write) = some o ↔
      ∀ a, o = some a → Restored read write a := by
  cases o with
  | none => simp
  | some a => simp [nullable_of_ne_null (hw a), Restored]

/-- Reading back a list that is left out when it is empty. -/
@[simp] theorem elim_listOf :
    (if items = [] then none else some (Json.arr (items.map write))).elim (some []) (listOf read)
        = some items ↔ ∀ a ∈ items, Restored read write a := by
  cases items with
  | nil => simp
  | cons a rest => exact listOf_arr_map

/-- Reading back values of no known type that are left out when there are none. -/
@[simp] theorem elim_listOf_merged {values : List Json} :
    (if values = [] then none else some (Json.arr values)).elim (some [])
      (listOf fun v => some v.merged) = some values ↔ ∀ v ∈ values, v.merged = v := by
  simpa using @elim_listOf Json (fun v => some v.merged) id values

/-- Reading back a table that is left out when it is empty. -/
@[simp] theorem elim_tableOf :
    (if entries = [] then none else some (ofTable write entries)).elim (some []) (tableOf read)
        = some entries ↔ entries.names.Nodup ∧ ∀ e ∈ entries, Restored read write e.2 := by
  cases entries with
  | nil => simp
  | cons a rest => exact tableOf_ofTable

/-- Reading back a flag that is left out when it is not set. -/
@[simp] theorem elim_flag? :
    (if flag = true then some (Json.bool true) else none).elim (some false) flag? = some flag := by
  cases flag with
  | false => rfl
  | true => rfl

end Written

end Json

namespace Record

open Json

variable {α : Type} {read : Json → Option α} {names : List String}
  {fields : List (String × Json)} {others : Entries Json} {r : Record} {v : Json}

/-! ### Reading a record -/

@[simp] theorem get_eq (r : Record) (name : String) (read : Json → Option α) :
    r.get name read = (r.known.get? name).bind read := rfl

@[simp] theorem getD_eq (r : Record) (name : String) (read : Json → Option α) (default : α) :
    r.getD name read default = (r.known.get? name).elim (some default) read := by
  unfold getD
  split
  · next h => rw [h]; rfl
  · next h => rw [h]; rfl

@[simp] theorem get?_eq (r : Record) (name : String) (read : Json → Option α) :
    r.get? name read = (r.known.get? name).elim (some none) (nullable read) :=
  getD_eq r name _ _

/-- What an open record keeps beside fields of these names: merged values under other names, each
name once. -/
structure Kept (names : List String) (others : Entries Json) : Prop where
  nodup : others.names.Nodup
  apart : ∀ name ∈ others.names, name ∉ names
  merged : ∀ e ∈ others, e.2.merged = e.2

theorem kept_nil : Kept names [] := ⟨List.nodup_nil, by simp, by simp⟩

/-- A record of an object keeps what it does not know. -/
theorem kept_others (h : ofFields? names fields = some r) : Kept names r.others := by
  unfold ofFields? at h
  split at h
  · cases h
    refine ⟨Entries.nodup_names_putAll_nil _, fun name hname => ?_, fun e he => ?_⟩
    · obtain ⟨e, he, rfl⟩ := List.mem_map.1 hname
      obtain ⟨f, hf, rfl⟩ := List.mem_map.1 ((Entries.mem_putAll he).resolve_left (by simp))
      simpa using (List.mem_filter.1 hf).2
    · obtain ⟨f, hf, rfl⟩ := List.mem_map.1 ((Entries.mem_putAll he).resolve_left (by simp))
      exact merged_merged _
  · cases h

/-- A known field is read off the object. -/
theorem get?_known (h : ofFields? names fields = some r) {name : String} (hn : name ∈ names) :
    r.known.get? name = Entries.get? name fields := by
  unfold ofFields? at h
  split at h
  · cases h
    exact Entries.get?_filter (fun _ => by simpa using hn) fields
  · cases h

/-- The entries of other names, merged. -/
def unknown (names : List String) (fields : List (String × Json)) : List (String × Json) :=
  (fields.filter fun e => !names.contains e.1).map fun e => (e.1, e.2.merged)

theorem exists_ofFields?_eq_some (h : distinct names fields = true) :
    ∃ r, ofFields? names fields = some r ∧ r.others = Entries.putAll [] (unknown names fields) :=
  ⟨_, if_pos h, rfl⟩

/-- Entries of distinct names are distinct with respect to any names. -/
theorem distinct_of_nodup (h : Entries.names fields |>.Nodup) : distinct names fields = true := by
  refine List.all_eq_true.2 fun name _ => decide_eq_true ?_
  have hcount := List.nodup_iff_count_le_one.1 h name
  rw [Entries.names, List.count_eq_countP, List.countP_map, List.countP_eq_length_filter] at hcount
  exact hcount

/-- Distinct names of the rest of an object, and a first name that does not occur again. -/
theorem distinct_cons {name : String} {value : Json} {rest : List (String × Json)}
    (h : distinct names ((name, value) :: rest) = true) :
    distinct names rest = true ∧ (name ∈ names → name ∉ Entries.names rest) := by
  have hcount : ∀ other ∈ names, (((name, value) :: rest).filter fun e => e.1 = other).length ≤ 1 :=
    fun other ho => of_decide_eq_true (List.all_eq_true.1 h other ho)
  constructor
  · refine List.all_eq_true.2 fun other ho => decide_eq_true ((List.Sublist.length_le ?_).trans
      (hcount other ho))
    exact (List.sublist_cons_self _ _).filter _
  · intro hname hmem
    obtain ⟨e, he, rfl⟩ := List.mem_map.1 hmem
    have hone := hcount e.1 hname
    rw [List.filter_cons_of_pos (by simp), List.length_cons] at hone
    have hpos : 0 < (rest.filter fun f => f.1 = e.1).length :=
      List.length_pos_of_mem (List.mem_filter.2 ⟨he, decide_eq_true rfl⟩)
    omega

/-- No name occurs twice among written fields and kept entries after them. -/
theorem nodup_names_written (hnames : names.Nodup) (hsub : Entries.names fields <+ names)
    (hk : Kept names others) : (Entries.names (fields ++ others)).Nodup := by
  rw [Entries.names_append]
  refine List.nodup_append.2 ⟨hsub.nodup hnames, hk.nodup, fun a ha b hb hab => ?_⟩
  exact hk.apart b hb (hab ▸ hsub.subset ha)

/-- The record of an object whose fields were written, with kept entries after them. -/
theorem ofFields?_written (hnames : names.Nodup) (hsub : Entries.names fields <+ names)
    (hk : Kept names others) : ofFields? names (fields ++ others) = some ⟨fields, others⟩ := by
  have hknown : ∀ e ∈ fields, names.contains e.1 = true := fun e he => by
    simpa using hsub.subset (List.mem_map_of_mem he)
  have hother : ∀ e ∈ others, names.contains e.1 = false := fun e he => by
    simpa using hk.apart e.1 (List.mem_map_of_mem he)
  have hnodup := nodup_names_written hnames hsub hk
  have hleft : (fields ++ others).filter (fun e => names.contains e.1) = fields := by
    rw [List.filter_append, List.filter_eq_self.2 hknown,
      List.filter_eq_nil_iff.2 fun e he => by rw [hother e he]; exact Bool.false_ne_true,
      List.append_nil]
  have hright : (fields ++ others).filter (fun e => !names.contains e.1) = others := by
    rw [List.filter_append,
      List.filter_eq_nil_iff.2 fun e he => by rw [hknown e he]; exact Bool.false_ne_true,
      List.filter_eq_self.2 fun e he => by rw [hother e he]; rfl, List.nil_append]
  have hmerged : (others.map fun e => (e.1, e.2.merged)) = others :=
    (List.map_congr_left fun e he => by show _ = e; rw [hk.merged e he]).trans (List.map_id _)
  rw [ofFields?, if_pos (distinct_of_nodup hnodup)]
  simp only [hleft, hright, hmerged, Entries.putAll_nil_eq_self.2 hk.nodup]

/-- The record of an object in which no name is repeated. -/
theorem exists_ofFields?_of_nodup (h : (Entries.names fields).Nodup) :
    ∃ r, ofFields? names fields = some r ∧ r.others = unknown names fields ∧
      ∀ name ∈ names, r.known.get? name = Entries.get? name fields := by
  have hunknown : (Entries.names (unknown names fields)).Nodup := by
    rw [unknown, Entries.names_map]
    exact h.sublist (List.filter_sublist.map _)
  have hdistinct : distinct names fields = true := distinct_of_nodup h
  obtain ⟨r, hr, hothers⟩ := exists_ofFields?_eq_some hdistinct
  refine ⟨r, hr, ?_, fun name hname => get?_known hr hname⟩
  rw [hothers, Entries.putAll_nil_eq_self.2 hunknown]

/-- Putting under a known name is not seen among the others. -/
theorem unknown_put {name : String} {value : Json} : unknown names (Entries.put name value fields) =
    if name ∈ names then unknown names fields
    else Entries.put name value.merged (unknown names fields) := by
  induction fields with
  | nil => by_cases h : name ∈ names <;> simp [unknown, Entries.put, h]
  | cons field rest ih =>
    obtain ⟨key, old⟩ := field
    have hcons (value : Json) (rest : List (String × Json)) :
        unknown names ((key, value) :: rest) =
          if key ∈ names then unknown names rest
          else (key, value.merged) :: unknown names rest := by
      by_cases h : key ∈ names <;> simp [unknown, h]
    rw [Entries.put]
    split
    · next hk =>
      subst hk
      rw [hcons, hcons]
      split
      · rfl
      · rw [Entries.put_cons_self]
    · next hk =>
      rw [hcons, hcons, ih]
      split <;> split <;> simp [Entries.put, hk]

/-- A written closed record reads as its fields. -/
theorem exists_closed?_written (hnames : names.Nodup) (hsub : Entries.names fields <+ names)
    {P : Record → Prop} : (∃ r, closed? names (.obj fields) = some r ∧ P r) ↔ P ⟨fields, []⟩ := by
  have h : closed? names (.obj fields) = some ⟨fields, []⟩ := by
    have h := ofFields?_written hnames hsub kept_nil
    rw [List.append_nil] at h
    exact h
  simp [h]

/-- A written open record reads as its fields and what is kept, if that can be kept. -/
theorem exists_open?_written (hnames : names.Nodup) (hsub : Entries.names fields <+ names)
    {P : Record → Prop} (hP : ∀ r, P r → r.others = others) :
    (∃ r, open? names (.obj (fields ++ others)) = some r ∧ P r) ↔
      Kept names others ∧ P ⟨fields, others⟩ := by
  constructor
  · rintro ⟨r, hr, hPr⟩
    have hk : Kept names others := hP r hPr ▸ kept_others hr
    have hw := ofFields?_written hnames hsub hk
    exact ⟨hk, Option.some.inj (hr.symm.trans hw) ▸ hPr⟩
  · rintro ⟨hk, hPr⟩
    exact ⟨_, ofFields?_written hnames hsub hk, hPr⟩

/-! ### What was read of a record -/

variable {P : α → Prop} {name : String}

theorem forall_of_get (h : ∀ e ∈ r.known, ∀ a, read e.2 = some a → P a) {a : α}
    (hr : r.get name read = some a) : P a := by
  obtain ⟨v, hv, ha⟩ := Option.bind_eq_some_iff.1 hr
  exact h _ (Entries.mem_of_get?_eq_some hv) a ha

theorem forall_of_getD (h : ∀ e ∈ r.known, ∀ a, read e.2 = some a → P a) {a default : α}
    (hd : P default) (hr : r.getD name read default = some a) : P a := by
  unfold getD at hr
  split at hr
  · next hv => exact h _ (Entries.mem_of_get?_eq_some hv) a hr
  · cases hr
    exact hd

theorem forall_of_get? (h : ∀ e ∈ r.known, ∀ a, read e.2 = some a → P a) {o : Option α}
    (hr : r.get? name read = some o) : ∀ a, o = some a → P a :=
  forall_of_getD (P := fun o => ∀ a, o = some a → P a)
    (fun e he _ ho => forall_of_nullable (h e he) ho) (by simp) hr

/-- The known entries of a record are smaller than the value it was read from. -/
theorem sizeOf_known_lt (h : ofFields? names fields = some r) :
    ∀ e ∈ r.known, sizeOf e.2 < sizeOf (obj fields) := by
  unfold ofFields? at h
  split at h
  · cases h
    intro e he
    have hlt := List.sizeOf_lt_of_mem (List.mem_filter.1 he).1
    have hspec : sizeOf e = 1 + sizeOf e.1 + sizeOf e.2 := rfl
    rw [obj.sizeOf_spec]
    omega
  · cases h

end Record

end RouteContract
