import Mathlib
import RouteContract.Proofs.Json.Path

/-!
# Editing what is read back

A value is edited through its JSON form: it is written, a place of the form is set, and the result
is read. What was edited in this way is written differently from the text that was read, since
reading drops unknown names, fills in defaults and turns rows into records. Still a second edit of
the same place with the same value finds nothing to change.

`Steady path read write` says this of a type and a path. It goes down the path: at the end of the
path nothing is left of the old form; a list, a table or a record is steady at a path when what it
holds is steady at the rest of it. A record is described by its slots (`RecordForm`); setting a
place inside one slot leaves every other slot as it is (`RecordForm.reads_of_edit`).
-/

namespace RouteContract.Json

variable {α β : Type} {read : Json → Option α} {write : α → Json} {v : Json} {segment : String}
  {rest path : List String}

/-- A form that can be edited: nothing, or what is written for a value and reads back as the
value. -/
def IsForm (read : Json → Option α) (write : α → Json) (c : Json) : Prop :=
  c = .null ∨ ∃ a, c = write a ∧ read c = some a

/-- What was read after an edit is read again after the same edit of its own form. -/
def Steady (path : List String) (read : Json → Option α) (write : α → Json) : Prop :=
  ∀ v c b, IsForm read write c → read (setAt v path c) = some b →
    read (setAt v path (write b)) = some b

/-- At the end of the path the old form is replaced. -/
theorem steady_nil : Steady [] read write := fun _ _ _ _ h => h

/-! ### Scalars and values of no known type -/

/-- A value without items and fields. -/
def IsScalar (v : Json) : Prop := (∀ items, v ≠ .arr items) ∧ fieldsOf v = []

theorem isScalar_null : IsScalar .null := ⟨nofun, rfl⟩

theorem isScalar_str (s : String) : IsScalar (.str s) := ⟨nofun, rfl⟩

theorem isScalar_bool (b : Bool) : IsScalar (.bool b) := ⟨nofun, rfl⟩

/-- Writing below a scalar is writing into an empty object. -/
theorem IsScalar.setAt_cons {c : Json} (h : IsScalar c) :
    setAt v (segment :: rest) c = setAt v (segment :: rest) (.obj []) := by
  rw [setAt_fieldsOf h.1, h.2]

/-- A type whose values are written as scalars is steady: an edit below them does not see them. -/
theorem steady_of_isScalar (h : ∀ a, IsScalar (write a)) : Steady path read write := by
  cases path with
  | nil => exact steady_nil
  | cons segment rest =>
    intro v c b hc hb
    have hscalar : IsScalar c := by
      rcases hc with rfl | ⟨a, rfl, -⟩
      · exact isScalar_null
      · exact h a
    rw [hscalar.setAt_cons] at hb
    rw [(h b).setAt_cons]
    exact hb

/-- What was kept merged is kept as it is. -/
theorem merged_back (c a : Json) (h : some c.merged = some a) : some (id a).merged = some a := by
  rw [← h, id, Option.some.injEq, ← Option.some.inj h, merged_merged]

/-- A value of no known type is kept merged, and edits of it stay. -/
theorem steady_merged : Steady path (fun v => some v.merged) id := by
  intro v c b hc hb
  have hc : c.merged = c := by
    rcases hc with rfl | ⟨a, rfl, ha⟩
    · rfl
    · exact Option.some.inj ha
  rw [Option.some.injEq, merged_setAt path hc] at hb
  have hb' : b.merged = b := by rw [← hb, ← merged_setAt path hc, merged_merged]
  rw [id, Option.some.injEq, merged_setAt path hb', ← hb, setAt_setAt]

/-! ### Lists -/

theorem mapM_eq_some_iff {f : β → Option α} {xs : List β} {ys : List α} :
    xs.mapM f = some ys ↔ xs.map f = ys.map some := by
  induction xs generalizing ys with
  | nil => cases ys <;> simp
  | cons x xs ih =>
    rw [List.mapM_cons, List.map_cons]
    cases ys with
    | nil => simp [Option.bind_eq_some_iff]
    | cons y ys =>
      rw [List.map_cons, List.cons.injEq, ← ih]
      simp [Option.bind_eq_some_iff]

/-- Writing at a path that goes on gives an array only where there was one with the item. -/
theorem exists_of_listOf_setAt {c : Json} {b : List α}
    (h : listOf read (setAt v (segment :: rest) c) = some b) :
    ∃ items i, c = .arr items ∧ itemIndex? items segment = some i ∧
      (items.set i (setAt v rest ((items[i]?).getD .null))).map read = b.map some := by
  cases c with
  | arr items =>
    cases hi : itemIndex? items segment with
    | none =>
      rw [setAt_arr_of_no_index hi] at h
      nomatch h
    | some i =>
      rw [setAt_arr_of_index hi] at h
      exact ⟨items, i, rfl, hi, mapM_eq_some_iff.1 h⟩
  | _ => nomatch h

/-- A list whose items are steady at the rest of the path is steady. -/
theorem steady_listOf (hback : ∀ c a, read c = some a → read (write a) = some a)
    (h : Steady path.tail read write) :
    Steady path (listOf read) (fun items => .arr (items.map write)) := by
  cases path with
  | nil => exact steady_nil
  | cons segment rest =>
    intro v c b hc hb
    obtain ⟨_, i, rfl, hi, hitems⟩ := exists_of_listOf_setAt hb
    obtain ⟨items, hwritten, hread⟩ := hc.resolve_left (fun hnull => nomatch hnull)
    cases hwritten
    have hlength : b.length = items.length := by simpa using (congrArg List.length hitems).symm
    have hlt : i < items.length := by simpa using lt_of_itemIndex? hi
    have hlt' : i < b.length := hlength ▸ hlt
    rw [List.getElem?_map, List.getElem?_eq_getElem hlt, Option.map_some,
      Option.getD_some] at hitems
    -- the item that was edited is read again after the same edit of its own form
    have hitem : read (setAt v rest (write items[i])) = some b[i] := by
      have hget := congrArg (·[i]?) hitems
      simpa only [List.map_set, List.getElem?_map, List.getElem?_eq_getElem hlt', Option.map_some,
        List.getElem?_set_self (show i < ((items.map write).map read).length by simpa using hlt),
        Option.some.injEq] using hget
    have hagain : read (setAt v rest (write b[i])) = some b[i] :=
      h v _ _ (.inr ⟨_, rfl, listOf_arr_map.1 hread _ (List.getElem_mem hlt)⟩) hitem
    have hwritten : (b.map write).map read = b.map some := by
      rw [List.map_map]
      refine List.map_congr_left fun a ha => ?_
      exact forall_of_mapM (P := fun a => read (write a) = some a) (fun c _ a => hback c a)
        (mapM_eq_some_iff.2 hitems) a ha
    have hi' : itemIndex? (b.map write) segment = some i :=
      (itemIndex?_congr (by simp [hlength])).trans hi
    rw [setAt_arr_of_index hi', listOf, mapM_eq_some_iff, List.map_set, hwritten,
      List.getElem?_map, List.getElem?_eq_getElem hlt', Option.map_some, Option.getD_some, hagain,
      ← List.map_set, List.set_getElem_self]

/-! ### Tables -/

/-- What is under a name of a table was read of what is under it in the object. -/
theorem get?_of_mapM_readEntry {fields : List (String × Json)} {entries : Entries α}
    (h : fields.mapM (readEntry read) = some entries) (name : String) :
    Entries.get? name entries = (Entries.get? name fields).bind read := by
  induction fields generalizing entries with
  | nil => cases h; rfl
  | cons field fields ih =>
    rw [List.mapM_cons] at h
    obtain ⟨entry, he, h⟩ := Option.bind_eq_some_iff.1 h
    obtain ⟨more, hmore, h⟩ := Option.bind_eq_some_iff.1 h
    obtain ⟨a, ha, rfl⟩ := Option.map_eq_some_iff.1 he
    cases h
    rw [Entries.get?, Entries.get?, ih hmore]
    split
    · exact ha.symm
    · rfl

/-- Reading after a value was put under a name. -/
theorem mapM_readEntry_put {fields : List (String × Json)} {entries : Entries α} {name : String}
    {value : Json} {a : α} (h : fields.mapM (readEntry read) = some entries)
    (ha : read value = some a) :
    (Entries.put name value fields).mapM (readEntry read) = some (Entries.put name a entries) := by
  induction fields generalizing entries with
  | nil =>
    cases h
    simp [Entries.put, readEntry, ha]
  | cons field fields ih =>
    rw [List.mapM_cons] at h
    obtain ⟨entry, he, h⟩ := Option.bind_eq_some_iff.1 h
    obtain ⟨more, hmore, h⟩ := Option.bind_eq_some_iff.1 h
    obtain ⟨old, hold, rfl⟩ := Option.map_eq_some_iff.1 he
    cases h
    rw [Entries.put, Entries.put]
    split
    · rw [List.mapM_cons, readEntry, ha, hmore]
      rfl
    · rw [List.mapM_cons, readEntry, hold, ih hmore]
      rfl

theorem ofTable_eq (entries : Entries α) :
    ofTable write entries = .obj (entries.map fun e => (e.1, write e.2)) := rfl

/-- A form of a table is the object of the written entries of some table. -/
theorem IsForm.exists_entries {c : Json} (h : IsForm (tableOf read) (ofTable write) c) :
    ∃ entries : Entries α, setAt v (segment :: rest) c =
        setAt v (segment :: rest) (.obj (entries.map fun e => (e.1, write e.2))) ∧
      entries.names.Nodup ∧ ∀ e ∈ entries, read (write e.2) = some e.2 := by
  rcases h with rfl | ⟨entries, rfl, hread⟩
  · exact ⟨[], isScalar_null.setAt_cons, List.nodup_nil, by simp⟩
  · exact ⟨entries, rfl, (tableOf_ofTable.1 hread).1, (tableOf_ofTable.1 hread).2⟩

/-- The form of the value under a name, if there is one, and nothing else. -/
theorem isForm_get? {entries : Entries α} (h : ∀ e ∈ entries, read (write e.2) = some e.2)
    (name : String) :
    IsForm read write ((Entries.get? name (entries.map fun e => (e.1, write e.2))).getD .null) := by
  rw [Entries.get?_map]
  cases hget : Entries.get? name entries with
  | none => exact .inl rfl
  | some a => exact .inr ⟨a, rfl, h _ (Entries.mem_of_get?_eq_some hget)⟩

/-- A table whose values are steady at the rest of the path is steady. -/
theorem steady_tableOf (hback : ∀ c a, read c = some a → read (write a) = some a)
    (h : Steady path.tail read write) : Steady path (tableOf read) (ofTable write) := by
  cases path with
  | nil => exact steady_nil
  | cons segment rest =>
    intro v c b hc hb
    obtain ⟨entries, hset, hnodup, hentries⟩ := hc.exists_entries
    rw [hset, setAt_obj, tableOf_obj] at hb
    obtain ⟨values, hvalues, rfl⟩ := Option.map_eq_some_iff.1 hb
    -- the names are distinct, so that putting what was read in a table changes nothing
    have hnames : values.names = Entries.names (Entries.put segment _ _) :=
      names_of_mapM_readEntry hvalues
    have hself : Entries.putAll [] values = values := by
      rw [Entries.putAll_nil_eq_self, hnames]
      exact Entries.nodup_names_put (by rwa [Entries.names_map]) _ _
    -- the value that was edited is read again after the same edit of its own form
    obtain ⟨a, ha⟩ : ∃ a, Entries.get? segment values = some a := by
      rw [← Option.isSome_iff_exists]
      exact Entries.has_iff.2 (hnames ▸ Entries.mem_names_put.2 (Or.inl rfl))
    have hread := get?_of_mapM_readEntry hvalues segment
    rw [ha, Entries.get?_put, if_pos rfl, Option.bind_some] at hread
    have hagain : read (setAt v rest (write a)) = some a :=
      h v _ a (isForm_get? hentries segment) hread.symm
    have hwritten : (values.map fun e => (e.1, write e.2)).mapM (readEntry read) = some values := by
      refine mapM_map_eq_some.2 fun e he => ?_
      have hback := forall_of_mapM (P := fun e : String × α => read (write e.2) = some e.2)
        (fun field _ e' he' => ?_) hvalues e he
      · rw [readEntry, hback, Option.map_some]
      · obtain ⟨a', ha', rfl⟩ := Option.map_eq_some_iff.1 he'
        exact hback _ _ ha'
    rw [hself, ofTable_eq, setAt_obj, Entries.get?_map, ha, Option.map_some, Option.getD_some,
      tableOf_obj, mapM_readEntry_put hwritten hagain, Option.map_some,
      Entries.put_of_get?_eq_some ha, hself]

/-! ### Slots -/

/-- One field of records: its name, when the entry under the name reads as the field of a record,
and the entry that is written for it. -/
structure Slot (α : Type) where
  name : String
  Reads : Option Json → α → Prop
  entry : α → Option Json

namespace Slot

/-- An entry that can be edited: none, or what is written for a record and reads as its field. -/
def IsEntry (slot : Slot α) (e : Option Json) : Prop :=
  e = none ∨ ∃ a, e = slot.entry a ∧ slot.Reads e a

/-- What was read after an edit of the entry is read again after the same edit of its own entry. -/
def Steady (path : List String) (slot : Slot α) : Prop :=
  ∀ v e b, slot.IsEntry e → slot.Reads (some (setAt v path (e.getD .null))) b →
    slot.Reads (some (setAt v path ((slot.entry b).getD .null))) b

theorem steady_nil (slot : Slot α) : slot.Steady [] := fun _ _ _ _ h => h

/-- A field that must be there. -/
def required (name : String) (get : α → β) (read : Json → Option β) (write : β → Json) :
    Slot α where
  name
  Reads e a := e.bind read = some (get a)
  entry a := some (write (get a))

/-- A field that has a default and is always written. -/
def always (name : String) (get : α → β) (read : Json → Option β) (write : β → Json)
    (default : β) : Slot α where
  name
  Reads e a := e.elim (some default) read = some (get a)
  entry a := some (write (get a))

/-- A field that is left out when it is absent. -/
def optional (name : String) (get : α → Option β) (read : Json → Option β) (write : β → Json) :
    Slot α where
  name
  Reads e a := e.elim (some none) (nullable read) = some (get a)
  entry a := (get a).map write

/-- A list that is left out when it is empty. -/
def list (name : String) (get : α → List β) (read : Json → Option β) (write : β → Json) :
    Slot α where
  name
  Reads e a := e.elim (some []) (listOf read) = some (get a)
  entry a := if get a = [] then none else some (.arr ((get a).map write))

/-- A table that is left out when it is empty. -/
def table (name : String) (get : α → Entries β) (read : Json → Option β) (write : β → Json) :
    Slot α where
  name
  Reads e a := e.elim (some []) (tableOf read) = some (get a)
  entry a := if get a = [] then none else some (ofTable write (get a))

/-- A flag that is left out when it is not set. -/
def flag (name : String) (get : α → Bool) : Slot α where
  name
  Reads e a := e.elim (some false) flag? = some (get a)
  entry a := if get a = true then some (.bool true) else none

section Steady

variable {name : String} {read : Json → Option β} {write : β → Json}

theorem steady_required {get : α → β} (h : Json.Steady path read write) :
    (required name get read write).Steady path := by
  intro v e b he hb
  refine h v _ _ ?_ hb
  rcases he with rfl | ⟨a, rfl, ha⟩
  · exact .inl rfl
  · exact .inr ⟨get a, rfl, ha⟩

theorem steady_always {get : α → β} {default : β} (h : Json.Steady path read write) :
    (always name get read write default).Steady path := by
  intro v e b he hb
  refine h v _ _ ?_ hb
  rcases he with rfl | ⟨a, rfl, ha⟩
  · exact .inl rfl
  · exact .inr ⟨get a, rfl, ha⟩

/-- What is written below an entry is no null. -/
theorem setAt_cons_ne_null (c : Json) : setAt v (segment :: rest) c ≠ .null := by
  cases c with
  | arr items =>
    cases hi : itemIndex? items segment with
    | none =>
      rw [setAt_arr_of_no_index hi]
      exact Json.noConfusion
    | some i =>
      rw [setAt_arr_of_index hi]
      exact Json.noConfusion
  | _ => exact Json.noConfusion

theorem steady_optional {get : α → Option β} (h : Json.Steady path read write) :
    (optional name get read write).Steady path := by
  cases path with
  | nil => exact steady_nil _
  | cons segment rest =>
    intro v e b he hb
    -- what is written below the entry is no null, so the field is there
    have read_iff (c : Json) :
        (optional name get read write).Reads (some (setAt v (segment :: rest) c)) b ↔
          (read (setAt v (segment :: rest) c)).map some = some (get b) := by
      show nullable read _ = _ ↔ _
      rw [nullable_of_ne_null (setAt_cons_ne_null c)]
    rw [read_iff] at hb ⊢
    obtain ⟨x, hx, hget⟩ := Option.map_eq_some_iff.1 hb
    have hform : IsForm read write (e.getD .null) := by
      rcases he with rfl | ⟨a, rfl, ha⟩
      · exact .inl rfl
      · cases hga : get a with
        | none => exact .inl (by simp [optional, hga])
        | some y =>
          have hentry : (optional name get read write).entry a = some (write y) := by
            simp [optional, hga]
          rw [hentry] at ha ⊢
          exact .inr ⟨y, rfl, forall_of_nullable (fun _ hx => hx) ha y hga⟩
    have hagain := h v _ x hform hx
    simp only [optional, ← hget, Option.map_some, Option.getD_some, hagain]

theorem steady_list {get : α → List β} (h : Json.Steady path (listOf read) fun items =>
    .arr (items.map write)) : (list name get read write).Steady path := by
  cases path with
  | nil => exact steady_nil _
  | cons segment rest =>
    intro v e b he hb
    -- an item was edited, so there is one
    have hne : get b ≠ [] := by
      obtain ⟨items, i, -, hi, hitems⟩ := exists_of_listOf_setAt hb
      intro hnil
      have hlt := lt_of_itemIndex? hi
      have hlength := congrArg List.length hitems
      rw [hnil, List.length_map, List.length_set, List.length_map, List.length_nil] at hlength
      omega
    have hform : IsForm (listOf read) (fun items => .arr (items.map write)) (e.getD .null) := by
      rcases he with rfl | ⟨a, rfl, ha⟩
      · exact .inl rfl
      · by_cases hga : get a = []
        · exact .inl (by simp [list, hga])
        · have hentry : (list name get read write).entry a = some _ := if_neg hga
          rw [hentry] at ha ⊢
          exact .inr ⟨get a, rfl, ha⟩
    have hentry : (list name get read write).entry b = some _ := if_neg hne
    rw [hentry]
    exact h v _ _ hform hb

theorem steady_table {get : α → Entries β} (h : Json.Steady path (tableOf read) (ofTable write)) :
    (table name get read write).Steady path := by
  cases path with
  | nil => exact steady_nil _
  | cons segment rest =>
    intro v e b he hb
    have hform : IsForm (tableOf read) (ofTable write) (e.getD .null) := by
      rcases he with rfl | ⟨a, rfl, ha⟩
      · exact .inl rfl
      · by_cases hga : get a = []
        · exact .inl (by simp [table, hga])
        · have hentry : (table name get read write).entry a = some _ := if_neg hga
          rw [hentry] at ha ⊢
          exact .inr ⟨get a, rfl, ha⟩
    -- a value was edited, so there is one
    have hne : get b ≠ [] := by
      obtain ⟨entries, hset, -, -⟩ := hform.exists_entries
      have hb : tableOf read (setAt v (segment :: rest) (e.getD .null)) = some (get b) := hb
      rw [hset, setAt_obj, tableOf_obj] at hb
      obtain ⟨values, hvalues, hget⟩ := Option.map_eq_some_iff.1 hb
      intro hnil
      have hmem : segment ∈ Entries.names (Entries.putAll [] values) := by
        rw [Entries.mem_names_putAll, names_of_mapM_readEntry hvalues]
        exact Or.inr (Entries.mem_names_put.2 (Or.inl rfl))
      rw [hget, hnil] at hmem
      nomatch hmem
    have hentry : (table name get read write).entry b = some _ := if_neg hne
    rw [hentry]
    exact h v _ _ hform hb

/-- Nothing below a flag reads as a flag. -/
theorem steady_flag {get : α → Bool} : (flag name get).Steady path := by
  cases path with
  | nil => exact steady_nil _
  | cons segment rest =>
    intro v e b he hb
    have hscalar : IsScalar (e.getD .null) := by
      rcases he with rfl | ⟨a, rfl, -⟩
      · exact isScalar_null
      · cases hga : get a with
        | false => simpa [flag, hga] using isScalar_null
        | true => simpa [flag, hga] using isScalar_bool true
    have hb : flag? (setAt v (segment :: rest) (e.getD .null)) = some (get b) := hb
    rw [hscalar.setAt_cons] at hb
    nomatch hb

end Steady

end Slot

/-! ### Records -/

/-- How the records of a type are read off the fields of an object and written: slot by slot, with
the other entries behind them if these are kept. -/
structure RecordForm {α : Type} (read : Json → Option α) (write : α → Json) where
  slots : List (Slot α)
  /-- The record of a value, before its fields are read. -/
  record? : Json → Option Record
  /-- Whether entries of other names are kept. -/
  isOpen : Bool
  others : α → Entries Json
  fields : α → List (String × Json)
  record?_obj : ∀ fields, record? (.obj fields) = Record.ofFields? (slots.map Slot.name) fields
  read_iff : ∀ c a, read c = some a ↔ ∃ r, record? c = some r ∧
    (∀ slot ∈ slots, slot.Reads (r.known.get? slot.name) a) ∧ (isOpen = true → r.others = others a)
  write_eq : ∀ a, write a = .obj (fields a ++ others a)
  names_nodup : (slots.map Slot.name).Nodup
  names_sublist : ∀ a, (Entries.names (fields a)).Sublist (slots.map Slot.name)
  get?_fields : ∀ a, ∀ slot ∈ slots, Entries.get? slot.name (fields a) = slot.entry a
  kept : ∀ c a, read c = some a → Record.Kept (slots.map Slot.name) (others a)
  others_closed : isOpen = false → ∀ a, others a = []
  back : ∀ c a, read c = some a → read (write a) = some a

namespace RecordForm

variable {read : Json → Option α} {write : α → Json} (F : RecordForm read write)

/-- The names of the slots. -/
def names : List String := F.slots.map Slot.name

/-- The fields of a form: none, or those that are written for a record that reads back. -/
structure IsFields (fields : List (String × Json)) : Prop where
  nodup : (Entries.names fields).Nodup
  merged : ∀ e ∈ fields, e.1 ∉ F.names → e.2.merged = e.2
  entry : ∀ slot ∈ F.slots, slot.IsEntry (Entries.get? slot.name fields)

/-- Reading an object in which no name is repeated. -/
theorem read_obj_iff {fields : List (String × Json)} (h : (Entries.names fields).Nodup) {a : α} :
    read (.obj fields) = some a ↔
      (∀ slot ∈ F.slots, slot.Reads (Entries.get? slot.name fields) a) ∧
        (F.isOpen = true → Record.unknown F.names fields = F.others a) := by
  obtain ⟨r, hr, hothers, hknown⟩ := @Record.exists_ofFields?_of_nodup F.names fields h
  rw [F.read_iff, F.record?_obj]
  have hslots : (∀ slot ∈ F.slots, slot.Reads (r.known.get? slot.name) a) ↔
      ∀ slot ∈ F.slots, slot.Reads (Entries.get? slot.name fields) a :=
    forall₂_congr fun slot hslot => by rw [hknown _ (List.mem_map_of_mem hslot)]
  rw [← hothers, ← hslots]
  constructor
  · rintro ⟨r', hr', h⟩
    cases hr.symm.trans hr'
    exact h
  · exact fun h => ⟨r, hr, h⟩

section Written

variable {a : α} (h : read (write a) = some a)
include h

theorem nodup_written : (Entries.names (F.fields a ++ F.others a)).Nodup :=
  Record.nodup_names_written F.names_nodup (F.names_sublist a) (F.kept _ _ h)

theorem unknown_written : Record.unknown F.names (F.fields a ++ F.others a) = F.others a := by
  obtain ⟨r, hr, hothers, -⟩ :=
    @Record.exists_ofFields?_of_nodup F.names _ (F.nodup_written h)
  have hwritten := Record.ofFields?_written F.names_nodup (F.names_sublist a) (F.kept _ _ h)
  cases hr.symm.trans hwritten
  exact hothers.symm

theorem get?_written {slot : Slot α} (hslot : slot ∈ F.slots) :
    Entries.get? slot.name (F.fields a ++ F.others a) = slot.entry a := by
  have hnone : Entries.get? slot.name (F.others a) = none := Entries.get?_eq_none_iff.2 fun hmem =>
    (F.kept _ _ h).apart _ hmem (List.mem_map_of_mem hslot)
  rw [Entries.get?_append, F.get?_fields a slot hslot, hnone, Option.or_none]

/-- The entry that is written for a field reads as the field. -/
theorem reads_entry {slot : Slot α} (hslot : slot ∈ F.slots) : slot.Reads (slot.entry a) a := by
  have hread := h
  rw [F.write_eq, F.read_obj_iff (F.nodup_written h)] at hread
  have hslots := hread.1 slot hslot
  rwa [F.get?_written h hslot] at hslots

theorem isFields_written : F.IsFields (F.fields a ++ F.others a) where
  nodup := F.nodup_written h
  merged e he hname := by
    rcases List.mem_append.1 he with he | he
    · exact absurd ((F.names_sublist a).subset (List.mem_map_of_mem he)) hname
    · exact (F.kept _ _ h).merged e he
  entry slot hslot := .inr ⟨a, F.get?_written h hslot, by
    rw [F.get?_written h hslot]
    exact F.reads_entry h hslot⟩

end Written

theorem isFields_nil : F.IsFields [] := ⟨List.nodup_nil, by simp, fun _ _ => .inl rfl⟩

/-- Writing below a form is writing into its fields. -/
theorem exists_fields {c : Json} (h : IsForm read write c) :
    ∃ fields, F.IsFields fields ∧ ∀ (v : Json) (segment : String) (rest : List String),
      setAt v (segment :: rest) c = setAt v (segment :: rest) (.obj fields) := by
  rcases h with rfl | ⟨a, rfl, ha⟩
  · exact ⟨[], F.isFields_nil, fun _ _ _ => isScalar_null.setAt_cons⟩
  · exact ⟨_, F.isFields_written ha, fun _ _ _ => by rw [F.write_eq]⟩

/-- Reading after an edit: the slot of the segment is read off the edited entry, every other slot
off its old one, and an entry of another name is put among those that are kept. -/
theorem read_setAt_iff {fields : List (String × Json)} (h : (Entries.names fields).Nodup)
    {b : α} {new : Json} (hnew : setAt v rest ((Entries.get? segment fields).getD .null) = new) :
    read (setAt v (segment :: rest) (.obj fields)) = some b ↔
      (∀ slot ∈ F.slots, slot.Reads
        (if segment = slot.name then some new else Entries.get? slot.name fields) b) ∧
      (F.isOpen = true → (if segment ∈ F.names then Record.unknown F.names fields
        else Entries.put segment new.merged (Record.unknown F.names fields)) = F.others b) := by
  rw [setAt_obj, hnew, F.read_obj_iff (Entries.nodup_names_put h _ _), Record.unknown_put]
  simp only [Entries.get?_put]

/-- **An edit of one field leaves every other field as it is**, and the other entries up to the one
that it names. -/
theorem reads_of_edit {a b : α} (ha : read (write a) = some a)
    (hb : read (setAt v (segment :: rest) (write a)) = some b) :
    (∀ slot ∈ F.slots, slot.name ≠ segment →
      slot.Reads (slot.entry a) a ∧ slot.Reads (slot.entry a) b) ∧
    (F.isOpen = true → F.others b = F.others a ∨
      segment ∉ F.names ∧ ∃ value, F.others b = Entries.put segment value (F.others a)) := by
  rw [F.write_eq, F.read_setAt_iff (F.nodup_written ha) rfl] at hb
  constructor
  · intro slot hslot hne
    have hread := hb.1 slot hslot
    rw [if_neg hne.symm, F.get?_written ha hslot] at hread
    exact ⟨F.reads_entry ha hslot, hread⟩
  · intro hopen
    have hothers := hb.2 hopen
    rw [F.unknown_written ha] at hothers
    split at hothers
    · exact .inl hothers.symm
    · next hname => exact .inr ⟨hname, _, hothers.symm⟩

/-- A record is steady at a path when each of its slots is at the rest of it. -/
theorem steady (hslots : ∀ slot ∈ F.slots, slot.Steady path.tail) : Steady path read write := by
  cases path with
  | nil => exact steady_nil
  | cons segment rest =>
    intro v c b hc hb
    obtain ⟨fields, hfields, hset⟩ := F.exists_fields hc
    have hback := F.back _ _ hb
    rw [hset, F.read_setAt_iff hfields.nodup rfl] at hb
    obtain ⟨hread, hothers⟩ := hb
    rw [F.write_eq, F.read_setAt_iff (F.nodup_written hback) rfl, F.unknown_written hback]
    refine ⟨fun slot hslot => ?_, fun hopen => ?_⟩
    · split
      · -- the slot that was edited
        next hname =>
        subst hname
        have hedited := hread slot hslot
        rw [if_pos rfl] at hedited
        rw [F.get?_written hback hslot]
        exact hslots slot hslot v _ b (hfields.entry slot hslot) hedited
      · rw [F.get?_written hback hslot]
        exact F.reads_entry hback hslot
    · have hothers := hothers hopen
      split
      · rfl
      · next hname =>
        -- the other entry that was edited is kept merged
        rw [if_neg hname] at hothers
        have hold : Entries.get? segment (F.fields b) = none :=
          Entries.get?_eq_none_iff.2 fun hmem => hname ((F.names_sublist b).subset hmem)
        have hform : IsForm (fun v => some v.merged) id
            ((Entries.get? segment fields).getD .null) := by
          cases hget : Entries.get? segment fields with
          | none => exact .inl rfl
          | some child =>
            have hmerged := hfields.merged _ (Entries.mem_of_get?_eq_some hget) hname
            exact .inr ⟨child, rfl, congrArg some hmerged⟩
        have hagain := @steady_merged rest v _ _ hform rfl
        rw [Entries.get?_append, hold, Option.none_or, ← hothers, Entries.get?_put, if_pos rfl,
          Option.getD_some, Entries.put_put]
        exact congrArg (Entries.put segment · _) (Option.some.inj hagain)

end RecordForm

end RouteContract.Json
