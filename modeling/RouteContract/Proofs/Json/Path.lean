import Mathlib
import RouteContract.Json.Path
import RouteContract.Proofs.Json.Record

/-!
# Writing at a path

Of two values written at one path the second stays (`setAt_setAt`). A value in which no name is
repeated has none after writing, up to what is repeated inside the written value (`merged_setAt`).
A value is read where it was written (`readAt?_setAt_self`), and what stands on the other side of a
fork is read as before (`readAt?_setAt_of_diverges`).
-/

namespace RouteContract.Json

/-! ### Values without repeated names -/

theorem mergedItems_eq (items : List Json) : mergedItems items = items.map merged := by
  induction items with
  | nil => rfl
  | cons item rest ih => rw [mergedItems, ih, List.map_cons]

theorem mergedFields_eq (fields : List (String × Json)) :
    mergedFields fields = fields.map fun e => (e.1, e.2.merged) := by
  induction fields with
  | nil => rfl
  | cons field rest ih => rw [mergedFields, ih, List.map_cons]

theorem merged_arr_eq_self {items : List Json} :
    (arr items).merged = arr items ↔ ∀ item ∈ items, item.merged = item := by
  have h := @List.map_inj_left _ _ items merged id
  rw [List.map_id] at h
  rw [merged, arr.injEq, mergedItems_eq]
  exact h

theorem merged_obj_eq_self {fields : List (String × Json)} :
    (obj fields).merged = obj fields ↔
      (Entries.names fields).Nodup ∧ ∀ e ∈ fields, e.2.merged = e.2 := by
  rw [merged, obj.injEq]
  constructor
  · intro h
    refine ⟨?_, fun e he => ?_⟩
    · rw [← h]
      exact Entries.nodup_names_putAll_nil _
    · rw [← h] at he
      exact merged_of_mem_mergedFields fields e ((Entries.mem_putAll he).resolve_left (by simp))
  · rintro ⟨hnodup, hmerged⟩
    rw [mergedFields_eq_self hmerged, Entries.putAll_nil_eq_self.2 hnodup]

/-! ### Writing at a path -/

variable {v w : Json} {segment : String} {rest path : List String}

/-- Writing into an object. -/
theorem setAt_obj (v : Json) (segment : String) (rest : List String)
    (fields : List (String × Json)) : setAt v (segment :: rest) (.obj fields) =
      .obj (Entries.put segment (setAt v rest ((Entries.get? segment fields).getD .null)) fields) :=
  rfl

/-- Writing into anything but an array is writing into the object of its fields. -/
theorem setAt_fieldsOf {t : Json} (h : ∀ items, t ≠ .arr items) :
    setAt v (segment :: rest) t = setAt v (segment :: rest) (.obj (fieldsOf t)) := by
  cases t with
  | arr items => exact absurd rfl (h items)
  | _ => rfl

/-- Writing into an item of an array. -/
theorem setAt_arr_of_index {items : List Json} {i : ℕ} (h : itemIndex? items segment = some i) :
    setAt v (segment :: rest) (.arr items) =
      .arr (items.set i (setAt v rest ((items[i]?).getD .null))) := by
  simp [setAt, h]

/-- An array without such an item is replaced by an object. -/
theorem setAt_arr_of_no_index {items : List Json} (h : itemIndex? items segment = none) :
    setAt v (segment :: rest) (.arr items) = setAt v (segment :: rest) (.obj []) := by
  simp [setAt, h, fieldsOf]

theorem lt_of_itemIndex? {items : List Json} {i : ℕ} (h : itemIndex? items segment = some i) :
    i < items.length := by
  rw [itemIndex?, Option.filter_eq_some_iff] at h
  exact of_decide_eq_true h.2

/-- The item that a segment selects depends on the number of items only. -/
theorem itemIndex?_congr {items items' : List Json} (h : items'.length = items.length) :
    itemIndex? items' segment = itemIndex? items segment := by
  rw [itemIndex?, itemIndex?, h]

/-- The second of two values written at a path stays. -/
theorem setAt_setAt (v w : Json) (path : List String) (t : Json) :
    setAt w path (setAt v path t) = setAt w path t := by
  induction path generalizing t with
  | nil => rfl
  | cons segment rest ih =>
    -- into an object
    have object (fields : List (String × Json)) :
        setAt w (segment :: rest) (setAt v (segment :: rest) (.obj fields)) =
          setAt w (segment :: rest) (.obj fields) := by
      rw [setAt_obj, setAt_obj, setAt_obj, Entries.put_put, Entries.get?_put, if_pos rfl,
        Option.getD_some, ih]
    cases t with
    | arr items =>
      cases hi : itemIndex? items segment with
      | none => rw [setAt_arr_of_no_index hi, setAt_arr_of_no_index hi, object]
      | some i =>
        have hlt := lt_of_itemIndex? hi
        have hi' {item : Json} : itemIndex? (items.set i item) segment = some i :=
          (itemIndex?_congr List.length_set).trans hi
        rw [setAt_arr_of_index hi, setAt_arr_of_index hi', setAt_arr_of_index hi, List.set_set,
          List.getElem?_set_self hlt, Option.getD_some, ih]
    | _ => exact object _

/-- Merging after writing is writing the merged value, where no name was repeated. -/
theorem merged_setAt (path : List String) {t : Json} (ht : t.merged = t) :
    (setAt v path t).merged = setAt v.merged path t := by
  induction path generalizing t with
  | nil => rfl
  | cons segment rest ih =>
    have object {fields : List (String × Json)} (hfields : (Json.obj fields).merged = .obj fields) :
        (setAt v (segment :: rest) (.obj fields)).merged =
          setAt v.merged (segment :: rest) (.obj fields) := by
      obtain ⟨hnodup, hmerged⟩ := merged_obj_eq_self.1 hfields
      have hchild : ((Entries.get? segment fields).getD .null).merged =
          (Entries.get? segment fields).getD .null := by
        cases hget : Entries.get? segment fields with
        | none => rfl
        | some child => exact hmerged _ (Entries.mem_of_get?_eq_some hget)
      rw [setAt_obj, setAt_obj, merged, mergedFields_eq, Entries.map_put, ← mergedFields_eq,
        mergedFields_eq_self hmerged, ih hchild,
        Entries.putAll_nil_eq_self.2 (Entries.nodup_names_put hnodup _ _)]
    cases t with
    | arr items =>
      have hitems := merged_arr_eq_self.1 ht
      cases hi : itemIndex? items segment with
      | none =>
        rw [setAt_arr_of_no_index hi, setAt_arr_of_no_index hi]
        exact object rfl
      | some i =>
        have hlt := lt_of_itemIndex? hi
        rw [setAt_arr_of_index hi, setAt_arr_of_index hi, merged, mergedItems_eq, List.map_set,
          List.getElem?_eq_getElem hlt, Option.getD_some, ih (hitems _ (List.getElem_mem hlt)),
          ← mergedItems_eq, arr.inj ht]
    | obj fields => exact object ht
    | _ => exact object rfl

/-! ### Reading at a path -/

theorem readAt?_obj (segment : String) (rest : List String) (fields : List (String × Json)) :
    readAt? (segment :: rest) (.obj fields) = (Entries.get? segment fields).bind (readAt? rest) :=
  rfl

theorem readAt?_arr {items : List Json} {i : ℕ} (h : itemIndex? items segment = some i) :
    readAt? (segment :: rest) (.arr items) = (items[i]?).bind (readAt? rest) := by
  simp [readAt?, h]

/-- A value is read at the path where it was written. -/
theorem readAt?_setAt_self (v : Json) (path : List String) (t : Json) :
    readAt? path (setAt v path t) = some v := by
  induction path generalizing t with
  | nil => rfl
  | cons segment rest ih =>
    have object (fields : List (String × Json)) :
        readAt? (segment :: rest) (setAt v (segment :: rest) (.obj fields)) = some v := by
      rw [setAt_obj, readAt?_obj, Entries.get?_put, if_pos rfl, Option.bind_some, ih]
    cases t with
    | arr items =>
      cases hi : itemIndex? items segment with
      | none => rw [setAt_arr_of_no_index hi, object]
      | some i =>
        rw [setAt_arr_of_index hi, readAt?_arr ((itemIndex?_congr List.length_set).trans hi),
          List.getElem?_set_self (lt_of_itemIndex? hi), Option.bind_some, ih]
    | _ => exact object _

/-- Two paths fork at a value that exists: at an object under different keys, or at an array with
different items in its range. Before the fork both go through the same values, though an index may
be spelled in two ways. -/
inductive Diverges : Json → List String → List String → Prop
  | key (fields : List (String × Json)) {segment other : String} (rest rest' : List String)
      (hne : segment ≠ other) : Diverges (.obj fields) (segment :: rest) (other :: rest')
  | index {items : List Json} {segment other : String} {i j : ℕ} (rest rest' : List String)
      (hi : itemIndex? items segment = some i) (hj : itemIndex? items other = some j)
      (hne : i ≠ j) : Diverges (.arr items) (segment :: rest) (other :: rest')
  | inField {fields : List (String × Json)} {segment : String} {child : Json}
      {rest rest' : List String} (hchild : Entries.get? segment fields = some child)
      (h : Diverges child rest rest') :
      Diverges (.obj fields) (segment :: rest) (segment :: rest')
  | inItem {items : List Json} {segment other : String} {i : ℕ} {child : Json}
      {rest rest' : List String} (hi : itemIndex? items segment = some i)
      (hj : itemIndex? items other = some i) (hchild : items[i]? = some child)
      (h : Diverges child rest rest') : Diverges (.arr items) (segment :: rest) (other :: rest')

/-- Writing at one path leaves what is read at a path that forks from it. -/
theorem readAt?_setAt_of_diverges {t : Json} {other : List String} (v : Json)
    (h : Diverges t path other) : readAt? other (setAt v path t) = readAt? other t := by
  induction h with
  | key fields rest rest' hne =>
    rw [setAt_obj, readAt?_obj, readAt?_obj, Entries.get?_put, if_neg hne]
  | index rest rest' hi hj hne =>
    rw [setAt_arr_of_index hi, readAt?_arr hj,
      readAt?_arr ((itemIndex?_congr List.length_set).trans hj), List.getElem?_set_ne hne]
  | inField hchild h ih =>
    rw [setAt_obj, readAt?_obj, readAt?_obj, Entries.get?_put, if_pos rfl, hchild,
      Option.getD_some, Option.bind_some, Option.bind_some, ih]
  | inItem hi hj hchild h ih =>
    rw [setAt_arr_of_index hi, readAt?_arr hj,
      readAt?_arr ((itemIndex?_congr List.length_set).trans hj),
      List.getElem?_set_self (lt_of_itemIndex? hi), hchild, Option.getD_some, Option.bind_some,
      Option.bind_some, ih]

/-- A path with a segment that is not empty is written as its segments. -/
theorem set_eq_setAt {path : String} (h : ∃ segment ∈ Text.splitOn '.' path, segment ≠ "")
    (t v : Json) : set t path v = setAt v (pathSegments path) t := by
  obtain ⟨segment, hmem, hne⟩ := h
  rw [set]
  split
  · next hnil =>
    have hsegment : segment ∈ pathSegments path :=
      List.mem_filter.2 ⟨hmem, decide_eq_true hne⟩
    rw [hnil] at hsegment
    cases hsegment
  · rfl

/-- Writing at a dotted path that names a place. The value is read there afterwards, a second value
written there leaves no trace of the first, and every path that forks from this one at a value
which exists is read as before. -/
theorem set_lawful (t v w : Json) (path : String)
    (h : ∃ segment ∈ Text.splitOn '.' path, segment ≠ "") :
    read? (set t path v) path = some v ∧
    set (set t path v) path w = set t path w ∧
    ∀ other, Diverges t (pathSegments path) (pathSegments other) →
      read? (set t path v) other = read? t other := by
  refine ⟨?_, ?_, fun other hother => ?_⟩
  · rw [set_eq_setAt h, read?, readAt?_setAt_self]
  · rw [set_eq_setAt h, set_eq_setAt h, set_eq_setAt h, setAt_setAt]
  · rw [set_eq_setAt h, read?, read?, readAt?_setAt_of_diverges v hother]

/-- An item under an oddly spelled index gets a field; the field beside it stays, and the next
item. -/
theorem set_lawful_servers :
    let t := obj [("servers", arr [obj [("url", .str "a")], .str "b"]), ("x", .null)]
    (∃ segment ∈ Text.splitOn '.' "servers.+00.port", segment ≠ "") ∧
    Diverges t (pathSegments "servers.+00.port") (pathSegments "servers.0.url") ∧
    Diverges t (pathSegments "servers.+00.port") (pathSegments "servers..1") ∧
    read? (set t "servers.+00.port" (.bool true)) "servers.+00.port" = some (.bool true) ∧
    read? (set t "servers.+00.port" (.bool true)) "servers.0.url" = some (.str "a") ∧
    read? (set t "servers.+00.port" (.bool true)) "servers..1" = some (.str "b") := by
  intro t
  have h : ∃ segment ∈ Text.splitOn '.' "servers.+00.port", segment ≠ "" := by decide +kernel
  have hpath : pathSegments "servers.+00.port" = ["servers", "+00", "port"] := by decide +kernel
  have hurl : pathSegments "servers.0.url" = ["servers", "0", "url"] := by decide +kernel
  have hnext : pathSegments "servers..1" = ["servers", "1"] := by decide +kernel
  have forkUrl : Diverges t (pathSegments "servers.+00.port") (pathSegments "servers.0.url") := by
    rw [hpath, hurl]
    exact .inField rfl (.inItem (i := 0) (by decide +kernel) (by decide +kernel) rfl
      (.key _ _ _ (by decide)))
  have forkNext : Diverges t (pathSegments "servers.+00.port") (pathSegments "servers..1") := by
    rw [hpath, hnext]
    exact .inField rfl (.index (i := 0) (j := 1) _ _ (by decide +kernel) (by decide +kernel)
      (by decide))
  have hlaws := set_lawful t (.bool true) .null "servers.+00.port" h
  refine ⟨h, forkUrl, forkNext, hlaws.1, (hlaws.2.2 _ forkUrl).trans ?_,
    (hlaws.2.2 _ forkNext).trans ?_⟩
  · rw [read?, hurl]
    rfl
  · rw [read?, hnext]
    rfl

end RouteContract.Json
