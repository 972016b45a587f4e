import Mathlib
import RouteContract.Json.Basic

/-!
# Ordered tables

What looking up and putting do to the list of names and to the entries of an ordered table: a name
that is there keeps its place, a new one goes to the end.
-/

namespace RouteContract.Entries

variable {α β : Type}

@[simp] theorem names_nil : names ([] : Entries α) = [] := rfl

@[simp] theorem names_cons (name : String) (value : α) (rest : Entries α) :
    names ((name, value) :: rest) = name :: names rest := rfl

@[simp] theorem names_append (entries more : Entries α) :
    names (entries ++ more) = names entries ++ names more := List.map_append

/-- A name occurs when there is a value under it. -/
theorem has_iff {name : String} {entries : Entries α} :
    has name entries = true ↔ name ∈ names entries := by
  induction entries with
  | nil => simp [has]
  | cons entry rest ih =>
    obtain ⟨key, value⟩ := entry
    by_cases hk : key = name
    · simp [has, get?, hk]
    · have hn : ¬ name = key := fun h => hk h.symm
      simp only [has, get?, hk, if_false, names_cons, List.mem_cons, hn, false_or]
      exact ih

theorem mem_of_get?_eq_some {name : String} {value : α} {entries : Entries α}
    (h : get? name entries = some value) : (name, value) ∈ entries := by
  induction entries with
  | nil => simp at h
  | cons entry rest ih =>
    obtain ⟨key, old⟩ := entry
    rw [get?] at h
    split at h
    · next hk => cases h; simp [hk]
    · exact List.mem_cons_of_mem _ (ih h)

/-- A new name goes to the end. -/
theorem put_of_notMem {name : String} {entries : Entries α} (h : name ∉ names entries) (value : α) :
    put name value entries = entries ++ [(name, value)] := by
  induction entries with
  | nil => rfl
  | cons entry rest ih =>
    obtain ⟨key, old⟩ := entry
    rw [names_cons, List.mem_cons, not_or] at h
    rw [put, if_neg fun hk => h.1 hk.symm, ih h.2, List.cons_append]

/-- Putting under a name that is not in the first part changes the second part only. -/
theorem put_append_of_notMem {name : String} {entries : Entries α} (h : name ∉ names entries)
    (value : α) (more : Entries α) :
    put name value (entries ++ more) = entries ++ put name value more := by
  induction entries with
  | nil => rfl
  | cons entry rest ih =>
    obtain ⟨key, old⟩ := entry
    rw [names_cons, List.mem_cons, not_or] at h
    rw [List.cons_append, put, if_neg fun hk => h.1 hk.symm, ih h.2, List.cons_append]

@[simp] theorem put_cons_self (name : String) (value old : α) (rest : Entries α) :
    put name value ((name, old) :: rest) = (name, value) :: rest := if_pos rfl

/-- Putting keeps the names in their order, and adds a new one at the end. -/
theorem names_put (name : String) (value : α) (entries : Entries α) :
    names (put name value entries) =
      if name ∈ names entries then names entries else names entries ++ [name] := by
  split
  · next h =>
    induction entries with
    | nil => simp at h
    | cons entry rest ih =>
      obtain ⟨key, old⟩ := entry
      rw [put]
      split
      · rfl
      · next hk =>
        rw [names_cons, List.mem_cons] at h
        rcases h with rfl | h
        · exact absurd rfl hk
        · rw [names_cons, ih h, names_cons]
  · next h => rw [put_of_notMem h, names_append]; rfl

theorem mem_names_put {name other : String} {value : α} {entries : Entries α} :
    other ∈ names (put name value entries) ↔ other = name ∨ other ∈ names entries := by
  rw [names_put]
  split
  · next h =>
    constructor
    · exact Or.inr
    · rintro (rfl | ho)
      · exact h
      · exact ho
  · rw [List.mem_append, List.mem_singleton, or_comm]

/-- An entry after putting is the one that was put, or an old one. -/
theorem mem_put {name : String} {value : α} {entries : Entries α} {entry : String × α}
    (h : entry ∈ put name value entries) : entry = (name, value) ∨ entry ∈ entries := by
  induction entries with
  | nil => exact Or.inl (List.mem_singleton.1 h)
  | cons head rest ih =>
    obtain ⟨key, old⟩ := head
    rw [put] at h
    split at h
    · next hk =>
      subst hk
      rcases List.mem_cons.1 h with h | h
      · exact Or.inl h
      · exact Or.inr (List.mem_cons_of_mem _ h)
    · rcases List.mem_cons.1 h with h | h
      · exact Or.inr (h ▸ List.mem_cons_self)
      · exact (ih h).imp_right (List.mem_cons_of_mem _)

/-- A changed entry keeps its name; every other entry is an old one. -/
theorem mem_change {name : String} {f : α → α} {entries : Entries α} {entry : String × α}
    (h : entry ∈ change name f entries) :
    entry ∈ entries ∨ ∃ old, (name, old) ∈ entries ∧ entry = (name, f old) := by
  induction entries with
  | nil => simp [change] at h
  | cons head rest ih =>
    obtain ⟨key, old⟩ := head
    rw [change] at h
    split at h
    · next hk =>
      subst hk
      rcases List.mem_cons.1 h with rfl | h
      · exact Or.inr ⟨old, List.mem_cons_self, rfl⟩
      · exact Or.inl (List.mem_cons_of_mem _ h)
    · rcases List.mem_cons.1 h with rfl | h
      · exact Or.inl List.mem_cons_self
      · rcases ih h with h | ⟨w, hw, rfl⟩
        · exact Or.inl (List.mem_cons_of_mem _ h)
        · exact Or.inr ⟨w, List.mem_cons_of_mem _ hw, rfl⟩

/-- Changing is seen under its name, if that occurs. -/
theorem get?_change (name other : String) (f : α → α) (entries : Entries α) :
    get? other (change name f entries) =
      if name = other then (get? other entries).map f else get? other entries := by
  induction entries with
  | nil => split <;> rfl
  | cons entry rest ih =>
    obtain ⟨key, old⟩ := entry
    grind [change, get?]

theorem nodup_names_put {entries : Entries α} (h : entries.names.Nodup) (name : String)
    (value : α) : (put name value entries).names.Nodup := by
  rw [names_put]
  split
  · exact h
  · next hn =>
    refine List.nodup_append.2 ⟨h, List.nodup_singleton _, fun other ho same hs => ?_⟩
    rw [List.mem_singleton.1 hs]
    exact fun heq => hn (heq ▸ ho)

/-- Changing keeps the names. -/
@[simp] theorem names_change (name : String) (f : α → α) (entries : Entries α) :
    (change name f entries).names = entries.names := by
  induction entries with
  | nil => rfl
  | cons entry rest ih =>
    obtain ⟨key, old⟩ := entry
    rw [change]
    split
    · rfl
    · rw [names_cons, ih, names_cons]

@[simp] theorem get?_append (name : String) (entries more : Entries α) :
    get? name (entries ++ more) = (get? name entries).or (get? name more) := by
  induction entries with
  | nil => rfl
  | cons entry rest ih =>
    obtain ⟨key, value⟩ := entry
    rw [List.cons_append, get?, get?]
    split
    · rfl
    · exact ih

theorem get?_eq_none_iff {name : String} {entries : Entries α} :
    get? name entries = none ↔ name ∉ entries.names := by
  rw [← has_iff, has, Bool.not_eq_true, Option.isSome_eq_false_iff, Option.isNone_iff_eq_none]

/-- Leaving out entries of other names is not seen. -/
theorem get?_filter {keep : String × α → Bool} {name : String}
    (h : ∀ value, keep (name, value) = true) (entries : Entries α) :
    get? name (entries.filter keep) = get? name entries := by
  induction entries with
  | nil => rfl
  | cons entry rest ih =>
    obtain ⟨key, value⟩ := entry
    by_cases hk : key = name
    · subst hk
      rw [List.filter_cons_of_pos (h value), get?, get?, if_pos rfl, if_pos rfl]
    · rw [List.filter_cons, get?, if_neg hk, ← ih]
      split
      · rw [get?, if_neg hk]
      · rfl

/-- The second of two values put under a name stays. -/
@[simp] theorem put_put (name : String) (value last : α) (entries : Entries α) :
    put name last (put name value entries) = put name last entries := by
  induction entries with
  | nil => exact put_cons_self name last value []
  | cons entry rest ih =>
    obtain ⟨key, old⟩ := entry
    by_cases hk : key = name
    · simp [put, hk]
    · simp [put, hk, ih]

/-- Putting the value that is there changes nothing. -/
theorem put_of_get?_eq_some {name : String} {value : α} {entries : Entries α}
    (h : get? name entries = some value) : put name value entries = entries := by
  induction entries with
  | nil => simp at h
  | cons entry rest ih =>
    obtain ⟨key, old⟩ := entry
    rw [get?] at h
    rw [put]
    split at h
    · next hk =>
      cases h
      rw [if_pos hk]
    · next hk => rw [if_neg hk, ih h]

/-- Changing values keeps the names. -/
theorem names_map (f : α → β) (entries : Entries α) :
    names (entries.map fun e => (e.1, f e.2)) = names entries := by
  rw [names, List.map_map]
  rfl

/-- Values are changed name by name. -/
theorem get?_map (f : α → β) (name : String) (entries : Entries α) :
    get? name (entries.map fun e => (e.1, f e.2)) = (get? name entries).map f := by
  induction entries with
  | nil => rfl
  | cons entry rest ih =>
    obtain ⟨key, value⟩ := entry
    rw [List.map_cons, get?, get?]
    split
    · rfl
    · exact ih

theorem map_put (f : α → β) (name : String) (value : α) (entries : Entries α) :
    (put name value entries).map (fun e => (e.1, f e.2)) =
      put name (f value) (entries.map fun e => (e.1, f e.2)) := by
  induction entries with
  | nil => rfl
  | cons entry rest ih =>
    obtain ⟨key, old⟩ := entry
    rw [put, List.map_cons, put]
    split
    · rfl
    · rw [List.map_cons, ih]

/-! ### Putting many -/

theorem putAll_cons (entries : Entries α) (name : String) (value : α) (more : Entries α) :
    putAll entries ((name, value) :: more) = putAll (put name value entries) more := rfl

/-- The names after putting many are the old names and the new ones. -/
theorem mem_names_putAll {entries more : Entries α} {name : String} :
    name ∈ names (putAll entries more) ↔ name ∈ names entries ∨ name ∈ names more := by
  induction more generalizing entries with
  | nil => simp [putAll]
  | cons entry more ih =>
    obtain ⟨key, value⟩ := entry
    rw [putAll_cons, ih, mem_names_put, names_cons, List.mem_cons]
    tauto

/-- An entry after putting many, under none of their names, is an old one. -/
theorem mem_of_mem_putAll {entries more : Entries α} {entry : String × α}
    (h : entry ∈ putAll entries more) (hn : entry.1 ∉ names more) : entry ∈ entries := by
  induction more generalizing entries with
  | nil => exact h
  | cons head more ih =>
    obtain ⟨key, value⟩ := head
    rw [names_cons, List.mem_cons, not_or] at hn
    rcases mem_put (ih h hn.2) with rfl | h
    · exact absurd rfl hn.1
    · exact h

/-- An entry after putting many is an old one or one of those. -/
theorem mem_putAll {entries more : Entries α} {entry : String × α}
    (h : entry ∈ putAll entries more) : entry ∈ entries ∨ entry ∈ more := by
  induction more generalizing entries with
  | nil => exact Or.inl h
  | cons head more ih =>
    obtain ⟨key, value⟩ := head
    rcases ih h with h | h
    · rcases mem_put h with rfl | h
      · exact Or.inr List.mem_cons_self
      · exact Or.inl h
    · exact Or.inr (List.mem_cons_of_mem _ h)

theorem nodup_names_putAll {entries : Entries α} (h : entries.names.Nodup) (more : Entries α) :
    (putAll entries more).names.Nodup := by
  induction more generalizing entries with
  | nil => exact h
  | cons head more ih => exact ih (nodup_names_put h _ _)

theorem nodup_names_putAll_nil (entries : Entries α) : (putAll [] entries).names.Nodup :=
  @nodup_names_putAll α [] List.nodup_nil entries

/-- Putting many new entries of distinct names adds them at the end. -/
theorem putAll_of_nodup {entries more : Entries α} (h : (entries ++ more).names.Nodup) :
    putAll entries more = entries ++ more := by
  induction more generalizing entries with
  | nil => exact (List.append_nil entries).symm
  | cons head more ih =>
    obtain ⟨key, value⟩ := head
    rw [List.append_cons] at h ⊢
    have hnew : key ∉ entries.names := by
      rw [names_append, names_append] at h
      exact fun hk => (List.nodup_append.1 (List.nodup_append.1 h).1).2.2 key hk key (by simp) rfl
    rw [putAll_cons, put_of_notMem hnew, ih h]

theorem putAll_nil_eq_self {entries : Entries α} :
    putAll [] entries = entries ↔ entries.names.Nodup := by
  constructor
  · intro h
    rw [← h]
    exact nodup_names_putAll_nil _
  · exact @putAll_of_nodup α [] entries

end RouteContract.Entries
