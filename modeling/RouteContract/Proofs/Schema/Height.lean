import Mathlib
import RouteContract.Schema.Generator
import RouteContract.Proofs.Json.Entries
import RouteContract.Proofs.Outcome

/-!
# The height of a schema

The height of a schema is the length of the longest chain of steps into it: to the items, to a
property, to an alternative. A description to `left` nested descriptions has at most that height,
and so has every entry that it adds to the table (`heightWithin_ofTypeWithin`): whatever describes
the parts, an object, array or union is at most one step higher (`heightWithin_ofSettled`).
-/

namespace RouteContract.Schema

/-! ### Height -/

mutual

/-- The length of the longest chain of steps into a schema. -/
def height : Schema → Nat
  | ⟨_, _, _, properties, _, items, _, _, anyOf, allOf, oneOf, _⟩ =>
    max (propertiesHeight properties)
      (max (itemsHeight items) (max (listHeight anyOf) (max (listHeight allOf) (listHeight oneOf))))

/-- The length of the longest chain of steps that starts with one of the properties. -/
def propertiesHeight : List (String × Schema) → Nat
  | [] => 0
  | (_, s) :: rest => max (height s + 1) (propertiesHeight rest)

/-- The length of the longest chain of steps that starts with the items. -/
def itemsHeight : Option Schema → Nat
  | none => 0
  | some s => height s + 1

/-- The length of the longest chain of steps that starts with one of the schemas. -/
def listHeight : List Schema → Nat
  | [] => 0
  | s :: rest => max (height s + 1) (listHeight rest)

end

theorem propertiesHeight_le_iff {properties : List (String × Schema)} {k : Nat} :
    propertiesHeight properties ≤ k ↔ ∀ e ∈ properties, e.2.height < k := by
  induction properties with
  | nil => simp [propertiesHeight]
  | cons e rest ih =>
    rw [propertiesHeight, Nat.max_le, ih, List.forall_mem_cons, Nat.succ_le_iff]

theorem itemsHeight_le_iff {items : Option Schema} {k : Nat} :
    itemsHeight items ≤ k ↔ ∀ s ∈ items, s.height < k := by
  cases items with
  | none => simp [itemsHeight]
  | some s => simp [itemsHeight]

theorem listHeight_le_iff {ss : List Schema} {k : Nat} :
    listHeight ss ≤ k ↔ ∀ s ∈ ss, s.height < k := by
  induction ss with
  | nil => simp [listHeight]
  | cons s rest ih => rw [listHeight, Nat.max_le, ih, List.forall_mem_cons, Nat.succ_le_iff]

theorem height_le_iff {s : Schema} {k : Nat} :
    s.height ≤ k ↔ (∀ e ∈ s.properties, e.2.height < k) ∧ (∀ part ∈ s.items, part.height < k) ∧
      (∀ part ∈ s.anyOf, part.height < k) ∧ (∀ part ∈ s.allOf, part.height < k) ∧
      ∀ part ∈ s.oneOf, part.height < k := by
  obtain ⟨_, _, _, properties, _, items, _, _, anyOf, allOf, oneOf, _⟩ := s
  simp only [height, Nat.max_le, propertiesHeight_le_iff, itemsHeight_le_iff, listHeight_le_iff]

/-- A schema without parts has no height. -/
theorem height_of_scalars {s : Schema} (hp : s.properties = []) (hi : s.items = none)
    (ha : s.anyOf = []) (hl : s.allOf = []) (ho : s.oneOf = []) : s.height = 0 := by
  rw [← Nat.le_zero, height_le_iff, hp, hi, ha, hl, ho]
  simp

@[simp] theorem height_empty : height {} = 0 := height_of_scalars rfl rfl rfl rfl rfl

@[simp] theorem height_typed (name : String) : (typed name).height = 0 :=
  height_of_scalars rfl rfl rfl rfl rfl

@[simp] theorem height_referring (name : String) : (referring name).height = 0 :=
  height_of_scalars rfl rfl rfl rfl rfl

@[simp] theorem height_ofEnum (values : List Json) : (ofEnum values).height = 0 := by
  unfold ofEnum
  split
  · exact height_empty
  · exact height_of_scalars rfl rfl rfl rfl rfl

theorem height_ofShape? {shape : TypeShape} {s : Schema} (h : ofShape? shape = some s) :
    s.height = 0 := by
  unfold ofShape? at h
  split at h <;> cases h
  all_goals exact height_of_scalars rfl rfl rfl rfl rfl

/-- The description of a schema is no step into it. -/
theorem height_describe (s : Schema) (text : Option String) :
    height { s with description := text } = s.height := by
  cases s
  simp only [height]

/-- An object with one more property is one step higher than it, or as high as before. -/
theorem height_put_le {s described : Schema} {k : Nat} (h : s.height ≤ k + 1)
    (hd : described.height ≤ k) (name : String) (required : List String) :
    height { s with required, properties := Entries.put name described s.properties } ≤ k + 1 := by
  rw [height_le_iff] at h ⊢
  refine ⟨fun e he => ?_, h.2⟩
  rcases Entries.mem_put he with rfl | he
  · exact Nat.lt_succ_of_le hd
  · exact h.1 e he

/-! ### Entries that are added to a table -/

/-- A table with entries up to a height added at its end. -/
def AddedWithin (k : Nat) (T T' : Entries Schema) : Prop :=
  ∃ added, T' = T ++ added ∧ ∀ e ∈ added, e.2.height ≤ k

section Added

variable {k : Nat} {T T₁ T₂ : Entries Schema}

theorem AddedWithin.refl (k : Nat) (T : Entries Schema) : AddedWithin k T T :=
  ⟨[], (List.append_nil T).symm, by simp⟩

theorem AddedWithin.trans (h₁ : AddedWithin k T T₁) (h₂ : AddedWithin k T₁ T₂) :
    AddedWithin k T T₂ := by
  obtain ⟨added₁, rfl, hk₁⟩ := h₁
  obtain ⟨added₂, rfl, hk₂⟩ := h₂
  exact ⟨added₁ ++ added₂, List.append_assoc .., List.forall_mem_append.2 ⟨hk₁, hk₂⟩⟩

theorem AddedWithin.succ (h : AddedWithin k T T₁) : AddedWithin (k + 1) T T₁ := by
  obtain ⟨added, hadded, hk⟩ := h
  exact ⟨added, hadded, fun e he => Nat.le_succ_of_le (hk e he)⟩

/-- The definition of a new name takes the place of its placeholder. -/
theorem AddedWithin.define {name : String} {definition : Schema} (hn : name ∉ T.names)
    (h : AddedWithin k (T.put name {}) T₁) (hd : definition.height ≤ k) :
    AddedWithin k T (T₁.put name definition) := by
  obtain ⟨added, rfl, hk⟩ := h
  rw [Entries.put_of_notMem hn, List.append_assoc, List.singleton_append,
    Entries.put_append_of_notMem hn, Entries.put_cons_self]
  exact ⟨(name, definition) :: added, rfl, List.forall_mem_cons.2 ⟨hd, hk⟩⟩

end Added

/-! ### Each description is at most one step higher than those of its parts -/

section Generation

variable {m : Type → Type} [Monad m] [LawfulMonad m] (o : Oracle m) {k : Nat}

/-- The schema that is described has at most a height, and so have the entries that are added. -/
def HeightWithin (k : Nat) (x : Gen m Schema) : Prop :=
  ∀ T, Ensures x T fun s T' => s.height ≤ k ∧ AddedWithin k T T'

theorem heightWithin_pure {s : Schema} (h : s.height ≤ k) :
    HeightWithin k (pure s : Gen m Schema) := fun T => ensures_pure ⟨h, .refl k T⟩

theorem heightWithin_of_scalars {s : Schema} (h : s.height = 0) :
    HeightWithin k (pure s : Gen m Schema) := heightWithin_pure (h ▸ Nat.zero_le k)

theorem heightWithin_ask {α : Type} {q : m α} {f : α → Gen m Schema}
    (h : ∀ a, HeightWithin k (f a)) : HeightWithin k (ask q >>= f) :=
  fun T => ensures_lift_bind fun a => h a T

variable {sub : TypeId → Gen m Schema} (hsub : ∀ t, HeightWithin k (sub t))
include hsub

/-- Descriptions of many types, in order. -/
theorem ensures_mapM_height (types : List TypeId) (T : Entries Schema) :
    Ensures (types.mapM sub) T fun ss T' =>
      AddedWithin k T T' ∧ ∀ s ∈ ss, s.height < k + 1 :=
  ensures_mapM (AddedWithin.refl k) AddedWithin.trans (fun _ hs => hs) types fun t T =>
    (hsub t T).imp fun _ _ h => ⟨h.2, Nat.lt_succ_of_le h.1⟩

theorem heightWithin_ofUnion (t : TypeId) : HeightWithin (k + 1) (ofUnion o sub t) := by
  refine heightWithin_ask fun members => heightWithin_ask fun shapes => ?_
  split
  · exact heightWithin_of_scalars (height_of_scalars rfl rfl rfl rfl rfl)
  · intro T
    refine (ensures_mapM_height hsub members T).bind fun ss T' h => ensures_pure ⟨?_, h.1.succ⟩
    rw [height_le_iff]
    simpa using h.2

theorem ensures_addProperty_height {s : Schema} {T₀ T : Entries Schema}
    (h : s.height ≤ k + 1 ∧ AddedWithin (k + 1) T₀ T) (property : SymbolId) :
    Ensures (addProperty o sub s property) T fun s' T' =>
      s'.height ≤ k + 1 ∧ AddedWithin (k + 1) T₀ T' := by
  refine ensures_lift_bind fun name => ?_
  split
  · exact ensures_pure h
  refine ensures_lift_bind fun container => ?_
  split
  · exact ensures_pure h
  refine ensures_lift_bind fun t => ensures_lift_bind fun calls => ?_
  split
  · exact ensures_pure h
  refine ensures_lift_bind fun shape => ?_
  split
  · exact ensures_pure h
  refine ensures_lift_bind fun isOptional => ?_
  refine (hsub t T).bind fun described T' ⟨hd, hadded⟩ => ensures_lift_bind fun doc => ?_
  refine ensures_pure ⟨height_put_le h.1 ?_ _ _, h.2.trans hadded.succ⟩
  -- the documentation of a property only changes the description of its schema
  split
  · split
    · exact hd
    · exact (height_describe _ _).trans_le hd
  · exact hd

theorem heightWithin_ofObject (t : TypeId) : HeightWithin (k + 1) (ofObject o sub t) := fun T =>
  ensures_lift_bind fun properties =>
    ensures_foldlM properties (fun _ _ property h => ensures_addProperty_height o hsub h property)
      ⟨(height_typed "object").trans_le (Nat.zero_le _), .refl (k + 1) T⟩

theorem heightWithin_ofNamed (name : String) (t : TypeId) :
    HeightWithin (k + 1) (ofNamed o sub name t) := by
  intro T
  refine ensures_get_bind ?_
  split
  · exact heightWithin_of_scalars (height_referring name) T
  · next h =>
    have hn : name ∉ T.names := fun hn => h (Entries.has_iff.2 hn)
    refine ensures_modify_bind ((heightWithin_ofObject o hsub t _).bind fun definition T' hd => ?_)
    refine ensures_modify_bind (ensures_pure ⟨?_, hd.2.define hn hd.1⟩)
    exact (height_referring name).trans_le (Nat.zero_le _)

theorem heightWithin_ofObjectLike (t : TypeId) : HeightWithin (k + 1) (ofObjectLike o sub t) := by
  refine heightWithin_ask fun name => ?_
  split
  · split
    · exact heightWithin_of_scalars (height_typed "object")
    · split
      · exact heightWithin_ofObject o hsub t
      · exact heightWithin_ofNamed o hsub _ t
  · exact heightWithin_ofObject o hsub t

theorem heightWithin_ofSettled (t : TypeId) (name : Option String) :
    HeightWithin (k + 1) (ofSettled o sub t name) := by
  refine heightWithin_ask fun shape => ?_
  split
  · next s h => exact heightWithin_of_scalars (height_ofShape? h)
  split
  · exact heightWithin_of_scalars (height_of_scalars rfl rfl rfl rfl rfl)
  refine heightWithin_ask fun isTuple => ?_
  split
  · refine heightWithin_ask fun arguments => ?_
    split
    · next element _ =>
      intro T
      refine (hsub element T).bind fun items T' ⟨hi, hadded⟩ => ensures_pure ⟨?_, hadded.succ⟩
      rw [height_le_iff]
      simpa [typed] using Nat.lt_succ_of_le hi
    · rw [pure_bind]
      refine heightWithin_pure ?_
      rw [height_le_iff]
      simp [typed]
  split
  · exact heightWithin_ask fun values => heightWithin_of_scalars (height_ofEnum _)
  · exact heightWithin_ofUnion o hsub t
  · refine heightWithin_ask fun members T => ?_
    refine (ensures_mapM_height hsub members T).bind fun ss T' h => ensures_pure ⟨?_, h.1.succ⟩
    rw [height_le_iff]
    simpa using h.2
  · exact heightWithin_of_scalars (height_of_scalars rfl rfl rfl rfl rfl)
  · exact heightWithin_of_scalars (height_of_scalars rfl rfl rfl rfl rfl)
  · exact heightWithin_of_scalars (height_of_scalars rfl rfl rfl rfl rfl)
  · exact heightWithin_ofObjectLike o hsub t
  · exact heightWithin_ofObjectLike o hsub t
  · exact heightWithin_of_scalars (height_typed "object")

omit hsub

/-- A description is no higher than the number of nested descriptions that it is allowed. -/
theorem heightWithin_ofTypeWithin (left : Nat) (t : TypeId) :
    HeightWithin left (ofTypeWithin o left t) := by
  induction left generalizing t with
  | zero => exact heightWithin_of_scalars height_empty
  | succ left ih =>
    refine heightWithin_ask fun settled => ?_
    split
    · next t name => exact heightWithin_ofSettled o ih t name
    · exact heightWithin_of_scalars height_empty

end Generation

end RouteContract.Schema
