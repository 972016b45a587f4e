import Mathlib
import RouteContract.Schema.Generator
import RouteContract.Proofs.Outcome
import RouteContract.Proofs.Schema.Reference

/-!
# What generation does to the table of named schemas

While the members of a named type are described, an empty placeholder stands in the table under its
name, and members of the same type refer to it. `Grown T T'` is the relation between the tables
before and after a description that holds all the same: the old table is untouched, placeholders of
the types around included, and behind it stand finished entries only. An entry is finished when it
is an object schema under a name of its own whose references all lead into the table.

Each way of describing a type grows the table (`generates_ofType`); a named type does so because its
placeholder is the first new entry and is replaced by the definition in its place.
-/

namespace RouteContract.Schema

/-- A finished entry of a table with these names. -/
structure Finished (names : List String) (entry : String × Schema) : Prop where
  isObject : entry.2.typeName = some "object"
  notInline : entry.1 ∉ inlineNames
  notOpaque : entry.1 ∉ opaqueNames
  refersInto : entry.2.RefersInto names

/-- A table with finished entries added at its end. -/
def Grown (T T' : Entries Schema) : Prop :=
  ∃ added, T' = T ++ added ∧ ∀ e ∈ added, Finished T'.names e

section Grown

variable {T T₁ T₂ : Entries Schema}

theorem Finished.mono {names more : List String} (h : ∀ n ∈ names, n ∈ more)
    {e : String × Schema} (he : Finished names e) : Finished more e :=
  { he with refersInto := he.refersInto.mono h }

theorem Grown.refl (T : Entries Schema) : Grown T T := ⟨[], by simp, by simp⟩

theorem Grown.isPrefix (h : Grown T T₁) : T <+: T₁ := by
  obtain ⟨added, rfl, -⟩ := h
  exact List.prefix_append T added

theorem Grown.names_subset (h : Grown T T₁) : ∀ n ∈ T.names, n ∈ T₁.names := by
  obtain ⟨added, rfl, -⟩ := h
  intro n hn
  rw [Entries.names_append]
  exact List.mem_append_left _ hn

theorem Grown.trans (h₁ : Grown T T₁) (h₂ : Grown T₁ T₂) : Grown T T₂ := by
  have hsub := h₂.names_subset
  obtain ⟨added₁, rfl, hf₁⟩ := h₁
  obtain ⟨added₂, rfl, hf₂⟩ := h₂
  refine ⟨added₁ ++ added₂, List.append_assoc .., fun e he => ?_⟩
  rcases List.mem_append.1 he with he | he
  · exact (hf₁ e he).mono hsub
  · exact hf₂ e he

/-- The entries of a grown table are the old ones and finished ones. -/
theorem Grown.mem (h : Grown T T₁) {e : String × Schema} (he : e ∈ T₁) :
    e ∈ T ∨ Finished T₁.names e := by
  obtain ⟨added, rfl, hf⟩ := h
  exact (List.mem_append.1 he).imp_right (hf e)

/-- The definition of a new name takes the place of its placeholder, and all is finished. -/
theorem Grown.define {name : String} {definition : Schema} (hn : name ∉ T.names)
    (h : Grown (T.put name {}) T₁) (hd : Finished T₁.names (name, definition)) :
    Grown T (T₁.put name definition) := by
  obtain ⟨added, rfl, hf⟩ := h
  rw [Entries.put_of_notMem hn, List.append_assoc, List.singleton_append] at hd hf ⊢
  rw [Entries.put_append_of_notMem hn, Entries.put_cons_self]
  have hnames : Entries.names (T ++ (name, definition) :: added) =
      Entries.names (T ++ (name, ({} : Schema)) :: added) := by
    simp [Entries.names_append]
  refine ⟨(name, definition) :: added, rfl, fun e he => ?_⟩
  rw [hnames]
  rcases List.mem_cons.1 he with rfl | he
  · exact hd
  · exact hf e he

end Grown

/-! ### Schemas that refer to nothing of their own -/

section Refers

variable {names : List String}

/-- A schema of scalar keywords only. -/
theorem refersInto_of_scalars {s : Schema} (hp : s.properties = []) (hi : s.items = none)
    (he : ∀ v ∈ s.enumValues, v.RefersInto names) (hr : s.reference = none) (ha : s.anyOf = [])
    (hl : s.allOf = []) (ho : s.oneOf = []) (hx : s.extensions = []) : s.RefersInto names := by
  rw [refersInto_iff, hp, hi, hr, ha, hl, ho, hx]
  simpa [Json.refersInto_obj] using he

@[simp] theorem refersInto_empty : RefersInto names {} :=
  refersInto_of_scalars rfl rfl (by simp) rfl rfl rfl rfl rfl

@[simp] theorem refersInto_typed (name : String) : RefersInto names (typed name) :=
  refersInto_of_scalars rfl rfl (by simp [typed]) rfl rfl rfl rfl rfl

theorem refersInto_referring {name : String} (h : name ∈ names) :
    RefersInto names (referring name) := by
  rw [refersInto_iff]
  simpa [referring, Json.refersInto_obj, Json.Leads] using ⟨name, h, rfl⟩

theorem refersInto_ofShape? {shape : TypeShape} {s : Schema} (h : ofShape? shape = some s) :
    s.RefersInto names := by
  unfold ofShape? at h
  split at h <;> cases h
  all_goals exact refersInto_of_scalars rfl rfl (by simp [typed]) rfl rfl rfl rfl rfl

theorem refersInto_ofBinary64 (x : Binary64) : Json.RefersInto names (.ofBinary64 x) := by
  unfold Json.ofBinary64
  split <;> split <;> simp

theorem refersInto_literal (v : LiteralValue) : v.toJson.RefersInto names := by
  cases v with
  | text s => exact Json.refersInto_str s
  | number x => exact refersInto_ofBinary64 x

theorem refersInto_ofEnum {values : List Json} (h : ∀ v ∈ values, v.RefersInto names) :
    (ofEnum values).RefersInto names := by
  unfold ofEnum
  split
  · exact refersInto_empty
  · exact refersInto_of_scalars rfl rfl h rfl rfl rfl rfl rfl

/-- The description of a schema is no reference. -/
theorem RefersInto.describe {s : Schema} (h : s.RefersInto names) (text : Option String) :
    RefersInto names { s with description := text } := by
  rw [refersInto_iff] at h ⊢
  exact h

theorem stringLiteral?_refersInto {shapes : List TypeShape} {values : List Json}
    (h : shapes.mapM stringLiteral? = some values) : ∀ v ∈ values, v.RefersInto names := by
  induction shapes generalizing values with
  | nil => cases h; simp
  | cons shape shapes ih =>
    rw [List.mapM_cons] at h
    obtain ⟨v, hv, h⟩ := Option.bind_eq_some_iff.1 h
    obtain ⟨vs, hvs, h⟩ := Option.bind_eq_some_iff.1 h
    cases h
    intro w hw
    rcases List.mem_cons.1 hw with rfl | hw
    · cases shape <;> simp only [stringLiteral?, reduceCtorEq] at hv
      cases hv
      exact Json.refersInto_str _
    · exact ih hvs w hw

end Refers

/-! ### Each description grows the table -/

section Generation

variable {m : Type → Type} [Monad m] [LawfulMonad m] (o : Oracle m)

/-- A description grows the table, and the schema refers into the grown table. -/
def Generates (x : Gen m Schema) : Prop :=
  ∀ T, Ensures x T fun s T' => Grown T T' ∧ s.RefersInto T'.names

theorem generates_pure {s : Schema} (h : ∀ names, s.RefersInto names) :
    Generates (pure s : Gen m Schema) := fun T => ensures_pure ⟨Grown.refl T, h _⟩

theorem generates_ask {α : Type} {q : m α} {f : α → Gen m Schema} (h : ∀ a, Generates (f a)) :
    Generates (ask q >>= f) := fun T => ensures_lift_bind fun a => h a T

/-- Descriptions of many types, in order. -/
theorem ensures_mapM_grown {sub : TypeId → Gen m Schema} (hsub : ∀ t, Generates (sub t))
    (types : List TypeId) (T : Entries Schema) :
    Ensures (types.mapM sub) T fun ss T' => Grown T T' ∧ ∀ s ∈ ss, s.RefersInto T'.names :=
  ensures_mapM Grown.refl Grown.trans (fun h hs => hs.mono h.names_subset) types hsub

variable {sub : TypeId → Gen m Schema}

theorem generates_ofUnion (hsub : ∀ t, Generates (sub t)) (t : TypeId) :
    Generates (ofUnion o sub t) := by
  refine generates_ask fun members => generates_ask fun shapes => ?_
  intro T
  split
  · next first rest h =>
    exact ensures_pure ⟨Grown.refl T, refersInto_of_scalars rfl rfl
      (stringLiteral?_refersInto h) rfl rfl rfl rfl rfl⟩
  · refine (ensures_mapM_grown hsub members T).bind fun ss T' h => ensures_pure ⟨h.1, ?_⟩
    rw [refersInto_iff]
    simpa [Json.refersInto_obj] using h.2

/-- An object schema under construction: an object, whose parts refer into the table. -/
def Built (s : Schema) (T : Entries Schema) : Prop :=
  s.typeName = some "object" ∧ s.RefersInto T.names

theorem Built.put {s described : Schema} {T T' : Entries Schema} (hs : Built s T)
    (hg : Grown T T') (hd : described.RefersInto T'.names) (name : String)
    (required : List String) :
    Built { s with required, properties := Entries.put name described s.properties } T' := by
  refine ⟨hs.1, ?_⟩
  have h := hs.2.mono hg.names_subset
  rw [refersInto_iff] at h ⊢
  refine ⟨fun e he => ?_, h.2⟩
  rcases Entries.mem_put he with rfl | he
  · exact hd
  · exact h.1 e he

theorem ensures_addProperty (hsub : ∀ t, Generates (sub t)) {s : Schema} {T₀ T : Entries Schema}
    (h : Grown T₀ T ∧ Built s T) (property : SymbolId) :
    Ensures (addProperty o sub s property) T fun s' T' => Grown T₀ T' ∧ Built s' T' := by
  refine ensures_lift_bind fun name => ?_
  split
  · exact ensures_pure h
  refine ensures_lift_bind fun container => ?_
  split
  · exact ensures_pure h
  refine ensures_lift_bind fun t => ensures_lift_bind fun calls => ?_
  split
  · exact ensures_pure h
  refine ensures_lift_bind fun shape => ?_
  split
  · exact ensures_pure h
  refine ensures_lift_bind fun isOptional => ?_
  refine (hsub t T).bind fun described T' ⟨hg, hd⟩ => ensures_lift_bind fun doc => ?_
  refine ensures_pure ⟨h.1.trans hg, h.2.put hg ?_ _ _⟩
  -- the documentation of a property only changes the description of its schema
  split
  · split
    · exact hd
    · exact hd.describe _
  · exact hd

theorem ensures_ofObject (hsub : ∀ t, Generates (sub t)) (t : TypeId) (T : Entries Schema) :
    Ensures (ofObject o sub t) T fun s T' => Grown T T' ∧ Built s T' :=
  ensures_lift_bind fun properties =>
    ensures_foldlM properties (fun _ _ property h => ensures_addProperty o hsub h property)
      ⟨Grown.refl T, rfl, refersInto_typed _⟩

theorem generates_ofObject (hsub : ∀ t, Generates (sub t)) (t : TypeId) :
    Generates (ofObject o sub t) := fun T =>
  (ensures_ofObject o hsub t T).imp fun _ _ h => ⟨h.1, h.2.2⟩

theorem generates_ofNamed (hsub : ∀ t, Generates (sub t)) {name : String}
    (hi : name ∉ inlineNames) (ho : name ∉ opaqueNames) (t : TypeId) :
    Generates (ofNamed o sub name t) := by
  intro T
  refine ensures_get_bind ?_
  split
  · next h => exact ensures_pure ⟨Grown.refl T, refersInto_referring (Entries.has_iff.1 h)⟩
  · next h =>
    have hn : name ∉ T.names := fun hn => h (Entries.has_iff.2 hn)
    refine ensures_modify_bind ?_
    refine (ensures_ofObject o hsub t _).bind fun definition T' ⟨hg, hd⟩ => ?_
    refine ensures_modify_bind (ensures_pure ⟨hg.define hn ⟨hd.1, hi, ho, hd.2⟩, ?_⟩)
    exact refersInto_referring (Entries.mem_names_put.2 (Or.inl rfl))

theorem generates_ofObjectLike (hsub : ∀ t, Generates (sub t)) (t : TypeId) :
    Generates (ofObjectLike o sub t) := by
  refine generates_ask fun name => ?_
  split
  · next name =>
    split
    · exact generates_pure fun names => (refersInto_typed _).describe _
    · next hopaque =>
      split
      · exact generates_ofObject o hsub t
      · next hinline =>
        exact generates_ofNamed o hsub (by simpa using hinline) (by simpa using hopaque) t
  · exact generates_ofObject o hsub t

theorem generates_ofSettled (hsub : ∀ t, Generates (sub t)) (t : TypeId) (name : Option String) :
    Generates (ofSettled o sub t name) := by
  refine generates_ask fun shape => ?_
  split
  · next s h => exact generates_pure fun names => refersInto_ofShape? h
  split
  · exact generates_pure fun names => refersInto_of_scalars rfl rfl (by simp [typed]) rfl rfl rfl
      rfl rfl
  refine generates_ask fun isTuple => ?_
  split
  · refine generates_ask fun arguments => ?_
    split
    · next element _ =>
      intro T
      refine (hsub element T).bind fun items T' ⟨hg, hs⟩ => ensures_pure ⟨hg, ?_⟩
      rw [refersInto_iff]
      simpa [typed, Json.refersInto_obj] using hs
    · rw [pure_bind]
      refine generates_pure fun names => ?_
      rw [refersInto_iff]
      simp [typed, Json.refersInto_obj]
  split
  · refine generates_ask fun values => generates_pure fun names => refersInto_ofEnum ?_
    intro v hv
    obtain ⟨value, -, rfl⟩ := List.mem_map.1 hv
    exact refersInto_literal value
  · exact generates_ofUnion o hsub t
  · refine generates_ask fun members T => ?_
    refine (ensures_mapM_grown hsub members T).bind fun ss T' h => ensures_pure ⟨h.1, ?_⟩
    rw [refersInto_iff]
    simpa [Json.refersInto_obj] using h.2
  · exact generates_pure fun names => refersInto_of_scalars rfl rfl (by simp) rfl rfl rfl rfl rfl
  · exact generates_pure fun names => refersInto_of_scalars rfl rfl
      (by simpa using refersInto_ofBinary64 _) rfl rfl rfl rfl rfl
  · exact generates_pure fun names => refersInto_of_scalars rfl rfl (by simp) rfl rfl rfl rfl rfl
  · exact generates_ofObjectLike o hsub t
  · exact generates_ofObjectLike o hsub t
  · exact generates_pure fun names => refersInto_typed _

theorem generates_ofTypeWithin (left : Nat) (t : TypeId) : Generates (ofTypeWithin o left t) := by
  induction left generalizing t with
  | zero => exact generates_pure fun names => refersInto_empty
  | succ left ih =>
    refine generates_ask fun settled => ?_
    split
    · next t name => exact generates_ofSettled o ih t name
    · exact generates_pure fun names => refersInto_empty

theorem generates_ofType (t : TypeId) : Generates (ofType o t) :=
  generates_ofTypeWithin o maxNesting t

/-- **The table is complete after every description.** After any descriptions of earlier types from
the empty table, the description of one more type keeps the table as the beginning of the new one;
no placeholder is left, no name is one that is never entered, and every reference in the schema or
in the table leads into the table. -/
theorem ofType_leaves_complete_table (earlier : List TypeId) (t : TypeId) :
    Ensures (do
        let _ ← earlier.mapM (ofType o)
        let before ← get
        let s ← ofType o t
        return (before, s)) [] fun r after =>
      r.1 <+: after ∧
      (∀ e ∈ after, e.2.typeName = some "object") ∧
      (∀ name ∈ after.names, name ∉ inlineNames ∧ name ∉ opaqueNames) ∧
      r.2.RefersInto after.names ∧
      ∀ e ∈ after, e.2.RefersInto after.names := by
  refine (ensures_mapM_grown (generates_ofType o) earlier []).bind fun _ before h => ?_
  refine ensures_get_bind ?_
  refine (generates_ofType o t before).bind fun s after ⟨hg, hs⟩ => ensures_pure ?_
  -- the table started empty, so every entry is one of the finished ones that were added
  have finished : ∀ e ∈ after, Finished after.names e := fun e he =>
    ((h.1.trans hg).mem he).resolve_left (by simp)
  refine ⟨hg.isPrefix, fun e he => (finished e he).isObject, fun name hn => ?_, hs,
    fun e he => (finished e he).refersInto⟩
  obtain ⟨e, he, rfl⟩ := List.mem_map.1 hn
  exact ⟨(finished e he).notInline, (finished e he).notOpaque⟩

end Generation

/-- Comments whose replies are comments again: type 0 is a comment, type 1 a list of comments. -/
def commentOracle : Oracle Id where
  typeAt _ := pure 0
  typeOfTypeNode _ := pure 0
  symbolAt _ := pure none
  symbolName s := pure (if s = 0 then "Comment" else if s = 1 then "Array" else "replies")
  isAlias _ := pure false
  aliasedSymbol _ := pure none
  declarations _ := pure []
  typeOfSymbol _ := pure 1
  isOptional _ := pure false
  containerName _ := pure (some "Comment")
  docText _ := pure none
  shape _ := pure .object
  typeSymbol t := pure (some t)
  aliasSymbol _ := pure none
  typeArguments t := pure (if t = 1 then [0] else [])
  isTuple _ := pure false
  constituents _ := pure []
  properties t := pure (if t = 0 then [2] else [])
  callSignatureCount _ := pure 0
  enumLiterals _ := pure []
  promiseDepth _ := 0

/-- Comments are described after lists of comments. -/
theorem ofType_leaves_complete_table_comment :
    LawfulMonad Id ∧ Ensures (do
        let _ ← [1].mapM (ofType commentOracle)
        let before ← get
        let s ← ofType commentOracle 0
        return (before, s)) [] fun r after =>
      r.1 <+: after ∧
      (∀ e ∈ after, e.2.typeName = some "object") ∧
      (∀ name ∈ after.names, name ∉ inlineNames ∧ name ∉ opaqueNames) ∧
      r.2.RefersInto after.names ∧
      ∀ e ∈ after, e.2.RefersInto after.names :=
  ⟨inferInstance, ofType_leaves_complete_table commentOracle [1] 0⟩

example : ((ofType commentOracle 0).run []).2 =
    [("Comment", { typed "object" with
      properties := [("replies", { typed "array" with items := some (referring "Comment") })]
      required := ["replies"] })] := rfl

end RouteContract.Schema
