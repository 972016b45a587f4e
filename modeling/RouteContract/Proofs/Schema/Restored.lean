import Mathlib
import RouteContract.Schema.Generator
import RouteContract.Proofs.Outcome
import RouteContract.Proofs.Schema.RoundTrip

/-!
# Generated schemas read back

Every schema that is generated of a type is restored: it has no keyword beside its own, its enum
values are scalars, and the properties of an object are put under distinct names.
-/

namespace RouteContract.Schema

/-- A schema with neither parts nor other keywords. -/
theorem restored_of_scalars {s : Schema} (hp : s.properties = []) (hi : s.items = none)
    (he : ∀ v ∈ s.enumValues, v.merged = v) (ha : s.anyOf = []) (hl : s.allOf = [])
    (ho : s.oneOf = []) (hx : s.extensions = []) : s.Restored := by
  rw [restored_iff, hp, hi, ha, hl, ho, hx]
  simpa [Record.kept_nil] using he

@[simp] theorem restored_typed (name : String) : Restored (typed name) :=
  restored_of_scalars rfl rfl (by simp [typed]) rfl rfl rfl rfl

@[simp] theorem restored_referring (name : String) : Restored (referring name) :=
  restored_of_scalars rfl rfl (by simp [referring]) rfl rfl rfl rfl

theorem restored_inferredObject : Restored inferredObject :=
  restored_of_scalars rfl rfl (by simp [inferredObject]) rfl rfl rfl rfl

theorem restored_ofShape? {shape : TypeShape} {s : Schema} (h : ofShape? shape = some s) :
    s.Restored := by
  unfold ofShape? at h
  split at h <;> cases h
  all_goals exact restored_of_scalars rfl rfl (by simp [typed]) rfl rfl rfl rfl

theorem Restored.describe {s : Schema} (h : s.Restored) (text : Option String) :
    Restored { s with description := text } := by
  rw [restored_iff] at h ⊢
  exact h

theorem Restored.put {s described : Schema} (h : s.Restored) (hd : described.Restored)
    (name : String) (required : List String) :
    Restored { s with required, properties := Entries.put name described s.properties } := by
  rw [restored_iff] at h ⊢
  refine ⟨h.1, ⟨Entries.nodup_names_put h.2.1.1 _ _, fun e he => ?_⟩, h.2.2⟩
  rcases Entries.mem_put he with rfl | he
  · exact hd
  · exact h.2.1.2 e he

theorem merged_ofBinary64 (x : Binary64) : (Json.ofBinary64 x).merged = .ofBinary64 x := by
  unfold Json.ofBinary64
  split <;> split <;> rfl

theorem merged_literal (value : LiteralValue) : value.toJson.merged = value.toJson := by
  cases value with
  | text s => rfl
  | number x => exact merged_ofBinary64 x

theorem merged_of_stringLiteral? {shapes : List TypeShape} {values : List Json}
    (h : shapes.mapM stringLiteral? = some values) : ∀ v ∈ values, v.merged = v := by
  refine Json.forall_of_mapM (fun shape _ v hv => ?_) h
  cases shape with
  | stringLiteral s => cases hv; rfl
  | _ => cases hv

theorem restored_ofEnum {values : List Json} (h : ∀ v ∈ values, v.merged = v) :
    (ofEnum values).Restored := by
  unfold ofEnum
  split
  · exact restored_empty
  · exact restored_of_scalars rfl rfl h rfl rfl rfl rfl

section Generation

variable {m : Type → Type} [Monad m] [LawfulMonad m] (o : Oracle m)

/-- Every schema that is generated is restored. -/
def GeneratesRestored (x : Gen m Schema) : Prop := ∀ T, Ensures x T fun s _ => s.Restored

theorem generatesRestored_pure {s : Schema} (h : s.Restored) :
    GeneratesRestored (pure s : Gen m Schema) := fun _ => ensures_pure h

theorem generatesRestored_ask {α : Type} {q : m α} {f : α → Gen m Schema}
    (h : ∀ a, GeneratesRestored (f a)) : GeneratesRestored (ask q >>= f) :=
  fun T => ensures_lift_bind fun a => h a T

variable {sub : TypeId → Gen m Schema}

theorem ensures_mapM_restored (hsub : ∀ t, GeneratesRestored (sub t)) (types : List TypeId)
    (T : Entries Schema) : Ensures (types.mapM sub) T fun ss _ => ∀ s ∈ ss, s.Restored :=
  (ensures_mapM (R := fun _ _ => True) (fun _ => trivial) (fun _ _ => trivial) (fun _ hs => hs)
    types fun t T => (hsub t T).imp fun _ _ hs => ⟨trivial, hs⟩).imp fun _ _ h => h.2

theorem generatesRestored_ofUnion (hsub : ∀ t, GeneratesRestored (sub t)) (t : TypeId) :
    GeneratesRestored (ofUnion o sub t) := by
  refine generatesRestored_ask fun members => generatesRestored_ask fun shapes => ?_
  intro T
  split
  · next first rest h =>
    exact ensures_pure (restored_of_scalars rfl rfl (merged_of_stringLiteral? h) rfl rfl rfl rfl)
  · refine (ensures_mapM_restored hsub members T).bind fun ss T' h => ensures_pure ?_
    rw [restored_iff]
    simpa [Record.kept_nil] using h

theorem ensures_addProperty_restored (hsub : ∀ t, GeneratesRestored (sub t)) {s : Schema}
    (h : s.Restored) (property : SymbolId) (T : Entries Schema) :
    Ensures (addProperty o sub s property) T fun s' _ => s'.Restored := by
  refine ensures_lift_bind fun name => ?_
  split
  · exact ensures_pure h
  refine ensures_lift_bind fun container => ?_
  split
  · exact ensures_pure h
  refine ensures_lift_bind fun t => ensures_lift_bind fun calls => ?_
  split
  · exact ensures_pure h
  refine ensures_lift_bind fun shape => ?_
  split
  · exact ensures_pure h
  refine ensures_lift_bind fun isOptional => ?_
  refine (hsub t T).bind fun described T' hd => ensures_lift_bind fun doc => ?_
  refine ensures_pure (h.put ?_ _ _)
  split
  · split
    · exact hd
    · exact hd.describe _
  · exact hd

theorem generatesRestored_ofObject (hsub : ∀ t, GeneratesRestored (sub t)) (t : TypeId) :
    GeneratesRestored (ofObject o sub t) := fun _ =>
  ensures_lift_bind fun properties =>
    ensures_foldlM (I := fun (s : Schema) _ => s.Restored) properties
      (fun _ T property h => ensures_addProperty_restored o hsub h property T) (restored_typed _)

theorem generatesRestored_ofNamed (hsub : ∀ t, GeneratesRestored (sub t)) (name : String)
    (t : TypeId) : GeneratesRestored (ofNamed o sub name t) := by
  intro T
  refine ensures_get_bind ?_
  split
  · exact ensures_pure (restored_referring name)
  · refine ensures_modify_bind ((generatesRestored_ofObject o hsub t _).bind fun _ _ _ => ?_)
    exact ensures_modify_bind (ensures_pure (restored_referring name))

theorem generatesRestored_ofObjectLike (hsub : ∀ t, GeneratesRestored (sub t)) (t : TypeId) :
    GeneratesRestored (ofObjectLike o sub t) := by
  refine generatesRestored_ask fun name => ?_
  split
  · split
    · exact generatesRestored_pure ((restored_typed _).describe _)
    · split
      · exact generatesRestored_ofObject o hsub t
      · exact generatesRestored_ofNamed o hsub _ t
  · exact generatesRestored_ofObject o hsub t

theorem generatesRestored_ofSettled (hsub : ∀ t, GeneratesRestored (sub t)) (t : TypeId)
    (name : Option String) : GeneratesRestored (ofSettled o sub t name) := by
  refine generatesRestored_ask fun shape => ?_
  split
  · next s h => exact generatesRestored_pure (restored_ofShape? h)
  split
  · exact generatesRestored_pure
      (restored_of_scalars rfl rfl (by simp [typed]) rfl rfl rfl rfl)
  refine generatesRestored_ask fun isTuple => ?_
  split
  · refine generatesRestored_ask fun arguments => ?_
    split
    · next element _ =>
      intro T
      refine (hsub element T).bind fun items T' hs => ensures_pure ?_
      rw [restored_iff]
      simpa [typed, Record.kept_nil] using hs
    · rw [pure_bind]
      refine generatesRestored_pure ?_
      rw [restored_iff]
      simp [typed, Record.kept_nil]
  split
  · refine generatesRestored_ask fun values => generatesRestored_pure (restored_ofEnum ?_)
    intro v hv
    obtain ⟨value, -, rfl⟩ := List.mem_map.1 hv
    exact merged_literal value
  · exact generatesRestored_ofUnion o hsub t
  · refine generatesRestored_ask fun members T => ?_
    refine (ensures_mapM_restored hsub members T).bind fun ss T' h => ensures_pure ?_
    rw [restored_iff]
    simpa [Record.kept_nil] using h
  · exact generatesRestored_pure
      (restored_of_scalars rfl rfl (by simp [Json.merged]) rfl rfl rfl rfl)
  · exact generatesRestored_pure
      (restored_of_scalars rfl rfl (by simpa using merged_ofBinary64 _) rfl rfl rfl rfl)
  · exact generatesRestored_pure
      (restored_of_scalars rfl rfl (by simp [Json.merged]) rfl rfl rfl rfl)
  · exact generatesRestored_ofObjectLike o hsub t
  · exact generatesRestored_ofObjectLike o hsub t
  · exact generatesRestored_pure (restored_typed _)

/-- The schema of every type is restored. -/
theorem generatesRestored_ofType (t : TypeId) : GeneratesRestored (ofType o t) := by
  unfold ofType
  induction maxNesting generalizing t with
  | zero => exact generatesRestored_pure restored_empty
  | succ left ih =>
    refine generatesRestored_ask fun settled => ?_
    split
    · next t name => exact generatesRestored_ofSettled o ih t name
    · exact generatesRestored_pure restored_empty

end Generation

end RouteContract.Schema
