import Mathlib
import RouteContract.Proofs.View
import RouteContract.Proofs.Crawl.Questions
import RouteContract.Proofs.Json.Entries

/-!
# Required properties

An object schema lists the names of its required properties apart from the properties themselves.
When the properties of each type have distinct names, every one is put in its place with a name that
is new, so that the required ones are listed once and in the order of the properties. That holds of
each schema, of all that are nested in it, and of those in the table (`aligned_session`).

An oracle may find names as it goes along. `Oracle.NamesApart` says what is needed of it: a symbol
that has a name keeps it, whatever is asked, and the properties of a type have distinct names.
-/

namespace RouteContract

/-! ### Names in the course of questions -/

/-- The worlds in which an oracle is asked, and the names that symbols have in them. -/
structure Naming (W : Type) where
  Good : W → Prop
  IsNamed : W → SymbolId → String → Prop

/-- A world in which names are as they were. -/
structure Naming.Later {W : Type} (N : Naming W) (w w' : W) : Prop where
  good : N.Good w'
  isNamed : ∀ s name, N.IsNamed w s name → N.IsNamed w' s name

/-- An oracle under a view: names stay as they are, and those of the properties of a type are
distinct. -/
structure Oracle.NamesApart {m : Type → Type} [Monad m] {W : Type} (o : Oracle m) (V : View m W)
    (N : Naming W) : Prop where
  asks : ∀ {α : Type} {q : m α} {w : W}, o.Inquiry q → N.Good w →
    V.Holds q w fun _ w' => N.Later w w'
  symbolName : ∀ {s : SymbolId} {name : String} {w : W}, N.Good w → N.IsNamed w s name →
    V.Holds (o.symbolName s) w fun found w' => found = name ∧ N.Later w w'
  properties : ∀ (t : TypeId) {w : W}, N.Good w → V.Holds (o.properties t) w fun symbols w' =>
    N.Later w w' ∧ ∃ names, List.Forall₂ (N.IsNamed w') symbols names ∧ names.Nodup

theorem Naming.Later.trans {W : Type} {N : Naming W} {w₁ w₂ w₃ : W} (h : N.Later w₁ w₂)
    (h' : N.Later w₂ w₃) : N.Later w₁ w₃ :=
  ⟨h'.good, fun s name hs => h'.isNamed s name (h.isNamed s name hs)⟩

theorem Naming.Later.refl {W : Type} {N : Naming W} {w : W} (h : N.Good w) : N.Later w w :=
  ⟨h, fun _ _ hs => hs⟩

/-- Names that do not depend on what was asked before. -/
def Naming.fixed (name : SymbolId → String) : Naming Unit where
  Good _ := True
  IsNamed _ s found := name s = found

theorem Oracle.namesApart_fixed {m : Type → Type} [Monad m] [LawfulMonad m] {o : Oracle m}
    {name : SymbolId → String} (hname : ∀ s, SatisfiesM (· = name s) (o.symbolName s))
    (hproperties : ∀ t, SatisfiesM (fun symbols => (symbols.map name).Nodup) (o.properties t)) :
    o.NamesApart (View.values m) (Naming.fixed name) where
  asks _ hw := SatisfiesM.of_true fun _ => .refl hw
  symbolName hw hs := (hname _).imp fun h => ⟨h.trans hs, .refl hw⟩
  properties t _ hw := (hproperties t).imp fun h =>
    ⟨.refl hw, _, List.forall₂_map_right_iff.2 (List.forall₂_same.2 fun _ _ => rfl), h⟩

namespace Schema

/-! ### Schemas and what is nested in them -/

/-- A schema, or one that is nested in it. -/
inductive Part : Schema → Schema → Prop
  | refl (s : Schema) : Part s s
  | property {part s : Schema} {e : String × Schema} (he : e ∈ s.properties)
      (h : Part part e.2) : Part part s
  | items {part inner s : Schema} (hi : inner ∈ s.items) (h : Part part inner) : Part part s
  | anyOf {part inner s : Schema} (hi : inner ∈ s.anyOf) (h : Part part inner) : Part part s
  | allOf {part inner s : Schema} (hi : inner ∈ s.allOf) (h : Part part inner) : Part part s
  | oneOf {part inner s : Schema} (hi : inner ∈ s.oneOf) (h : Part part inner) : Part part s

/-- In a schema, and in all that are nested in it, the required properties are listed once, in the
order of the properties. -/
def Aligned (s : Schema) : Prop :=
  ∀ part, Part part s → part.required.Nodup ∧ part.required.Sublist (Entries.names part.properties)

theorem aligned_iff {s : Schema} : s.Aligned ↔
    (s.required.Nodup ∧ s.required.Sublist (Entries.names s.properties)) ∧
      (∀ e ∈ s.properties, e.2.Aligned) ∧ (∀ inner ∈ s.items, inner.Aligned) ∧
      (∀ inner ∈ s.anyOf, inner.Aligned) ∧ (∀ inner ∈ s.allOf, inner.Aligned) ∧
      ∀ inner ∈ s.oneOf, inner.Aligned := by
  constructor
  · intro h
    exact ⟨h s (.refl s), fun e he part hp => h part (.property he hp),
      fun _ hi part hp => h part (.items hi hp), fun _ hi part hp => h part (.anyOf hi hp),
      fun _ hi part hp => h part (.allOf hi hp), fun _ hi part hp => h part (.oneOf hi hp)⟩
  · rintro ⟨hs, hproperties, hitems, hany, hall, hone⟩ part hp
    cases hp with
    | refl => exact hs
    | property he hp => exact hproperties _ he _ hp
    | items hi hp => exact hitems _ hi _ hp
    | anyOf hi hp => exact hany _ hi _ hp
    | allOf hi hp => exact hall _ hi _ hp
    | oneOf hi hp => exact hone _ hi _ hp

/-- A schema with no properties, whose alternatives and items are aligned. -/
theorem aligned_of_no_properties {s : Schema} (hr : s.required = []) (hp : s.properties = [])
    (hi : ∀ inner ∈ s.items, inner.Aligned) (ha : ∀ inner ∈ s.anyOf, inner.Aligned)
    (hl : ∀ inner ∈ s.allOf, inner.Aligned) (ho : s.oneOf = []) : s.Aligned := by
  rw [aligned_iff, hr, hp, ho]
  exact ⟨⟨List.nodup_nil, List.nil_sublist _⟩, by simp, hi, ha, hl, by simp⟩

theorem aligned_of_scalars {s : Schema} (hr : s.required = []) (hp : s.properties = [])
    (hi : s.items = none) (ha : s.anyOf = []) (hl : s.allOf = []) (ho : s.oneOf = []) :
    s.Aligned :=
  aligned_of_no_properties hr hp (by simp [hi]) (by simp [ha]) (by simp [hl]) ho

@[simp] theorem aligned_empty : Aligned {} := aligned_of_scalars rfl rfl rfl rfl rfl rfl

@[simp] theorem aligned_typed (name : String) : (typed name).Aligned :=
  aligned_of_scalars rfl rfl rfl rfl rfl rfl

@[simp] theorem aligned_referring (name : String) : (referring name).Aligned :=
  aligned_of_scalars rfl rfl rfl rfl rfl rfl

theorem aligned_ofShape? {shape : TypeShape} {s : Schema} (h : ofShape? shape = some s) :
    s.Aligned := by
  unfold ofShape? at h
  split at h <;> cases h
  all_goals exact aligned_of_scalars rfl rfl rfl rfl rfl rfl

theorem aligned_ofEnum (values : List Json) : (ofEnum values).Aligned := by
  unfold ofEnum
  split
  · exact aligned_empty
  · exact aligned_of_scalars rfl rfl rfl rfl rfl rfl

theorem Aligned.describe {s : Schema} (h : s.Aligned) (text : Option String) :
    Aligned { s with description := text } := by
  rw [aligned_iff] at h ⊢
  exact h

/-- A property is put under a new name. -/
theorem Aligned.put {s described : Schema} (h : s.Aligned) (hd : described.Aligned) {name : String}
    (hname : name ∉ Entries.names s.properties) (isOptional : Bool) :
    Aligned { s with
      required := if isOptional then s.required else s.required ++ [name]
      properties := Entries.put name described s.properties } := by
  rw [aligned_iff] at h ⊢
  obtain ⟨⟨hnodup, hsub⟩, hproperties, hrest⟩ := h
  rw [Entries.put_of_notMem hname, Entries.names_append]
  refine ⟨?_, fun e he => ?_, hrest⟩
  · dsimp only
    split
    · exact ⟨hnodup, hsub.trans (List.sublist_append_left _ _)⟩
    · have hnew : name ∉ s.required := fun hm => hname (hsub.subset hm)
      exact ⟨List.concat_eq_append ▸ hnodup.concat hnew, hsub.append (.refl _)⟩
  · rcases List.mem_append.1 he with he | he
    · exact hproperties e he
    · rw [List.mem_singleton.1 he]
      exact hd

/-! ### Generation -/

section Generation

variable {m : Type → Type} [Monad m] {W α β : Type} {V : View m W} {N : Naming W} {o : Oracle m}

/-- All schemas of a table are aligned. -/
def AllAligned (T : Entries Schema) : Prop := ∀ e ∈ T, e.2.Aligned

theorem AllAligned.put {T : Entries Schema} (h : AllAligned T) {s : Schema} (hs : s.Aligned)
    (name : String) : AllAligned (Entries.put name s T) := by
  intro e he
  rcases Entries.mem_put he with rfl | he
  · exact hs
  · exact h e he

/-- From a table of aligned schemas, a computation leaves such a table, and gives a result of a
kind. -/
def Aligns (V : View m W) (N : Naming W) (x : Gen m α) (G : α → Prop) : Prop :=
  ∀ T w, AllAligned T → N.Good w →
    V.Yields x T w fun a T' w' => AllAligned T' ∧ N.Later w w' ∧ G a

theorem aligns_pure {a : α} {G : α → Prop} (h : G a) : Aligns V N (pure a) G :=
  fun _ _ hT hw => View.yields_pure ⟨hT, .refl hw, h⟩

variable [LawfulMonad m]

/-- What comes after a world that is later than another one. -/
theorem Aligns.after {x : Gen m α} {G : α → Prop} {T : Entries Schema} {w w₁ : W}
    (hlater : N.Later w w₁) (hT : AllAligned T) (hx : Aligns V N x G) :
    V.Yields x T w₁ fun a T' w' => AllAligned T' ∧ N.Later w w' ∧ G a :=
  (hx T w₁ hT hlater.good).imp fun _ _ _ h => ⟨h.1, hlater.trans h.2.1, h.2.2⟩

theorem Aligns.bind {x : Gen m α} {f : α → Gen m β} {G : α → Prop} {H : β → Prop}
    (hx : Aligns V N x G) (hf : ∀ a, G a → Aligns V N (f a) H) : Aligns V N (x >>= f) H := by
  intro T w hT hw
  refine (hx T w hT hw).bind fun a T₁ w₁ ⟨hT₁, hlater, ha⟩ => ?_
  exact (hf a ha).after hlater hT₁

theorem aligns_mapM {f : α → Gen m β} {G : β → Prop} (hf : ∀ a, Aligns V N (f a) G)
    (l : List α) : Aligns V N (l.mapM f) fun bs => ∀ b ∈ bs, G b := by
  induction l with
  | nil =>
    rw [List.mapM_nil]
    exact aligns_pure fun b hb => absurd hb List.not_mem_nil
  | cons a l ih =>
    rw [List.mapM_cons]
    exact (hf a).bind fun b hb => ih.bind fun bs hbs =>
      aligns_pure (List.forall_mem_cons.2 ⟨hb, hbs⟩)

theorem aligns_get : Aligns V N (get : Gen m _) fun _ => True := by
  intro T w hT hw
  refine View.yields_get.imp fun a T' w' ⟨_, hsame, hw'⟩ => ?_
  rw [hsame, hw']
  exact ⟨hT, .refl hw, trivial⟩

/-- An aligned schema is entered into the table. -/
theorem aligns_enter (name : String) {s : Schema} (hs : s.Aligned) :
    Aligns V N (modify (Entries.put name s) : Gen m _) fun _ => True := by
  intro T w hT hw
  refine View.yields_modify.imp fun a T' w' ⟨hput, hw'⟩ => ?_
  rw [hput, hw']
  exact ⟨hT.put hs name, .refl hw, trivial⟩

variable (ho : o.NamesApart V N)
include ho

theorem aligns_ask {q : m α} (hq : o.Inquiry q) : Aligns V N (ask q) fun _ => True := by
  intro T w hT hw
  refine (View.yields_lift (ho.asks hq hw)).imp fun a T' w' ⟨hsame, hlater⟩ => ?_
  rw [hsame]
  exact ⟨hT, hlater, trivial⟩

/-- A question, with the rest of the computation. -/
theorem aligns_ask_bind {q : m α} (hq : o.Inquiry q) {f : α → Gen m β} {G : β → Prop}
    (hf : ∀ a, Aligns V N (f a) G) : Aligns V N (ask q >>= f) G :=
  (aligns_ask ho hq).bind fun a _ => hf a

variable {sub : TypeId → Gen m Schema} (hsub : ∀ t, Aligns V N (sub t) Aligned)
include hsub

theorem aligns_ofUnion (t : TypeId) : Aligns V N (ofUnion o sub t) Aligned := by
  refine aligns_ask_bind ho (fun K hK => hK.constituents t) fun members => ?_
  refine aligns_ask_bind ho (fun K hK => hK.mapM members hK.shape) fun shapes => ?_
  split
  · exact aligns_pure (aligned_of_scalars rfl rfl rfl rfl rfl rfl)
  · exact (aligns_mapM hsub members).bind fun ss hss =>
      aligns_pure (aligned_of_no_properties rfl rfl (by simp) hss (by simp) rfl)

/-- A property is described under a name that is new. -/
theorem yields_addProperty {s : Schema} (hs : s.Aligned) {property : SymbolId} {name : String}
    (hnew : name ∉ Entries.names s.properties) {T : Entries Schema} {w : W} (hT : AllAligned T)
    (hw : N.Good w) (hname : N.IsNamed w property name) :
    V.Yields (addProperty o sub s property) T w fun s' T' w' => AllAligned T' ∧ N.Later w w' ∧
      s'.Aligned ∧
      ∀ key ∈ Entries.names s'.properties, key = name ∨ key ∈ Entries.names s.properties := by
  refine (View.yields_lift (ho.symbolName hw hname)).bind fun found T₁ w₁ h => ?_
  obtain ⟨hsame, hfound, hlater⟩ := h
  rw [hsame, hfound]
  -- a property that is left out leaves the schema as it is, with neither of the two lists longer
  have same : Aligns V N (pure s : Gen m Schema) fun s' => s'.Aligned ∧
      ∀ key ∈ Entries.names s'.properties, key = name ∨ key ∈ Entries.names s.properties :=
    aligns_pure ⟨hs, fun _ hkey => Or.inr hkey⟩
  refine Aligns.after hlater hT ?_
  split
  · exact same
  refine aligns_ask_bind ho (fun K hK => hK.containerName property) fun container => ?_
  split
  · exact same
  refine aligns_ask_bind ho (fun K hK => hK.typeOfSymbol property) fun t => ?_
  refine aligns_ask_bind ho (fun K hK => hK.callSignatureCount t) fun count => ?_
  split
  · exact same
  refine aligns_ask_bind ho (fun K hK => hK.shape t) fun shape => ?_
  split
  · exact same
  refine aligns_ask_bind ho (fun K hK => hK.isOptional property) fun isOptional => ?_
  refine (hsub t).bind fun described hd => ?_
  refine aligns_ask_bind ho (fun K hK => hK.docText property) fun doc => ?_
  refine aligns_pure ⟨hs.put ?_ hnew isOptional, fun key hkey => ?_⟩
  · split
    · split
      · exact hd
      · exact hd.describe _
    · exact hd
  · exact (Entries.mem_names_put.1 hkey)

/-- Properties are described in order under names that are new and distinct. -/
theorem yields_foldlM_addProperty {properties : List SymbolId} {names : List String} {s : Schema}
    (hs : s.Aligned) (hnodup : names.Nodup)
    (hnew : ∀ name ∈ names, name ∉ Entries.names s.properties) {T : Entries Schema} {w : W}
    (hT : AllAligned T) (hw : N.Good w) (hnames : List.Forall₂ (N.IsNamed w) properties names) :
    V.Yields (properties.foldlM (addProperty o sub) s) T w fun s' T' w' =>
      AllAligned T' ∧ N.Later w w' ∧ s'.Aligned := by
  induction properties generalizing names s T w with
  | nil => exact View.yields_pure ⟨hT, .refl hw, hs⟩
  | cons property properties ih =>
    rw [List.foldlM_cons]
    cases hnames with
    | @cons _ name _ names hname hnames =>
      obtain ⟨hfirst, hnodup⟩ := List.nodup_cons.1 hnodup
      -- what comes later finds the names of this world where they were, and only `name` is taken
      refine (yields_addProperty ho hsub hs (hnew name List.mem_cons_self) hT hw hname).bind
        fun s₁ T₁ w₁ ⟨hT₁, hlater, hs₁, hkeys⟩ => ?_
      refine (ih hs₁ hnodup (fun other hother hkey => ?_) hT₁ hlater.good
        (hnames.imp fun r n => hlater.isNamed r n)).imp fun s₂ T₂ w₂ ⟨hT₂, hlater₂, hs₂⟩ =>
          ⟨hT₂, hlater.trans hlater₂, hs₂⟩
      rcases hkeys other hkey with rfl | hkey
      · exact hfirst hother
      · exact hnew other (List.mem_cons_of_mem _ hother) hkey

theorem aligns_ofObject (t : TypeId) : Aligns V N (ofObject o sub t) Aligned := by
  intro T w hT hw
  refine (View.yields_lift (ho.properties t hw)).bind ?_
  rintro properties _ w₁ ⟨rfl, hlater, names, hnames, hnodup⟩
  refine (yields_foldlM_addProperty ho hsub (aligned_typed _) hnodup (fun _ _ => List.not_mem_nil)
    hT hlater.good hnames).imp fun s T₂ w₂ ⟨hT₂, hlater₂, hs⟩ => ⟨hT₂, hlater.trans hlater₂, hs⟩

theorem aligns_ofNamed (name : String) (t : TypeId) :
    Aligns V N (ofNamed o sub name t) Aligned := by
  refine aligns_get.bind fun T _ => ?_
  split
  · exact aligns_pure (aligned_referring name)
  · refine (aligns_enter name aligned_empty).bind fun _ _ => ?_
    refine (aligns_ofObject ho hsub t).bind fun definition hdefinition => ?_
    exact (aligns_enter name hdefinition).bind fun _ _ => aligns_pure (aligned_referring name)

theorem aligns_ofObjectLike (t : TypeId) : Aligns V N (ofObjectLike o sub t) Aligned := by
  refine aligns_ask_bind ho (fun K hK => hK.schemaName? t) fun name => ?_
  split
  · split
    · exact aligns_pure ((aligned_typed _).describe _)
    · split
      · exact aligns_ofObject ho hsub t
      · exact aligns_ofNamed ho hsub _ t
  · exact aligns_ofObject ho hsub t

theorem aligns_ofSettled (t : TypeId) (name : Option String) :
    Aligns V N (ofSettled o sub t name) Aligned := by
  refine aligns_ask_bind ho (fun K hK => hK.shape t) fun shape => ?_
  split
  · next s h => exact aligns_pure (aligned_ofShape? h)
  split
  · exact aligns_pure (aligned_of_scalars rfl rfl rfl rfl rfl rfl)
  refine aligns_ask_bind ho (fun K hK => hK.isTuple t) fun isTuple => ?_
  split
  · refine aligns_ask_bind ho (fun K hK => hK.typeArguments t) fun arguments => ?_
    have items : ∀ items : Schema, items.Aligned →
        Aligned { typed "array" with items := some items } := fun items hitems =>
      aligned_of_no_properties rfl rfl (by simpa using hitems) (by simp [typed]) (by simp [typed])
        rfl
    split
    · exact (hsub _).bind fun inner hinner => aligns_pure (items inner hinner)
    · rw [pure_bind]
      exact aligns_pure (items {} aligned_empty)
  split
  · exact aligns_ask_bind ho (fun K hK => hK.enumLiterals t) fun values =>
      aligns_pure (aligned_ofEnum _)
  · exact aligns_ofUnion ho hsub t
  · refine aligns_ask_bind ho (fun K hK => hK.constituents t) fun members => ?_
    exact (aligns_mapM hsub members).bind fun ss hss =>
      aligns_pure (aligned_of_no_properties rfl rfl (by simp) (by simp) hss rfl)
  · exact aligns_pure (aligned_of_scalars rfl rfl rfl rfl rfl rfl)
  · exact aligns_pure (aligned_of_scalars rfl rfl rfl rfl rfl rfl)
  · exact aligns_pure (aligned_of_scalars rfl rfl rfl rfl rfl rfl)
  · exact aligns_ofObjectLike ho hsub t
  · exact aligns_ofObjectLike ho hsub t
  · exact aligns_pure (aligned_typed _)

omit hsub

theorem aligns_ofType (t : TypeId) : Aligns V N (ofType o t) Aligned := by
  unfold ofType
  induction maxNesting generalizing t with
  | zero => exact aligns_pure aligned_empty
  | succ left ih =>
    refine aligns_ask_bind ho (fun K hK => hK.settle _ t) fun settled => ?_
    split
    · next t name => exact aligns_ofSettled ho ih t name
    · exact aligns_pure aligned_empty

theorem aligns_session (requests : List Request) :
    Aligns V N (session o requests) fun log => ∀ e ∈ log, e.2.Aligned := by
  induction requests with
  | nil => exact aligns_pure fun e he => absurd he List.not_mem_nil
  | cons request requests ih =>
    have performed : Aligns V N (perform o request) fun log => ∀ e ∈ log, e.2.Aligned := by
      cases request with
      | ask question =>
        exact aligns_ask_bind ho (fun K hK => hK.pose question) fun _ =>
          aligns_pure fun e he => absurd he List.not_mem_nil
      | describe t =>
        exact (aligns_ofType ho t).bind fun s hs => aligns_pure fun e he => by
          rw [List.mem_singleton.1 he]
          exact hs
    exact performed.bind fun first hfirst => ih.bind fun rest hrest => aligns_pure fun e he =>
      (List.mem_append.1 he).elim (hfirst e) (hrest e)

/-- The schemas that a session gives, and those of the table that it leaves, are aligned. -/
theorem aligned_session {w : W} (hw : N.Good w) (requests : List Request) :
    V.Yields (session o requests) [] w fun log T _ => (∀ e ∈ log, e.2.Aligned) ∧ AllAligned T :=
  (aligns_session ho requests [] w (fun _ he => absurd he List.not_mem_nil) hw).imp
    fun _ _ _ h => ⟨h.2.2, h.1⟩

end Generation

end Schema

end RouteContract
