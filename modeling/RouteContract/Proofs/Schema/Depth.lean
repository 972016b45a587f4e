import Mathlib
import RouteContract.Proofs.Json.Entries
import RouteContract.Proofs.Schema.Independence

/-!
# Descriptions of different depth

A description that may nest deeper says the same down to where the other one ends. `Schema.upTo k s`
keeps the first `k` levels of a schema, and descriptions to `left` and to more nested descriptions
are the same up to `left` (`ofTypeWithin_upTo`). A schema that has no further levels was not cut
(`eq_of_upTo_eq`).

Two runs are compared step by step: `Matching R x x'` says that whatever tables the computations
start from, they return related values.
-/

namespace RouteContract

/-- The entries with their values changed. -/
def Entries.mapValues {α β : Type} (f : α → β) (entries : Entries α) : Entries β :=
  entries.map fun e => (e.1, f e.2)

theorem Entries.mapValues_put {α β : Type} (f : α → β) (name : String) (value : α)
    (entries : Entries α) :
    (entries.put name value).mapValues f = (entries.mapValues f).put name (f value) := by
  induction entries with
  | nil => rfl
  | cons entry rest ih =>
    obtain ⟨key, old⟩ := entry
    by_cases h : key = name
    · simp [mapValues, put, h]
    · simp only [put, if_neg h, mapValues, List.map_cons] at ih ⊢
      rw [ih]

namespace Schema

/-- The first levels of a schema: what is below them is blank. -/
def upTo : Nat → Schema → Schema
  | 0, _ => {}
  | k + 1, s =>
    { s with
      properties := Entries.mapValues (upTo k) s.properties
      items := s.items.map (upTo k)
      anyOf := s.anyOf.map (upTo k)
      allOf := s.allOf.map (upTo k)
      oneOf := s.oneOf.map (upTo k) }

/-- Whether a schema has fewer levels than a number. -/
def nestsBelow : Nat → Schema → Bool
  | 0, _ => false
  | k + 1, s =>
    s.properties.all (fun e => nestsBelow k e.2) && s.items.all (nestsBelow k) &&
      s.anyOf.all (nestsBelow k) && s.allOf.all (nestsBelow k) && s.oneOf.all (nestsBelow k)

/-- Lists with equal images are equal if each item of the first is told from all others. -/
theorem list_eq_of_map_eq {α β : Type} {f : α → β} {l l' : List α}
    (hf : ∀ a ∈ l, ∀ b, f a = f b → a = b) (h : l.map f = l'.map f) : l = l' := by
  induction l generalizing l' with
  | nil => exact (List.map_eq_nil_iff.1 h.symm).symm
  | cons a l ih =>
    cases l' with
    | nil => simp at h
    | cons b l' =>
      rw [List.map_cons, List.map_cons, List.cons.injEq] at h
      rw [hf a List.mem_cons_self b h.1, ih (fun c hc => hf c (List.mem_cons_of_mem a hc)) h.2]

/-- A schema with fewer than `k` levels is told by its first `k` levels. -/
theorem eq_of_upTo_eq {k : Nat} {s s' : Schema} (h : s.nestsBelow k)
    (hs : s.upTo k = s'.upTo k) : s = s' := by
  induction k generalizing s s' with
  | zero => simp [nestsBelow] at h
  | succ k ih =>
    obtain ⟨_, _, _, properties, _, items, _, _, anyOf, allOf, oneOf, _⟩ := s
    obtain ⟨_, _, _, properties', _, items', _, _, anyOf', allOf', oneOf', _⟩ := s'
    have lists : ∀ {l l' : List Schema}, l.all (nestsBelow k) → l.map (upTo k) = l'.map (upTo k) →
        l = l' := fun hl => list_eq_of_map_eq fun s hs _ => ih (List.all_eq_true.1 hl s hs)
    simp only [nestsBelow, Bool.and_eq_true] at h
    obtain ⟨⟨⟨⟨hp, hi⟩, hany⟩, hall⟩, hone⟩ := h
    simp only [upTo, mk.injEq] at hs
    obtain ⟨rfl, rfl, rfl, hsp, rfl, hsi, rfl, rfl, hsany, hsall, hsone, rfl⟩ := hs
    have hproperties : properties = properties' := by
      refine list_eq_of_map_eq (fun e he e' heq => ?_) hsp
      rw [Prod.mk.injEq] at heq
      exact Prod.ext heq.1 (ih (List.all_eq_true.1 hp e he) heq.2)
    have hitems : items = items' := by
      cases items with
      | none => exact (Option.map_eq_none_iff.1 hsi.symm).symm
      | some t =>
        obtain ⟨t', rfl, ht⟩ := Option.map_eq_some_iff.1 hsi.symm
        rw [ih (by simpa using hi) ht.symm]
    rw [hproperties, hitems, lists hany hsany, lists hall hsall, lists hone hsone]

/-- Two schemas agree in their first `k` levels. -/
def AgreeTo (k : Nat) (s s' : Schema) : Prop := s.upTo k = s'.upTo k

/-- The description of a schema is no deeper level. -/
theorem AgreeTo.describe {k : Nat} {s s' : Schema} (h : AgreeTo k s s') (text : Option String) :
    AgreeTo k { s with description := text } { s' with description := text } := by
  cases k with
  | zero => rfl
  | succ k =>
    simp only [AgreeTo, upTo, mk.injEq] at h ⊢
    tauto

theorem AgreeTo.required {k : Nat} {s s' : Schema} (h : AgreeTo (k + 1) s s') :
    s.required = s'.required := by
  simp only [AgreeTo, upTo, mk.injEq] at h
  tauto

/-- Schemas stay alike when alike properties are put. -/
theorem AgreeTo.put {k : Nat} {s s' d d' : Schema} (h : AgreeTo (k + 1) s s')
    (hd : AgreeTo k d d') (name : String) (required : List String) :
    AgreeTo (k + 1) { s with required, properties := Entries.put name d s.properties }
      { s' with required, properties := Entries.put name d' s'.properties } := by
  simp only [AgreeTo, upTo, mk.injEq, Entries.mapValues_put] at h hd ⊢
  rw [hd, h.2.2.2.1]
  tauto

/-! ### Two computations side by side -/

/-- Whatever tables two computations start from, they return related values. -/
def Matching {α β : Type} (R : α → β → Prop) (x : Gen Id α) (y : Gen Id β) : Prop :=
  ∀ T T', R (x.run T).1 (y.run T').1

section Rules

variable {α β γ δ : Type} {R : α → β → Prop} {Q : γ → δ → Prop}

theorem matching_pure {a : α} {b : β} (h : R a b) : Matching R (pure a) (pure b) := fun _ _ => h

theorem Matching.bind {x : Gen Id α} {y : Gen Id β} {f : α → Gen Id γ} {g : β → Gen Id δ}
    (hx : Matching R x y) (hf : ∀ a b, R a b → Matching Q (f a) (g b)) :
    Matching Q (x >>= f) (y >>= g) := fun T T' => hf _ _ (hx T T') _ _

/-- Both computations ask the same question. -/
theorem matching_ask_bind {q : Id α} {f : α → Gen Id γ} {g : α → Gen Id δ}
    (hf : ∀ a, Matching Q (f a) (g a)) : Matching Q (ask q >>= f) (ask q >>= g) :=
  fun _ _ => hf _ _ _

theorem matching_mapM {k : Nat} {f g : γ → Gen Id Schema}
    (h : ∀ c, Matching (AgreeTo k) (f c) (g c)) (l : List γ) :
    Matching (fun ss ss' => ss.map (upTo k) = ss'.map (upTo k)) (l.mapM f) (l.mapM g) := by
  induction l with
  | nil => exact matching_pure rfl
  | cons c l ih =>
    rw [List.mapM_cons, List.mapM_cons]
    refine (h c).bind fun s s' hs => ih.bind fun ss ss' hss => matching_pure ?_
    rw [List.map_cons, List.map_cons, hs, hss]

theorem matching_foldlM {f : α → γ → Gen Id α} {g : β → γ → Gen Id β}
    (h : ∀ a b c, R a b → Matching R (f a c) (g b c)) (l : List γ) {a : α} {b : β} (hab : R a b) :
    Matching R (l.foldlM f a) (l.foldlM g b) := by
  induction l generalizing a b with
  | nil => exact matching_pure hab
  | cons c l ih =>
    rw [List.foldlM_cons, List.foldlM_cons]
    exact (h a b c hab).bind fun a' b' hab' => ih hab'

end Rules

/-! ### Descriptions whose parts agree agree one level further -/

section Generation

variable (o : Oracle Id) {k : Nat} {sub sub' : TypeId → Gen Id Schema}
  (hsub : ∀ t, Matching (AgreeTo k) (sub t) (sub' t))
include hsub

theorem matching_ofUnion (t : TypeId) :
    Matching (AgreeTo (k + 1)) (ofUnion o sub t) (ofUnion o sub' t) := by
  refine matching_ask_bind fun members => matching_ask_bind fun shapes => ?_
  split
  · exact matching_pure rfl
  · refine (matching_mapM hsub members).bind fun ss ss' h => matching_pure ?_
    simp only [AgreeTo, upTo, h]

theorem matching_addProperty {s s' : Schema} (h : AgreeTo (k + 1) s s') (property : SymbolId) :
    Matching (AgreeTo (k + 1)) (addProperty o sub s property)
      (addProperty o sub' s' property) := by
  refine matching_ask_bind fun name => ?_
  split
  · exact matching_pure h
  refine matching_ask_bind fun container => ?_
  split
  · exact matching_pure h
  refine matching_ask_bind fun t => matching_ask_bind fun calls => ?_
  split
  · exact matching_pure h
  refine matching_ask_bind fun shape => ?_
  split
  · exact matching_pure h
  refine matching_ask_bind fun isOptional => ?_
  refine (hsub t).bind fun described described' hd => matching_ask_bind fun doc => ?_
  rw [h.required]
  refine matching_pure (h.put ?_ _ _)
  split
  · split
    · exact hd
    · exact hd.describe _
  · exact hd

theorem matching_ofObject (t : TypeId) :
    Matching (AgreeTo (k + 1)) (ofObject o sub t) (ofObject o sub' t) :=
  matching_ask_bind fun properties =>
    matching_foldlM (fun _ _ property h => matching_addProperty o hsub h property) properties rfl

theorem matching_ofObjectLike (t : TypeId) :
    Matching (AgreeTo (k + 1)) (ofObjectLike o sub t) (ofObjectLike o sub' t) := by
  refine matching_ask_bind fun name => ?_
  split
  · next name =>
    split
    · exact matching_pure rfl
    · split
      · exact matching_ofObject o hsub t
      · intro T T'
        rw [ofNamed_eq_referring, ofNamed_eq_referring]
        rfl
  · exact matching_ofObject o hsub t

theorem matching_ofSettled (t : TypeId) (name : Option String) :
    Matching (AgreeTo (k + 1)) (ofSettled o sub t name) (ofSettled o sub' t name) := by
  refine matching_ask_bind fun shape => ?_
  split
  · exact matching_pure rfl
  split
  · exact matching_pure rfl
  refine matching_ask_bind fun isTuple => ?_
  split
  · refine matching_ask_bind fun arguments => ?_
    split
    · next element _ =>
      refine (hsub element).bind fun items items' h => matching_pure ?_
      have h : items.upTo k = items'.upTo k := h
      simp only [AgreeTo, upTo, Option.map_some, h]
    · exact matching_pure rfl
  split
  · exact matching_ask_bind fun values => matching_pure rfl
  · exact matching_ofUnion o hsub t
  · refine matching_ask_bind fun members => ?_
    refine (matching_mapM hsub members).bind fun ss ss' h => matching_pure ?_
    simp only [AgreeTo, upTo, h]
  · exact matching_pure rfl
  · exact matching_pure rfl
  · exact matching_pure rfl
  · exact matching_ofObjectLike o hsub t
  · exact matching_ofObjectLike o hsub t
  · exact matching_pure rfl

end Generation

variable (o : Oracle Id)

/-- Descriptions to different numbers of nested descriptions agree down to the smaller number. -/
theorem matching_ofTypeWithin {left left' : Nat} (h : left ≤ left') (t : TypeId) :
    Matching (AgreeTo left) (ofTypeWithin o left t) (ofTypeWithin o left' t) := by
  induction left generalizing left' t with
  | zero => exact fun _ _ => rfl
  | succ left ih =>
    cases left' with
    | zero => exact absurd h (Nat.not_succ_le_zero left)
    | succ left' =>
      refine matching_ask_bind fun settled => ?_
      split
      · exact matching_ofSettled o (fun t => ih (Nat.le_of_succ_le_succ h) t) _ _
      · exact matching_pure rfl

/-- The definition of a named type whose members are described to a number of nested
descriptions. -/
def definition (left : Nat) (t : TypeId) : Schema := ((ofObject o (ofTypeWithin o left) t).run []).1

/-- Definitions agree in one level more than the smaller number of nested descriptions. -/
theorem definition_agreeTo (left left' : Nat) (t : TypeId) :
    AgreeTo (min left left' + 1) (definition o left t) (definition o left' t) := by
  rcases Nat.le_total left left' with h | h
  · rw [Nat.min_eq_left h]
    exact matching_ofObject o (fun t => matching_ofTypeWithin o h t) t [] []
  · rw [Nat.min_eq_right h]
    exact (matching_ofObject o (fun t => matching_ofTypeWithin o h t) t [] []).symm

/-- Of two definitions of a type neither was cut if one of them has no further level. -/
theorem definition_eq_of_nestsBelow {left left' : Nat} {t : TypeId}
    (h : (definition o left t).nestsBelow (min left left' + 1) ∨
      (definition o left' t).nestsBelow (min left left' + 1)) :
    definition o left t = definition o left' t := by
  have hagree := definition_agreeTo o left left' t
  exact h.elim (eq_of_upTo_eq · hagree) fun h => (eq_of_upTo_eq h hagree.symm).symm

end Schema

end RouteContract
