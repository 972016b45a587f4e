import Mathlib
import RouteContract.Proofs.Schema.Depth

/-!
# Where a named type is first met

The table of named schemas lists the named types in the order in which a walk through the types
first meets them (`enters_ofTypeWithin`). `meet` is that walk: it goes from a type to its parts,
each with one nested description less, and from a named type to its members only when it meets the
name for the first time. What is entered for a meeting is the definition of the type with as many
nested descriptions as were left there.

So runs that meet a type with different numbers left enter different definitions of it
(`definition_of_chain_differs`), but definitions that agree down to the smaller number, and the same
definition when neither was cut (`tables_agree`).
-/

namespace RouteContract.Schema

/-- The first meeting of a named type, with the number of nested descriptions left. -/
structure Meeting where
  name : String
  type : TypeId
  left : Nat
deriving DecidableEq, Repr

/-- How a type is described that is no promise: by a name under which it is entered, or in place,
together with its parts. -/
inductive Description where
  | named (name : String)
  | inPlace (parts : List TypeId)
deriving DecidableEq, Repr

section Walk

variable (o : Oracle Id)

/-- Whether a property belongs to the data. -/
def isData (property : SymbolId) : Bool :=
  let container := (o.containerName property).run
  let t := (o.typeOfSymbol property).run
  (Text.afterPrefix? ['_', '_'] (o.symbolName property).run.toList).isNone
    && container != some "Object" && container != some "Function"
    && (o.callSignatureCount t).run == 0 && (o.shape t).run != .function

/-- The types of the members of an object type. -/
def memberTypes (t : TypeId) : List TypeId :=
  ((o.properties t).run.filter (isData o)).map fun property => (o.typeOfSymbol property).run

/-- How an object or function type is described. -/
def describeObject (t : TypeId) : Description :=
  match (schemaName? o t).run with
  | some name =>
    if opaqueNames.contains name then .inPlace []
    else if inlineNames.contains name then .inPlace (memberTypes o t)
    else .named name
  | none => .inPlace (memberTypes o t)

/-- How a union is described; one of string literals has no parts. -/
def describeUnion (members : List TypeId) (shapes : List TypeShape) : Description :=
  match shapes.mapM stringLiteral? with
  | some (_ :: _) => .inPlace []
  | _ => .inPlace members

/-- How a type is described, given its name. -/
def describe (t : TypeId) (name : Option String) : Description :=
  let shape := (o.shape t).run
  if (ofShape? shape).isSome ∨ name = some "Date" then .inPlace []
  else if (o.isTuple t).run || name == some "Array" || name == some "ReadonlyArray" then
    .inPlace (o.typeArguments t).run.head?.toList
  else match shape with
    | .union =>
      let members := (o.constituents t).run
      describeUnion members (members.mapM o.shape).run
    | .intersection => .inPlace (o.constituents t).run
    | .object => describeObject o t
    | .function => describeObject o t
    | _ => .inPlace []

/-- Walk through types in order, each with the names that were met before it. -/
def meetEach (walk : TypeId → List String → List Meeting) :
    List TypeId → List String → List Meeting
  | [], _ => []
  | t :: rest, met => walk t met ++ meetEach walk rest (met ++ (walk t met).map Meeting.name)

/-- Meet a named type, and its members if that is for the first time. -/
def meetNamed (walk : TypeId → List String → List Meeting) (name : String) (t : TypeId)
    (left : Nat) (met : List String) : List Meeting :=
  if name ∈ met then []
  else ⟨name, t, left⟩ :: meetEach walk (memberTypes o t) (met ++ [name])

/-- Walk through a type by its description. -/
def meetDescribed (walk : TypeId → List String → List Meeting) (left : Nat) (t : TypeId) :
    Description → List String → List Meeting
  | .named name => meetNamed o walk name t left
  | .inPlace parts => meetEach walk parts

/-- The first meetings of the walk through a type and its parts, given the names met before. -/
def meet : Nat → TypeId → List String → List Meeting
  | 0, _ => fun _ => []
  | left + 1, t =>
    match (settle o (o.promiseDepth t + 1) t).run with
    | some (t, name) => meetDescribed o (meet left) left t (describe o t name)
    | none => fun _ => []

/-- The entry of a named type as it was first met. -/
def Meeting.entry (m : Meeting) : String × Schema := (m.name, definition o m.left m.type)

end Walk

/-! ### What a description enters is what the walk meets -/

/-- A description adds the entries of a walk at the end of the table. -/
def Enters (o : Oracle Id) {α : Type} (x : Gen Id α) (walk : List String → List Meeting) : Prop :=
  ∀ T, (x.run T).2 = T ++ (walk (Entries.names T)).map (Meeting.entry o)

section Rules

variable {o : Oracle Id} {α β : Type} {walk walk' : List String → List Meeting}

theorem enters_pure (a : α) : Enters o (pure a) fun _ => [] := fun T => (List.append_nil T).symm

theorem names_append_entries (T : Entries Schema) (meetings : List Meeting) :
    Entries.names (T ++ meetings.map (Meeting.entry o)) =
      Entries.names T ++ meetings.map Meeting.name := by
  simp [Entries.names, Meeting.entry, Function.comp_def]

theorem Enters.bind {x : Gen Id α} {f : α → Gen Id β} (hx : Enters o x walk)
    (hf : ∀ a, Enters o (f a) walk') :
    Enters o (x >>= f) fun met => walk met ++ walk' (met ++ (walk met).map Meeting.name) := by
  intro T
  show ((f (x.run T).1).run (x.run T).2).2 = _
  rw [hf, hx, names_append_entries, List.map_append, List.append_assoc]

theorem enters_ask_bind {q : Id α} {f : α → Gen Id β} (hf : Enters o (f q.run) walk) :
    Enters o (ask q >>= f) walk := hf

/-- What is done with a description enters nothing. -/
theorem Enters.map {x : Gen Id α} (hx : Enters o x walk) (f : α → β) :
    Enters o (x >>= fun a => pure (f a)) walk := hx

theorem enters_mapM {sub : TypeId → Gen Id α} {walk : TypeId → List String → List Meeting}
    (hsub : ∀ t, Enters o (sub t) (walk t)) (types : List TypeId) :
    Enters o (types.mapM sub) (meetEach walk types) := by
  induction types with
  | nil => exact enters_pure []
  | cons t types ih =>
    rw [List.mapM_cons]
    exact (hsub t).bind fun s => ih.map fun ss => s :: ss

end Rules

section Generation

variable (o : Oracle Id) {sub : TypeId → Gen Id Schema} {walk : TypeId → List String → List Meeting}
  (hsub : ∀ t, Enters o (sub t) (walk t))
include hsub

/-- A property is walked through if it belongs to the data. -/
theorem enters_addProperty (s : Schema) (property : SymbolId) :
    Enters o (addProperty o sub s property)
      (if isData o property then walk (o.typeOfSymbol property).run else fun _ => []) := by
  refine enters_ask_bind ?_
  split
  · next h =>
    rw [if_neg (by simp [isData, Option.isSome_iff_ne_none.1 h])]
    exact enters_pure s
  next hname =>
  refine enters_ask_bind ?_
  split
  · next h =>
    rw [if_neg (by rcases h with h | h <;> simp [isData, h])]
    exact enters_pure s
  next hcontainer =>
  refine enters_ask_bind (enters_ask_bind ?_)
  split
  · next h =>
    rw [if_neg (by simp [isData, h.ne'])]
    exact enters_pure s
  next hcalls =>
  refine enters_ask_bind ?_
  split
  · next h =>
    rw [if_neg (by simp [isData, h])]
    exact enters_pure s
  next hshape =>
  rw [not_or] at hcontainer
  rw [if_pos (by simp [isData, hcontainer, hshape, Nat.eq_zero_of_not_pos hcalls,
    Option.not_isSome_iff_eq_none.1 hname])]
  exact enters_ask_bind ((hsub _).map _)

/-- The members of an object type are walked through in order. -/
theorem enters_ofObject (t : TypeId) :
    Enters o (ofObject o sub t) (meetEach walk (memberTypes o t)) := by
  refine enters_ask_bind ?_
  rw [memberTypes]
  generalize (o.properties t).run = properties, typed "object" = s
  induction properties generalizing s with
  | nil => exact enters_pure s
  | cons property properties ih =>
    rw [List.foldlM_cons, List.filter_cons]
    have hrest := (enters_addProperty o hsub s property).bind fun s => ih s
    split
    · next h =>
      rw [if_pos h] at hrest
      exact hrest
    · next h =>
      simpa [if_neg h] using hrest

end Generation

section Generation

variable (o : Oracle Id) {left : Nat} {walk : TypeId → List String → List Meeting}
  (hsub : ∀ t, Enters o (ofTypeWithin o left t) (walk t))
include hsub

/-- A named type enters its definition, in the place of the placeholder, before its members. -/
theorem enters_ofNamed (name : String) (t : TypeId) :
    Enters o (ofNamed o (ofTypeWithin o left) name t) (meetNamed o walk name t left) := by
  intro T
  rw [ofNamed, StateT.run_bind, StateT.run_get, pure_bind, meetNamed]
  split
  · next h =>
    rw [if_pos (Entries.has_iff.1 h)]
    exact (List.append_nil T).symm
  · next h =>
    have hn : name ∉ Entries.names T := fun hn => h (Entries.has_iff.2 hn)
    rw [if_neg hn]
    let members := (ofObject o (ofTypeWithin o left) t).run (T.put name {})
    have hdefinition : members.1 = definition o left t :=
      tableFree_ofObject o (tableFree_ofTypeWithin o left) t _ _
    have htable := enters_ofObject o hsub t (T.put name {})
    show members.2.put name members.1 = _
    rw [hdefinition]
    show Entries.put name _ ((ofObject o (ofTypeWithin o left) t).run (T.put name {})).2 = _
    rw [htable, Entries.put_of_notMem hn, List.append_assoc, Entries.put_append_of_notMem hn,
      List.singleton_append, Entries.put_cons_self, Entries.names_append]
    rfl

theorem enters_ofObjectLike (t : TypeId) :
    Enters o (ofObjectLike o (ofTypeWithin o left) t)
      (meetDescribed o walk left t (describeObject o t)) := by
  refine enters_ask_bind ?_
  rw [describeObject]
  cases (schemaName? o t).run with
  | none => exact enters_ofObject o hsub t
  | some name =>
    dsimp only
    split
    · exact enters_pure _
    · split
      · exact enters_ofObject o hsub t
      · exact enters_ofNamed o hsub name t

theorem enters_ofUnion (t : TypeId) :
    Enters o (ofUnion o (ofTypeWithin o left) t)
      (meetDescribed o walk left t (describeUnion (o.constituents t).run
        ((o.constituents t).run.mapM o.shape).run)) := by
  refine enters_ask_bind (enters_ask_bind ?_)
  rw [describeUnion]
  cases ((o.constituents t).run.mapM o.shape).run.mapM stringLiteral? with
  | none => exact (enters_mapM hsub _).map _
  | some literals =>
    cases literals with
    | nil => exact (enters_mapM hsub _).map _
    | cons first rest => exact enters_pure _

/-- The items of an array are walked through, if it has a type for them. -/
theorem enters_items (element : Option TypeId) :
    Enters o (do
        let items ← match element with
          | some element => ofTypeWithin o left element
          | none => pure {}
        return { typed "array" with items := some items })
      (meetEach walk element.toList) := by
  cases element with
  | none => exact enters_pure _
  | some element => simpa [meetEach] using (hsub element).map _

theorem enters_ofSettled (t : TypeId) (name : Option String) :
    Enters o (ofSettled o (ofTypeWithin o left) t name)
      (meetDescribed o walk left t (describe o t name)) := by
  refine enters_ask_bind ?_
  rw [describe]
  generalize (o.shape t).run = shape
  dsimp only
  cases hshape : ofShape? shape with
  | some s => exact enters_pure s
  | none =>
    by_cases hdate : name = some "Date"
    · rw [if_pos hdate, if_pos (Or.inr hdate)]
      exact enters_pure _
    · have hplain : ¬ ((none : Option Schema).isSome ∨ name = some "Date") := by simpa using hdate
      rw [if_neg hdate, if_neg hplain]
      refine enters_ask_bind ?_
      split
      · exact enters_ask_bind (enters_items o hsub _)
      · cases shape with
        | union => exact enters_ofUnion o hsub t
        | intersection => exact enters_ask_bind ((enters_mapM hsub _).map _)
        | object => exact enters_ofObjectLike o hsub t
        | function => exact enters_ofObjectLike o hsub t
        | _ => exact enters_pure _

end Generation

/-- **A description enters what the walk meets**, in the order of the meetings. -/
theorem enters_ofTypeWithin (o : Oracle Id) (left : Nat) (t : TypeId) :
    Enters o (ofTypeWithin o left t) (meet o left t) := by
  induction left generalizing t with
  | zero => exact enters_pure _
  | succ left ih =>
    refine enters_ask_bind ?_
    rw [meet]
    cases (settle o (o.promiseDepth t + 1) t).run with
    | none => exact enters_pure _
    | some settled => exact enters_ofSettled o ih _ _

/-! ### The table after a list of types -/

section Table

variable (o : Oracle Id)

/-- The table of named schemas after the descriptions of types in order, from the empty table. -/
def tableOf (roots : List TypeId) : Entries Schema := ((roots.mapM (ofType o)).run []).2

/-- The first meetings of the walk through types in order. -/
def meetings (roots : List TypeId) : List Meeting := meetEach (meet o maxNesting) roots []

theorem tableOf_eq (roots : List TypeId) :
    tableOf o roots = (meetings o roots).map (Meeting.entry o) :=
  enters_mapM (enters_ofTypeWithin o maxNesting) roots []

/-- A type is entered under a name. -/
def EnteredAs (t : TypeId) (name : String) : Prop :=
  describe o t (typeName? o t).run = .named name

/-- No two types are entered under the same name. -/
def NamesApart : Prop := ∀ t t' name, EnteredAs o t name → EnteredAs o t' name → t = t'

/-- No two object or function types have the same name for their schemas. -/
def DistinctNames : Prop :=
  ∀ t t' name, (o.shape t).run ∈ [TypeShape.object, .function] →
    (o.shape t').run ∈ [TypeShape.object, .function] →
    (schemaName? o t).run = some name → (schemaName? o t').run = some name → t = t'

variable {o}

/-- An object type is entered under the name for its schema. -/
theorem schemaName?_of_enteredAs {t : TypeId} {name : String} (h : EnteredAs o t name) :
    (o.shape t).run ∈ [TypeShape.object, .function] ∧ (schemaName? o t).run = some name := by
  have ofObject : describeObject o t = .named name → (schemaName? o t).run = some name := by
    intro h
    rw [describeObject] at h
    split at h
    · next hname =>
      split at h
      · cases h
      · split at h
        · cases h
        · cases h
          exact hname
    · cases h
  rw [EnteredAs, describe] at h
  generalize (o.shape t).run = shape at h ⊢
  dsimp only at h
  split at h
  · cases h
  split at h
  · cases h
  cases shape with
  | union =>
    simp only [describeUnion] at h
    split at h <;> cases h
  | object => exact ⟨by simp, ofObject h⟩
  | function => exact ⟨by simp, ofObject h⟩
  | _ => cases h

theorem DistinctNames.namesApart (h : DistinctNames o) : NamesApart o := by
  intro t t' name ht ht'
  obtain ⟨hs, hn⟩ := schemaName?_of_enteredAs ht
  obtain ⟨hs', hn'⟩ := schemaName?_of_enteredAs ht'
  exact h t t' name hs hs' hn hn'

/-- The name that is found with the promises taken off is that of the type that is left. -/
theorem settle_name {fuel : Nat} {t t' : TypeId} {name : Option String}
    (h : (settle o fuel t).run = some (t', name)) : name = (typeName? o t').run := by
  induction fuel generalizing t with
  | zero => cases h
  | succ fuel ih =>
    rw [settle] at h
    change (if isPromise (typeName? o t).run then
      match (o.typeArguments t).run.head? with
      | some inner => (settle o fuel inner).run
      | none => none
      else some (t, (typeName? o t).run)) = _ at h
    split at h
    · split at h
      · exact ih h
      · cases h
    · cases h
      rfl

theorem enteredAs_of_mem_meetEach {walk : TypeId → List String → List Meeting}
    (hwalk : ∀ t met, ∀ m ∈ walk t met, EnteredAs o m.type m.name) (types : List TypeId)
    (met : List String) : ∀ m ∈ meetEach walk types met, EnteredAs o m.type m.name := by
  induction types generalizing met with
  | nil => simp [meetEach]
  | cons t types ih =>
    intro m hm
    rcases List.mem_append.1 hm with hm | hm
    · exact hwalk t met m hm
    · exact ih _ m hm

theorem enteredAs_of_mem_meet (left : Nat) (t : TypeId) (met : List String) :
    ∀ m ∈ meet o left t met, EnteredAs o m.type m.name := by
  induction left generalizing t met with
  | zero => simp [meet]
  | succ left ih =>
    intro m hm
    rw [meet] at hm
    cases hsettled : (settle o (o.promiseDepth t + 1) t).run with
    | none => simp [hsettled] at hm
    | some settled =>
      obtain ⟨t, name⟩ := settled
      obtain rfl := settle_name hsettled
      rw [hsettled] at hm
      dsimp only at hm
      have heach := enteredAs_of_mem_meetEach ih
      cases hdescribe : describe o t (typeName? o t).run with
      | inPlace parts =>
        rw [hdescribe] at hm
        exact heach parts met m hm
      | named name =>
        rw [hdescribe] at hm
        simp only [meetDescribed, meetNamed] at hm
        split at hm
        · cases hm
        · rcases List.mem_cons.1 hm with rfl | hm
          · exact hdescribe
          · exact heach _ _ m hm

/-- **The order of the roots decides about depth only.** Where no two types are entered under the
same name, the definitions that two lists of types leave under a name are definitions of the same
type, each with the nested descriptions left where it was first met. They agree down to the smaller
number of them, and are the same if one of them has no further level. -/
theorem tables_agree (h : NamesApart o) (roots roots' : List TypeId) {name : String}
    {s s' : Schema} (hs : (name, s) ∈ tableOf o roots) (hs' : (name, s') ∈ tableOf o roots') :
    ∃ t left left', ⟨name, t, left⟩ ∈ meetings o roots ∧ ⟨name, t, left'⟩ ∈ meetings o roots' ∧
      s = definition o left t ∧ s' = definition o left' t ∧ AgreeTo (min left left' + 1) s s' ∧
      (s.nestsBelow (min left left' + 1) ∨ s'.nestsBelow (min left left' + 1) → s = s') := by
  rw [tableOf_eq] at hs hs'
  obtain ⟨m, hm, heq⟩ := List.mem_map.1 hs
  obtain ⟨m', hm', heq'⟩ := List.mem_map.1 hs'
  obtain ⟨rfl, rfl⟩ := Prod.mk.inj heq
  obtain ⟨hname, rfl⟩ := Prod.mk.inj heq'
  have htype : m.type = m'.type := by
    have entered := enteredAs_of_mem_meetEach (enteredAs_of_mem_meet (o := o) maxNesting)
    refine h _ _ m.name (entered _ _ m hm) ?_
    rw [← hname]
    exact entered _ _ m' hm'
  refine ⟨m.type, m.left, m'.left, hm, ?_, rfl, by rw [htype], ?_, ?_⟩
  · rw [htype, ← hname]
    exact hm'
  · rw [← htype]
    exact definition_agreeTo o _ _ _
  · rw [← htype]
    exact definition_eq_of_nestsBelow o

end Table

/-- Eleven object types, of which each but the last has a property of the next one's type; the last
has a property of type string. The property of type `t` is the symbol after `t` and ten more. -/
def chainOracle : Oracle Id where
  typeAt _ := pure 0
  typeOfTypeNode _ := pure 0
  symbolAt _ := pure none
  symbolName s := pure (["N0", "N1", "N2", "N3", "N4", "N5", "N6", "N7", "N8", "N9", "N10"].getD s
    (if s = 21 then "value" else "next"))
  isAlias _ := pure false
  aliasedSymbol _ := pure none
  declarations _ := pure []
  typeOfSymbol s := pure (s - 10)
  isOptional _ := pure false
  containerName _ := pure none
  docText _ := pure none
  shape t := pure (if t < 11 then .object else .string)
  typeSymbol t := pure (if t < 11 then some t else none)
  aliasSymbol _ := pure none
  typeArguments _ := pure []
  isTuple _ := pure false
  constituents _ := pure []
  properties t := pure [t + 11]
  callSignatureCount _ := pure 0
  enumLiterals _ := pure []
  promiseDepth _ := 0

theorem chainOracle_distinctNames : DistinctNames chainOracle := by
  have names : ∀ t < 11, ∀ t' < 11,
      (schemaName? chainOracle t).run = (schemaName? chainOracle t').run → t = t' := by
    decide +kernel
  have bound : ∀ {t}, (chainOracle.shape t).run ∈ [TypeShape.object, .function] → t < 11 := by
    intro t ht
    by_contra h
    simp [chainOracle, if_neg h] at ht
  intro t t' name ht ht' hn hn'
  exact names t (bound ht) t' (bound ht') (hn.trans hn'.symm)

/-- The definition of the last type of the chain, with the description of its property. -/
def chainEnd (value : Schema) : Schema :=
  { typed "object" with properties := [("value", value)], required := ["value"] }

/-- The last type of the chain is met with no nested description left. -/
theorem mem_tableOf_chain : ("N10", chainEnd {}) ∈ tableOf chainOracle [0, 10] := by
  rw [tableOf_eq]
  exact List.mem_map.2 ⟨⟨"N10", 10, 0⟩, by decide +kernel, rfl⟩

theorem mem_tableOf_chain_reverse :
    ("N10", chainEnd (typed "string")) ∈ tableOf chainOracle [10, 0] := by
  rw [tableOf_eq]
  exact List.mem_map.2 ⟨⟨"N10", 10, 10⟩, by decide +kernel, rfl⟩

/-- The definitions of the last type of the chain agree in their first level. -/
theorem tables_agree_chain :
    NamesApart chainOracle ∧
    ("N10", chainEnd {}) ∈ tableOf chainOracle [0, 10] ∧
    ("N10", chainEnd (typed "string")) ∈ tableOf chainOracle [10, 0] ∧
    ∃ t left left', ⟨"N10", t, left⟩ ∈ meetings chainOracle [0, 10] ∧
      ⟨"N10", t, left'⟩ ∈ meetings chainOracle [10, 0] ∧
      chainEnd {} = definition chainOracle left t ∧
      chainEnd (typed "string") = definition chainOracle left' t ∧
      AgreeTo (min left left' + 1) (chainEnd {}) (chainEnd (typed "string")) ∧
      ((chainEnd {}).nestsBelow (min left left' + 1) ∨
          (chainEnd (typed "string")).nestsBelow (min left left' + 1) →
        chainEnd {} = chainEnd (typed "string")) :=
  ⟨chainOracle_distinctNames.namesApart, mem_tableOf_chain, mem_tableOf_chain_reverse,
    tables_agree chainOracle_distinctNames.namesApart [0, 10] [10, 0] mem_tableOf_chain
      mem_tableOf_chain_reverse⟩

/-- A definition that is cut in one order of the types is not cut in another. -/
theorem definition_of_chain_differs :
    DistinctNames chainOracle ∧ [0, 10].Perm [10, 0] ∧
    ("N10", chainEnd {}) ∈ tableOf chainOracle [0, 10] ∧
    ("N10", chainEnd (typed "string")) ∈ tableOf chainOracle [10, 0] ∧
    chainEnd {} ≠ chainEnd (typed "string") :=
  ⟨chainOracle_distinctNames, List.Perm.swap 10 0 [], mem_tableOf_chain,
    mem_tableOf_chain_reverse, by simp [chainEnd, typed]⟩

end RouteContract.Schema
