import Mathlib
import RouteContract.Names.Exports
import RouteContract.Proofs.Json.Entries

/-!
# What export statements export

An export statement sets the export of a name (`Sets`): of `default`, of the names in a clause, or
of the name of a namespace. It declares the names of its declaration (`Declares`), which gives way
to an export that is there already. Or it passes on all exports of a unit (`PassesOn`). Over the
statements of a unit the last one that sets a name decides, whatever others declare, and without one
the first that declares it (`get?_exports_eq_iff`); the units whose exports are passed on stand in
the order of the statements (`stars_exports_eq_iff`).
-/

namespace RouteContract.Names

variable (p : Program)

/-- What a name stands for in a clause or a namespace with a source: a name of the unit itself
without one, a name of the unit that the source leads to, or nothing that is known. -/
inductive Stands : Option (Option Nat) → String → Export → Prop
  | own {name : String} : Stands none name (.own name)
  | again {name : String} {unit : Nat} : Stands (some (some unit)) name (.again unit name)
  | missing {name : String} : Stands (some none) name .missing

/-- A specifier of a clause exports what its name stands for, under its alias or else its name. -/
def Specifies (source : Option (Option Nat)) (specifier : NodeId) (name : String) (e : Export) :
    Prop :=
  ∃ original, p.field? specifier "name" = some original ∧
    name = spelled p ((p.field? specifier "alias").getD original) ∧
    Stands source (spelled p original) e

/-- An export statement without a declaration. -/
structure Undeclared (statement : NodeId) : Prop where
  kind : p.kind statement = "export_statement"
  declaration : p.field? statement "declaration" = none

/-- An export statement without a declaration and without a value. -/
structure Valueless (statement : NodeId) : Prop extends Undeclared p statement where
  value : p.field? statement "value" = none

/-- An export statement without a declaration, a value and a clause. -/
structure Clauseless (statement : NodeId) : Prop extends Valueless p statement where
  clause : p.childOfKind? statement "export_clause" = none

/-- A statement of a unit sets the export of a name. -/
inductive Sets (unit : Nat) (statement : NodeId) : String → Export → Prop
  | declaration {d : NodeId} (hkind : p.kind statement = "export_statement")
    (h : p.field? statement "declaration" = some d)
    (hdefault : p.hasToken statement "default" = true) : Sets unit statement "default" (.node d)
  | name {value : NodeId} (hs : Undeclared p statement)
    (h : p.field? statement "value" = some value) (hvalue : p.kind value = "identifier") :
    Sets unit statement "default" (.own (p.text value))
  | value {value : NodeId} (hs : Undeclared p statement)
    (h : p.field? statement "value" = some value) (hvalue : p.kind value ≠ "identifier") :
    Sets unit statement "default" (.node value)
  | specifier {clause specifier : NodeId} {before after : List NodeId} {name : String} {e : Export}
    (hs : Valueless p statement) (h : p.childOfKind? statement "export_clause" = some clause)
    (hclause : p.namedChildren clause = before ++ specifier :: after)
    (hspecifier : Specifies p (sourceUnit? p unit statement) specifier name e)
    (hlast : ∀ later ∈ after, ∀ e',
      ¬ Specifies p (sourceUnit? p unit statement) later name e') : Sets unit statement name e
  | module {part : NodeId} {whole : Nat} (hs : Clauseless p statement)
    (h : p.childOfKind? statement "namespace_export" = some part)
    (hsource : sourceUnit? p unit statement = some (some whole)) :
    Sets unit statement (((p.namedChildren part).head?.map p.text).getD "") (.module whole)
  | missing {part : NodeId} (hs : Clauseless p statement)
    (h : p.childOfKind? statement "namespace_export" = some part)
    (hsource : ∀ whole, sourceUnit? p unit statement ≠ some (some whole)) :
    Sets unit statement (((p.namedChildren part).head?.map p.text).getD "") .missing

/-- A statement declares a name: as a value, or else as a type. -/
structure Declares (statement : NodeId) (name : String) (binding : NodeId) : Prop where
  kind : p.kind statement = "export_statement"
  notDefault : p.hasToken statement "default" = false
  bound : ∃ d, p.field? statement "declaration" = some d ∧
    (Entries.get? name (statementBindings p d).values).or
      (Entries.get? name (statementBindings p d).types) = some binding

/-- A statement of a unit passes on all exports of a unit. -/
structure PassesOn (unit : Nat) (statement : NodeId) (whole : Nat) : Prop extends
    Clauseless p statement where
  notNamespace : p.childOfKind? statement "namespace_export" = none
  star : p.hasToken statement "*" = true
  source : sourceUnit? p unit statement = some (some whole)

/-- The export of a name before and after a statement. -/
inductive Effect (unit : Nat) (statement : NodeId) (name : String) (old : Option Export) :
    Option Export → Prop
  | sets {e : Export} (h : Sets p unit statement name e) : Effect unit statement name old (some e)
  | declares {binding : NodeId} (h : Declares p statement name binding) :
    Effect unit statement name old (old.or (some (.node binding)))
  | leaves (hsets : ∀ e, ¬ Sets p unit statement name e)
    (hdeclares : ∀ binding, ¬ Declares p statement name binding) :
    Effect unit statement name old old

/-- The export of a name after all statements of a list: of the last that sets it, else of the first
that declares it. -/
inductive Found (unit : Nat) (statements : List NodeId) (name : String) : Option Export → Prop
  | set {before after : List NodeId} {statement : NodeId} {e : Export}
    (h : statements = before ++ statement :: after) (hs : Sets p unit statement name e)
    (hlast : ∀ later ∈ after, ∀ e', ¬ Sets p unit later name e') :
    Found unit statements name (some e)
  | declared {before after : List NodeId} {statement binding : NodeId}
    (h : statements = before ++ statement :: after) (hs : Declares p statement name binding)
    (hsets : ∀ other ∈ statements, ∀ e, ¬ Sets p unit other name e)
    (hfirst : ∀ earlier ∈ before, ∀ b, ¬ Declares p earlier name b) :
    Found unit statements name (some (.node binding))
  | nothing (hsets : ∀ statement ∈ statements, ∀ e, ¬ Sets p unit statement name e)
    (hdeclares : ∀ statement ∈ statements, ∀ binding, ¬ Declares p statement name binding) :
    Found unit statements name none

/-- The units whose exports the statements of a list pass on, in order. -/
inductive Passed (unit : Nat) : List NodeId → List Nat → Prop
  | nil : Passed unit [] []
  | pass {statement : NodeId} {statements : List NodeId} {whole : Nat} {stars : List Nat}
    (hs : PassesOn p unit statement whole) (h : Passed unit statements stars) :
    Passed unit (statement :: statements) (whole :: stars)
  | skip {statement : NodeId} {statements : List NodeId} {stars : List Nat}
    (hs : ∀ whole, ¬ PassesOn p unit statement whole) (h : Passed unit statements stars) :
    Passed unit (statement :: statements) stars

variable {p} {unit : Nat} {statement : NodeId} {name : String}

/-! ### Names that are put one after the other -/

/-- Exports that are set one after the other: the last one of a name is there. -/
theorem get?_foldl_set (entries : List (String × Export)) (E : Exports) (name : String) :
    Entries.get? name (entries.foldl (fun E entry => E.set entry.1 entry.2) E).named =
      ((entries.reverse.find? (·.1 = name)).map Prod.snd).or (Entries.get? name E.named) := by
  induction entries using List.reverseRecOn with
  | nil => rfl
  | append_singleton entries entry ih =>
    rw [List.foldl_append, List.foldl_cons, List.foldl_nil, Exports.set, Entries.get?_put, ih,
      List.reverse_append, List.reverse_singleton, List.singleton_append, List.find?_cons]
    by_cases h : entry.1 = name <;> simp [h]

theorem get?_declare (E : Exports) (entry : String × NodeId) (name : String) :
    Entries.get? name (E.declare entry).named =
      if entry.1 = name then (Entries.get? name E.named).or (some (.node entry.2))
      else Entries.get? name E.named := by
  unfold Exports.declare Entries.has
  cases hold : Entries.get? entry.1 E.named with
  | none =>
    rw [if_neg (by simp), Entries.get?_put]
    by_cases h : entry.1 = name
    · rw [if_pos h, if_pos h, ← h, hold]
      rfl
    · rw [if_neg h, if_neg h]
  | some e =>
    rw [if_pos (by simp)]
    by_cases h : entry.1 = name
    · rw [if_pos h, ← h, hold]
      rfl
    · rw [if_neg h]

/-- Names that are declared one after the other: what was there stays, and then the first one of a
name is there. -/
theorem get?_foldl_declare (entries : List (String × NodeId)) (E : Exports) (name : String) :
    Entries.get? name (entries.foldl Exports.declare E).named =
      (Entries.get? name E.named).or ((Entries.get? name entries).map .node) := by
  induction entries generalizing E with
  | nil => simp
  | cons entry entries ih =>
    rw [List.foldl_cons, ih, get?_declare, Entries.get?]
    by_cases h : entry.1 = name
    · cases Entries.get? name E.named <;> simp [h]
    · simp [h]

theorem stars_foldl_set (entries : List (String × Export)) (E : Exports) :
    (entries.foldl (fun E entry => E.set entry.1 entry.2) E).stars = E.stars :=
  List.foldlRecOn (motive := fun E' : Exports => E'.stars = E.stars) _ _ rfl fun _ h _ _ => h

theorem stars_foldl_declare (entries : List (String × NodeId)) (E : Exports) :
    (entries.foldl Exports.declare E).stars = E.stars := by
  refine List.foldlRecOn (motive := fun E' : Exports => E'.stars = E.stars) _ _ rfl
    fun E' h entry _ => ?_
  unfold Exports.declare
  split
  · exact h
  · exact h

theorem specifierExport?_eq_some_iff {source : Option (Option Nat)} {specifier : NodeId}
    {e : Export} :
    specifierExport? p source specifier = some (name, e) ↔ Specifies p source specifier name e := by
  unfold specifierExport? Specifies
  rw [Option.map_eq_some_iff]
  refine exists_congr fun original => and_congr_right fun _ => ?_
  rw [Prod.mk.injEq]
  refine and_congr ?_ ?_
  · cases p.field? specifier "alias" with
    | none => exact eq_comm
    | some a => exact eq_comm
  · constructor
    · rintro rfl
      rcases source with _ | _ | unit
      · exact .own
      · exact .missing
      · exact .again
    · rintro (_ | _ | _) <;> rfl

/-! ### What each form sets -/

theorem Sets.kind {e : Export} (h : Sets p unit statement name e) :
    p.kind statement = "export_statement" := by
  cases h with
  | declaration hkind => exact hkind
  | name hs | value hs => exact hs.kind
  | specifier hs => exact hs.kind
  | module hs | missing hs => exact hs.kind

section

variable {e : Export}

theorem sets_iff_of_declaration {d : NodeId} (hkind : p.kind statement = "export_statement")
    (hd : p.field? statement "declaration" = some d) :
    Sets p unit statement name e ↔
      p.hasToken statement "default" = true ∧ name = "default" ∧ e = .node d := by
  constructor
  · rintro (⟨_, hd', hdefault⟩ | hs | hs | hs | hs | hs)
    · exact ⟨hdefault, rfl, congrArg _ (Option.some.inj (hd'.symm.trans hd))⟩
    all_goals simp [hs.declaration] at hd
  · rintro ⟨hdefault, rfl, rfl⟩
    exact .declaration hkind hd hdefault

theorem sets_iff_of_value {value : NodeId} (hs : Undeclared p statement)
    (hvalue : p.field? statement "value" = some value) :
    Sets p unit statement name e ↔ name = "default" ∧
      e = if p.kind value = "identifier" then .own (p.text value) else .node value := by
  constructor
  · rintro (⟨_, hd⟩ | ⟨_, hv, hkind⟩ | ⟨_, hv, hkind⟩ | hs' | hs' | hs')
    · simp [hs.declaration] at hd
    · obtain rfl := Option.some.inj (hvalue.symm.trans hv)
      exact ⟨rfl, (if_pos hkind).symm⟩
    · obtain rfl := Option.some.inj (hvalue.symm.trans hv)
      exact ⟨rfl, (if_neg hkind).symm⟩
    all_goals simp [hs'.value] at hvalue
  · rintro ⟨rfl, rfl⟩
    split
    · next hkind => exact .name hs hvalue hkind
    · next hkind => exact .value hs hvalue hkind

theorem sets_iff_of_clause {clause : NodeId} (hs : Valueless p statement)
    (hclause : p.childOfKind? statement "export_clause" = some clause) :
    Sets p unit statement name e ↔ ∃ before specifier after,
      p.namedChildren clause = before ++ specifier :: after ∧
      Specifies p (sourceUnit? p unit statement) specifier name e ∧
      ∀ later ∈ after, ∀ e', ¬ Specifies p (sourceUnit? p unit statement) later name e' := by
  constructor
  · rintro (⟨_, hd⟩ | ⟨_, hv⟩ | ⟨_, hv⟩ | ⟨_, hc, hchildren, hspecifier, hlast⟩ | hs' | hs')
    · simp [hs.declaration] at hd
    · simp [hs.value] at hv
    · simp [hs.value] at hv
    · obtain rfl := Option.some.inj (hclause.symm.trans hc)
      exact ⟨_, _, _, hchildren, hspecifier, hlast⟩
    all_goals simp [hs'.clause] at hclause
  · rintro ⟨before, specifier, after, hchildren, hspecifier, hlast⟩
    exact .specifier hs hclause hchildren hspecifier hlast

theorem sets_iff_of_namespace {part : NodeId} (hs : Clauseless p statement)
    (hpart : p.childOfKind? statement "namespace_export" = some part) :
    Sets p unit statement name e ↔ name = ((p.namedChildren part).head?.map p.text).getD "" ∧
      e = match sourceUnit? p unit statement with
        | some (some whole) => .module whole
        | _ => .missing := by
  constructor
  · rintro (⟨_, hd⟩ | ⟨_, hv⟩ | ⟨_, hv⟩ | ⟨_, hc⟩ | ⟨_, hp, hsource⟩ | ⟨_, hp, hsource⟩)
    · simp [hs.declaration] at hd
    · simp [hs.value] at hv
    · simp [hs.value] at hv
    · simp [hs.clause] at hc
    · obtain rfl := Option.some.inj (hpart.symm.trans hp)
      rw [hsource]
      exact ⟨rfl, rfl⟩
    · obtain rfl := Option.some.inj (hpart.symm.trans hp)
      refine ⟨rfl, ?_⟩
      split
      · next whole h => exact absurd h (hsource whole)
      · rfl
  · rintro ⟨rfl, rfl⟩
    split
    · next whole hsource => exact .module hs hpart hsource
    · next hsource => exact .missing hs hpart hsource

theorem Clauseless.not_sets (hs : Clauseless p statement)
    (hpart : p.childOfKind? statement "namespace_export" = none) (e : Export) :
    ¬ Sets p unit statement name e := by
  rintro (⟨_, hd⟩ | ⟨_, hv⟩ | ⟨_, hv⟩ | ⟨_, hc⟩ | ⟨_, hp⟩ | ⟨_, hp⟩)
  · simp [hs.declaration] at hd
  · simp [hs.value] at hv
  · simp [hs.value] at hv
  · simp [hs.clause] at hc
  all_goals simp [hpart] at hp

end

theorem Undeclared.not_declares (h : Undeclared p statement) (binding : NodeId) :
    ¬ Declares p statement name binding := by
  rintro ⟨-, -, d, hd, -⟩
  rw [h.declaration] at hd
  cases hd

/-- A statement does not set a name that it declares. -/
theorem Declares.not_sets {binding : NodeId} (h : Declares p statement name binding) (e : Export) :
    ¬ Sets p unit statement name e := by
  obtain ⟨d, hd, -⟩ := h.bound
  rw [sets_iff_of_declaration h.kind hd, h.notDefault]
  exact fun hsets => Bool.false_ne_true hsets.1

/-! ### One statement -/

variable (E : Exports)

/-- A statement that puts one export under one name. -/
theorem effect_set {exported : String} {export_ : Export}
    (hsets : ∀ name e, Sets p unit statement name e ↔ name = exported ∧ e = export_)
    (hdeclares : ∀ binding, ¬ Declares p statement name binding) :
    Effect p unit statement name (Entries.get? name E.named)
      (Entries.get? name (E.set exported export_).named) := by
  rw [Exports.set, Entries.get?_put]
  split
  · next h => exact .sets ((hsets _ _).2 ⟨h.symm, rfl⟩)
  · next h => exact .leaves (fun e he => h ((hsets _ _).1 he).1.symm) hdeclares

theorem effect_declaration {d : NodeId} (hkind : p.kind statement = "export_statement")
    (hd : p.field? statement "declaration" = some d) (name : String) :
    Effect p unit statement name (Entries.get? name E.named)
      (Entries.get? name (addExports p unit E statement).named) := by
  have hsets : ∀ name e, Sets p unit statement name e ↔ _ := fun _ _ =>
    sets_iff_of_declaration hkind hd
  rw [addExports, if_neg (not_not.2 hkind)]
  simp only [hd]
  split
  · next hdefault =>
    refine effect_set E (fun name e => (hsets name e).trans (and_iff_right hdefault)) ?_
    exact fun binding h => by simp [h.notDefault] at hdefault
  · next hdefault =>
    rw [get?_foldl_declare, Entries.get?_append]
    cases hbound : (Entries.get? name (statementBindings p d).values).or
      (Entries.get? name (statementBindings p d).types) with
    | some binding => exact .declares ⟨hkind, by simpa using hdefault, d, hd, hbound⟩
    | none =>
      rw [Option.map_none, Option.or_none]
      refine .leaves (fun e he => hdefault ((hsets _ _).1 he).1) ?_
      rintro binding ⟨-, -, d', hd', hbound'⟩
      obtain rfl := Option.some.inj (hd.symm.trans hd')
      rw [hbound] at hbound'
      cases hbound'

theorem any_specifierExport?_iff {source : Option (Option Nat)} {specifier : NodeId} :
    (specifierExport? p source specifier).any (·.1 = name) = true ↔
      ∃ e, Specifies p source specifier name e := by
  rw [Option.any_eq_true]
  constructor
  · rintro ⟨⟨exported, e⟩, h, hname⟩
    exact ⟨e, specifierExport?_eq_some_iff.1 (of_decide_eq_true hname ▸ h)⟩
  · rintro ⟨e, h⟩
    exact ⟨(name, e), specifierExport?_eq_some_iff.2 h, decide_eq_true rfl⟩

theorem effect_clause {clause : NodeId} (hs : Valueless p statement)
    (hclause : p.childOfKind? statement "export_clause" = some clause) (name : String) :
    Effect p unit statement name (Entries.get? name E.named)
      (Entries.get? name (addExports p unit E statement).named) := by
  rw [addExports, if_neg (not_not.2 hs.kind)]
  simp only [hs.declaration, hs.value, hclause]
  rw [get?_foldl_set, ← List.filterMap_reverse, List.find?_filterMap]
  cases hfound : (p.namedChildren clause).reverse.find? fun specifier =>
      (specifierExport? p (sourceUnit? p unit statement) specifier).any (·.1 = name) with
  | none =>
    refine .leaves (fun e he => ?_) hs.not_declares
    obtain ⟨before, specifier, after, hchildren, hspecifier, -⟩ :=
      (sets_iff_of_clause hs hclause).1 he
    exact List.find?_eq_none.1 hfound specifier (by rw [hchildren]; simp)
      (any_specifierExport?_iff.2 ⟨e, hspecifier⟩)
  | some specifier =>
    obtain ⟨hspecifier, after, before, hchildren, hafter⟩ :=
      List.find?_eq_some_iff_append.1 hfound
    obtain ⟨e, he⟩ := any_specifierExport?_iff.1 hspecifier
    rw [Option.bind_some, specifierExport?_eq_some_iff.2 he, Option.map_some, Option.some_or]
    have hsplit : p.namedChildren clause = before.reverse ++ specifier :: after.reverse := by
      rw [List.reverse_eq_iff.1 hchildren]
      simp
    refine .sets (.specifier hs hclause hsplit he fun later hlater e' he' => ?_)
    have hnone := hafter later (List.mem_reverse.1 hlater)
    rw [any_specifierExport?_iff.2 ⟨e', he'⟩] at hnone
    cases hnone

theorem addExports_namespace {part : NodeId} (hs : Clauseless p statement)
    (hpart : p.childOfKind? statement "namespace_export" = some part) :
    addExports p unit E statement =
      E.set (((p.namedChildren part).head?.map p.text).getD "")
        (match sourceUnit? p unit statement with
          | some (some whole) => .module whole
          | _ => .missing) := by
  rw [addExports, if_neg (not_not.2 hs.kind)]
  simp only [hs.declaration, hs.value, hs.clause, hpart]
  cases (p.namedChildren part).head? with
  | none => rfl
  | some n => rfl

/-- A statement with none of a declaration, a value, a clause and a namespace. -/
theorem addExports_star (hs : Clauseless p statement)
    (hpart : p.childOfKind? statement "namespace_export" = none) :
    (addExports p unit E statement).named = E.named ∧
      ((∃ whole, PassesOn p unit statement whole ∧
          (addExports p unit E statement).stars = E.stars ++ [whole]) ∨
        (∀ whole, ¬ PassesOn p unit statement whole) ∧
          (addExports p unit E statement).stars = E.stars) := by
  rw [addExports, if_neg (not_not.2 hs.kind)]
  simp only [hs.declaration, hs.value, hs.clause, hpart]
  split
  · next whole hstar hsource => exact ⟨rfl, .inl ⟨whole, ⟨hs, hpart, hstar, hsource⟩, rfl⟩⟩
  · next hno => exact ⟨rfl, .inr ⟨fun whole h => hno whole h.star h.source, rfl⟩⟩

/-- What a statement does to the export of a name. -/
theorem effect_addExports (unit : Nat) (E : Exports) (statement : NodeId) (name : String) :
    Effect p unit statement name (Entries.get? name E.named)
      (Entries.get? name (addExports p unit E statement).named) := by
  by_cases hkind : p.kind statement = "export_statement"
  swap
  · rw [addExports, if_pos hkind]
    exact .leaves (fun e h => hkind h.kind) fun binding h => hkind h.kind
  cases hd : p.field? statement "declaration" with
  | some d => exact effect_declaration E hkind hd name
  | none =>
    have hs : Undeclared p statement := ⟨hkind, hd⟩
    cases hv : p.field? statement "value" with
    | some value =>
      rw [addExports, if_neg (not_not.2 hkind)]
      simp only [hd, hv]
      exact effect_set E (fun name e => sets_iff_of_value hs hv) hs.not_declares
    | none =>
      have hs : Valueless p statement := ⟨hs, hv⟩
      cases hc : p.childOfKind? statement "export_clause" with
      | some clause => exact effect_clause E hs hc name
      | none =>
        have hs : Clauseless p statement := ⟨hs, hc⟩
        cases hp : p.childOfKind? statement "namespace_export" with
        | some part =>
          rw [addExports_namespace E hs hp]
          exact effect_set E (fun name e => sets_iff_of_namespace hs hp) hs.not_declares
        | none =>
          rw [(addExports_star E hs hp).1]
          exact .leaves (hs.not_sets hp) hs.not_declares

/-- What a statement does to the units whose exports are passed on. -/
theorem stars_addExports (unit : Nat) (E : Exports) (statement : NodeId) :
    (∃ whole, PassesOn p unit statement whole ∧
        (addExports p unit E statement).stars = E.stars ++ [whole]) ∨
      (∀ whole, ¬ PassesOn p unit statement whole) ∧
        (addExports p unit E statement).stars = E.stars := by
  by_cases hs : Clauseless p statement ∧ p.childOfKind? statement "namespace_export" = none
  · exact (addExports_star E hs.1 hs.2).2
  · refine .inr ⟨fun whole h => hs ⟨h.toClauseless, h.notNamespace⟩, ?_⟩
    rw [addExports]
    split
    · rfl
    next hkind =>
    dsimp only
    split
    · split
      · rfl
      · exact stars_foldl_declare _ E
    next hd =>
    split
    · rfl
    next hv =>
    split
    · exact stars_foldl_set _ E
    next hc =>
    split
    · rfl
    next hp => exact absurd ⟨⟨⟨⟨not_not.1 hkind, hd⟩, hv⟩, hc⟩, hp⟩ hs

/-! ### All statements of a unit -/

theorem Found.extend {statements : List NodeId} {e : Export}
    (h : Found p unit statements name (some e)) (hsets : ∀ e, ¬ Sets p unit statement name e) :
    Found p unit (statements ++ [statement]) name (some e) := by
  cases h with
  | set h hs hlast =>
    refine .set (by rw [h, List.append_assoc, List.cons_append]) hs fun later hlater => ?_
    rcases List.mem_append.1 hlater with hlater | hlater
    · exact hlast later hlater
    · rw [List.mem_singleton.1 hlater]
      exact hsets
  | declared h hs hnone hfirst =>
    refine .declared (by rw [h, List.append_assoc, List.cons_append]) hs ?_ hfirst
    exact List.forall_mem_append.2 ⟨hnone, by simpa using hsets⟩

/-- One more statement. -/
theorem Found.concat {statements : List NodeId} {old new : Option Export}
    (h : Found p unit statements name old) (hstep : Effect p unit statement name old new) :
    Found p unit (statements ++ [statement]) name new := by
  cases hstep with
  | sets hs => exact .set rfl hs fun _ h => nomatch h
  | declares hs =>
    cases old with
    | some e => exact h.extend hs.not_sets
    | none =>
      cases h with
      | nothing hsets hdeclares =>
        refine .declared rfl hs ?_ hdeclares
        exact List.forall_mem_append.2 ⟨hsets, by simpa using hs.not_sets⟩
  | leaves hsets hdeclares =>
    cases old with
    | some e => exact h.extend hsets
    | none =>
      cases h with
      | nothing hsets' hdeclares' =>
        exact .nothing (List.forall_mem_append.2 ⟨hsets', by simpa using hsets⟩)
          (List.forall_mem_append.2 ⟨hdeclares', by simpa using hdeclares⟩)

theorem found_foldl (statements : List NodeId) (unit : Nat) (name : String) :
    Found p unit statements name
      (Entries.get? name (statements.foldl (addExports p unit) {}).named) := by
  induction statements using List.reverseRecOn with
  | nil => exact .nothing (fun _ h => nomatch h) fun _ h => nomatch h
  | append_singleton statements statement ih =>
    rw [List.foldl_append, List.foldl_cons, List.foldl_nil]
    exact ih.concat (effect_addExports unit _ statement name)

theorem exists_passed (statements : List NodeId) (unit : Nat) (E : Exports) :
    ∃ stars, Passed p unit statements stars ∧
      (statements.foldl (addExports p unit) E).stars = E.stars ++ stars := by
  induction statements generalizing E with
  | nil => exact ⟨[], .nil, (List.append_nil _).symm⟩
  | cons statement statements ih =>
    obtain ⟨stars, hstars, hfold⟩ := ih (addExports p unit E statement)
    rw [List.foldl_cons, hfold]
    rcases stars_addExports (p := p) unit E statement with ⟨whole, hs, h⟩ | ⟨hs, h⟩
    · exact ⟨whole :: stars, .pass hs hstars, by rw [h, List.append_assoc, List.singleton_append]⟩
    · exact ⟨stars, .skip hs hstars, by rw [h]⟩

/-! ### The relations are functions -/

theorem Stands.unique {source : Option (Option Nat)} {e e' : Export} (h : Stands source name e)
    (h' : Stands source name e') : e = e' := by
  cases h <;> cases h' <;> rfl

theorem Specifies.unique {source : Option (Option Nat)} {specifier : NodeId} {e e' : Export}
    (h : Specifies p source specifier name e) (h' : Specifies p source specifier name e') :
    e = e' := by
  obtain ⟨original, horiginal, -, hstands⟩ := h
  obtain ⟨original', horiginal', -, hstands'⟩ := h'
  obtain rfl := Option.some.inj (horiginal.symm.trans horiginal')
  exact hstands.unique hstands'

/-- The last element of a list with a property is one. -/
theorem eq_of_last {α : Type} {P : α → Prop} {before after before' after' : List α} {a b : α}
    (h : before ++ a :: after = before' ++ b :: after') (ha : P a) (hb : P b)
    (hafter : ∀ x ∈ after, ¬ P x) (hafter' : ∀ x ∈ after', ¬ P x) : a = b := by
  rcases List.append_eq_append_iff.1 h with
    ⟨_ | ⟨c, between⟩, -, hrest⟩ | ⟨_ | ⟨c, between⟩, -, hrest⟩
  · exact (List.cons.inj hrest).1
  · exact absurd hb (hafter b (by rw [(List.cons.inj hrest).2]; simp))
  · exact (List.cons.inj hrest).1.symm
  · exact absurd ha (hafter' a (by rw [(List.cons.inj hrest).2]; simp))

/-- The first element of a list with a property is one. -/
theorem eq_of_first {α : Type} {P : α → Prop} {before after before' after' : List α} {a b : α}
    (h : before ++ a :: after = before' ++ b :: after') (ha : P a) (hb : P b)
    (hbefore : ∀ x ∈ before, ¬ P x) (hbefore' : ∀ x ∈ before', ¬ P x) : a = b := by
  have hreverse :
      after.reverse ++ a :: before.reverse = after'.reverse ++ b :: before'.reverse := by
    simpa using congrArg List.reverse h
  exact eq_of_last hreverse ha hb (by simpa using hbefore) (by simpa using hbefore')

theorem Sets.unique {e e' : Export} (h : Sets p unit statement name e)
    (h' : Sets p unit statement name e') : e = e' := by
  cases h with
  | declaration hkind hd => exact ((sets_iff_of_declaration hkind hd).1 h').2.2.symm
  | name hs hv hkind | value hs hv hkind =>
    rw [sets_iff_of_value hs hv] at h'
    simp [h'.2, hkind]
  | specifier hs hclause hchildren hspecifier hlast =>
    obtain ⟨before', specifier', after', hchildren', hspecifier', hlast'⟩ :=
      (sets_iff_of_clause hs hclause).1 h'
    rw [hchildren] at hchildren'
    obtain rfl := eq_of_last (P := fun specifier =>
        ∃ e, Specifies p (sourceUnit? p unit statement) specifier name e) hchildren'
      ⟨e, hspecifier⟩ ⟨e', hspecifier'⟩ (fun x hx ⟨e, he⟩ => hlast x hx e he)
      fun x hx ⟨e, he⟩ => hlast' x hx e he
    exact hspecifier.unique hspecifier'
  | module hs hpart hsource =>
    rw [sets_iff_of_namespace hs hpart, hsource] at h'
    exact h'.2.symm
  | missing hs hpart hsource =>
    have he := ((sets_iff_of_namespace hs hpart).1 h').2
    split at he
    · next whole h => exact absurd h (hsource whole)
    · exact he.symm

theorem Declares.unique {binding binding' : NodeId} (h : Declares p statement name binding)
    (h' : Declares p statement name binding') : binding = binding' := by
  obtain ⟨d, hd, hbound⟩ := h.bound
  obtain ⟨d', hd', hbound'⟩ := h'.bound
  obtain rfl := Option.some.inj (hd.symm.trans hd')
  exact Option.some.inj (hbound.symm.trans hbound')

theorem Found.unique {statements : List NodeId} {found found' : Option Export}
    (h : Found p unit statements name found) (h' : Found p unit statements name found') :
    found = found' := by
  cases h with
  | @set before after statement e h hs hlast =>
    have hmem : statement ∈ statements := by rw [h]; simp
    cases h' with
    | @set _ _ statement' e' h' hs' hlast' =>
      obtain rfl := eq_of_last (P := fun statement => ∃ e, Sets p unit statement name e)
        (h.symm.trans h') ⟨e, hs⟩ ⟨e', hs'⟩ (fun x hx ⟨e, he⟩ => hlast x hx e he)
        fun x hx ⟨e, he⟩ => hlast' x hx e he
      rw [hs.unique hs']
    | declared _ _ hsets => exact absurd hs (hsets statement hmem e)
    | nothing hsets => exact absurd hs (hsets statement hmem e)
  | @declared before after statement binding h hs hsets hfirst =>
    have hmem : statement ∈ statements := by rw [h]; simp
    cases h' with
    | set h' hs' => exact absurd hs' (hsets _ (by rw [h']; simp) _)
    | @declared _ _ statement' binding' h' hs' hsets' hfirst' =>
      obtain rfl := eq_of_first (P := fun statement => ∃ b, Declares p statement name b)
        (h.symm.trans h') ⟨binding, hs⟩ ⟨binding', hs'⟩ (fun x hx ⟨b, hb⟩ => hfirst x hx b hb)
        fun x hx ⟨b, hb⟩ => hfirst' x hx b hb
      rw [hs.unique hs']
    | nothing _ hdeclares => exact absurd hs (hdeclares statement hmem binding)
  | nothing hsets hdeclares =>
    cases h' with
    | set h' hs' => exact absurd hs' (hsets _ (by rw [h']; simp) _)
    | declared h' hs' => exact absurd hs' (hdeclares _ (by rw [h']; simp) _)
    | nothing => rfl

theorem PassesOn.unique {whole whole' : Nat} (h : PassesOn p unit statement whole)
    (h' : PassesOn p unit statement whole') : whole = whole' :=
  Option.some.inj (Option.some.inj (h.source.symm.trans h'.source))

theorem Passed.unique {statements : List NodeId} {stars stars' : List Nat}
    (h : Passed p unit statements stars) (h' : Passed p unit statements stars') :
    stars = stars' := by
  induction h generalizing stars' with
  | nil =>
    cases h'
    rfl
  | pass hs _ ih =>
    cases h' with
    | pass hs' h' => rw [hs.unique hs', ih h']
    | skip hs' _ => exact absurd hs (hs' _)
  | skip hs _ ih =>
    cases h' with
    | pass hs' _ => exact absurd hs' (hs _)
    | skip _ h' => exact ih h'

/-- **What a unit exports under a name** is what the last of its statements that sets the name
gives, and without one what the first that declares it declares. -/
theorem get?_exports_eq_iff (p : Program) (unit : Nat) (name : String) (found : Option Export) :
    Entries.get? name (exports p unit).named = found ↔
      Found p unit (p.namedChildren (.root unit)) name found := by
  have hfound := found_foldl (p := p) (p.namedChildren (.root unit)) unit name
  constructor
  · rintro rfl
    exact hfound
  · exact hfound.unique

/-- **The units all of whose exports a unit passes on** are those of its statements, in order. -/
theorem stars_exports_eq_iff (p : Program) (unit : Nat) (stars : List Nat) :
    (exports p unit).stars = stars ↔ Passed p unit (p.namedChildren (.root unit)) stars := by
  obtain ⟨passed, hpassed, hstars⟩ := exists_passed (p := p) (p.namedChildren (.root unit)) unit {}
  rw [exports, hstars, List.nil_append]
  constructor
  · rintro rfl
    exact hpassed
  · exact hpassed.unique

end RouteContract.Names
