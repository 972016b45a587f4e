import Mathlib
import RouteContract.Proofs.Outcome
import RouteContract.Proofs.Types.Queries

/-!
# The types behind references

A type is described by a reference only when the type behind its promises is an object type, or one
that is known by its name (`ensures_ofSettled`). Such a type keeps its data and its symbols from
then on, so that it is found behind the promises in every later memory (`settle_later`). A session
therefore ends with a memory in which every reference it gave still leads to the type that it was
given for (`ensures_session`).
-/

namespace RouteContract.Types

open Schema (Gen ask ofType settle typeName? schemaName? isPromise inlineNames)

variable {p : Program} {M M' : Memory} {bound : Nat} {α β : Type}

/-! ### Computations that only read -/

/-- A computation that gives a value and leaves the memory as it is. -/
def Reads (x : Resolve α) (M : Memory) (a : α) : Prop := x.run M = some (a, M)

theorem reads_pure (a : α) : Reads (pure a) M a := rfl

theorem Reads.run_bind {x : Resolve α} {a : α} (h : Reads x M a) (f : α → Resolve β) :
    (x >>= f).run M = (f a).run M := by
  rw [StateT.run_bind, h]
  rfl

theorem Reads.bind {x : Resolve α} {f : α → Resolve β} {a : α} {b : β} (hx : Reads x M a)
    (hf : Reads (f a) M b) : Reads (x >>= f) M b := (hx.run_bind f).trans hf

theorem reads_get : Reads get M M := rfl

theorem reads_data (t : TypeId) : Reads (data t) M (M.dataOf t) := rfl

theorem Reads.run'_eq {x : Resolve α} {a : α} (h : Reads x M a) : x.run' M = some a := by
  rw [StateT.run'_eq, h]
  rfl

theorem Reads.ensures {x : Resolve α} {a : α} {Q : α → Memory → Prop} (h : Reads x M a)
    (hQ : Q a M) : Ensures x M Q := by
  refine ensures_option_iff.2 fun b M' hb => ?_
  rw [h] at hb
  cases hb
  exact hQ

theorem Reads.keeps {x : Resolve α} {a : α} {P : α → Memory → Prop} (h : Reads x M a)
    (hP : P a M) : Keeps p x M P := fun hM => h.ensures ⟨hM, ⟨.refl M, .refl M⟩, hP⟩

theorem reads_symbolName? (s : Option SymbolId) :
    Reads (Schema.symbolName? (oracleWithin p bound) s) M (s.map fun s => (M.symbolOf s).name) := by
  cases s with
  | none => rfl
  | some s => rfl

theorem reads_typeArguments (t : TypeId) :
    Reads ((oracleWithin p bound).typeArguments t) M (typeArguments (M.dataOf t)) :=
  (reads_data t).bind (reads_pure _)

/-! ### Names of types -/

/-- The symbol under whose name a type is described. -/
def namingSymbol? : TypeData → Option SymbolId
  | .object _ s through => some (through.getD s)
  | .named s _ => some s
  | _ => none

/-- The name of the symbol that names a type. -/
def Memory.nameOf? (M : Memory) (t : TypeId) : Option String :=
  match M.dataOf t with
  | .object _ s _ => some (M.symbolOf s).name
  | .named s _ => some (M.symbolOf s).name
  | .enum s => some (M.symbolOf s).name
  | _ => none

/-- A type is described under a name: that of its alias, else its own. -/
def Memory.DescribedAs (M : Memory) (t : TypeId) (name : String) : Prop :=
  ∃ s, namingSymbol? (M.dataOf t) = some s ∧ (M.symbolOf s).name = name

/-- The types whose symbol is made up when it is asked for. -/
def IsUnnamed (d : TypeData) : Prop := (∃ element, d = .array element) ∨ ∃ decl, d = .function decl

theorem Sound.builtin_name (hM : Sound p M) {s : SymbolId} {name : String}
    (h : M.keyOf? s = some (.builtin name)) : (M.symbolOf s).name = name := by
  obtain ⟨sym, hs, hkey⟩ := Option.map_eq_some_iff.1 h
  have hfits := hM.symbols s sym hs
  rw [SymbolFits, hkey] at hfits
  rw [Memory.symbolOf_of_getElem? hs, hfits]

theorem reads_typeName? {t : TypeId} (h : ¬ IsUnnamed (M.dataOf t)) :
    Reads (typeName? (oracleWithin p bound) t) M (M.nameOf? t) := by
  unfold Memory.nameOf?
  have htype : ∀ s, Reads (typeSymbol t) M s → Reads (typeName? (oracleWithin p bound) t) M
      (s.map fun s => (M.symbolOf s).name) := by
    intro s hs
    exact hs.bind (reads_symbolName? s)
  cases hd : M.dataOf t with
  | array element => exact absurd (Or.inl ⟨element, hd⟩) h
  | function decl => exact absurd (Or.inr ⟨decl, hd⟩) h
  | object key s through =>
    refine htype (some s) ((reads_data t).bind ?_)
    rw [hd]
    exact reads_pure _
  | named s args =>
    refine htype (some s) ((reads_data t).bind ?_)
    rw [hd]
    exact reads_pure _
  | enum s =>
    refine htype (some s) ((reads_data t).bind ?_)
    rw [hd]
    exact reads_pure _
  | _ =>
    refine htype none ((reads_data t).bind ?_)
    rw [hd]
    exact reads_pure _

/-- The name that is made up for an array or a function. -/
theorem keeps_typeName?_made {t : TypeId} {name : String}
    (h : Keeps p (typeSymbol t) M fun s M' =>
      ∃ i, s = some i ∧ M'.keyOf? i = some (.builtin name)) :
    Keeps p (typeName? (oracleWithin p bound) t) M fun found _ => found = some name := by
  refine h.bind fun s M₁ _ ⟨i, hi, hkey⟩ => ?_
  subst hi
  refine Keeps.bind (P := fun found _ => found = name) ?_ fun found M₂ _ hfound => ?_
  · refine keeps_of_sound fun hM₁ => keeps_symbol_bind (keeps_pure ?_)
    exact hM₁.builtin_name hkey
  · subst hfound
    exact keeps_pure rfl

theorem keeps_typeName?_array {t element : TypeId} (hd : M.dataOf t = .array element) :
    Keeps p (typeName? (oracleWithin p bound) t) M fun found _ => found = some "Array" := by
  refine keeps_typeName?_made (keeps_data_bind ?_)
  rw [hd]
  exact (keeps_builtinSymbol _).bind fun s M' _ hs => keeps_pure ⟨s, rfl, hs⟩

theorem keeps_typeName?_function {t : TypeId} {decl : Option NodeId}
    (hd : M.dataOf t = .function decl) :
    Keeps p (typeName? (oracleWithin p bound) t) M fun found _ => found = some "__function" := by
  refine keeps_typeName?_made (keeps_data_bind ?_)
  rw [hd]
  exact (keeps_builtinSymbol _).bind fun s M' _ hs => keeps_pure ⟨s, rfl, hs⟩

/-! ### Behind promises -/

theorem Memory.Extends.dataOf (hE : M.Extends M') {t : TypeId} {d : TypeData}
    (h : M.dataOf t = d) (hd : d ≠ .any) : M'.dataOf t = d :=
  dataOf_of_getElem? (hE.types t d (getElem?_of_dataOf h hd))

theorem Memory.Extends.symbolOf (hE : M.Extends M') {s : SymbolId} (hs : SymbolIn s M) :
    M'.symbolOf s = M.symbolOf s := by
  have h := Array.getElem?_eq_getElem hs
  rw [symbolOf_of_getElem? (hE.symbols s _ h), symbolOf_of_getElem? h]

/-- The symbols of an object type are in the table. -/
theorem Sound.object_symbols (hM : Sound p M) {t : TypeId} {key : ObjectKey} {s : SymbolId}
    {through : Option SymbolId} (h : M.dataOf t = .object key s through) :
    SymbolIn s M ∧ SymbolIn? through M := by
  have hfits := (hM.fits h TypeData.noConfusion).2
  cases key with
  | declared d args =>
    obtain ⟨rfl, -, hkey, -⟩ := hfits
    exact ⟨symbolIn_of_keyOf? hkey, symbolIn?_none⟩
  | literal v env =>
    refine ⟨symbolIn_of_keyOf? hfits.2.1, fun a ha => ?_⟩
    obtain ⟨d, hkey, -⟩ := hfits.2.2 a ha
    exact symbolIn_of_keyOf? hkey
  | value v =>
    obtain ⟨rfl, hkey⟩ := hfits
    exact ⟨symbolIn_of_keyOf? hkey, symbolIn?_none⟩
  | allOptional inner =>
    obtain ⟨rfl, -, hkey⟩ := hfits
    exact ⟨symbolIn_of_keyOf? hkey, symbolIn?_none⟩

theorem Sound.named_symbol (hM : Sound p M) {t : TypeId} {s : SymbolId} {args : List TypeId}
    (h : M.dataOf t = .named s args) : SymbolIn s M := by
  obtain ⟨-, name, hkey⟩ := (hM.fits h TypeData.noConfusion).2
  exact symbolIn_of_keyOf? hkey

/-- A type that is described under a name has the same data and the same names later. -/
theorem Sound.naming_later (hM : Sound p M) {t : TypeId} {s : SymbolId}
    (hd : namingSymbol? (M.dataOf t) = some s) (hE : M.Extends M') :
    M'.dataOf t = M.dataOf t ∧ M'.nameOf? t = M.nameOf? t ∧ M'.symbolOf s = M.symbolOf s := by
  cases h : M.dataOf t with
  | object key own through =>
    have hin := hM.object_symbols h
    have h' := hE.dataOf h TypeData.noConfusion
    rw [h] at hd
    refine ⟨h', ?_, ?_⟩
    · rw [Memory.nameOf?, Memory.nameOf?, h', h]
      exact congrArg (some ·.name) (hE.symbolOf hin.1)
    · cases through with
      | none => cases hd; exact hE.symbolOf hin.1
      | some a => cases hd; exact hE.symbolOf (hin.2 a rfl)
  | named own args =>
    have hin := hM.named_symbol h
    have h' := hE.dataOf h TypeData.noConfusion
    rw [h] at hd
    cases hd
    refine ⟨h', ?_, hE.symbolOf hin⟩
    rw [Memory.nameOf?, Memory.nameOf?, h', h]
    exact congrArg (some ·.name) (hE.symbolOf hin)
  | _ => rw [h] at hd; cases hd

/-- One promise is taken off, or none is there. -/
theorem run_settle_succ {t : TypeId} (h : ¬ IsUnnamed (M.dataOf t)) (fuel : Nat) :
    (settle (oracleWithin p bound) (fuel + 1) t).run M =
      if isPromise (M.nameOf? t) then
        match (typeArguments (M.dataOf t)).head? with
        | some inner => (settle (oracleWithin p bound) fuel inner).run M
        | none => some (none, M)
      else some (some (t, M.nameOf? t), M) := by
  rw [settle, (reads_typeName? h).run_bind]
  split
  · rw [(reads_typeArguments t).run_bind]
    cases (typeArguments (M.dataOf t)).head? with
    | some inner => rfl
    | none => rfl
  · rfl

/-- Among the types that are not described under a name only an enum can have that of a promise. -/
theorem typeArguments_of_isPromise {t : TypeId} (hd : namingSymbol? (M.dataOf t) = none)
    (h : isPromise (M.nameOf? t)) : typeArguments (M.dataOf t) = [] := by
  unfold Memory.nameOf? at h
  split at h
  · next heq =>
    rw [heq] at hd
    cases hd
  · next heq =>
    rw [heq] at hd
    cases hd
  · next heq =>
    rw [heq]
    rfl
  · cases h

/-- A type that is not described under a name has none behind its promises. -/
theorem keeps_settle_other {t : TypeId} (hd : namingSymbol? (M.dataOf t) = none) (fuel : Nat) :
    Keeps p (settle (oracleWithin p bound) fuel t) M fun settled M' =>
      ∀ r, settled = some r → namingSymbol? (M'.dataOf r.1) = none := by
  cases fuel with
  | zero => exact keeps_pure (by simp)
  | succ fuel =>
    -- asking for the name of an array or a function adds a symbol, but not that of a promise
    have made : ∀ {name : String} {d : TypeData}, isPromise (some name) = false → d ≠ .any →
        M.dataOf t = d →
        Keeps p (typeName? (oracleWithin p bound) t) M (fun found _ => found = some name) →
        Keeps p (settle (oracleWithin p bound) (fuel + 1) t) M fun settled M' =>
          ∀ r, settled = some r → namingSymbol? (M'.dataOf r.1) = none := by
      intro name d hname hany hdata hkeeps
      refine hkeeps.bind fun found M₁ hE hfound => ?_
      subst hfound
      rw [if_neg (by simp [hname])]
      refine keeps_pure ?_
      rintro r hr
      cases hr
      rw [hE.dataOf hdata hany, ← hdata]
      exact hd
    by_cases hun : IsUnnamed (M.dataOf t)
    · rcases hun with ⟨element, h⟩ | ⟨decl, h⟩
      · exact made (by decide) TypeData.noConfusion h (keeps_typeName?_array h)
      · exact made (by decide) TypeData.noConfusion h (keeps_typeName?_function h)
    · refine fun hM => ensures_option_iff.2 fun settled M₁ h => ?_
      rw [run_settle_succ hun] at h
      split at h
      · next hp =>
        rw [typeArguments_of_isPromise hd hp] at h
        cases h
        exact ⟨hM, ⟨.refl M, .refl M⟩, by simp⟩
      · cases h
        refine ⟨hM, ⟨.refl M, .refl M⟩, ?_⟩
        rintro r hr
        cases hr
        exact hd

theorem keeps_typeName? (t : TypeId) :
    Keeps p (typeName? (oracleWithin p bound) t) M fun found M' =>
      ∀ element, M'.dataOf t = .array element → found = some "Array" := by
  by_cases hun : IsUnnamed (M.dataOf t)
  · rcases hun with ⟨element, h⟩ | ⟨decl, h⟩
    · exact (keeps_typeName?_array h).imp fun found _ _ _ hfound _ _ => hfound
    · refine (keeps_typeName?_function h).imp fun found M' _ hE _ element helement => ?_
      rw [hE.dataOf h TypeData.noConfusion] at helement
      cases helement
  · refine (reads_typeName? hun).keeps fun element h => ?_
    exact absurd (Or.inl ⟨element, h⟩) hun

/-- Behind the promises of a type, an array is found by its name. -/
theorem keeps_settle (fuel : Nat) (t : TypeId) :
    Keeps p (settle (oracleWithin p bound) fuel t) M fun settled M' =>
      ∀ r, settled = some r → ∀ element, M'.dataOf r.1 = .array element → r.2 = some "Array" := by
  induction fuel generalizing t M with
  | zero => exact keeps_pure (by simp)
  | succ fuel ih =>
    refine (keeps_typeName? t).bind fun found M₁ _ hfound => ?_
    split
    · refine ((closed_kept p bound).typeArguments t M₁).bind fun arguments M₂ _ _ => ?_
      split
      · exact ih _
      · exact keeps_pure (by simp)
    · refine keeps_pure ?_
      rintro r hr
      cases hr
      exact hfound

/-- What is found behind the promises of a type, when it is described under a name, is found there
in every later memory. -/
theorem settle_later (hM : Sound p M) {fuel : Nat} {t : TypeId} {r : TypeId × Option String}
    {M₁ : Memory}
    (h : (settle (oracleWithin p bound) fuel t).run M = some (some r, M₁))
    (hr : namingSymbol? (M₁.dataOf r.1) ≠ none) (hE : M.Extends M') :
    Reads (settle (oracleWithin p bound) fuel t) M' (some r) := by
  -- along the promises every type has a symbol, so each step reads the same in both memories
  induction fuel generalizing t with
  | zero => cases h
  | succ fuel ih =>
    cases hd : namingSymbol? (M.dataOf t) with
    | none =>
      have hother := ensures_option_iff.1 (keeps_settle_other hd (fuel + 1) hM) _ _ h
      exact absurd (hother.2.2 r rfl) hr
    | some s =>
      obtain ⟨hdata, hname, -⟩ := hM.naming_later hd hE
      have hun : ¬ IsUnnamed (M.dataOf t) := by
        rintro (⟨_, h⟩ | ⟨_, h⟩) <;> rw [h] at hd <;> cases hd
      rw [run_settle_succ hun] at h
      rw [Reads, run_settle_succ (hdata ▸ hun), hdata, hname]
      split
      · next hp =>
        rw [if_pos hp] at h
        split
        · next inner hi =>
          rw [hi] at h
          exact ih h
        · next hi =>
          rw [hi] at h
          cases h
      · next hp =>
        rw [if_neg hp] at h
        cases h
        rfl

/-! ### What is described by a reference -/

section Plain

variable {m : Type → Type} [Monad m] [LawfulMonad m] {o : Oracle m} {sub : TypeId → Gen m Schema}
  {T : Entries Schema}

theorem ofShape?_reference {shape : TypeShape} {s : Schema} (h : Schema.ofShape? shape = some s) :
    s.reference = none := by
  cases shape <;> cases h <;> rfl

theorem ofEnum_reference (values : List Json) : (Schema.ofEnum values).reference = none := by
  cases values <;> rfl

theorem ensures_ofUnion_reference (t : TypeId) :
    Ensures (Schema.ofUnion o sub t) T fun s _ => s.reference = none := by
  refine ensures_lift_bind fun members => ensures_lift_bind fun shapes => ?_
  split
  · exact ensures_pure rfl
  · exact (ensures_of_forall fun _ _ => trivial).bind fun _ _ _ => ensures_pure rfl

theorem ensures_addProperty_reference {s : Schema} (hs : s.reference = none)
    (property : SymbolId) :
    Ensures (Schema.addProperty o sub s property) T fun s' _ => s'.reference = none := by
  refine ensures_lift_bind fun name => ?_
  split
  · exact ensures_pure hs
  refine ensures_lift_bind fun container => ?_
  split
  · exact ensures_pure hs
  refine ensures_lift_bind fun t => ensures_lift_bind fun count => ?_
  split
  · exact ensures_pure hs
  refine ensures_lift_bind fun shape => ?_
  split
  · exact ensures_pure hs
  refine ensures_lift_bind fun isOptional => ?_
  refine (ensures_of_forall fun _ _ => trivial).bind fun described T' _ => ?_
  exact ensures_lift_bind fun doc => ensures_pure hs

theorem ensures_ofObject_reference (t : TypeId) :
    Ensures (Schema.ofObject o sub t) T fun s _ => s.reference = none :=
  ensures_lift_bind fun properties =>
    ensures_foldlM properties (fun _ _ property hs => ensures_addProperty_reference hs property) rfl

theorem ensures_ofNamed_eq (name : String) (t : TypeId) :
    Ensures (Schema.ofNamed o sub name t) T fun s _ => s = Schema.referring name := by
  refine ensures_get_bind ?_
  split
  · exact ensures_pure rfl
  refine ensures_modify_bind ((ensures_of_forall fun _ _ => trivial).bind fun definition T' _ => ?_)
  exact ensures_modify_bind (ensures_pure rfl)

end Plain

theorem referencePath_injective : Function.Injective Schema.referencePath := by
  intro a b h
  exact (String.append_right_inj _).1 h

section Resolved

variable {sub : TypeId → Gen Resolve Schema} {T : Entries Schema}

/-- What every outcome of a description has, whatever the oracle says, it has with a resolver. -/
theorem ensures_run {x : Gen Resolve α} {Q : α → Prop} (h : Ensures x T fun a _ => Q a) :
    Ensures (x.run T) M fun r _ => Q r.1 :=
  SatisfiesM_StateT_eq.1 h M

/-- A question leaves the table as it is. -/
theorem run_ask_bind (q : Resolve α) (f : α → Gen Resolve β) :
    (ask q >>= f).run T = q >>= fun a => (f a).run T := by
  rw [StateT.run_bind, ask, StateT.run_lift, bind_assoc]
  simp only [pure_bind]

theorem run'_run' (x : Gen Resolve α) :
    (x.run' T).run' M = ((x.run T).run M).map fun r => r.1.1 := by
  rw [StateT.run'_eq, StateT.run'_eq, StateT.run_map]
  cases (x.run T).run M with
  | none => rfl
  | some r => rfl

theorem ensures_ask_bind {q : Resolve α} {f : α → Gen Resolve β} {P : α → Memory → Prop}
    {Q : β × Entries Schema → Memory → Prop} (hq : Ensures q M P)
    (hf : ∀ a M', P a M' → Ensures ((f a).run T) M' Q) : Ensures ((ask q >>= f).run T) M Q := by
  rw [run_ask_bind]
  exact hq.bind hf

theorem ensures_reads_bind {q : Resolve α} {f : α → Gen Resolve β} {a : α}
    {Q : β × Entries Schema → Memory → Prop} (hq : Reads q M a)
    (hf : Ensures ((f a).run T) M Q) : Ensures ((ask q >>= f).run T) M Q := by
  refine ensures_ask_bind (hq.ensures (Q := fun b M' => b = a ∧ M' = M) ⟨rfl, rfl⟩) ?_
  rintro b M' ⟨rfl, rfl⟩
  exact hf

/-- A schema refers only to a name outside the list of inline names that has a property. -/
def RefersTo (P : String → Prop) (s : Schema) : Prop :=
  ∀ name, s.reference = some (Schema.referencePath name) → name ∉ inlineNames ∧ P name

theorem refersTo_of_none {P : String → Prop} {s : Schema} (h : s.reference = none) :
    RefersTo P s := fun name hname => by
  rw [h] at hname
  cases hname

theorem ensures_unreferenced {P : String → Prop} {x : Gen Resolve Schema}
    (h : Ensures x T fun s _ => s.reference = none) :
    Ensures (x.run T) M fun r _ => RefersTo P r.1 :=
  (ensures_run h).imp fun _ _ hr => refersTo_of_none hr

theorem ensures_ofObjectLike {P : String → Prop} {t : TypeId}
    (hname : Ensures (schemaName? (oracleWithin p bound) t) M fun found _ =>
      ∀ name ∉ inlineNames, found = some name → P name) :
    Ensures ((Schema.ofObjectLike (oracleWithin p bound) sub t).run T) M fun r _ =>
      RefersTo P r.1 := by
  refine ensures_ask_bind hname fun found M' hfound => ?_
  split
  · next name =>
    split
    · exact ensures_unreferenced (ensures_pure rfl)
    split
    · exact ensures_unreferenced (ensures_ofObject_reference t)
    · next hinline =>
      refine (ensures_run (ensures_ofNamed_eq name t)).imp fun r _ hr other hother => ?_
      rw [hr] at hother
      cases referencePath_injective (Option.some.inj hother)
      have hnot : name ∉ inlineNames := fun h => hinline (List.contains_iff_mem.2 h)
      exact ⟨hnot, hfound name hnot rfl⟩
  · exact ensures_unreferenced (ensures_ofObject_reference t)

theorem reads_aliasSymbol (t : TypeId) : Reads ((oracleWithin p bound).aliasSymbol t) M
    (match M.dataOf t with
      | .object _ _ through => through
      | _ => none) := by
  refine (reads_data t).bind ?_
  cases M.dataOf t with
  | object key s through => exact reads_pure _
  | _ => exact reads_pure _

theorem reads_schemaName? {t : TypeId} {s : SymbolId} (hs : namingSymbol? (M.dataOf t) = some s) :
    Reads (schemaName? (oracleWithin p bound) t) M (some (M.symbolOf s).name) := by
  refine (reads_aliasSymbol t).bind ?_
  have own : ∀ i, ¬ IsUnnamed (M.dataOf t) → M.nameOf? t = some (M.symbolOf i).name →
      Reads (typeName? (oracleWithin p bound) t) M (some (M.symbolOf i).name) := by
    intro i hun hname
    exact hname ▸ reads_typeName? hun
  cases h : M.dataOf t with
  | object key i through =>
    rw [h] at hs
    cases through with
    | some a =>
      cases hs
      exact reads_symbolName? (some a)
    | none =>
      cases hs
      exact own i (by simp [IsUnnamed, h]) (by simp [Memory.nameOf?, h])
  | named i args =>
    rw [h] at hs
    cases hs
    exact own s (by simp [IsUnnamed, h]) (by simp [Memory.nameOf?, h])
  | _ => rw [h] at hs; cases hs

/-- The name under which an object or function type is described, unless that is done in place. -/
theorem ensures_schemaName? (hM : Sound p M) {t : TypeId}
    (hd : namingSymbol? (M.dataOf t) ≠ none ∨ ∃ decl, M.dataOf t = .function decl) :
    Ensures (schemaName? (oracleWithin p bound) t) M fun found _ =>
      ∀ name ∉ inlineNames, found = some name → M.DescribedAs t name := by
  rcases hd with hd | ⟨decl, hd⟩
  · obtain ⟨s, hs⟩ := Option.ne_none_iff_exists'.1 hd
    exact (reads_schemaName? hs).ensures fun name _ hname => ⟨s, hs, Option.some.inj hname⟩
  · have halias : Reads ((oracleWithin p bound).aliasSymbol t) M none := by
      refine (reads_data t).bind ?_
      rw [hd]
      exact reads_pure _
    refine ensures_option_iff.2 fun found M' h name hnot hname => ?_
    rw [schemaName?, halias.run_bind] at h
    have hfun := ensures_option_iff.1 (keeps_typeName?_function hd hM) found M' h
    rw [hfun.2.2] at hname
    cases hname
    exact absurd (by decide) hnot

theorem ensures_ofSettled (hM : Sound p M) {t : TypeId} {name : Option String}
    (hname : ∀ element, M.dataOf t = .array element → name = some "Array") :
    Ensures ((Schema.ofSettled (oracleWithin p bound) sub t name).run T) M fun r _ =>
      RefersTo (M.DescribedAs t) r.1 := by
  have hshape : Reads ((oracleWithin p bound).shape t) M (shapeOf (M.dataOf t)) :=
    (reads_data t).bind (reads_pure _)
  refine ensures_reads_bind hshape ?_
  split
  · next s hs => exact ensures_unreferenced (ensures_pure (ofShape?_reference hs))
  split
  · exact ensures_unreferenced (ensures_pure rfl)
  have htuple : ∃ isTuple, Reads ((oracleWithin p bound).isTuple t) M isTuple ∧
      ∀ elements, M.dataOf t = .tuple elements → isTuple = true := by
    cases hd : M.dataOf t with
    | tuple elements =>
      refine ⟨true, (reads_data t).bind ?_, fun _ _ => rfl⟩
      rw [hd]
      exact reads_pure _
    | _ =>
      refine ⟨false, (reads_data t).bind ?_, fun _ h => by cases h⟩
      rw [hd]
      exact reads_pure _
  obtain ⟨isTuple, hreads, htuple⟩ := htuple
  refine ensures_reads_bind hreads ?_
  split
  · refine ensures_unreferenced (ensures_lift_bind fun arguments => ?_)
    split
    · exact (ensures_of_forall fun _ _ => trivial).bind fun _ _ _ => ensures_pure rfl
    · exact (ensures_of_forall fun _ _ => trivial).bind fun _ _ _ => ensures_pure rfl
  next hcond =>
  -- arrays and tuples are described above, which leaves object, named and function types
  have like : shapeOf (M.dataOf t) = .object ∨ shapeOf (M.dataOf t) = .function →
      Ensures ((Schema.ofObjectLike (oracleWithin p bound) sub t).run T) M fun r _ =>
        RefersTo (M.DescribedAs t) r.1 := by
    intro hs
    refine ensures_ofObjectLike (ensures_schemaName? hM ?_)
    cases hd : M.dataOf t with
    | array element => exact absurd (by simp [hname element hd]) hcond
    | tuple elements => exact absurd (by simp [htuple elements hd]) hcond
    | object key s through => exact Or.inl (Option.some_ne_none _)
    | named s args => exact Or.inl (Option.some_ne_none _)
    | function decl => exact Or.inr ⟨decl, rfl⟩
    | _ => rw [hd] at hs; rcases hs with hs | hs <;> cases hs
  split
  · exact ensures_unreferenced (ensures_lift_bind fun _ => ensures_pure (ofEnum_reference _))
  · exact ensures_unreferenced (ensures_ofUnion_reference t)
  · refine ensures_unreferenced (ensures_lift_bind fun members => ?_)
    exact (ensures_of_forall fun _ _ => trivial).bind fun _ _ _ => ensures_pure rfl
  · exact ensures_unreferenced (ensures_pure rfl)
  · exact ensures_unreferenced (ensures_pure rfl)
  · exact ensures_unreferenced (ensures_pure rfl)
  · next h => exact like (Or.inl h)
  · next h => exact like (Or.inr h)
  · exact ensures_unreferenced (ensures_pure rfl)

end Resolved

/-! ### Sessions -/

/-- A reference to a name is right for a type: behind the promises of the type stands one that is
described under the name. -/
structure Denotes (p : Program) (bound : Nat) (M : Memory) (name : String) (t u : TypeId) :
    Prop where
  settled : ∃ own, Reads (settle (oracleWithin p bound) (t + 1) t) M (some (u, own))
  described : M.DescribedAs u name
  notInline : name ∉ inlineNames

theorem Denotes.mono {name : String} {t u : TypeId} (h : Denotes p bound M name t u)
    (hM : Sound p M) (hE : M.Extends M') : Denotes p bound M' name t u := by
  obtain ⟨⟨own, hsettled⟩, ⟨s, hs, hname⟩, hnot⟩ := h
  obtain ⟨hdata, -, hsymbol⟩ := hM.naming_later hs hE
  refine ⟨⟨own, settle_later hM hsettled ?_ hE⟩, ⟨s, hdata ▸ hs, hsymbol ▸ hname⟩, hnot⟩
  rw [hs]
  exact Option.some_ne_none _

/-- The references among the described types are right for them. -/
def Denoted (p : Program) (bound : Nat) (M : Memory) (log : List (TypeId × Schema)) : Prop :=
  ∀ e ∈ log, ∀ name, e.2.reference = some (Schema.referencePath name) →
    ∃ u, Denotes p bound M name e.1 u

theorem denoted_singleton {t : TypeId} {s : Schema} :
    Denoted p bound M [(t, s)] ↔ ∀ name, s.reference = some (Schema.referencePath name) →
      ∃ u, Denotes p bound M name t u := by
  simp [Denoted]

theorem denoted_of_none {t : TypeId} {s : Schema} (h : s.reference = none) :
    Denoted p bound M [(t, s)] := by
  refine denoted_singleton.2 fun name hname => ?_
  rw [h] at hname
  cases hname

/-- A description, from a sound memory. -/
theorem ensures_ofTypeWithin (hM : Sound p M) (left : Nat) (t : TypeId) (T : Entries Schema) :
    Ensures ((Schema.ofTypeWithin (oracleWithin p bound) left t).run T) M fun r M' =>
      (Sound p M' ∧ M.Extends M') ∧ Denoted p bound M' [(t, r.1)] := by
  cases left with
  | zero => exact ensures_pure ⟨⟨hM, .refl M⟩, denoted_of_none rfl⟩
  | succ left =>
    refine ensures_ask_bind (ensures_option_iff.2 fun settled M₁ h => h) fun settled M₁ hrun => ?_
    obtain ⟨hM₁, ⟨hE₁, -⟩, harray⟩ := ensures_option_iff.1 (keeps_settle _ t hM) settled M₁ hrun
    split
    · next u own =>
      have hkept := (closed_kept p bound).asks_ofSettled
        ((closed_kept p bound).asks_ofTypeWithin left) u own T M₁ hM₁
      refine (hkept.and (ensures_ofSettled hM₁ (harray _ rfl))).imp ?_
      rintro r M₂ ⟨⟨hM₂, ⟨hE₂, -⟩, -⟩, hrefers⟩
      refine ⟨⟨hM₂, hE₁.trans hE₂⟩, denoted_singleton.2 fun name hname => ?_⟩
      obtain ⟨hnot, s, hs, hnamed⟩ := hrefers name hname
      -- the type behind the promises was found before its description began
      have hfound : Denotes p bound M₁ name t u :=
        ⟨⟨own, settle_later hM hrun (by rw [hs]; exact Option.some_ne_none _) hE₁⟩,
          ⟨s, hs, hnamed⟩, hnot⟩
      exact ⟨u, hfound.mono hM₁ hE₂⟩
    · exact ensures_pure ⟨⟨hM₁, hE₁⟩, denoted_of_none rfl⟩

/-- One request, from a sound memory. -/
theorem ensures_perform (hM : Sound p M) (request : Request) (T : Entries Schema) :
    Ensures ((Schema.perform (oracleWithin p bound) request).run T) M fun r M' =>
      (Sound p M' ∧ M.Extends M') ∧ Denoted p bound M' r.1 := by
  cases request with
  | ask question =>
    refine ensures_ask_bind ((closed_kept p bound).pose question M hM) ?_
    rintro _ M' ⟨hM', ⟨hE, -⟩, -⟩
    exact ensures_pure ⟨⟨hM', hE⟩, fun e he => absurd he List.not_mem_nil⟩
  | describe t =>
    rw [Schema.perform, StateT.run_bind]
    refine (ensures_ofTypeWithin hM _ t T).bind fun r M' h => ?_
    exact ensures_pure h

/-- The references of a session are right for their types at its end. -/
theorem ensures_session (hM : Sound p M) (requests : List Request) (T : Entries Schema) :
    Ensures ((Schema.session (oracleWithin p bound) requests).run T) M fun r M' =>
      (Sound p M' ∧ M.Extends M') ∧ Denoted p bound M' r.1 := by
  induction requests generalizing M T with
  | nil => exact ensures_pure ⟨⟨hM, .refl M⟩, fun e he => absurd he List.not_mem_nil⟩
  | cons request rest ih =>
    rw [Schema.session, StateT.run_bind]
    refine (ensures_perform hM request T).bind fun r M₁ ⟨⟨hM₁, hE₁⟩, hr⟩ => ?_
    rw [StateT.run_bind]
    refine (ih hM₁ r.2).bind fun r' M₂ ⟨⟨hM₂, hE₂⟩, hr'⟩ => ?_
    refine ensures_pure ⟨⟨hM₂, hE₁.trans hE₂⟩, fun e he name hname => ?_⟩
    rcases List.mem_append.1 he with he | he
    -- a reference of the first request is still right after the rest of the session
    · obtain ⟨u, hu⟩ := hr e he name hname
      exact ⟨u, hu.mono hM₁ hE₂⟩
    · exact hr' e he name hname

end RouteContract.Types
