import Mathlib
import RouteContract.Proofs.Types.Alternatives

/-!
# Widened types and present types

Widening gives a type without literals, and `nonNullable` one without `null` and `undefined`; both
make a union anew from what they leave of its members. What they come to is steady
(`Memory.Steady`): it has only data of the kind that is left, and a union is made again from its
own members as the same handle, since these are flat, each stands there once and both truth values
are not among them. So both do nothing to what they gave, also in later memories
(`widen_nonNullable_settle`).
-/

namespace RouteContract.Types

variable {p : Program} {M M' K : Memory}

/-! ### Kinds of data -/

/-- Whether data is no literal. -/
def isWide : TypeData → Bool
  | .stringLit _ => false
  | .numberLit _ => false
  | .booleanLit _ => false
  | _ => true

/-- A type has data of a kind, and so has every member when it is a union. -/
structure Memory.Only (M : Memory) (kind : TypeData → Bool) (t : TypeId) : Prop where
  itself : kind (M.dataOf t) = true
  members : ∀ members, M.dataOf t = .union members → ∀ m ∈ members, kind (M.dataOf m) = true

/-- The members of a union that was made of them: each stands there once, and the truth values have
handles. -/
structure Memory.Remade (M : Memory) (members : List TypeId) : Prop where
  isUnion : M.IsUnion members
  nodup : members.Nodup
  truth : ∃ yes no, M.dataOf yes = .booleanLit true ∧ M.dataOf no = .booleanLit false

/-- A type in the table that has only data of a kind, and is made again when it is a union. -/
structure Memory.Steady (M : Memory) (kind : TypeData → Bool) (t : TypeId) : Prop where
  typeIn : TypeIn t M
  only : M.Only kind t
  remade : ∀ members, M.dataOf t = .union members → M.Remade members

theorem Memory.Remade.mono {members : List TypeId} (h : M.Remade members)
    (hE : M.Extends M') : M'.Remade members := by
  obtain ⟨yes, no, hyes, hno⟩ := h.truth
  exact ⟨h.isUnion.mono hE, h.nodup, yes, no, hE.dataOf hyes TypeData.noConfusion,
    hE.dataOf hno TypeData.noConfusion⟩

/-- What is steady stays so. -/
theorem Memory.Steady.mono {kind : TypeData → Bool} {t : TypeId} (h : M.Steady kind t)
    (hE : M.Extends M') : M'.Steady kind t := by
  have hd := hE.dataOf_eq h.typeIn
  refine ⟨h.typeIn.mono hE, ⟨hd ▸ h.only.itself, fun members hm m hmem => ?_⟩, fun members hm => ?_⟩
  · rw [hd] at hm
    rw [((h.remade members hm).isUnion.mayJoin m hmem).dataOf_eq hE]
    exact h.only.members members hm m hmem
  · rw [hd] at hm
    exact (h.remade members hm).mono hE

theorem typeIn_of_dataOf {t : TypeId} {d : TypeData} (h : M.dataOf t = d) (hd : d ≠ .any) :
    TypeIn t M := typeIn_of_getElem? (Memory.getElem?_of_dataOf h hd)

/-- Data that no union has is steady by itself. -/
theorem steady_of_not_union {kind : TypeData → Bool} {t : TypeId} (ht : TypeIn t M)
    (hkind : kind (M.dataOf t) = true) (hunion : ∀ members, M.dataOf t ≠ .union members) :
    M.Steady kind t :=
  ⟨ht, ⟨hkind, fun members hd => absurd hd (hunion members)⟩,
    fun members hd => absurd hd (hunion members)⟩

/-! ### Unions that are made again -/

/-- Types that may be members are their own flattened members. -/
theorem flattened_of_mayJoin {types : List TypeId} (h : ∀ m ∈ types, M.MayJoin m) :
    M.flattened types = types.eraseDups := by
  have hparts : ∀ m ∈ types, M.parts m = [m] := by
    intro m hm
    obtain ⟨-, hnever, hunion⟩ := h m hm
    unfold Memory.parts
    split
    · next inner hd => exact absurd hd (hunion inner)
    · next hd => exact absurd hd hnever
    · rfl
  rw [Memory.flattened, List.flatMap_congr hparts, List.flatMap_singleton']

theorem eraseDups_of_nodup {types : List TypeId} (h : types.Nodup) : types.eraseDups = types := by
  induction types using List.reverseRecOn with
  | nil => rfl
  | append_singleton types t ih =>
    obtain ⟨htypes, -, hnew⟩ := List.nodup_append.1 h
    rw [eraseDups_concat, if_neg fun ht => hnew t ht t (List.mem_singleton_self t) rfl, ih htypes]

theorem Memory.TypesOnce.reads_intern (hM : M.TypesOnce) {t : TypeId} {d : TypeData}
    (ht : M.dataOf t = d) (hd : d ≠ .any) : Reads (intern d) M t :=
  run_intern_of_once hM (Memory.getElem?_of_dataOf ht hd)

/-- A union is made again from its members. -/
theorem Memory.Remade.reads_makeUnion {members : List TypeId} (h : M.Remade members)
    (hM : M.TypesOnce) {t : TypeId} (ht : M.dataOf t = .union members) :
    Reads (makeUnion members) M t := by
  have hflat : M.flattened members = members := by
    rw [flattened_of_mayJoin h.isUnion.mayJoin, eraseDups_of_nodup h.nodup]
  have hsome : .any ∉ members.map M.dataOf := by
    intro hany
    obtain ⟨m, hm, hd⟩ := List.mem_map.1 hany
    exact (h.isUnion.mayJoin m hm).1 hd
  obtain ⟨yes, no, hyes, hno⟩ := h.truth
  have hboth : ¬ (yes ∈ members ∧ no ∈ members) := fun ⟨hy, hn⟩ =>
    h.isUnion.literals yes hy no hn ⟨hyes, hno⟩
  unfold makeUnion
  refine (hflat ▸ reads_flatten members).bind ((reads_mapM reads_data members).bind ?_)
  rw [if_neg hsome]
  refine (hM.reads_intern hyes TypeData.noConfusion).bind
    ((hM.reads_intern hno TypeData.noConfusion).bind ?_)
  rw [if_neg hboth, pure_bind]
  -- two members at least are left
  have htwo := h.isUnion.two_le
  match members, htwo with
  | _ :: _ :: _, _ => exact hM.reads_intern ht TypeData.noConfusion

/-- A kind of data that `never` and unions have. -/
structure CoversUnions (kind : TypeData → Bool) : Prop where
  never : kind .never = true
  union : ∀ members, kind (.union members) = true

section

variable {kind : TypeData → Bool} (hkind : CoversUnions kind)
include hkind

/-- What is made of distinct members of a kind is steady. -/
theorem steady_of_madeOf {left : List TypeId} {t : TypeId} (hmade : M.MadeOf t left)
    (hjoin : ∀ m ∈ left, M.MayJoin m) (hleft : ∀ m ∈ left, kind (M.dataOf m) = true)
    (hremade : 2 ≤ left.length → M.Remade left) : M.Steady kind t := by
  match left, hmade with
  | [], hd =>
    have hd : M.dataOf t = .never := hd
    refine steady_of_not_union (typeIn_of_dataOf hd TypeData.noConfusion) ?_
      fun members => ?_
    · rw [hd]
      exact hkind.never
    · rw [hd]
      exact TypeData.noConfusion
  | [m], hd =>
    obtain rfl : t = m := hd
    have ht := hjoin t (List.mem_singleton_self t)
    exact steady_of_not_union (typeIn_of_dataOf rfl ht.1)
      (hleft t (List.mem_singleton_self t)) ht.2.2
  | a :: b :: left, hd =>
    have hd : M.dataOf t = .union (a :: b :: left) := hd
    refine ⟨typeIn_of_dataOf hd TypeData.noConfusion,
      ⟨hd ▸ hkind.union _, fun members hm => ?_⟩, fun members hm => ?_⟩
    · cases hd.symm.trans hm
      exact hleft
    · cases hd.symm.trans hm
      exact hremade (by simp)

/-- A union of types of a kind that may be members, not both truth values among them, is steady. -/
theorem Memory.UnionsFormed.exists_steady (h : M.UnionsFormed) {types : List TypeId}
    (hjoin : ∀ m ∈ types, M.MayJoin m) (htypes : ∀ m ∈ types, kind (M.dataOf m) = true)
    (hliterals : ∀ yes ∈ types, ∀ no ∈ types,
      ¬ (M.dataOf yes = .booleanLit true ∧ M.dataOf no = .booleanLit false)) :
    ∃ t M', (makeUnion types).run M = some (t, M') ∧ M.Extends M' ∧ M'.UnionsFormed ∧
      M'.Steady kind t := by
  obtain ⟨t, M', hrun, hE, hM', hany | ⟨-, left, hleft, hmade⟩⟩ := h.makes_union types
  · obtain ⟨⟨m, hm, hd⟩, -⟩ := hany
    rw [flattened_of_mayJoin hjoin, List.mem_eraseDups] at hm
    exact absurd hd (hjoin m hm).1
  rw [flattened_of_mayJoin hjoin] at hleft
  have hjoin' : ∀ m ∈ types.eraseDups, M'.MayJoin m := fun m hm =>
    (hjoin m (List.mem_eraseDups.1 hm)).mono hE
  have htypes' : ∀ m ∈ types.eraseDups, kind (M'.dataOf m) = true := by
    intro m hm
    rw [List.mem_eraseDups] at hm
    rw [(hjoin m hm).dataOf_eq hE]
    exact htypes m hm
  have hnodup := nodup_eraseDups types
  have hunion := hleft.isUnion hM'.types_once hnodup hjoin'
  -- no truth values are put together
  obtain ⟨yes, no, both, hyes, hno, -, rfl⟩ := hleft
  have hsame : mergeBooleans yes no both types.eraseDups = types.eraseDups := by
    refine if_neg fun ⟨hy, hn⟩ => ?_
    rw [List.mem_eraseDups] at hy hn
    refine hliterals yes hy no hn ?_
    rw [← (hjoin yes hy).dataOf_eq hE, ← (hjoin no hn).dataOf_eq hE]
    exact ⟨hyes, hno⟩
  rw [hsame] at hmade hunion
  exact ⟨t, M', hrun, hE, hM', steady_of_madeOf hkind hmade hjoin' htypes' fun htwo =>
    ⟨hunion htwo, hnodup, yes, no, hyes, hno⟩⟩

end

/-! ### Widening -/

theorem reads_mapM_self {f : TypeId → Resolve TypeId} {types : List TypeId}
    (h : ∀ m ∈ types, Reads (f m) M m) : Reads (types.mapM f) M types := by
  induction types with
  | nil => exact reads_pure []
  | cons m types ih =>
    obtain ⟨hm, htypes⟩ := List.forall_mem_cons.1 h
    rw [List.mapM_cons]
    exact hm.bind ((ih htypes).bind (reads_pure _))

theorem reads_widenLiteral {t : TypeId} (h : isWide (M.dataOf t) = true) :
    Reads (widenLiteral t) M t := by
  refine (reads_data t).bind ?_
  revert h
  cases M.dataOf t <;> first | exact fun _ => reads_pure t | exact nofun

/-- Widening does nothing to what is steady without literals. -/
theorem Memory.Steady.reads_widen {t : TypeId} (h : M.Steady isWide t) (hM : M.TypesOnce) :
    Reads (widen t) M t := by
  refine (reads_data t).bind ?_
  split
  · next members hd =>
    exact (reads_mapM_self fun m hm => reads_widenLiteral (h.only.members members hd m hm)).bind
      ((h.remade members hd).reads_makeUnion hM hd)
  · exact reads_widenLiteral h.only.itself

theorem coversUnions_isWide : CoversUnions isWide := ⟨rfl, fun _ => rfl⟩

/-- The primitive types that literals are widened to. -/
def primitives : List TypeData := [.string, .number, .boolean]

/-- A literal is widened to a primitive type, and any other type stays. -/
theorem Memory.UnionsFormed.exists_run_widenLiteral (h : M.UnionsFormed) (t : TypeId) :
    ∃ w M', (widenLiteral t).run M = some (w, M') ∧ M.Extends M' ∧ M'.UnionsFormed ∧
      (w = t ∧ M' = M ∧ isWide (M.dataOf t) = true ∨ M'.dataOf w ∈ primitives) := by
  have primitive : ∀ d ∈ primitives, ∃ w M', (Types.intern d).run M = some (w, M') ∧ M.Extends M' ∧
      M'.UnionsFormed ∧
      (w = t ∧ M' = M ∧ isWide (M.dataOf t) = true ∨ M'.dataOf w ∈ primitives) := by
    intro d hd
    obtain ⟨w, M', hrun, hw, hE⟩ := exists_run_intern_dataOf M d
    refine ⟨w, M', hrun, hE, h.intern (fun members heq => ?_) hrun, Or.inr (hw ▸ hd)⟩
    rw [heq] at hd
    simp [primitives] at hd
  unfold widenLiteral
  rw [(reads_data t).run_bind]
  split
  · exact primitive .string (by simp [primitives])
  · exact primitive .number (by simp [primitives])
  · exact primitive .boolean (by simp [primitives])
  · refine ⟨t, M, rfl, .refl M, h, Or.inl ⟨rfl, rfl, ?_⟩⟩
    cases hd : M.dataOf t <;> simp_all [isWide]

theorem mayJoin_of_primitive {t : TypeId} (h : M.dataOf t ∈ primitives) :
    M.MayJoin t ∧ isWide (M.dataOf t) = true := by
  rw [Memory.MayJoin]
  simp only [primitives, List.mem_cons, List.not_mem_nil, or_false] at h
  rcases h with h | h | h <;> simp [h, isWide]

/-- Members of a union become types that may be members and are no literals. -/
theorem Memory.UnionsFormed.exists_run_mapM (h : M.UnionsFormed) {members : List TypeId}
    (hmembers : ∀ m ∈ members, M.MayJoin m) :
    ∃ types M', (members.mapM widenLiteral).run M = some (types, M') ∧ M.Extends M' ∧
      M'.UnionsFormed ∧ ∀ w ∈ types, M'.MayJoin w ∧ isWide (M'.dataOf w) = true := by
  induction members generalizing M with
  | nil => exact ⟨[], M, rfl, .refl M, h, nofun⟩
  | cons m members ih =>
    obtain ⟨hm, hmembers⟩ := List.forall_mem_cons.1 hmembers
    obtain ⟨w, M₁, hrun, hE, hM₁, hw⟩ := h.exists_run_widenLiteral m
    obtain ⟨types, M₂, hrest, hE', hM₂, htypes⟩ := ih hM₁ fun m' hm' => (hmembers m' hm').mono hE
    have hfirst : M₁.MayJoin w ∧ isWide (M₁.dataOf w) = true := by
      rcases hw with ⟨rfl, rfl, hwide⟩ | hprimitive
      · exact ⟨hm, hwide⟩
      · exact mayJoin_of_primitive hprimitive
    refine ⟨w :: types, M₂, ?_, hE.trans hE', hM₂,
      List.forall_mem_cons.2 ⟨⟨hfirst.1.mono hE', ?_⟩, htypes⟩⟩
    · rw [List.mapM_cons, run_bind_of_run hrun, run_bind_of_run hrest]
      rfl
    · rw [hfirst.1.dataOf_eq hE']
      exact hfirst.2

/-- Widening comes to something steady without literals. -/
theorem Memory.UnionsFormed.exists_run_widen (h : M.UnionsFormed) {t : TypeId} (ht : TypeIn t M) :
    ∃ u M', (widen t).run M = some (u, M') ∧ M.Extends M' ∧ M'.UnionsFormed ∧
      M'.Steady isWide u := by
  unfold widen
  rw [(reads_data t).run_bind]
  split
  · next members hd =>
    have hunion := h.unions t members hd
    obtain ⟨types, M₁, hrun, hE, hM₁, htypes⟩ := h.exists_run_mapM hunion.mayJoin
    have hliterals : ∀ yes ∈ types, ∀ no ∈ types,
        ¬ (M₁.dataOf yes = .booleanLit true ∧ M₁.dataOf no = .booleanLit false) := by
      rintro yes hy - - ⟨hd, -⟩
      have hwide := (htypes yes hy).2
      rw [hd] at hwide
      cases hwide
    obtain ⟨u, M₂, hrun', hE', hM₂, hu⟩ := hM₁.exists_steady coversUnions_isWide
      (fun w hw => (htypes w hw).1) (fun w hw => (htypes w hw).2) hliterals
    exact ⟨u, M₂, by rw [run_bind_of_run hrun, hrun'], hE.trans hE', hM₂, hu⟩
  · next hunion =>
    obtain ⟨u, M', hrun, hE, hM', hu⟩ := h.exists_run_widenLiteral t
    refine ⟨u, M', hrun, hE, hM', ?_⟩
    rcases hu with ⟨rfl, rfl, hwide⟩ | hprimitive
    · exact steady_of_not_union ht hwide hunion
    · obtain ⟨hjoin, hwide⟩ := mayJoin_of_primitive hprimitive
      exact steady_of_not_union (typeIn_of_dataOf rfl hjoin.1) hwide
        hjoin.2.2

/-- A member of a union is widened like any type. -/
theorem run_widen_of_mayJoin {t : TypeId} (ht : M.MayJoin t) :
    (widen t).run M = (widenLiteral t).run M := by
  unfold widen
  rw [(reads_data t).run_bind]
  split
  · next members hd => exact absurd hd (ht.2.2 members)
  · rfl

theorem Memory.UnionsFormed.run_mapM_widen (h : M.UnionsFormed) {members : List TypeId}
    (hmembers : ∀ m ∈ members, M.MayJoin m) :
    (members.mapM widen).run M = (members.mapM widenLiteral).run M := by
  induction members generalizing M with
  | nil => rfl
  | cons m members ih =>
    obtain ⟨hm, hmembers⟩ := List.forall_mem_cons.1 hmembers
    obtain ⟨w, M₁, hrun, hE, hM₁, -⟩ := h.exists_run_widenLiteral m
    rw [List.mapM_cons, List.mapM_cons, run_bind_of_run ((run_widen_of_mayJoin hm).trans hrun),
      run_bind_of_run hrun, StateT.run_bind, StateT.run_bind,
      ih hM₁ fun m' hm' => (hmembers m' hm').mono hE]

/-- Widening a union widens its members and makes the union of what they become. -/
theorem Memory.UnionsFormed.run_widen_union (h : M.UnionsFormed) {t : TypeId}
    {members : List TypeId} (hd : M.dataOf t = .union members) :
    (widen t).run M = (do makeUnion (← members.mapM widen) : Resolve TypeId).run M := by
  unfold widen
  rw [(reads_data t).run_bind, hd, StateT.run_bind, StateT.run_bind]
  exact congrArg (· >>= _) (h.run_mapM_widen (h.unions t members hd).mayJoin).symm

/-! ### Dropping `null` and `undefined` -/

/-- Dropping `null` and `undefined` does nothing to what is steady without them, and to what is no
union. -/
theorem Memory.Steady.reads_nonNullable {t : TypeId} (h : M.Steady isPresent t)
    (hM : M.TypesOnce) : Reads (nonNullable t) M t := by
  refine (reads_data t).bind ?_
  split
  · next members hd =>
    have hall : members.filter (fun m => isPresent (M.dataOf m)) = members :=
      List.filter_eq_self.2 (h.only.members members hd)
    exact (hall ▸ reads_presentMembers members).bind ((h.remade members hd).reads_makeUnion hM hd)
  · exact reads_pure t

theorem reads_nonNullable_of_not_union {t : TypeId} (h : (M.dataOf t).isUnion = false) :
    Reads (nonNullable t) M t := by
  refine (reads_data t).bind ?_
  split
  · next members hd =>
    rw [hd] at h
    cases h
  · exact reads_pure t

/-- Dropping `null` and `undefined` from a union comes to something steady without them. -/
theorem Memory.UnionsFormed.exists_run_nonNullable (h : M.UnionsFormed) {t : TypeId}
    (ht : (M.dataOf t).isUnion = true) :
    ∃ u M', (nonNullable t).run M = some (u, M') ∧ M.Extends M' ∧ M'.UnionsFormed ∧
      M'.Steady isPresent u := by
  unfold nonNullable
  rw [(reads_data t).run_bind]
  split
  · next members hd =>
    have hunion := h.unions t members hd
    rw [(reads_presentMembers members).run_bind]
    exact h.exists_steady ⟨rfl, fun _ => rfl⟩
      (fun m hm => hunion.mayJoin m (List.mem_of_mem_filter hm))
      (fun m hm => (List.mem_filter.1 hm).2)
      fun yes hy no hn => hunion.literals yes (List.mem_of_mem_filter hy) no
        (List.mem_of_mem_filter hn)
  · next hunion =>
    cases hd : M.dataOf t <;> simp_all [TypeData.isUnion]

/-! ### Main result -/

/-- **Widening and dropping `null` and `undefined` settle.** Between questions and in the course of
one, widening any type gives one that is no literal and has none among its members, and dropping
`null` and `undefined` from a union gives a type that is neither and has neither among its members.
Done again to what they gave, there or in any later memory, both give the same handle and leave the
memory as it is. The members of a union are widened as any types are. -/
theorem widen_nonNullable_settle (h : Passed p M) {t : TypeId} (ht : TypeIn t M) :
    (∃ u M', (widen t).run M = some (u, M') ∧ Passed p M' ∧ M'.Only isWide u ∧
      ∀ K, Passed p K → M'.Extends K → Reads (widen u) K u) ∧
    (∃ u M', (nonNullable t).run M = some (u, M') ∧ Passed p M' ∧
      ((M.dataOf t).isUnion = true → M'.Only isPresent u) ∧
      ∀ K, Passed p K → M'.Extends K → Reads (nonNullable u) K u) ∧
    ∀ members, M.dataOf t = .union members →
      (widen t).run M = (do makeUnion (← members.mapM widen) : Resolve TypeId).run M := by
  have hM := h.unionsFormed
  refine ⟨?_, ?_, fun members hd => hM.run_widen_union hd⟩
  · obtain ⟨u, M', hrun, -, -, hu⟩ := hM.exists_run_widen ht
    have hmoves := (moving_widen t : Moving (Drift.moves p) none (widen t)).moves hrun
    exact ⟨u, M', hrun, h.move hmoves, hu.only, fun K hK hE =>
      (hu.mono hE).reads_widen hK.unionsFormed.types_once⟩
  cases hunion : (M.dataOf t).isUnion with
  | false =>
    refine ⟨t, M, reads_nonNullable_of_not_union hunion, h, nofun, fun K _ hE => ?_⟩
    exact reads_nonNullable_of_not_union (hE.dataOf_eq ht ▸ hunion)
  | true =>
    obtain ⟨u, M', hrun, -, -, hu⟩ := hM.exists_run_nonNullable hunion
    have hmoves := (moving_nonNullable t : Moving (Drift.moves p) none (nonNullable t)).moves hrun
    exact ⟨u, M', hrun, h.move hmoves, fun _ => hu.only, fun K hK hE =>
      (hu.mono hE).reads_nonNullable hK.unionsFormed.types_once⟩

/-- The program `type T = 'a' | 'b' | true | null;`. -/
def choiceProgram : Program where
  units := #[{
    path := "choice.ts"
    nodes := #[
      { kind := "program", named := true, children := [1] },
      { kind := "type_alias_declaration", named := true, parent := some 0, children := [2, 3] },
      { kind := "type_identifier", field := some "name", named := true, parent := some 1,
        text := "T" },
      { kind := "union_type", field := some "value", named := true, parent := some 1,
        children := [4, 12] },
      { kind := "union_type", named := true, parent := some 3, children := [5, 10] },
      { kind := "union_type", named := true, parent := some 4, children := [6, 8] },
      { kind := "literal_type", named := true, parent := some 5, children := [7] },
      { kind := "string", named := true, parent := some 6, text := "'a'" },
      { kind := "literal_type", named := true, parent := some 5, children := [9] },
      { kind := "string", named := true, parent := some 8, text := "'b'" },
      { kind := "literal_type", named := true, parent := some 4, children := [11] },
      { kind := "true", named := true, parent := some 10, text := "true" },
      { kind := "literal_type", named := true, parent := some 3, children := [13] },
      { kind := "null", named := true, parent := some 12, text := "null" }] }]

/-- Two texts, a truth value and `null` are widened to `string | boolean | null`, which is widened
to itself; and the union of the texts and the truth value is all that is left without `null`. -/
theorem widen_nonNullable_settle_choice : ∃ M, Passed choiceProgram M ∧ TypeIn 7 M ∧
    M.dataOf 7 = .union [0, 1, 2, 6] ∧
    (∃ M', (widen 7).run M = some (10, M') ∧ M'.dataOf 10 = .union [8, 9, 6] ∧
      M'.Only isWide 10 ∧ Reads (widen 10) M' 10) ∧
    ∃ M', (nonNullable 7).run M = some (5, M') ∧ M'.Only isPresent 5 ∧
      Reads (nonNullable 5) M' 5 := by
  have hrun : (((oracle choiceProgram).pose (.typeOfTypeNode ⟨0, 3⟩)).run {}).map (fun r =>
      (r.2.types, ((widen 7).run r.2).map fun w => (w.1, w.2.types),
        (nonNullable 7).run' r.2)) =
      some (#[.stringLit "a", .stringLit "b", .booleanLit true, .booleanLit false, .union [0, 1],
        .union [0, 1, 2], .null, .union [0, 1, 2, 6]],
        some (10, #[.stringLit "a", .stringLit "b", .booleanLit true, .booleanLit false,
          .union [0, 1], .union [0, 1, 2], .null, .union [0, 1, 2, 6], .string, .boolean,
          .union [8, 9, 6]]), some 5) := by
    decide +kernel
  obtain ⟨⟨_, M⟩, hM, hdata⟩ := Option.map_eq_some_iff.1 hrun
  obtain ⟨htypes, hrest⟩ := Prod.mk.inj hdata
  obtain ⟨hwiden, hpresent⟩ := Prod.mk.inj hrest
  have hreached : Reached choiceProgram M :=
    .single ⟨nestingBound choiceProgram, .typeOfTypeNode ⟨0, 3⟩, hM⟩
  have ht : TypeIn 7 M := by
    rw [TypeIn, htypes]
    decide
  have hunion : M.dataOf 7 = .union [0, 1, 2, 6] := by
    rw [Memory.dataOf, htypes]
    rfl
  obtain ⟨⟨u, M₁, hrun₁, hM₁, honly₁, hagain₁⟩, ⟨v, M₂, hrun₂, hM₂, honly₂, hagain₂⟩, -⟩ :=
    widen_nonNullable_settle hreached.passed ht
  rw [hrun₁] at hwiden
  obtain ⟨hu, htypes₁⟩ := Prod.mk.inj (Option.some.inj hwiden)
  rw [StateT.run'_eq, hrun₂] at hpresent
  have hv : v = 5 := Option.some.inj hpresent
  subst hu hv
  refine ⟨M, hreached.passed, ht, hunion, ⟨M₁, hrun₁, ?_, honly₁, hagain₁ M₁ hM₁ (.refl M₁)⟩,
    M₂, hrun₂, honly₂ (by rw [hunion]), hagain₂ M₂ hM₂ (.refl M₂)⟩
  rw [Memory.dataOf]
  show (M₁.types).getD 10 .any = _
  rw [htypes₁]
  rfl

end RouteContract.Types
