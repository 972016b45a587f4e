import Mathlib
import RouteContract.Proofs.Distinct
import RouteContract.Proofs.Types.Replay

/-!
# Unions

A union is made of the flattened members, each once (`Memory.flattened`): those of a union stand
in its place, and `never` has none. When both truth values are among them, `boolean` takes the place
of the first and the second goes. `makes_union` says what is made of what is left.

Nothing drops what is repeated after that, so `boolean` is left twice when it was among the
flattened members next to both truth values. Everything else about unions is in order, and stays so:
`Memory.IsUnion` says what holds of the members of every union.
-/

namespace RouteContract.Types

variable {p : Program} {M M' : Memory} {α β : Type}

/-- The data of a union. -/
@[reducible] def TypeData.isUnion : TypeData → Bool
  | .union _ => true
  | _ => false

/-! ### Flattening -/

/-- What a type contributes to a union. -/
def Memory.parts (M : Memory) (t : TypeId) : List TypeId :=
  match M.dataOf t with
  | .union inner => inner
  | .never => []
  | _ => [t]

/-- The flattened members of a union of types, each once, in order of first occurrence. -/
def Memory.flattened (M : Memory) (types : List TypeId) : List TypeId :=
  (types.flatMap M.parts).eraseDups

theorem reads_foldlM {f : β → α → Resolve β} {g : β → α → β} (h : ∀ b a, Reads (f b a) M (g b a))
    (l : List α) (b : β) : Reads (l.foldlM f b) M (l.foldl g b) := by
  induction l generalizing b with
  | nil => exact reads_pure b
  | cons a l ih =>
    rw [List.foldlM_cons, List.foldl_cons]
    exact (h b a).bind (ih _)

theorem reads_mapM {f : α → Resolve β} {g : α → β} (h : ∀ a, Reads (f a) M (g a)) (l : List α) :
    Reads (l.mapM f) M (l.map g) := by
  induction l with
  | nil => exact reads_pure []
  | cons a l ih =>
    rw [List.mapM_cons, List.map_cons]
    exact (h a).bind (ih.bind (reads_pure _))

theorem foldl_addNew (types : List TypeId) : types.foldl addNew [] = types.eraseDups :=
  foldl_eq_eraseDups fun _ _ _ => rfl

theorem reads_flatten (types : List TypeId) : Reads (flatten types) M (M.flattened types) := by
  have hstep : ∀ (flat : List TypeId) (t : TypeId), Reads (do
      match ← data t with
      | .union inner => return inner.foldl addNew flat
      | .never => return flat
      | _ => return addNew flat t : Resolve (List TypeId)) M ((M.parts t).foldl addNew flat) := by
    intro flat t
    refine (reads_data t).bind ?_
    unfold Memory.parts
    cases M.dataOf t <;> exact reads_pure _
  have hflat := reads_foldlM hstep types []
  rwa [← List.foldl_flatMap, foldl_addNew] at hflat

theorem nodup_flattened (M : Memory) (types : List TypeId) : (M.flattened types).Nodup :=
  nodup_eraseDups _

theorem mem_flattened {types : List TypeId} {t : TypeId} :
    t ∈ M.flattened types ↔ ∃ u ∈ types, t ∈ M.parts u := by
  rw [Memory.flattened, List.mem_eraseDups, List.mem_flatMap]

/-! ### Truth values -/

/-- How often each type is left when the truth values are put together. -/
theorem count_mergeBooleans {yes no both : TypeId} {flat : List TypeId} (hflat : flat.Nodup)
    (hyes : yes ∈ flat) (hno : no ∈ flat) (hyb : yes ≠ both) (t : TypeId) :
    (mergeBooleans yes no both flat).count t =
      if t = yes ∨ t = no then 0 else flat.count t + if t = both then 1 else 0 := by
  have hone : flat.count yes = 1 := List.count_eq_one_of_mem hflat hyes
  rw [mergeBooleans, if_pos ⟨hyes, hno⟩]
  by_cases htn : t = no
  · rw [if_pos (Or.inr htn), List.count_eq_zero]
    simp [htn]
  rw [List.count_filter (by simpa using htn), List.count_replace,
    if_pos (List.contains_iff_mem.2 hyes)]
  by_cases hty : t = yes
  · simp [hty, hone, Ne.symm hyb]
  have hneither : ¬ (t = yes ∨ t = no) := fun h => h.elim hty htn
  rw [if_neg hneither]
  by_cases htb : t = both
  · simp [htb, hyb]
  · simp [htb, Ne.symm hty, Ne.symm htb]

theorem mem_mergeBooleans {yes no both : TypeId} {flat : List TypeId} (hflat : flat.Nodup)
    (hyes : yes ∈ flat) (hno : no ∈ flat) (hyb : yes ≠ both) {t : TypeId}
    (h : t ∈ mergeBooleans yes no both flat) : t ≠ yes ∧ t ≠ no ∧ (t = both ∨ t ∈ flat) := by
  have hpos := List.count_pos_iff.2 h
  rw [count_mergeBooleans hflat hyes hno hyb] at hpos
  split at hpos
  · exact absurd hpos (lt_irrefl 0)
  · next hne =>
    rw [not_or] at hne
    refine ⟨hne.1, hne.2, ?_⟩
    by_cases htb : t = both
    · exact Or.inl htb
    · rw [if_neg htb, Nat.add_zero] at hpos
      exact Or.inr (List.count_pos_iff.1 hpos)

/-- What is left of flattened members once the truth values are put together. -/
def Memory.Merges (M : Memory) (flat left : List TypeId) : Prop :=
  ∃ yes no both, M.dataOf yes = .booleanLit true ∧ M.dataOf no = .booleanLit false ∧
    (yes ∈ flat → no ∈ flat → M.dataOf both = .boolean) ∧ left = mergeBooleans yes no both flat

theorem Memory.Merges.mono {flat left : List TypeId} (h : M.Merges flat left)
    (hE : M.Extends M') : M'.Merges flat left := by
  obtain ⟨yes, no, both, hyes, hno, hboth, hleft⟩ := h
  exact ⟨yes, no, both, hE.dataOf hyes TypeData.noConfusion, hE.dataOf hno TypeData.noConfusion,
    fun hy hn => hE.dataOf (hboth hy hn) TypeData.noConfusion, hleft⟩

/-- The type that is made of what is left of the members of a union. -/
def Memory.MadeOf (M : Memory) (t : TypeId) : List TypeId → Prop
  | [] => M.dataOf t = .never
  | [m] => t = m
  | left => M.dataOf t = .union left

/-! ### Making a union -/

theorem run_bind_of_run {x : Resolve α} {a : α} {M₁ : Memory} (h : x.run M = some (a, M₁))
    (f : α → Resolve β) : (x >>= f).run M = (f a).run M₁ := by
  rw [StateT.run_bind, h]
  rfl

theorem exists_run_intern_dataOf (M : Memory) (d : TypeData) :
    ∃ t M', (intern d).run M = some (t, M') ∧ M'.dataOf t = d ∧ M.Extends M' := by
  obtain ⟨t, M', hrun, ht, hE⟩ := exists_run_intern M d
  exact ⟨t, M', hrun, Memory.dataOf_of_getElem? ht, hE⟩

section

variable {P : Memory → Prop}
  (hplain : ∀ {d t M₁ M₂}, d.isUnion = false → P M₁ → (intern d).run M₁ = some (t, M₂) → P M₂)
include hplain

/-- The last step: what is left is none, one or more members. -/
theorem makes_left {left : List TypeId} (hM : P M)
    (hunion : ∀ {t M'}, 2 ≤ left.length → (intern (.union left)).run M = some (t, M') → P M') :
    ∃ t M', (match left with
      | [] => intern .never
      | [t] => pure t
      | _ => intern (.union left) : Resolve TypeId).run M = some (t, M') ∧
      M.Extends M' ∧ P M' ∧ M'.MadeOf t left := by
  rcases left with _ | ⟨a, _ | ⟨b, left⟩⟩
  · obtain ⟨t, M', hrun, ht, hE⟩ := exists_run_intern_dataOf M .never
    exact ⟨t, M', hrun, hE, hplain rfl hM hrun, ht⟩
  · exact ⟨a, M, rfl, .refl M, hM, rfl⟩
  · obtain ⟨t, M', hrun, ht, hE⟩ := exists_run_intern_dataOf M (.union (a :: b :: left))
    exact ⟨t, M', hrun, hE, hunion (by simp) hrun, ht⟩

/-- A union is made whatever it is made of. If one of the flattened members says nothing, so does
the union; else it is made of what is left of them. What interning keeps, a union keeps. -/
theorem makes_union (types : List TypeId) (hM : P M)
    (hunion : ∀ {left t M₁ M₂}, P M₁ → M.Extends M₁ →
      (∀ m ∈ M.flattened types, M.dataOf m ≠ .any) → M₁.Merges (M.flattened types) left →
      2 ≤ left.length → (intern (.union left)).run M₁ = some (t, M₂) → P M₂) :
    ∃ t M', (makeUnion types).run M = some (t, M') ∧ M.Extends M' ∧ P M' ∧
      ((∃ m ∈ M.flattened types, M.dataOf m = .any) ∧ M'.dataOf t = .any ∨
        (∀ m ∈ M.flattened types, M.dataOf m ≠ .any) ∧
          ∃ left, M'.Merges (M.flattened types) left ∧ M'.MadeOf t left) := by
  rw [makeUnion, (reads_flatten types).run_bind, (reads_mapM reads_data _).run_bind]
  split
  · next hany =>
    obtain ⟨m, hm, hd⟩ := List.mem_map.1 hany
    obtain ⟨t, M', hrun, ht, hE⟩ := exists_run_intern_dataOf M .any
    exact ⟨t, M', hrun, hE, hplain rfl hM hrun, Or.inl ⟨⟨m, hm, hd⟩, ht⟩⟩
  next hany =>
  have hsome : ∀ m ∈ M.flattened types, M.dataOf m ≠ .any := fun m hm hd =>
    hany (List.mem_map.2 ⟨m, hm, hd⟩)
  obtain ⟨yes, M₁, hyes, hyesData, hE₁⟩ := exists_run_intern_dataOf M (.booleanLit true)
  obtain ⟨no, M₂, hno, hnoData, hE₂⟩ := exists_run_intern_dataOf M₁ (.booleanLit false)
  have hP₂ := hplain rfl (hplain rfl hM hyes) hno
  have hyesData₂ := hE₂.dataOf hyesData TypeData.noConfusion
  rw [run_bind_of_run hyes, run_bind_of_run hno]
  -- what is left stays as it is in later memories
  have finish : ∀ {M₃ left}, M₂.Extends M₃ → P M₃ → M₃.Merges (M.flattened types) left →
      ∃ t M', (match left with
        | [] => intern .never
        | [t] => pure t
        | _ => intern (.union left) : Resolve TypeId).run M₃ = some (t, M') ∧ M.Extends M' ∧ P M' ∧
        ∃ left, M'.Merges (M.flattened types) left ∧ M'.MadeOf t left := by
    intro M₃ left hE₃ hP₃ hleft
    have hE := (hE₁.trans hE₂).trans hE₃
    obtain ⟨t, M', hrun, hE', hP', ht⟩ := makes_left hplain hP₃
      fun htwo hrun => hunion hP₃ hE hsome hleft htwo hrun
    exact ⟨t, M', hrun, hE.trans hE', hP', left, hleft.mono hE', ht⟩
  dsimp only
  split
  · next hboth =>
    obtain ⟨both, M₃, hrun₃, hbothData, hE₃⟩ := exists_run_intern_dataOf M₂ .boolean
    obtain ⟨t, M', hrun, hE, hP, hleft⟩ := finish hE₃ (hplain rfl hP₂ hrun₃)
      ⟨yes, no, both, hE₃.dataOf hyesData₂ TypeData.noConfusion,
        hE₃.dataOf hnoData TypeData.noConfusion, fun _ _ => hbothData, rfl⟩
    exact ⟨t, M', by rw [run_bind_of_run hrun₃]; exact hrun, hE, hP, Or.inr ⟨hsome, hleft⟩⟩
  · next hboth =>
    have hsame : mergeBooleans yes no yes (M.flattened types) = M.flattened types := if_neg hboth
    obtain ⟨t, M', hrun, hE, hP, hleft⟩ := finish (.refl M₂) hP₂
      ⟨yes, no, yes, hyesData₂, hnoData, fun hy hn => absurd ⟨hy, hn⟩ hboth, hsame.symm⟩
    exact ⟨t, M', hrun, hE, hP, Or.inr ⟨hsome, hleft⟩⟩

end

theorem extends_of_run_makeUnion {types : List TypeId} {t : TypeId}
    (h : (makeUnion types).run M = some (t, M')) : M.Extends M' := by
  obtain ⟨t', M₁, hrun, hE, -⟩ := makes_union (P := fun _ => True) (M := M)
    (fun _ _ _ => trivial) types trivial (fun _ _ _ _ _ _ => trivial)
  cases h.symm.trans hrun
  exact hE

/-! ### Unions in order -/

/-- Each type is in the table once. -/
def Memory.TypesOnce (M : Memory) : Prop :=
  ∀ (t u : TypeId) d, M.types[t]? = some d → M.types[u]? = some d → t = u

/-- A type may be a member of a union. -/
def Memory.MayJoin (M : Memory) (t : TypeId) : Prop :=
  M.dataOf t ≠ .any ∧ M.dataOf t ≠ .never ∧ ∀ inner, M.dataOf t ≠ .union inner

/-- The members of a union: two or more that may be members, and not both truth values. Each stands
there once, but `boolean` may stand there twice. -/
structure Memory.IsUnion (M : Memory) (members : List TypeId) : Prop where
  two_le : 2 ≤ members.length
  mayJoin : ∀ m ∈ members, M.MayJoin m
  literals : ∀ yes ∈ members, ∀ no ∈ members,
    ¬ (M.dataOf yes = .booleanLit true ∧ M.dataOf no = .booleanLit false)
  once : ∀ m ∈ members, M.dataOf m ≠ .boolean → members.count m = 1
  twice : ∀ m ∈ members, members.count m ≤ 2

/-- A memory in which each type is once and every union is in order. -/
structure Memory.UnionsFormed (M : Memory) : Prop where
  types_once : M.TypesOnce
  unions : ∀ t members, M.dataOf t = .union members → M.IsUnion members

/-- Both truth values and `boolean` are among some types. -/
def Memory.AllTruth (M : Memory) (types : List TypeId) : Prop :=
  .booleanLit true ∈ types.map M.dataOf ∧ .booleanLit false ∈ types.map M.dataOf ∧
    .boolean ∈ types.map M.dataOf

section

variable {flat left : List TypeId}

theorem Memory.TypesOnce.eq (hM : M.TypesOnce) {t u : TypeId} {d : TypeData} (ht : M.dataOf t = d)
    (hu : M.dataOf u = d) (hd : d ≠ .any) : t = u :=
  hM t u d (Memory.getElem?_of_dataOf ht hd) (Memory.getElem?_of_dataOf hu hd)

theorem Memory.TypesOnce.mem_map_dataOf (hM : M.TypesOnce) {t : TypeId} {d : TypeData}
    (ht : M.dataOf t = d) (hd : d ≠ .any) : d ∈ flat.map M.dataOf ↔ t ∈ flat := by
  constructor
  · intro h
    obtain ⟨u, hu, hud⟩ := List.mem_map.1 h
    exact hM.eq hud ht hd ▸ hu
  · exact fun h => List.mem_map.2 ⟨t, h, ht⟩

/-- Putting the truth values together leaves members of a union. -/
theorem isUnion_mergeBooleans (hM : M.TypesOnce) (hnodup : flat.Nodup)
    (hflat : ∀ m ∈ flat, M.MayJoin m) {yes no both : TypeId}
    (hyes : M.dataOf yes = .booleanLit true) (hboth : M.dataOf both = .boolean)
    (hyf : yes ∈ flat) (hnf : no ∈ flat) (htwo : 2 ≤ (mergeBooleans yes no both flat).length) :
    M.IsUnion (mergeBooleans yes no both flat) := by
  have hyb : yes ≠ both := by
    rintro rfl
    rw [hboth] at hyes
    cases hyes
  have hcount := count_mergeBooleans hnodup hyf hnf hyb
  have hmem := fun m => mem_mergeBooleans (t := m) hnodup hyf hnf hyb
  refine ⟨htwo, fun m hm => ?_, fun y hy n _ hd => ?_, fun m hm hmd => ?_, fun m _ => ?_⟩
  · rcases (hmem m hm).2.2 with rfl | hmf
    · simp [Memory.MayJoin, hboth]
    · exact hflat m hmf
  · exact (hmem y hy).1 (hM.eq hd.1 hyes TypeData.noConfusion)
  · obtain ⟨hmy, hmn, hm⟩ := hmem m hm
    have hmb : m ≠ both := fun heq => hmd (heq ▸ hboth)
    rw [hcount, if_neg (by tauto), if_neg hmb, Nat.add_zero]
    exact List.count_eq_one_of_mem hnodup (hm.resolve_left hmb)
  · have hle := List.nodup_iff_count_le_one.1 hnodup m
    rw [hcount]
    split
    · omega
    · split <;> omega

/-- What a union is made of is in order. -/
theorem Memory.Merges.isUnion (h : M.Merges flat left) (hM : M.TypesOnce) (hnodup : flat.Nodup)
    (hflat : ∀ m ∈ flat, M.MayJoin m) (htwo : 2 ≤ left.length) : M.IsUnion left := by
  obtain ⟨yes, no, both, hyes, hno, hboth, rfl⟩ := h
  by_cases htruth : yes ∈ flat ∧ no ∈ flat
  · have hb := hboth htruth.1 htruth.2
    exact isUnion_mergeBooleans hM hnodup hflat hyes hb htruth.1 htruth.2 htwo
  · have hsame : mergeBooleans yes no both flat = flat := if_neg htruth
    rw [hsame] at htwo ⊢
    have hone : ∀ m ∈ flat, flat.count m = 1 := fun m => List.count_eq_one_of_mem hnodup
    refine ⟨htwo, hflat, fun y hy n hn hd => htruth ⟨?_, ?_⟩, fun m hm _ => hone m hm,
      fun m hm => (hone m hm).le.trans one_le_two⟩
    · exact hM.eq hd.1 hyes TypeData.noConfusion ▸ hy
    · exact hM.eq hd.2 hno TypeData.noConfusion ▸ hn

/-- Something is repeated in what is left just when `boolean` was there next to both truth
values. -/
theorem Memory.Merges.nodup_iff (h : M.Merges flat left) (hM : M.TypesOnce) (hnodup : flat.Nodup) :
    left.Nodup ↔ ¬ M.AllTruth flat := by
  obtain ⟨yes, no, both, hyes, hno, hboth, rfl⟩ := h
  rw [AllTruth, hM.mem_map_dataOf hyes TypeData.noConfusion,
    hM.mem_map_dataOf hno TypeData.noConfusion]
  by_cases htruth : yes ∈ flat ∧ no ∈ flat
  · have hb := hboth htruth.1 htruth.2
    have hyb : yes ≠ both := by
      rintro rfl
      rw [hb] at hyes
      cases hyes
    have hnb : no ≠ both := by
      rintro rfl
      rw [hb] at hno
      cases hno
    have hcount := count_mergeBooleans hnodup htruth.1 htruth.2 hyb
    have hle := List.nodup_iff_count_le_one.1 hnodup
    rw [hM.mem_map_dataOf hb TypeData.noConfusion, List.nodup_iff_count_le_one]
    constructor
    · rintro hmerged ⟨-, -, hbf⟩
      have htwice := hmerged both
      rw [hcount, if_neg (by tauto), if_pos rfl, List.count_eq_one_of_mem hnodup hbf] at htwice
      omega
    · intro hnot t
      have hle := hle t
      rw [hcount]
      split
      · omega
      · split
        · next htb =>
          have hbf : both ∉ flat := fun hbf => hnot ⟨htruth.1, htruth.2, hbf⟩
          rw [htb, List.count_eq_zero_of_not_mem hbf]
        · omega
  · have hsame : mergeBooleans yes no both flat = flat := if_neg htruth
    rw [hsame]
    exact ⟨fun _ h => htruth ⟨h.1, h.2.1⟩, fun _ => hnodup⟩

end

/-! ### Unions stay in order -/

theorem Memory.MayJoin.dataOf_eq {t : TypeId} (h : M.MayJoin t) (hE : M.Extends M') :
    M'.dataOf t = M.dataOf t := hE.dataOf rfl h.1

theorem Memory.MayJoin.mono {t : TypeId} (h : M.MayJoin t) (hE : M.Extends M') : M'.MayJoin t := by
  rw [MayJoin, h.dataOf_eq hE]
  exact h

theorem allTruth_iff {types : List TypeId} (h : ∀ t ∈ types, M.MayJoin t) (hE : M.Extends M') :
    M'.AllTruth types ↔ M.AllTruth types := by
  have hsame : types.map M'.dataOf = types.map M.dataOf :=
    List.map_congr_left fun t ht => (h t ht).dataOf_eq hE
  rw [Memory.AllTruth, hsame, Memory.AllTruth]

theorem Memory.IsUnion.mono {members : List TypeId} (h : M.IsUnion members) (hE : M.Extends M') :
    M'.IsUnion members where
  two_le := h.two_le
  mayJoin m hm := (h.mayJoin m hm).mono hE
  literals yes hy no hn := by
    rw [(h.mayJoin yes hy).dataOf_eq hE, (h.mayJoin no hn).dataOf_eq hE]
    exact h.literals yes hy no hn
  once m hm := by
    rw [(h.mayJoin m hm).dataOf_eq hE]
    exact h.once m hm
  twice := h.twice

theorem unionsFormed_empty : ({} : Memory).UnionsFormed where
  types_once t u d h := by simp at h
  unions t members h := by simp [Memory.dataOf] at h

theorem Memory.UnionsFormed.of_types (h : M.UnionsFormed) (ht : M'.types = M.types) :
    M'.UnionsFormed := by
  have hdata : M'.dataOf = M.dataOf := funext fun t => by rw [dataOf, ht, dataOf]
  have hE : M.Extends { M with types := M'.types } := extends_of_tables ht rfl
  constructor
  · rw [TypesOnce, ht]
    exact h.types_once
  · intro t members hd
    rw [hdata] at hd
    have hu := h.unions t members hd
    exact ⟨hu.two_le, fun m hm => by rw [MayJoin, hdata]; exact hu.mayJoin m hm,
      fun y hy n hn => by rw [hdata]; exact hu.literals y hy n hn,
      fun m hm => by rw [hdata]; exact hu.once m hm, hu.twice⟩

/-- A type is entered that is no union, or one whose members are in order. -/
theorem Memory.UnionsFormed.intern (h : M.UnionsFormed) {d : TypeData} {t : TypeId}
    (hd : ∀ members, d = .union members → M.IsUnion members)
    (hrun : (intern d).run M = some (t, M')) : M'.UnionsFormed := by
  rw [run_intern_eq] at hrun
  split at hrun
  · cases hrun
    exact h
  · next hnone =>
    cases hrun
    have hE := M.extends_pushType d
    have hnew : ∀ (t : TypeId), M.types[t]? ≠ some d := by
      intro t ht
      have hne := Array.findIdx?_eq_none_iff.1 hnone d (Array.mem_of_getElem? ht)
      simp at hne
    constructor
    · intro t u d' ht hu
      rw [Array.getElem?_push] at ht hu
      split at ht
      · next hts =>
        split at hu
        · next hus => rw [hts, hus]
        · cases ht
          exact absurd hu (hnew u)
      · split at hu
        · cases hu
          exact absurd ht (hnew t)
        · exact h.types_once t u d' ht hu
    · intro t members ht
      have hget := getElem?_of_dataOf ht TypeData.noConfusion
      rw [Array.getElem?_push] at hget
      split at hget
      · exact (hd members (Option.some.inj hget)).mono hE
      · exact (h.unions t members (dataOf_of_getElem? hget)).mono hE

theorem Memory.UnionsFormed.mayJoin_flattened (h : M.UnionsFormed) {types : List TypeId}
    (hsome : ∀ m ∈ M.flattened types, M.dataOf m ≠ .any) :
    ∀ m ∈ M.flattened types, M.MayJoin m := by
  intro m hm
  obtain ⟨u, -, hmu⟩ := mem_flattened.1 hm
  unfold parts at hmu
  split at hmu
  · next inner hd => exact (h.unions u inner hd).mayJoin m hmu
  · cases hmu
  · next hunion hnever =>
    obtain rfl := List.mem_singleton.1 hmu
    exact ⟨hsome m hm, hnever, hunion⟩

/-- Where unions are in order, one more is made in order. -/
theorem Memory.UnionsFormed.makes_union (h : M.UnionsFormed) (types : List TypeId) :
    ∃ t M', (makeUnion types).run M = some (t, M') ∧ M.Extends M' ∧ M'.UnionsFormed ∧
      ((∃ m ∈ M.flattened types, M.dataOf m = .any) ∧ M'.dataOf t = .any ∨
        (∀ m ∈ M.flattened types, M.dataOf m ≠ .any) ∧
          ∃ left, M'.Merges (M.flattened types) left ∧ M'.MadeOf t left) := by
  refine Types.makes_union ?_ types h ?_
  · intro d t M₁ M₂ hd hM hrun
    refine hM.intern (fun members heq => ?_) hrun
    rw [heq] at hd
    cases hd
  · intro left t M₁ M₂ hM hE hsome hleft htwo hrun
    refine hM.intern (fun members heq => ?_) hrun
    cases heq
    exact hleft.isUnion hM.types_once (nodup_flattened M types)
      (fun m hm => (h.mayJoin_flattened hsome m hm).mono hE) htwo

end RouteContract.Types
