import Mathlib
import RouteContract.Proofs.Types.Moves

/-!
# The alternatives of a union

Every union that a resolver ever made is in order (`Passed.unionsFormed`), whatever program it reads
and whatever it is doing at the time, since each of its moves keeps unions in order. The schema of a
union has one alternative for each member, so that it repeats one only where the union does
(`makeUnion_in_order`).

A union does repeat one: `boolean | true | false` is `boolean | boolean`
(`truthProgram_repeats_boolean`).
-/

namespace RouteContract.Types

variable {p : Program} {M M' : Memory} {own : Option TypeId}

/-! ### Unions on the way -/

theorem Moves.unionsFormed (h : Moves p own M M') (hM : M.UnionsFormed) : M'.UnionsFormed := by
  induction h with
  | refl M => exact hM
  | trans h h' ih ih' => exact ih' (ih hM)
  | type hd hrun =>
    refine hM.intern (fun members heq => ?_) hrun
    rw [heq] at hd
    cases hd
  | @union own M M' types t hrun =>
    obtain ⟨t', M₁, hrun', -, hM₁, -⟩ := hM.makes_union types
    cases hrun.symm.trans hrun'
    exact hM₁
  | symbol hsym hrun => exact hM.of_types (types_of_run_internSymbol hrun)
  | property hrun => exact hM.of_types (types_of_run_internSymbol hrun)
  | enumMember hd hn hrun => exact hM.of_types (types_of_run_internSymbol hrun)
  | value hnone hmark h ih => exact (ih (hM.of_types rfl)).of_types rfl
  | synonym hnone hmark h ih => exact (ih (hM.of_types rfl)).of_types rfl
  | members hnone hmark h ih => exact (ih (hM.of_types rfl)).of_types rfl

theorem Passed.unionsFormed (h : Passed p M) : M.UnionsFormed := by
  induction h with
  | empty => exact unionsFormed_empty
  | move h hmove ih => exact hmove.unionsFormed ih
  | mark h inferring resolving collecting ih => exact ih.of_types rfl

/-! ### Schemas -/

open Schema (Gen ask)

theorem run_ask_reads {α β : Type} {q : Resolve α} {a : α} (hq : Reads q M a)
    (f : α → Gen Resolve β) (T : Entries Schema) :
    ((ask q >>= f).run T).run M = ((f a).run T).run M := by
  rw [run_ask_bind, hq.run_bind]

/-- The schema of a union of text literals is an enum; that of any other union has one alternative
for each member, in order. -/
theorem run_ofUnion (bound : ℕ) (sub : TypeId → Gen Resolve Schema) {t : TypeId}
    {members : List TypeId} (hd : M.dataOf t = .union members) (T : Entries Schema) :
    (∃ values, ((Schema.ofUnion (oracleWithin p bound) sub t).run T).run M =
      some (({ Schema.typed "string" with enumValues := values }, T), M)) ∨
    ((Schema.ofUnion (oracleWithin p bound) sub t).run T).run M =
      ((do return { anyOf := ← members.mapM sub } : Gen Resolve Schema).run T).run M := by
  have hmembers : Reads ((oracleWithin p bound).constituents t) M members := by
    refine (reads_data t).bind ?_
    rw [hd]
    exact reads_pure _
  have hshape : ∀ m, Reads ((oracleWithin p bound).shape m) M (shapeOf (M.dataOf m)) := fun m =>
    (reads_data m).bind (reads_pure _)
  have hshapes := reads_mapM hshape members
  rw [Schema.ofUnion, run_ask_reads hmembers, run_ask_reads hshapes]
  split
  · exact Or.inl ⟨_, rfl⟩
  · exact Or.inr rfl

/-! ### Main result -/

/-- **Unions are in order.** Between questions and in the course of one, a union is made of any
types. If one of the flattened members says nothing, so does the union. Else it is `never`, the only
member, or a union of two or more members that are left: none of these says nothing, is `never` or a
union, and both truth values are not among them. The members are distinct but for `boolean`, which
is repeated just when it was among the flattened members next to both truth values.

So is every union that is there, and its schema, unless it is an enum, has one alternative for each
of its members. -/
theorem makeUnion_in_order (h : Passed p M) (types : List TypeId) :
    (∃ t M', (makeUnion types).run M = some (t, M') ∧
      ((∃ m ∈ M.flattened types, M.dataOf m = .any) ∧ M'.dataOf t = .any ∨
        (∀ m ∈ M.flattened types, M.dataOf m ≠ .any) ∧
          ∃ left, M'.Merges (M.flattened types) left ∧ M'.MadeOf t left ∧
            (2 ≤ left.length → M'.IsUnion left) ∧
            (left.Nodup ↔ ¬ M.AllTruth (M.flattened types)))) ∧
    ∀ t members, M.dataOf t = .union members → M.IsUnion members ∧
      ∀ bound sub T,
        (∃ values, ((Schema.ofUnion (oracleWithin p bound) sub t).run T).run M =
          some (({ Schema.typed "string" with enumValues := values }, T), M)) ∨
        ((Schema.ofUnion (oracleWithin p bound) sub t).run T).run M =
          ((do return { anyOf := ← members.mapM sub } : Gen Resolve Schema).run T).run M := by
  have hM := h.unionsFormed
  refine ⟨?_, fun t members hd => ⟨hM.unions t members hd, fun bound sub T =>
    run_ofUnion bound sub hd T⟩⟩
  obtain ⟨t, M', hrun, hE, hM', hany | ⟨hsome, left, hleft, ht⟩⟩ := hM.makes_union types
  · exact ⟨t, M', hrun, Or.inl hany⟩
  have hjoin := hM.mayJoin_flattened hsome
  have hnodup := nodup_flattened M types
  refine ⟨t, M', hrun, Or.inr ⟨hsome, left, hleft, ht, ?_, ?_⟩⟩
  · exact hleft.isUnion hM'.types_once hnodup fun m hm => (hjoin m hm).mono hE
  · rw [hleft.nodup_iff hM'.types_once hnodup, allTruth_iff hjoin hE]

/-- The program `type T = boolean | true | false;`. -/
def truthProgram : Program where
  units := #[{
    path := "truth.ts"
    nodes := #[
      { kind := "program", named := true, children := [1] },
      { kind := "type_alias_declaration", named := true, parent := some 0, children := [2, 3] },
      { kind := "type_identifier", field := some "name", named := true, parent := some 1,
        text := "T" },
      { kind := "union_type", field := some "value", named := true, parent := some 1,
        children := [4, 8] },
      { kind := "union_type", named := true, parent := some 3, children := [5, 6] },
      { kind := "predefined_type", named := true, parent := some 4, text := "boolean" },
      { kind := "literal_type", named := true, parent := some 4, children := [7] },
      { kind := "true", named := true, parent := some 6, text := "true" },
      { kind := "literal_type", named := true, parent := some 3, children := [9] },
      { kind := "false", named := true, parent := some 8, text := "false" }] }]

/-- The memory after asking for the type that the program declares. -/
theorem exists_truthMemory : ∃ M, Reached truthProgram M ∧
    M.types = #[.boolean, .booleanLit true, .booleanLit false, .union [0, 1], .union [0, 0]] ∧
    (makeUnion [0, 1, 2]).run' M = some 4 ∧
    (((Schema.ofType (oracle truthProgram) 4).run' []).run' M).map
      (fun s => s.anyOf.map (·.typeName)) = some [some "boolean", some "boolean"] := by
  have hrun : (((oracle truthProgram).pose (.typeOfTypeNode ⟨0, 3⟩)).run {}).map (fun r =>
      (r.2.types, (makeUnion [0, 1, 2]).run' r.2,
        (((Schema.ofType (oracle truthProgram) 4).run' []).run' r.2).map
          fun s => s.anyOf.map (·.typeName))) =
      some (#[.boolean, .booleanLit true, .booleanLit false, .union [0, 1], .union [0, 0]], some 4,
        some [some "boolean", some "boolean"]) := by
    decide +kernel
  obtain ⟨⟨_, M⟩, hM, hdata⟩ := Option.map_eq_some_iff.1 hrun
  obtain ⟨htypes, hrest⟩ := Prod.mk.inj hdata
  obtain ⟨hunion, hschema⟩ := Prod.mk.inj hrest
  have hreached : Reached truthProgram M :=
    .single ⟨nestingBound truthProgram, .typeOfTypeNode ⟨0, 3⟩, hM⟩
  exact ⟨M, hreached, htypes, hunion, hschema⟩

/-- The union of `boolean | true` with `false` is in order, though `boolean` is repeated in it. -/
theorem makeUnion_in_order_truth : ∃ M, Passed truthProgram M ∧ M.IsUnion [0, 1] ∧
    ∃ t M' left, (makeUnion [3, 2]).run M = some (t, M') ∧ M'.MadeOf t left ∧ ¬ left.Nodup := by
  obtain ⟨M, hM, htypes, -⟩ := exists_truthMemory
  have hdata : M.dataOf = fun t => (#[.boolean, .booleanLit true, .booleanLit false,
      .union [0, 1], .union [0, 0]] : Array TypeData).getD t .any := by
    rw [← htypes]
    rfl
  have hflat : M.flattened [3, 2] = [0, 1, 2] := by
    simp only [Memory.flattened, List.flatMap_cons, Memory.parts, hdata]
    rfl
  obtain ⟨⟨t, M', hrun, hmade⟩, hunions⟩ := makeUnion_in_order hM.passed [3, 2]
  refine ⟨M, hM.passed, (hunions 3 [0, 1] (by rw [hdata]; rfl)).1, t, M', ?_⟩
  rw [hflat] at hmade
  rcases hmade with ⟨hany, -⟩ | ⟨-, left, -, ht, -, hnodup⟩
  · rw [hdata] at hany
    exact absurd hany (by decide)
  · refine ⟨left, hrun, ht, fun h => hnodup.1 h ?_⟩
    rw [Memory.AllTruth, hdata]
    decide

/-- A union in which a member is repeated, and its schema. -/
theorem truthProgram_repeats_boolean : ∃ M, Reached truthProgram M ∧
    (makeUnion [0, 1, 2]).run' M = some 4 ∧ M.dataOf 4 = .union [0, 0] ∧
    (((Schema.ofType (oracle truthProgram) 4).run' []).run' M).map
      (fun s => s.anyOf.map (·.typeName)) = some [some "boolean", some "boolean"] := by
  obtain ⟨M, hM, htypes, hunion, hschema⟩ := exists_truthMemory
  refine ⟨M, hM, hunion, ?_, hschema⟩
  rw [Memory.dataOf, htypes]
  rfl

end RouteContract.Types
