import Mathlib
import RouteContract.Proofs.Types.Halting
import RouteContract.Proofs.Types.Naming
import RouteContract.Proofs.Types.Reached

/-!
# Handles of types and symbols

A handle stands for its data for good, and the data of a type is made of types that were there
before it. So every chain of types inside types goes down, and taking the promises off a type comes
to an end (`Sound.exists_unwraps`), however the types came about.
-/

namespace RouteContract.Types

open Schema (settle typeName? isPromise)

/-- The types inside the key of an object type. -/
def ObjectKey.types : ObjectKey → List TypeId
  | .declared _ args => args
  | .literal _ env => env.map Prod.snd
  | .value _ => []
  | .allOptional inner => [inner]

/-- The types inside the data of a type. -/
def TypeData.types : TypeData → List TypeId
  | .array element => [element]
  | .tuple elements => elements
  | .union members => members
  | .intersection members => members
  | .object key _ _ => key.types
  | .named _ args => args
  | _ => []

/-- The symbols inside the data of a type. -/
def TypeData.symbols : TypeData → List SymbolId
  | .object _ s through => s :: through.toList
  | .enum s => [s]
  | .named s _ => [s]
  | _ => []

variable {p : Program} {M M' : Memory} {bound : Nat}

/-! ### Parts of data -/

theorem ObjectFits.types_lt {n : Nat} {s : SymbolId} {through : Option SymbolId} {key : ObjectKey}
    (h : ObjectFits p M n s through key) : ∀ t ∈ key.types, t < n := by
  cases key with
  | declared d args => exact h.2.1
  | literal v env =>
    intro t ht
    obtain ⟨e, he, rfl⟩ := List.mem_map.1 ht
    exact h.1 e he
  | value v =>
    intro t ht
    cases ht
  | allOptional inner =>
    intro t ht
    rw [List.mem_singleton.1 ht]
    exact h.2.1

theorem Fits.types_lt {n : Nat} {d : TypeData} (h : Fits p M n d) : ∀ t ∈ d.types, t < n := by
  cases d with
  | array element =>
    intro t ht
    rw [List.mem_singleton.1 ht]
    exact h
  | tuple elements => exact h
  | union members => exact h
  | intersection members => exact h
  | object key s through => exact ObjectFits.types_lt h
  | named s args => exact h.1
  | _ =>
    intro t ht
    cases ht

theorem Sound.symbols_in (hM : Sound p M) {t : TypeId} {d : TypeData}
    (h : M.types[t]? = some d) : ∀ s ∈ d.symbols, SymbolIn s M := by
  have hd := Memory.dataOf_of_getElem? h
  intro s hs
  cases d with
  | object key own through =>
    obtain ⟨hown, hthrough⟩ := hM.object_symbols hd
    rcases List.mem_cons.1 hs with rfl | hs
    · exact hown
    · exact hthrough s (Option.mem_toList.1 hs)
  | enum own =>
    obtain ⟨decl, hkey, -⟩ := hM.types t _ h
    rw [List.mem_singleton.1 hs]
    exact symbolIn_of_keyOf? hkey
  | named own args =>
    rw [List.mem_singleton.1 hs]
    exact hM.named_symbol hd
  | _ => cases hs

theorem mem_types_of_mem_typeArguments {d : TypeData} {t : TypeId} (h : t ∈ typeArguments d) :
    t ∈ d.types := by
  cases d with
  | array element => exact h
  | tuple elements => exact h
  | named s args => exact h
  | object key s through =>
    cases key with
    | declared d args => exact h
    | _ => cases h
  | _ => cases h

/-! ### Interning -/

theorem run_intern_eq (M : Memory) (d : TypeData) :
    (intern d).run M = match M.types.findIdx? (· = d) with
      | some t => some (t, M)
      | none => some (M.types.size, { M with types := M.types.push d }) := by
  show (match M.types.findIdx? (· = d) with
      | some t => pure t
      | none => do
        set { M with types := M.types.push d }
        return M.types.size : Resolve TypeId).run M = _
  split
  · rfl
  · rfl

/-- Where each type is in the table once, data that is there has the handle at which it stands. -/
theorem run_intern_of_once
    (hM : ∀ (t u : TypeId) d, M.types[t]? = some d → M.types[u]? = some d → t = u) {t : TypeId}
    {d : TypeData} (h : M.types[t]? = some d) : (intern d).run M = some (t, M) := by
  rw [run_intern_eq]
  split
  · next u hu =>
    obtain ⟨hlt, heq, -⟩ := Array.findIdx?_eq_some_iff_getElem.1 hu
    have hu' : M.types[u]? = some d := by
      rw [Array.getElem?_eq_getElem hlt, of_decide_eq_true heq]
    rw [hM u t d hu' h]
  · next hnone =>
    have hne := Array.findIdx?_eq_none_iff.1 hnone d (Array.mem_of_getElem? h)
    simp at hne

theorem Sound.run_intern (hM : Sound p M) {t : TypeId} {d : TypeData}
    (h : M.types[t]? = some d) : (intern d).run M = some (t, M) :=
  run_intern_of_once hM.types_once h

/-- All data gets a handle, at which it stands from then on. -/
theorem exists_run_intern (M : Memory) (d : TypeData) :
    ∃ t M', (intern d).run M = some (t, M') ∧ M'.types[t]? = some d ∧ M.Extends M' := by
  rw [run_intern_eq]
  split
  · next t ht =>
    obtain ⟨hlt, heq, -⟩ := Array.findIdx?_eq_some_iff_getElem.1 ht
    refine ⟨t, M, rfl, ?_, .refl M⟩
    rw [Array.getElem?_eq_getElem hlt, of_decide_eq_true heq]
  · exact ⟨_, _, rfl, Array.getElem?_push_size, M.extends_pushType d⟩

/-! ### Taking off promises -/

theorem answers_typeName? (t : TypeId) : Answers (typeName? (oracleWithin p bound) t) := by
  have hsymbol : Answers (typeSymbol t) := by
    refine (answers_data t).bind fun d => ?_
    split
    · exact answers_pure _
    · exact answers_pure _
    · exact answers_pure _
    · exact (answers_internSymbol _).bind fun _ => answers_pure _
    · exact (answers_internSymbol _).bind fun _ => answers_pure _
    · exact answers_pure _
  refine hsymbol.bind fun s => ?_
  cases s with
  | none => exact answers_pure _
  | some s =>
    exact (answers_symbol s).bind (fun _ => answers_pure _) |>.bind fun _ => answers_pure _

/-- The name that is made up for a type is not that of a promise. -/
theorem Sound.run_typeName?_made (hM : Sound p M) {t : TypeId} (h : IsUnnamed (M.dataOf t)) :
    ∃ name M', (typeName? (oracleWithin p bound) t).run M = some (name, M') ∧
      isPromise name = false := by
  obtain ⟨⟨name, M'⟩, hrun⟩ := @answers_typeName? p bound t M
  refine ⟨name, M', hrun, ?_⟩
  rcases h with ⟨element, h⟩ | ⟨decl, h⟩
  · have hname := ensures_option_iff.1 (keeps_typeName?_array h hM) _ _ hrun
    rw [hname.2.2]
    decide
  · have hname := ensures_option_iff.1 (keeps_typeName?_function h hM) _ _ hrun
    rw [hname.2.2]
    decide

/-- What a promise promises was there before the promise. -/
theorem Sound.typeArguments_lt (hM : Sound p M) {t u : TypeId}
    (h : u ∈ typeArguments (M.dataOf t)) : u < t := by
  have hd : M.dataOf t ≠ .any := by
    intro hany
    rw [hany] at h
    cases h
  exact (hM.fits rfl hd).2.types_lt u (mem_types_of_mem_typeArguments h)

/-- The promises are taken off a type one after the other, so many of them, by questions that lead
from a memory to another. What is left is a type that is no promise, with its name, or nothing when
the last one is a promise of nothing. -/
inductive Unwraps (o : Oracle Resolve) :
    ℕ → TypeId → Memory → Option (TypeId × Option String) → Memory → Prop
  | type {t : TypeId} {M M' : Memory} {name : Option String}
    (hname : (typeName? o t).run M = some (name, M')) (h : isPromise name = false) :
    Unwraps o 0 t M (some (t, name)) M'
  | nothing {t : TypeId} {M M₁ M' : Memory} {name : Option String}
    (hname : (typeName? o t).run M = some (name, M₁)) (h : isPromise name = true)
    (harguments : (o.typeArguments t).run M₁ = some ([], M')) : Unwraps o 0 t M none M'
  | promise {n : ℕ} {t inner : TypeId} {M M₁ M₂ M' : Memory} {name : Option String}
    {rest : List TypeId} {left : Option (TypeId × Option String)}
    (hname : (typeName? o t).run M = some (name, M₁)) (h : isPromise name = true)
    (harguments : (o.typeArguments t).run M₁ = some (inner :: rest, M₂))
    (hinner : Unwraps o n inner M₂ left M') : Unwraps o (n + 1) t M left M'

/-- More steps than there are promises never change what is left. -/
theorem Unwraps.run_settle {o : Oracle Resolve} {n : ℕ} {t : TypeId}
    {left : Option (TypeId × Option String)} (h : Unwraps o n t M left M') {fuel : ℕ}
    (hfuel : n < fuel) : (settle o fuel t).run M = some (left, M') := by
  induction h generalizing fuel with
  | @type t M M' name hname h =>
    obtain ⟨fuel, rfl⟩ := Nat.exists_eq_succ_of_ne_zero hfuel.ne'
    rw [settle, StateT.run_bind, hname]
    show (if isPromise name then _ else _ : Resolve _).run M' = _
    rw [h]
    rfl
  | @nothing t M M₁ M' name hname h harguments =>
    obtain ⟨fuel, rfl⟩ := Nat.exists_eq_succ_of_ne_zero hfuel.ne'
    rw [settle, StateT.run_bind, hname]
    show (if isPromise name then _ else _ : Resolve _).run M₁ = _
    rw [h, if_pos rfl, StateT.run_bind, harguments]
    rfl
  | @promise n t inner M M₁ M₂ M' name rest left hname h harguments _ ih =>
    obtain ⟨fuel, rfl⟩ := Nat.exists_eq_succ_of_ne_zero (Nat.ne_zero_of_lt hfuel)
    rw [settle, StateT.run_bind, hname]
    show (if isPromise name then _ else _ : Resolve _).run M₁ = _
    rw [h, if_pos rfl, StateT.run_bind, harguments]
    exact ih (Nat.lt_of_succ_lt_succ hfuel)

variable (bound) in
/-- **Taking the promises off a type comes to an end**, and there are no more of them than the
handle of the type says. -/
theorem Sound.exists_unwraps (hM : Sound p M) (t : TypeId) :
    ∃ n left M', n ≤ t ∧ Unwraps (oracleWithin p bound) n t M left M' := by
  induction t using Nat.strong_induction_on with
  | _ t ih =>
    by_cases hun : IsUnnamed (M.dataOf t)
    · obtain ⟨name, M', hrun, hname⟩ := @Sound.run_typeName?_made p M bound hM t hun
      exact ⟨0, some (t, name), M', Nat.zero_le t, .type hrun hname⟩
    have hname : (typeName? (oracleWithin p bound) t).run M = some (M.nameOf? t, M) :=
      reads_typeName? hun
    have harguments : ((oracleWithin p bound).typeArguments t).run M =
        some (typeArguments (M.dataOf t), M) := reads_typeArguments t
    cases hpromise : isPromise (M.nameOf? t) with
    | false => exact ⟨0, some (t, M.nameOf? t), M, Nat.zero_le t, .type hname hpromise⟩
    | true =>
      cases hinner : typeArguments (M.dataOf t) with
      | nil =>
        rw [hinner] at harguments
        exact ⟨0, none, M, Nat.zero_le t, .nothing hname hpromise harguments⟩
      | cons inner rest =>
        rw [hinner] at harguments
        have hlt : inner < t := hM.typeArguments_lt (by rw [hinner]; exact List.mem_cons_self)
        obtain ⟨n, left, M', hn, hunwraps⟩ := ih inner hlt
        exact ⟨n + 1, left, M', Nat.succ_le_of_lt (hn.trans_lt hlt),
          .promise hname hpromise harguments hunwraps⟩

/-- **Handles are stable and well-founded.** In every memory that questions lead to, the table of
types and interning are inverse to each other, later questions change no type and no symbol, every
symbol that is kept is in its table, and the types inside a type have smaller handles. So taking the
promises off a type comes to an end, after no more promises than its handle says; with more steps
than there are promises the schema generator finds what is left then. -/
theorem reached_handles (p : Program) {M : Memory} (h : Reached p M) :
    (∀ d, ∃ t M', (intern d).run M = some (t, M') ∧ M'.types[t]? = some d) ∧
    (∀ (t : TypeId) d, M.types[t]? = some d → (intern d).run M = some (t, M)) ∧
    (∀ (t u : TypeId) d e, M.types[t]? = some d → M.types[u]? = some e → (d = e ↔ t = u)) ∧
    (∀ M', Later p M M' → M.Extends M') ∧
    (∀ (t : TypeId) d, M.types[t]? = some d → ∀ s ∈ d.symbols, SymbolIn s M) ∧
    (∀ e ∈ M.members, ∀ s ∈ e.2, SymbolIn s M) ∧
    (∀ (t : TypeId) d, M.types[t]? = some d → ∀ u ∈ d.types, u < t) ∧
    ∀ bound t, ∃ n left M', n ≤ t ∧ Unwraps (oracleWithin p bound) n t M left M' ∧
      ∀ fuel, n < fuel →
        (settle (oracleWithin p bound) fuel t).run M = some (left, M') := by
  have hM := h.sound
  refine ⟨fun d => ?_, fun t d ht => hM.run_intern ht, fun t u d e ht hu => ?_, fun M' hM' => ?_,
    fun t d ht => hM.symbols_in ht, fun e he s hs => ?_, fun t d ht => ?_,
    fun bound t => ?_⟩
  · obtain ⟨t, M', hrun, ht, -⟩ := exists_run_intern M d
    exact ⟨t, M', hrun, ht⟩
  · constructor
    · rintro rfl
      exact hM.types_once t u d ht hu
    · rintro rfl
      exact Option.some.inj (ht.symm.trans hu)
  · exact (hM'.keeps hM).2.1
  · exact ((hM.members e he).1 s hs).symbolIn
  · exact (hM.types t d ht).types_lt
  · obtain ⟨n, left, M', hn, hunwraps⟩ := hM.exists_unwraps bound t
    exact ⟨n, left, M', hn, hunwraps, fun fuel hfuel => hunwraps.run_settle hfuel⟩

/-- The promise of a box in a memory that a question led to. -/
theorem boxProgram_promise :
    (((oracle boxProgram).pose (.typeOfTypeNode ⟨0, 25⟩)).run {}).map
      (fun r => (r.2.types[2]?, r.2.types[3]?)) =
    some (some (.object (.declared ⟨0, 1⟩ [1]) 1 none), some (.named 2 [2])) := by
  decide +kernel

/-- The promise of a box has one handle, which is above that of the box, and the promise comes off
with no more steps than the handle says. -/
theorem reached_handles_boxes : ∃ M, Reached boxProgram M ∧
    M.types[3]? = some (.named 2 [2]) ∧ (intern (.named 2 [2])).run M = some (3, M) ∧
    SymbolIn 2 M ∧ (∀ u ∈ (TypeData.named 2 [2]).types, u < 3) ∧
    ∃ n left M', n ≤ 3 ∧ Unwraps (oracleWithin boxProgram 10) n 3 M left M' ∧
      ∀ fuel, n < fuel →
        (settle (oracleWithin boxProgram 10) fuel 3).run M = some (left, M') := by
  obtain ⟨⟨_, M⟩, hrun, htypes⟩ := Option.map_eq_some_iff.1 boxProgram_promise
  have hreached : Reached boxProgram M :=
    Relation.ReflTransGen.single ⟨nestingBound boxProgram, .typeOfTypeNode ⟨0, 25⟩, hrun⟩
  have hpromise : M.types[3]? = some (.named 2 [2]) := (Prod.mk.inj htypes).2
  obtain ⟨-, hintern, -, -, hsymbols, -, hlt, hsettle⟩ := reached_handles boxProgram hreached
  exact ⟨M, hreached, hpromise, hintern 3 _ hpromise, hsymbols 3 _ hpromise 2 (by decide),
    hlt 3 _ hpromise, hsettle 10 3⟩

end RouteContract.Types
