import Mathlib
import RouteContract.Proofs.Schema.Generation
import RouteContract.Proofs.Schema.Height

/-!
# Descriptions come to an end

Promises are taken off a type without counting them as nested descriptions, so that a type which is
a promise of itself would be described for ever. `ofTypeAt` is this recursion as it stands: it
counts the depth upwards and knows no bound on promises, only one on nested calls, so that `none`
says that the calls have not ended. When every chain of promises is finite they end, and with the
schema that `ofTypeWithin` gives (`converges_ofTypeAt`). Types may otherwise lead to each other in
any way.
-/

namespace RouteContract

/-- An oracle that is a fixed function of its arguments, for computations of another kind. -/
def Oracle.lift (o : Oracle Id) (m : Type → Type) [Monad m] : Oracle m where
  typeAt node := pure (o.typeAt node)
  typeOfTypeNode node := pure (o.typeOfTypeNode node)
  symbolAt node := pure (o.symbolAt node)
  symbolName s := pure (o.symbolName s)
  isAlias s := pure (o.isAlias s)
  aliasedSymbol s := pure (o.aliasedSymbol s)
  declarations s := pure (o.declarations s)
  typeOfSymbol s := pure (o.typeOfSymbol s)
  isOptional s := pure (o.isOptional s)
  containerName s := pure (o.containerName s)
  docText s := pure (o.docText s)
  shape t := pure (o.shape t)
  typeSymbol t := pure (o.typeSymbol t)
  aliasSymbol t := pure (o.aliasSymbol t)
  typeArguments t := pure (o.typeArguments t)
  isTuple t := pure (o.isTuple t)
  constituents t := pure (o.constituents t)
  properties t := pure (o.properties t)
  callSignatureCount t := pure (o.callSignatureCount t)
  enumLiterals t := pure (o.enumLiterals t)
  promiseDepth _ := 0

namespace Schema

open Filter

/-! ### Promises -/

/-- A type is a promise of another one. -/
def Promises (o : Oracle Id) (t inner : TypeId) : Prop :=
  isPromise (typeName? o t) = true ∧ List.head? (o.typeArguments t) = some inner

/-- What is left of a type when a number of promises is taken off it: a type that is no promise,
with its name, or nothing if the last one is a promise of nothing. -/
inductive SettlesTo (o : Oracle Id) : ℕ → TypeId → Option (TypeId × Option String) → Prop
  | type {t : TypeId} (h : isPromise (typeName? o t) = false) :
    SettlesTo o 0 t (some (t, typeName? o t))
  | nothing {t : TypeId} (h : isPromise (typeName? o t) = true)
    (harguments : List.head? (o.typeArguments t) = none) : SettlesTo o 0 t none
  | promise {n : ℕ} {t inner : TypeId} {r : Option (TypeId × Option String)}
    (h : Promises o t inner) (hr : SettlesTo o n inner r) : SettlesTo o (n + 1) t r

theorem run_settle_of_not_isPromise {o : Oracle Id} {t : TypeId}
    (h : isPromise (typeName? o t).run = false) (fuel : ℕ) :
    (settle o (fuel + 1) t).run = some (t, (typeName? o t).run) := by
  simp [settle, h]

theorem run_settle_of_nothing {o : Oracle Id} {t : TypeId}
    (h : isPromise (typeName? o t).run = true) (harguments : (o.typeArguments t).run.head? = none)
    (fuel : ℕ) : (settle o (fuel + 1) t).run = none := by
  simp [settle, h, harguments]

theorem run_settle_of_promises {o : Oracle Id} {t inner : TypeId} (h : Promises o t inner)
    (fuel : ℕ) : (settle o (fuel + 1) t).run = (settle o fuel inner).run := by
  have hname : isPromise (typeName? o t).run = true := h.1
  have harguments : (o.typeArguments t).run.head? = some inner := h.2
  simp [settle, hname, harguments]

theorem SettlesTo.settle_eq {o : Oracle Id} {n : ℕ} {t : TypeId}
    {r : Option (TypeId × Option String)} (h : SettlesTo o n t r) {fuel : ℕ} (hfuel : n < fuel) :
    settle o fuel t = r := by
  induction h generalizing fuel with
  | @type t h =>
    obtain ⟨fuel, rfl⟩ := Nat.exists_eq_succ_of_ne_zero hfuel.ne'
    exact run_settle_of_not_isPromise h fuel
  | @nothing t h harguments =>
    obtain ⟨fuel, rfl⟩ := Nat.exists_eq_succ_of_ne_zero hfuel.ne'
    exact run_settle_of_nothing h harguments fuel
  | @promise n t inner r h _ ih =>
    obtain ⟨fuel, rfl⟩ := Nat.exists_eq_succ_of_ne_zero (Nat.ne_zero_of_lt hfuel)
    exact (run_settle_of_promises h fuel).trans (ih (Nat.lt_of_succ_lt_succ hfuel))

/-- When every chain of promises is finite, every type settles. -/
theorem exists_settlesTo {o : Oracle Id} (ho : WellFounded fun inner t => Promises o t inner)
    (t : TypeId) : ∃ n r, SettlesTo o n t r := by
  induction t using ho.induction with
  | _ t ih =>
    cases h : isPromise (typeName? o t) with
    | false => exact ⟨0, _, .type h⟩
    | true =>
      cases harguments : List.head? (o.typeArguments t) with
      | none => exact ⟨0, _, .nothing h harguments⟩
      | some inner =>
        obtain ⟨n, r, hr⟩ := ih inner ⟨h, harguments⟩
        exact ⟨n + 1, r, .promise ⟨h, harguments⟩ hr⟩

/-! ### The recursion without a bound on promises -/

/-- The schema of a type at a depth, by at most a number of calls inside each other; none if there
are more. -/
def ofTypeAt (o : Oracle Id) : ℕ → ℕ → TypeId → Gen Option Schema
  | 0, _, _ => ask none
  | calls + 1, depth, t =>
    if maxNesting ≤ depth then pure {}
    else if isPromise (typeName? o t) then
      match List.head? (o.typeArguments t) with
      | some inner => ofTypeAt o calls depth inner
      | none => pure {}
    else ofSettled (o.lift Option) (ofTypeAt o calls (depth + 1)) t (typeName? o t)

/-- With enough calls, the description of a type at a depth ends with a schema and a table. -/
def Ends (o : Oracle Id) (depth : ℕ) (t : TypeId) (T : Entries Schema)
    (r : Schema × Entries Schema) : Prop :=
  ∀ᶠ calls in atTop, (ofTypeAt o calls depth t).run T = some r

theorem Ends.unique {o : Oracle Id} {depth : ℕ} {t : TypeId} {T : Entries Schema}
    {r r' : Schema × Entries Schema} (h : Ends o depth t T r) (h' : Ends o depth t T r') :
    r = r' := by
  obtain ⟨calls, hr, hr'⟩ := (h.and h').exists
  exact Option.some.inj (hr.symm.trans hr')

theorem heightWithin_ofTypeAt (o : Oracle Id) (calls depth : ℕ) (t : TypeId) :
    HeightWithin (maxNesting - depth) (ofTypeAt o calls depth t) := by
  induction calls generalizing depth t with
  | zero => exact fun T => ensures_option_iff.2 fun _ _ h => by cases h
  | succ calls ih =>
    unfold ofTypeAt
    split
    · exact heightWithin_of_scalars height_empty
    next hdepth =>
    split
    · split
      · exact ih depth _
      · exact heightWithin_of_scalars height_empty
    · have hleft : maxNesting - depth = maxNesting - (depth + 1) + 1 := by omega
      rw [hleft]
      exact heightWithin_ofSettled _ (ih (depth + 1)) t _

/-! ### More and more calls -/

/-- With enough calls, computations that may not end do what another one does, from every table. -/
def Converges {α : Type} (X : ℕ → Gen Option α) (x : Gen Id α) : Prop :=
  ∀ T, ∀ᶠ calls in atTop, (X calls).run T = some (x.run T)

section Rules

variable {α β : Type} {X : ℕ → Gen Option α} {x : Gen Id α}

theorem converges_pure (a : α) : Converges (fun _ => pure a) (pure a) :=
  fun _ => .of_forall fun _ => rfl

theorem Converges.bind {F : ℕ → α → Gen Option β} {f : α → Gen Id β} (hx : Converges X x)
    (hf : ∀ a, Converges (fun calls => F calls a) (f a)) :
    Converges (fun calls => X calls >>= F calls) (x >>= f) := by
  intro T
  filter_upwards [hx T, hf (x.run T).1 (x.run T).2] with calls hX hF
  rw [StateT.run_bind, hX]
  exact hF

/-- A question is answered at once. -/
theorem converges_ask_bind {q' : Option α} {q : Id α} (hq : q' = some q)
    {F : ℕ → α → Gen Option β} {f : α → Gen Id β}
    (hf : ∀ a, Converges (fun calls => F calls a) (f a)) :
    Converges (fun calls => ask q' >>= F calls) (ask q >>= f) := by
  subst hq
  exact fun T => hf q T

theorem converges_get : Converges (fun _ => get) get := fun _ => .of_forall fun _ => rfl

theorem converges_modify (f : Entries Schema → Entries Schema) :
    Converges (fun _ => modify f) (modify f) := fun _ => .of_forall fun _ => rfl

theorem converges_mapM {F : ℕ → α → Gen Option β} {f : α → Gen Id β}
    (hf : ∀ a, Converges (fun calls => F calls a) (f a)) (l : List α) :
    Converges (fun calls => l.mapM (F calls)) (l.mapM f) := by
  induction l with
  | nil => exact converges_pure []
  | cons a l ih =>
    simp only [List.mapM_cons]
    exact (hf a).bind fun b => ih.bind fun bs => converges_pure _

theorem converges_foldlM {F : ℕ → β → α → Gen Option β} {f : β → α → Gen Id β}
    (hf : ∀ b a, Converges (fun calls => F calls b a) (f b a)) (l : List α) (b : β) :
    Converges (fun calls => l.foldlM (F calls) b) (l.foldlM f b) := by
  induction l generalizing b with
  | nil => exact converges_pure b
  | cons a l ih =>
    simp only [List.foldlM_cons]
    exact (hf b a).bind ih

theorem Converges.of_succ (h : Converges (fun calls => X (calls + 1)) x) : Converges X x := by
  intro T
  rw [← map_add_atTop_eq_nat 1]
  exact h T

end Rules

/-! ### Descriptions of types -/

section Generation

variable (o : Oracle Id)

theorem symbolName?_lift (s : Option SymbolId) :
    symbolName? (o.lift Option) s = some (symbolName? o s) := by
  cases s <;> rfl

theorem schemaName?_lift (t : TypeId) :
    schemaName? (o.lift Option) t = some (schemaName? o t) := by
  show (match o.aliasSymbol t with
    | some s => symbolName? (o.lift Option) (some s)
    | none => symbolName? (o.lift Option) (o.typeSymbol t)) = some (schemaName? o t)
  unfold schemaName?
  simp only [symbolName?_lift]
  cases o.aliasSymbol t <;> rfl

theorem mapM_shape_lift (types : List TypeId) :
    types.mapM (o.lift Option).shape = some (types.mapM o.shape) := by
  induction types with
  | nil => rfl
  | cons t types ih =>
    rw [List.mapM_cons, List.mapM_cons, ih]
    rfl

variable {X : ℕ → TypeId → Gen Option Schema} {sub : TypeId → Gen Id Schema}
  (hsub : ∀ t, Converges (fun calls => X calls t) (sub t))
include hsub

theorem converges_ofUnion (t : TypeId) :
    Converges (fun calls => ofUnion (o.lift Option) (X calls) t) (ofUnion o sub t) := by
  refine converges_ask_bind rfl fun members => ?_
  refine converges_ask_bind (mapM_shape_lift o members) fun shapes => ?_
  split
  · exact converges_pure _
  · exact (converges_mapM hsub members).bind fun _ => converges_pure _

theorem converges_addProperty (s : Schema) (property : SymbolId) :
    Converges (fun calls => addProperty (o.lift Option) (X calls) s property)
      (addProperty o sub s property) := by
  refine converges_ask_bind rfl fun name => ?_
  split
  · exact converges_pure s
  refine converges_ask_bind rfl fun container => ?_
  split
  · exact converges_pure s
  refine converges_ask_bind rfl fun t => converges_ask_bind rfl fun count => ?_
  split
  · exact converges_pure s
  refine converges_ask_bind rfl fun shape => ?_
  split
  · exact converges_pure s
  refine converges_ask_bind rfl fun isOptional => ?_
  exact (hsub t).bind fun described => converges_ask_bind rfl fun doc => converges_pure _

theorem converges_ofObject (t : TypeId) :
    Converges (fun calls => ofObject (o.lift Option) (X calls) t) (ofObject o sub t) :=
  converges_ask_bind rfl fun properties =>
    converges_foldlM (converges_addProperty o hsub) properties _

theorem converges_ofNamed (name : String) (t : TypeId) :
    Converges (fun calls => ofNamed (o.lift Option) (X calls) name t) (ofNamed o sub name t) := by
  refine converges_get.bind fun T => ?_
  split
  · exact converges_pure _
  · refine (converges_modify _).bind fun _ => (converges_ofObject o hsub t).bind fun _ => ?_
    exact (converges_modify _).bind fun _ => converges_pure _

theorem converges_ofObjectLike (t : TypeId) :
    Converges (fun calls => ofObjectLike (o.lift Option) (X calls) t)
      (ofObjectLike o sub t) := by
  refine converges_ask_bind (schemaName?_lift o t) fun name => ?_
  split
  · split
    · exact converges_pure _
    · split
      · exact converges_ofObject o hsub t
      · exact converges_ofNamed o hsub _ t
  · exact converges_ofObject o hsub t

theorem converges_ofSettled (t : TypeId) (name : Option String) :
    Converges (fun calls => ofSettled (o.lift Option) (X calls) t name)
      (ofSettled o sub t name) := by
  refine converges_ask_bind rfl fun shape => ?_
  split
  · exact converges_pure _
  split
  · exact converges_pure _
  refine converges_ask_bind rfl fun isTuple => ?_
  split
  · refine converges_ask_bind rfl fun arguments => ?_
    split
    · exact (hsub _).bind fun _ => converges_pure _
    · exact (converges_pure _).bind fun _ => converges_pure _
  split
  · exact converges_ask_bind rfl fun _ => converges_pure _
  · exact converges_ofUnion o hsub t
  · refine converges_ask_bind rfl fun members => ?_
    exact (converges_mapM hsub members).bind fun _ => converges_pure _
  · exact converges_pure _
  · exact converges_pure _
  · exact converges_pure _
  · exact converges_ofObjectLike o hsub t
  · exact converges_ofObjectLike o hsub t
  · exact converges_pure _

end Generation

variable {o : Oracle Id}

/-- The description of a type by what it settles to. -/
def ofSettlement (o : Oracle Id) (sub : TypeId → Gen Id Schema) :
    Option (TypeId × Option String) → Gen Id Schema
  | some (t, name) => ofSettled o sub t name
  | none => pure {}

theorem converges_of_settlesTo {n depth : ℕ} {t : TypeId} {r : Option (TypeId × Option String)}
    (h : SettlesTo o n t r) (hdepth : depth < maxNesting) {sub : TypeId → Gen Id Schema}
    (hsub : ∀ t, Converges (fun calls => ofTypeAt o calls (depth + 1) t) (sub t)) :
    Converges (fun calls => ofTypeAt o calls depth t) (ofSettlement o sub r) := by
  have hdepth := Nat.not_le.2 hdepth
  -- along the promises, each of which takes one call
  induction h with
  | @type t h =>
    refine Converges.of_succ ?_
    simp only [ofTypeAt, hdepth, h, if_false]
    exact converges_ofSettled o hsub t _
  | @nothing t h harguments =>
    refine Converges.of_succ ?_
    simp only [ofTypeAt, hdepth, h, harguments, if_false, if_true]
    exact converges_pure _
  | promise h _ ih =>
    refine Converges.of_succ ?_
    simp only [ofTypeAt, hdepth, h.1, h.2, if_false, if_true]
    exact ih

theorem converges_of_maxNesting_le {depth : ℕ} (h : maxNesting ≤ depth) (t : TypeId) :
    Converges (fun calls => ofTypeAt o calls depth t) (pure {}) := by
  refine Converges.of_succ ?_
  simp only [ofTypeAt, h, if_true]
  exact converges_pure _

/-- When every chain of promises is finite, the calls come to an end. -/
theorem exists_converges (ho : WellFounded fun inner t => Promises o t inner) (depth : ℕ)
    (t : TypeId) : ∃ x, Converges (fun calls => ofTypeAt o calls depth t) x := by
  generalize hleft : maxNesting - depth = left
  induction left generalizing depth t with
  | zero => exact ⟨_, converges_of_maxNesting_le (Nat.le_of_sub_eq_zero hleft) t⟩
  | succ left ih =>
    obtain ⟨n, r, hr⟩ := exists_settlesTo ho t
    choose sub hsub using fun t => ih (depth + 1) t (by omega)
    exact ⟨_, converges_of_settlesTo hr (by omega) hsub⟩

/-- When every type settles within its number of promises, the calls end as the description to the
number of nested descriptions that the depth leaves. -/
theorem converges_ofTypeAt (ho : ∀ t, ∃ n r, SettlesTo o n t r ∧ n ≤ o.promiseDepth t) (depth : ℕ)
    (t : TypeId) :
    Converges (fun calls => ofTypeAt o calls depth t) (ofTypeWithin o (maxNesting - depth) t) := by
  generalize hleft : maxNesting - depth = left
  induction left generalizing depth t with
  | zero => exact converges_of_maxNesting_le (Nat.le_of_sub_eq_zero hleft) t
  | succ left ih =>
    obtain ⟨n, r, hr, hn⟩ := ho t
    have hwithin : ofTypeWithin o (left + 1) t = ofSettlement o (ofTypeWithin o left) r := by
      rw [← hr.settle_eq (Nat.lt_succ_of_le hn)]
      rfl
    rw [hwithin]
    exact converges_of_settlesTo hr (by omega) fun t => ih (depth + 1) t (by omega)

/-- **Descriptions end, and nest no deeper than the depth leaves.** A schema that a call at a depth
ends with has at most the height that the depth leaves, and so has every entry that the call adds to
the table, whatever types lead to each other. When every chain of promises is finite, every call
ends, with one outcome; and that is the description to this number of nested descriptions, when the
number of promises that may be taken off each type is large enough for it. -/
theorem ofTypeAt_ends_within (o : Oracle Id) (depth : ℕ) (t : TypeId) (T : Entries Schema) :
    (∀ calls r, (ofTypeAt o calls depth t).run T = some r → r.1.height ≤ maxNesting - depth ∧
      ∃ added, r.2 = T ++ added ∧ ∀ e ∈ added, e.2.height ≤ maxNesting - depth) ∧
    ((WellFounded fun inner t => Promises o t inner) → ∃! r, Ends o depth t T r) ∧
    ((∀ t, ∃ n r, SettlesTo o n t r ∧ n ≤ o.promiseDepth t) →
      Ends o depth t T ((ofTypeWithin o (maxNesting - depth) t).run T)) := by
  refine ⟨fun calls r hr => ?_, fun ho => ?_, fun ho => converges_ofTypeAt ho depth t T⟩
  · exact ensures_option_iff.1 (heightWithin_ofTypeAt o calls depth t T) r.1 r.2 hr
  · obtain ⟨x, hx⟩ := exists_converges ho depth t
    exact ⟨x.run T, hx T, fun r hr => Ends.unique hr (hx T)⟩

/-- Lists that are deferred: type 0 is an object without a name, whose rest is a promise, type 1, of
such an object. -/
def deferredOracle : Oracle Id :=
  { commentOracle with
    symbolName := fun s => pure (if s = 1 then "Promise" else "rest")
    containerName := fun _ => pure none
    typeSymbol := fun t => pure (if t = 1 then some 1 else none)
    promiseDepth := id }

theorem promises_deferredOracle {t inner : TypeId} (h : Promises deferredOracle t inner) :
    t = 1 ∧ inner = 0 := by
  have harguments : List.head? (if t = 1 then [0] else []) = some inner := h.2
  split at harguments
  · exact ⟨‹_›, (Option.some.inj harguments).symm⟩
  · cases harguments

theorem settlesTo_deferredOracle (t : TypeId) :
    ∃ n r, SettlesTo deferredOracle n t r ∧ n ≤ deferredOracle.promiseDepth t := by
  have hplain {t : TypeId} (h : t ≠ 1) : isPromise (typeName? deferredOracle t) = false := by
    have : typeName? deferredOracle t = symbolName? deferredOracle none := by
      show symbolName? deferredOracle (if t = 1 then some 1 else none) = _
      rw [if_neg h]
    rw [this]
    rfl
  rcases eq_or_ne t 1 with rfl | ht
  · exact ⟨1, _, .promise ⟨by decide, rfl⟩ (.type (hplain (by decide))), le_rfl⟩
  · exact ⟨0, _, .type (hplain ht), Nat.zero_le _⟩

/-- The promise of a deferred list, three levels down: each rest is described inside the one before,
until all levels that are left are used up. -/
theorem ofTypeAt_ends_within_deferred :
    (WellFounded fun inner t => Promises deferredOracle t inner) ∧
    (∀ t, ∃ n r, SettlesTo deferredOracle n t r ∧ n ≤ deferredOracle.promiseDepth t) ∧
    (∃! r, Ends deferredOracle 3 1 [] r) ∧
    Ends deferredOracle 3 1 [] ((ofTypeWithin deferredOracle 8 1).run []) ∧
    height ((ofTypeWithin deferredOracle 8 1).run []).1 = 8 ∧
    ∀ calls r, (ofTypeAt deferredOracle calls 3 1).run [] = some r → r.1.height ≤ 8 := by
  have hpromises : WellFounded fun inner t => Promises deferredOracle t inner := by
    refine Subrelation.wf (fun {inner t} h => ?_) Nat.lt_wfRel.wf
    obtain ⟨rfl, rfl⟩ := promises_deferredOracle h
    exact Nat.zero_lt_one
  obtain ⟨hheight, hends, hsettles⟩ := ofTypeAt_ends_within deferredOracle 3 1 []
  exact ⟨hpromises, settlesTo_deferredOracle, hends hpromises, hsettles settlesTo_deferredOracle,
    by decide +kernel, fun calls r hr => (hheight calls r hr).1⟩

end Schema

end RouteContract
