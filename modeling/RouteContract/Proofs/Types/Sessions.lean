import Mathlib
import RouteContract.Proofs.Types.Following.Answers
import RouteContract.Proofs.Types.FoundedCheck
import RouteContract.Proofs.Types.Termination

/-!
# Queries on a shared resolver

A query asks for the type of a node or of a type expression, and is answered in words, by the shape
of the type and by the names of its properties. On a resolver that has answered other queries before
it has the answer of a resolver of its own, as long as what each query looks up rests on no circle
(`session_eq_fresh`).

It does not hold of circles: of two aliases for arrays of each other, the one that is asked for
first is an array of arrays, and the other one an array (`ring_answers`).
-/

namespace RouteContract.Types

open Filter

variable {p : Program} {C : Course p} {own : Side → Option TypeId} {steps : Calls}
  {M : Side → Memory}

/-! ### Queries -/

/-- A query for the type of a node, or for what a type expression denotes. -/
inductive Query where
  | typeAt (node : NodeId)
  | typeNode (node : NodeId)

/-- What is said of a type: it in words, its shape and the names of its properties. -/
structure Rendering where
  words : String
  shape : TypeShape
  properties : List String
deriving DecidableEq

/-- The type that a query asks for. -/
def Query.ask (o : Oracle Resolve) : Query → Resolve TypeId
  | .typeAt node => o.typeAt node
  | .typeNode node => o.typeOfTypeNode node

/-- The answer to a query. -/
def Query.answer (o : Oracle Resolve) (q : Query) : Resolve Rendering := do
  let t ← q.ask o
  let words ← describe t
  let shape ← o.shape t
  let properties ← o.properties t
  let names ← properties.mapM o.symbolName
  return ⟨words, shape, names⟩

/-- The answers to queries on one resolver. -/
def session (o : Oracle Resolve) (queries : List Query) : Resolve (List Rendering) :=
  queries.mapM (Query.answer o)

/-- A resolver of its own answers a query, and all that it remembers then rests on no circle. -/
def Query.Founded (p : Program) (q : Query) : Prop :=
  ∃ bound answer N, (q.answer (oracleWithin p bound)).run {} = some (answer, N) ∧ N.Founded p

/-! ### Types in words -/

/-- Computations that read the same from both memories. -/
def ReadSame {α : Type} (x : Side → Resolve α) (M : Side → Memory) : Prop :=
  ∃ a, ∀ s, Reads (x s) (M s) a

theorem readSame_pure {α : Type} (a : α) : ReadSame (fun _ => pure a) M := ⟨a, fun _ => rfl⟩

theorem ReadSame.bind {α β : Type} {x : Side → Resolve α} {f : α → Side → Resolve β}
    (hx : ReadSame x M) (hf : ∀ a, ReadSame (f a) M) : ReadSame (fun s => x s >>= (f · s)) M := by
  obtain ⟨a, ha⟩ := hx
  obtain ⟨b, hb⟩ := hf a
  exact ⟨b, fun s => (ha s).bind (hb s)⟩

theorem readSame_mapM {α β : Type} {f : α → Resolve β} (l : List (Side → α))
    (h : ∀ a ∈ l, ReadSame (fun s => f (a s)) M) :
    ReadSame (fun s => (l.map (· s)).mapM f) M := by
  induction l with
  | nil => exact readSame_pure []
  | cons a l ih =>
    simp only [List.map_cons, List.mapM_cons]
    exact (h a List.mem_cons_self).bind fun b =>
      (ih fun a' ha => h a' (List.mem_cons_of_mem _ ha)).bind fun bs => readSame_pure (b :: bs)

theorem readSame_data_bind {β : Type} (hM : ∀ s, Sound p (M s)) {t : Side → TypeId}
    (ht : AlikeType t M) {f : TypeData → Resolve β}
    (h : ∀ d, AlikeData p M d → ReadSame (fun s => f (d s)) M) :
    ReadSame (fun s => data (t s) >>= f) M := by
  obtain ⟨b, hb⟩ := h _ (ht.data hM)
  exact ⟨b, fun s => (reads_data (t s)).bind (hb s)⟩

/-- Only the name of a symbol is read. -/
theorem readSame_name_bind {β : Type} (hM : ∀ s, Sound p (M s)) {r : Side → SymbolId}
    (hr : AlikeSymbol r M) {f : String → Side → Resolve β} (h : ∀ name, ReadSame (f name) M) :
    ReadSame (fun s => symbol (r s) >>= fun sym => f sym.name s) M := by
  obtain ⟨name, hname⟩ := (hr.entry hM).name_eq
  obtain ⟨b, hb⟩ := h name
  refine ⟨b, fun s => ?_⟩
  have hreads : Reads (f ((M s).symbolOf (r s)).name s) (M s) b := by
    rw [hname s]
    exact hb s
  exact hreads

theorem readSame_name {r : Side → SymbolId} (hM : ∀ s, Sound p (M s)) (hr : AlikeSymbol r M) :
    ReadSame (fun s => do return (← symbol (r s)).name) M :=
  readSame_name_bind hM hr readSame_pure

/-- Types whose data is alike have the same shape. -/
theorem AlikeData.shapeOf_eq {d : Side → TypeData} (h : AlikeData p M d) :
    ∃ shape, ∀ s, shapeOf (d s) = shape := by
  cases h with
  | atom d _ => exact ⟨shapeOf d, fun _ => rfl⟩
  | _ => exact ⟨_, fun _ => rfl⟩

/-- A list of types in words, from the words of the types. -/
theorem readSame_joined {left : Nat} (separator : String) {types : List (Side → TypeId)}
    (h : ∀ t ∈ types, ReadSame (fun s => describeWithin left (t s)) M) :
    ReadSame (fun s => do
      return String.intercalate separator (← (types.map (· s)).mapM (describeWithin left))) M :=
  (readSame_mapM types h).bind fun words => readSame_pure (String.intercalate separator words)

/-- A type is described the same in both memories. -/
theorem readSame_describeWithin (hM : ∀ s, Sound p (M s)) (left : Nat) {t : Side → TypeId}
    (ht : AlikeType t M) : ReadSame (fun s => describeWithin left (t s)) M := by
  induction left generalizing t with
  | zero => exact readSame_pure "..."
  | succ left ih =>
    have joined := fun separator {types : List (Side → TypeId)}
      (h : ∀ t ∈ types, AlikeType t M) => readSame_joined separator fun t ht => ih (h t ht)
    have generic := fun (name : String) {args : List (Side → TypeId)}
      (h : ∀ t ∈ args, AlikeType t M) => (joined ", " h).bind fun words =>
        readSame_pure (name ++ "<" ++ words ++ ">")
    refine readSame_data_bind hM ht fun d hd => ?_
    cases hd with
    | atom d hd =>
      cases d <;> first | exact readSame_pure _ | exact hd.elim
    | array h => exact (ih h).bind fun words => readSame_pure (words ++ "[]")
    | tuple h => exact (joined ", " h).bind fun words => readSame_pure ("[" ++ words ++ "]")
    | union h => exact joined " | " h
    | intersection h => exact joined " & " h
    | @object key r through hkey hr hthrough hfits =>
      have hnamed : AlikeSymbol (fun s => (through.map (· s)).getD (r s)) M := by
        cases through with
        | none => exact hr.alike hM
        | some a => exact (hthrough a rfl).alike hM
      cases hkey with
      | @declared decl args h =>
        cases args with
        | nil => exact readSame_name hM hnamed
        | cons a args => exact readSame_name_bind hM hnamed fun name => generic name h
      | _ => exact readSame_name hM hnamed
    | enum hr hd =>
      exact readSame_name hM (SameKey.alike hM ⟨.decl _, not_isEnumMember (by rw [hd]; decide), hr⟩)
    | @named r args name hr h =>
      have hnamed := SameKey.alike hM (sameKey_builtin hr)
      cases args with
      | nil => exact readSame_name hM hnamed
      | cons a args => exact readSame_name_bind hM hnamed fun name => generic name h

instance growing_describeWithin (o : Option TypeId) (left : Nat) (t : TypeId) :
    Growing p o (describeWithin left t) := by
  induction left generalizing t with
  | zero => exact growing_pure "..."
  | succ left ih =>
    refine (growing_data t).bind fun d => ?_
    split
    case h_17 =>
      refine (growing_symbol _).bind fun sym => ?_
      dsimp only
      split <;> infer_instance
    all_goals infer_instance

theorem kept_describeWithin (left : Nat) (t : TypeId) : Kept p (describeWithin left t) := by
  induction left generalizing t with
  | zero => exact kept_pure "..."
  | succ left ih =>
    have joined := fun (separator : String) (types : List TypeId) =>
      ((closed_kept p 0).mapM types ih).bind fun words =>
        kept_pure (String.intercalate separator words)
    refine (kept_data t).bind fun d => ?_
    cases d with
    | array element => exact (ih element).bind fun _ => kept_pure _
    | tuple elements => exact (joined ", " elements).bind fun _ => kept_pure _
    | union members => exact joined " | " members
    | intersection members => exact joined " & " members
    | object key s through =>
      refine (kept_symbol _).bind fun sym => ?_
      cases key with
      | declared decl args =>
        cases args with
        | nil => exact kept_pure _
        | cons a args => exact (joined ", " (a :: args)).bind fun _ => kept_pure _
      | _ => exact kept_pure _
    | enum s => exact (kept_symbol s).bind fun _ => kept_pure _
    | named s args =>
      cases args with
      | nil => exact (kept_symbol s).bind fun _ => kept_pure _
      | cons a args =>
        exact (kept_symbol s).bind fun _ => (joined ", " (a :: args)).bind fun _ => kept_pure _
    | _ => exact kept_pure _

/-! ### Following a query -/

theorem follows_typeAt [steps.Moving (Drift.moves p)] (hc : steps.Follow C own) (hk : steps.Keep p)
    (node : NodeId) : Follows C own steps (fun _ c => typeAt p c node) M AlikeType := by
  unfold typeAt
  split
  · exact follows_evalType hc hk node alikeEnv_nil
  · split
    · next decl hd =>
      exact (follows_bindingSymbol (isBinding_of_namedDeclaration? hd)).bind fun r M₁ _ hr =>
        follows_declarationType hc hk hr.2
    · exact follows_valueType hk node

/-- What is read the same from both memories comes before the rest of a run. -/
theorem ReadSame.follows_bind {α β : Type} {x : Side → Resolve α} (hx : ReadSame x M)
    {f : Side → Calls → α → Resolve β} {P : (Side → β) → (Side → Memory) → Prop}
    (h : ∀ a, Follows C own steps (fun s c => f s c a) M P) :
    Follows C own steps (fun s c => x s >>= f s c) M P := by
  obtain ⟨a, ha⟩ := hx
  exact (h a).congr fun s c => (ha s).run_bind (f s c)

/-- What is said of a type. -/
def rendering (p : Program) (calls : Calls) (t : TypeId) : Resolve Rendering := do
  let words ← describe t
  let d ← data t
  let properties ← membersOf p calls t
  let names ← properties.mapM fun s => do return (← symbol s).name
  return ⟨words, shapeOf d, names⟩

instance growing_rendering [steps.Moving (Drift.moves p)] (o : Option TypeId) (t : TypeId) :
    Growing p o (rendering p steps t) := by
  unfold rendering describe
  infer_instance

theorem follows_rendering [steps.Moving (Drift.moves p)] (hk : steps.Keep p) {t : Side → TypeId}
    (ht : AlikeType t M) :
    Follows C own steps (fun s c => rendering p c (t s)) M Same := by
  refine follows_of_tied fun hM => ?_
  refine (readSame_describeWithin hM.sound 5 ht).follows_bind fun words => ?_
  refine follows_data_bind ht fun d hd => ?_
  obtain ⟨shape, hshape⟩ := hd.shapeOf_eq
  refine (follows_membersOf hk ht).bind ?_
  rintro _ M₁ h₁ ⟨each, rfl, hall⟩
  refine follows_of_tied fun hM₁ => ?_
  refine (readSame_mapM each fun r hr => readSame_name hM₁.sound (hall r hr)).follows_bind
    fun names => ?_
  exact follows_pure ⟨⟨words, shape, names⟩, funext fun s => by rw [hshape s]⟩

theorem kept_answer (q : Query) (bound : Nat) : Kept p (q.answer (oracleWithin p bound)) := by
  have hp := closed_kept p bound
  have hask : Kept p (q.ask (oracleWithin p bound)) := by
    cases q with
    | typeAt node => exact hp.typeAt node
    | typeNode node => exact hp.typeOfTypeNode node
  exact hask.bind fun t => (kept_describeWithin 5 t).bind fun _ => (hp.shape t).bind fun _ =>
    (hp.properties t).bind fun properties => (hp.mapM properties hp.symbolName).bind fun _ =>
      kept_pure _

/-- A query is founded when the check says so of the memory after it. -/
theorem Query.founded_of_check {q : Query} (bound n : Nat)
    (h : ((q.answer (oracleWithin p bound)).run {}).any fun r => r.2.foundedWithin p bound n) :
    q.Founded p := by
  obtain ⟨⟨answer, N⟩, hrun, hcheck⟩ := (Option.any_eq_true _ _).1 h
  have hN := (ensures_option_iff.1 (kept_answer q bound {} sound_empty) _ _ hrun).1
  exact ⟨bound, answer, N, hrun, N.founded_of_check hN hcheck⟩

/-! ### Sessions -/

theorem blank_empty (p : Program) : Blank p {} where
  sound := sound_empty
  idle := Memory.idle_empty
  members := rfl
  aliases := rfl
  nodeTypes := rfl
  symbols s sym h := by simp at h

/-- The type that a query asks for, with certain steps. -/
def Query.find (p : Program) (calls : Calls) : Query → Resolve TypeId
  | .typeAt node => Types.typeAt p calls node
  | .typeNode node => evalType p calls node []

theorem Query.answer_eq (q : Query) (bound : Nat) : q.answer (oracleWithin p bound) =
    q.find p (calls p bound) >>= rendering p (calls p bound) := by
  cases q <;> rfl

instance rising_query (q : Query) : Rising fun c => q.find p c >>= rendering p c := by
  have htype : Rising fun c => q.find p c := by
    cases q with
    | typeAt node =>
      show Rising fun c => typeAt p c node
      unfold typeAt
      split
      · infer_instance
      · split <;> infer_instance
    | typeNode node => exact rising_typeExpression node []
  refine htype.bind fun t => ?_
  unfold rendering
  infer_instance

/-- A query has the answer of a resolver of its own, in a memory that remembers founded answers. -/
theorem InStep.answer {N K : Memory} (hp : EnumMembersApart p) (hK : InStep p [] K) {q : Query}
    {bound : Nat} {answer : Rendering}
    (hrun : (q.answer (oracleWithin p bound)).run {} = some (answer, N)) (hN : N.Founded p) :
    ∃ K', (∀ᶠ n in atTop, (q.answer (oracleWithin p n)).run K = some (answer, K')) ∧
      InStep p [] K' := by
  let C : Course p :=
    { final := N
      marks := fun _ => []
      marks_subset := List.Subset.refl []
      apart := hp
      found := fun {key answer} hanswer => by
        obtain ⟨n, hn⟩ := hN key answer hanswer
        exact ⟨List.not_mem_nil, hn.finds hp fun m hm => absurd hm List.not_mem_nil⟩ }
  have htied : Tied C (fun _ => none) (Side.pair {} K) :=
    ⟨(blank_empty p).inStep.toSeeking, hK, fun o ho => by cases congrFun ho .known⟩
  have hc := follow_calls C (fun _ => none) bound
  have hk := keeps_calls p bound
  have hfollows : Follows C (fun _ => none) (calls p bound)
      (fun _ c => q.find p c >>= rendering p c) (Side.pair {} K) Same := by
    cases q with
    | typeAt node =>
      exact (follows_typeAt hc hk node).bind fun t M₁ _ ht => follows_rendering hk ht
    | typeNode node =>
      exact (follows_evalType hc hk node alikeEnv_nil).bind fun t M₁ _ ht => follows_rendering hk ht
  rw [q.answer_eq] at hrun
  obtain ⟨b, K', rfl, rfl, hev, htied', -, _, rfl⟩ := hfollows htied answer N hrun (.refl N)
  refine ⟨K' .shared, ?_, htied'.shared⟩
  filter_upwards [hev] with n hn
  rw [q.answer_eq]
  exact hn

/-- A session on a memory that remembers founded answers. -/
theorem InStep.answers {K : Memory} (hp : EnumMembersApart p) (hK : InStep p [] K)
    (queries : List Query) (h : ∀ q ∈ queries, q.Founded p) :
    ∃ answers K', InStep p [] K' ∧ ∀ᶠ n in atTop,
      (session (oracleWithin p n) queries).run K = some (answers, K') ∧
      List.Forall₂ (fun q answer => ∃ N, (q.answer (oracleWithin p n)).run {} = some (answer, N))
        queries answers := by
  induction queries generalizing K with
  | nil => exact ⟨[], K, hK, Eventually.of_forall fun n => ⟨rfl, .nil⟩⟩
  | cons q queries ih =>
    obtain ⟨bound, answer, N, hrun, hN⟩ := h q List.mem_cons_self
    obtain ⟨K₁, hanswer, hK₁⟩ := hK.answer hp hrun hN
    obtain ⟨answers, K₂, hK₂, hanswers⟩ := ih hK₁ fun q hq => h q (List.mem_cons_of_mem _ hq)
    refine ⟨answer :: answers, K₂, hK₂, ?_⟩
    filter_upwards [hanswer, hanswers, eventually_ge_atTop bound] with n hfirst hrest hn
    refine ⟨?_, .cons ⟨N, ?_⟩ hrest.2⟩
    · rw [session, List.mapM_cons, StateT.run_bind, hfirst]
      show ((session (oracleWithin p n) queries) >>= fun answers =>
        pure (answer :: answers)).run K₁ = _
      rw [StateT.run_bind, hrest.1]
      rfl
    · rw [q.answer_eq] at hrun ⊢
      exact run_calls_of_le (x := fun c => q.find p c >>= rendering p c) hn hrun

/-- **A shared resolver answers like a resolver of one's own.** Queries that each rest on no circle
are all answered by one resolver, in any order and however often they are asked, once its steps may
nest deep enough; and each answer is the one that a resolver which is asked that query alone
gives. -/
theorem session_eq_fresh (hp : EnumMembersApart p) (queries : List Query)
    (h : ∀ q ∈ queries, q.Founded p) :
    ∃ n answers M, ∀ bound ≥ n,
      (session (oracleWithin p bound) queries).run {} = some (answers, M) ∧
      List.Forall₂
        (fun q answer => ∃ N, (q.answer (oracleWithin p bound)).run {} = some (answer, N))
        queries answers := by
  obtain ⟨answers, M, -, hev⟩ := (blank_empty p).inStep.answers hp queries h
  obtain ⟨n, hn⟩ := eventually_atTop.1 hev
  exact ⟨n, answers, M, hn⟩

theorem enumMembersApart_of_no_enums (h : ∀ d ∈ p.nodes, p.kind d ≠ "enum_declaration") :
    EnumMembersApart p := by
  have hkind : ∀ d, p.kind d ≠ "enum_declaration" := fun d hd =>
    h d (Program.mem_nodes (by rw [hd]; decide)) hd
  exact
    { not_binding := fun _ ⟨_, decl, _, hdecl, _⟩ => absurd hdecl (hkind decl)
      one_body := fun {d _ _ _ _} _ _ hd => absurd hd (hkind d) }

/-- A value, an alias and a base that lead to themselves, and the alias once more. -/
def circleQueries : List Query :=
  [.typeAt ⟨0, 28⟩, .typeNode ⟨0, 4⟩, .typeNode ⟨0, 22⟩, .typeNode ⟨0, 4⟩]

/-- Circles that are each a lookup's own: one resolver answers the queries, the repeated one too,
as a resolver of their own does. -/
theorem session_eq_fresh_circles : ∃ n answers M, ∀ bound ≥ n,
    (session (oracleWithin circleProgram bound) circleQueries).run {} = some (answers, M) ∧
    List.Forall₂ (fun q answer =>
        ∃ N, (Query.answer (oracleWithin circleProgram bound) q).run {} = some (answer, N))
      circleQueries answers := by
  have hp : EnumMembersApart circleProgram := enumMembersApart_of_no_enums (by decide +kernel)
  have hcheck : circleQueries.all fun q =>
      ((q.answer (oracleWithin circleProgram 20)).run {}).any fun r =>
        r.2.foundedWithin circleProgram 20 2 := by
    decide +kernel
  exact session_eq_fresh hp circleQueries fun q hq =>
    Query.founded_of_check 20 2 (List.all_eq_true.1 hcheck q hq)

/-- The program `type A = B[]; type B = A[];`. -/
def ringProgram : Program where
  units := #[{
    path := "ring.ts"
    nodes := #[
      { kind := "program", named := true, children := [1, 5] },
      { kind := "type_alias_declaration", named := true, parent := some 0, children := [2, 3] },
      { kind := "type_identifier", field := some "name", named := true, parent := some 1,
        text := "A" },
      { kind := "array_type", field := some "value", named := true, parent := some 1,
        children := [4] },
      { kind := "type_identifier", named := true, parent := some 3, text := "B" },
      { kind := "type_alias_declaration", named := true, parent := some 0, children := [6, 7] },
      { kind := "type_identifier", field := some "name", named := true, parent := some 5,
        text := "B" },
      { kind := "array_type", field := some "value", named := true, parent := some 5,
        children := [8] },
      { kind := "type_identifier", named := true, parent := some 7, text := "A" }] }]

/-- A circle of two lookups. What the resolver remembers of `B` from its answer for `A` was cut off
there, so that it answers for `B` otherwise than a resolver which is asked for `B` alone. -/
theorem ring_answers :
    ((session (oracle ringProgram) [.typeAt ⟨0, 2⟩, .typeAt ⟨0, 6⟩]).run' {} =
      some [⟨"any[][]", .object, []⟩, ⟨"any[]", .object, []⟩]) ∧
    ((Query.answer (oracle ringProgram) (.typeAt ⟨0, 6⟩)).run' {} =
      some ⟨"any[][]", .object, []⟩) := by
  decide +kernel

end RouteContract.Types
