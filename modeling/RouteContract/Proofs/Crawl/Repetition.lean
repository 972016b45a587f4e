import Mathlib
import RouteContract.Proofs.Crawl.Independence
import RouteContract.Proofs.Json.Entries

/-!
# Analysing a handler again changes nothing

A second analysis makes the same steps as the first one, on an operation that has come out of the
first. A parameter, a response and the content of a response are added only when they are missing,
and nothing takes them away, so a step of the second run finds them there: `final.Covers op` is what
an operation has kept of an earlier one. The request body is another matter, since a typed body
replaces the one before it. It goes through the same values again from the first typed body on, and
until then is the one that the first run ended with (`Abreast.body`).

`Repeated x` says of a computation that its second run keeps abreast of its first one;
`steps_repeated` goes through the steps of the analysis.
-/

namespace RouteContract

namespace Operation

/-- The response 200 has content. -/
def HasPayload (op : Operation) : Prop :=
  ((Entries.get? "200" op.responses).any fun r => !r.content.isEmpty) = true

/-- What an earlier operation had, a later one has kept. -/
structure Covers (final op : Operation) : Prop where
  parameters : ∀ name location, op.hasParameter name location → final.hasParameter name location
  responses : ∀ code, op.responses.has code → final.responses.has code
  payload : op.HasPayload → final.HasPayload
  body : op.requestBody.isSome → final.requestBody.isSome

variable {op₁ op₂ op₃ : Operation}

theorem Covers.refl (op : Operation) : op.Covers op :=
  ⟨fun _ _ => id, fun _ => id, id, id⟩

theorem Covers.trans (h : op₃.Covers op₂) (h' : op₂.Covers op₁) : op₃.Covers op₁ where
  parameters name location := h.parameters name location ∘ h'.parameters name location
  responses code := h.responses code ∘ h'.responses code
  payload := h.payload ∘ h'.payload
  body := h.body ∘ h'.body

theorem sameAs_self (p : Parameter) : p.sameAs p.name p.location = true := by
  unfold Parameter.sameAs
  split <;> simp [Text.sameAscii]

theorem hasParameter_addParameter (op : Operation) (p : Parameter) :
    (op.addParameter p).hasParameter p.name p.location = true := by
  unfold addParameter
  split
  · next h => exact h
  · simp [hasParameter, sameAs_self]

theorem covers_addParameter (op : Operation) (p : Parameter) : (op.addParameter p).Covers op := by
  unfold addParameter
  split
  · exact .refl op
  · refine ⟨fun name location h => ?_, fun _ => id, id, id⟩
    simp only [hasParameter, List.any_append, Bool.or_eq_true] at h ⊢
    exact Or.inl h

theorem has_ensureResponse (op : Operation) (code : String) :
    (op.ensureResponse code).responses.has code = true := by
  unfold ensureResponse
  split
  · next h => exact h
  · exact Entries.has_iff.2 (Entries.mem_names_put.2 (Or.inl rfl))

theorem HasPayload.has {op : Operation} (h : op.HasPayload) : op.responses.has "200" = true := by
  unfold HasPayload at h
  rw [Entries.has]
  cases hget : op.responses.get? "200" with
  | none => simp [hget] at h
  | some r => rfl

theorem covers_ensureResponse (op : Operation) (code : String) :
    (op.ensureResponse code).Covers op := by
  unfold ensureResponse
  split
  · exact .refl op
  · next hnew =>
    refine ⟨fun _ _ => id, fun other h => ?_, fun h => ?_, id⟩
    · exact Entries.has_iff.2 (Entries.mem_names_put.2 (Or.inr (Entries.has_iff.1 h)))
    · -- the response that is added is not the one with content
      have hne : code ≠ "200" := by
        rintro rfl
        exact hnew h.has
      unfold HasPayload
      rw [Entries.get?_put, if_neg hne]
      exact h

theorem requestBody_ensureResponse (op : Operation) (code : String) :
    (op.ensureResponse code).requestBody = op.requestBody := by
  unfold ensureResponse
  split <;> rfl

/-- The operation with new content of the response 200, if there is one. -/
def withPayload (op : Operation) (schema : Schema) : Operation :=
  { op with
    responses := op.responses.change "200"
      fun r => { r with content := [(jsonMediaType, ⟨schema⟩)] } }

theorem hasPayload_withPayload {op : Operation} (h : op.responses.has "200" = true)
    (schema : Schema) : (op.withPayload schema).HasPayload := by
  rw [Entries.has] at h
  obtain ⟨r, hr⟩ := Option.isSome_iff_exists.1 h
  unfold HasPayload withPayload
  rw [Entries.get?_change, if_pos rfl, hr]
  rfl

theorem covers_withPayload {op : Operation} (h : op.responses.has "200" = true) (schema : Schema) :
    (op.withPayload schema).Covers op := by
  refine ⟨fun _ _ => id, fun code hcode => ?_, fun _ => hasPayload_withPayload h schema, id⟩
  rw [Entries.has] at hcode ⊢
  show ((op.responses.change _ _).get? code).isSome
  rw [Entries.get?_change]
  split
  · simpa using hcode
  · exact hcode

end Operation

namespace Crawl

open Operation (Covers HasPayload)

/-- The states of two runs at the same place, of which the first ends with the operation `final` and
the second began with it. -/
structure Abreast (final : Operation) (first second : UsageState) : Prop where
  visited : second.visited = first.visited
  operation : ∃ body, second.operation = { final with requestBody := body }
  body : second.operation.requestBody = final.requestBody ∨
    second.operation.requestBody = first.operation.requestBody

/-- A computation only adds to the operation, and its second run keeps abreast of its first. -/
structure Repeated {α : Type} (x : Usage Id α) : Prop where
  covers : ∀ s, (x.run s).2.operation.Covers s.operation
  abreast : ∀ final first second, final.Covers (x.run first).2.operation →
    Abreast final first second →
    (x.run second).1 = (x.run first).1 ∧ Abreast final (x.run first).2 (x.run second).2

section Rules

variable {α β : Type}

theorem repeated_pure (a : α) : Repeated (pure a : Usage Id α) :=
  ⟨fun s => .refl s.operation, fun _ _ _ _ h => ⟨rfl, h⟩⟩

theorem Repeated.bind {x : Usage Id α} {f : α → Usage Id β} (hx : Repeated x)
    (hf : ∀ a, Repeated (f a)) : Repeated (x >>= f) where
  covers s := ((hf (x.run s).1).covers (x.run s).2).trans (hx.covers s)
  abreast final first second hfinal h := by
    have hrest := hf (x.run first).1
    -- what the first run has after `x` it has kept to the end
    obtain ⟨hvalue, hx⟩ := hx.abreast final first second
      (hfinal.trans (hrest.covers (x.run first).2)) h
    show ((f (x.run second).1).run (x.run second).2).1 = ((f (x.run first).1).run _).1 ∧
      Abreast final ((f (x.run first).1).run _).2 ((f (x.run second).1).run (x.run second).2).2
    rw [hvalue]
    exact hrest.abreast final _ _ hfinal hx

theorem repeated_ask (q : Id α) : Repeated (askOracle q) :=
  ⟨fun s => .refl s.operation, fun _ _ _ _ h => ⟨rfl, h⟩⟩

/-- An addition that leaves the body alone and finds itself done in every later operation. -/
theorem repeated_change {f : Operation → Operation} (hcovers : ∀ op, (f op).Covers op)
    (hbody : ∀ op, (f op).requestBody = op.requestBody)
    (hdone : ∀ (op final : Operation) body, final.Covers (f op) →
      f { final with requestBody := body } = { final with requestBody := body }) :
    Repeated (change f : Usage Id Unit) where
  covers s := hcovers s.operation
  abreast final first second hfinal h := by
    have hsame : f second.operation = second.operation := by
      obtain ⟨body, hop⟩ := h.operation
      rw [hop]
      exact hdone first.operation final body hfinal
    refine ⟨rfl, h.visited, ?_, ?_⟩
    · show ∃ body, f second.operation = { final with requestBody := body }
      rw [hsame]
      exact h.operation
    · show (f second.operation).requestBody = final.requestBody ∨
        (f second.operation).requestBody = (f first.operation).requestBody
      rw [hsame, hbody]
      exact h.body

theorem repeated_addParameter (p : Parameter) :
    Repeated (change fun op => op.addParameter p : Usage Id Unit) := by
  refine repeated_change (fun op => op.covers_addParameter p) (fun op => ?_)
    fun op final body hfinal => ?_
  · unfold Operation.addParameter
    split <;> rfl
  · exact if_pos (hfinal.parameters _ _ (op.hasParameter_addParameter p))

theorem repeated_ensureResponse (code : String) :
    Repeated (change fun op => op.ensureResponse code : Usage Id Unit) := by
  refine repeated_change (fun op => op.covers_ensureResponse code)
    (fun op => op.requestBody_ensureResponse code) fun op final body hfinal => ?_
  exact if_pos (hfinal.responses _ (op.has_ensureResponse code))

end Rules

/-! ### The steps of the analysis -/

section Steps

variable (o : Oracle Id)

/-- The schema of a type is the same in both runs, although the second finds a larger table. -/
theorem repeated_schemaOf (t : TypeId) : Repeated (schemaOf o t) where
  covers s := .refl s.operation
  abreast final first second _ h := by
    refine ⟨?_, h.visited, h.operation, h.body⟩
    show ((Schema.ofType o t).run second.table).1 = ((Schema.ofType o t).run first.table).1
    exact Schema.tableFree_ofType o t _ _

theorem repeated_addHeader (name : String) (required : Bool) :
    Repeated (addHeader name required : Usage Id Unit) := by
  unfold addHeader
  split
  · exact repeated_pure ()
  · exact repeated_addParameter _

theorem repeated_addQueryParameter (property : SymbolId) :
    Repeated (addQueryParameter o property) := by
  refine Repeated.bind ?_ fun parameter => repeated_addParameter parameter
  refine (repeated_ask _).bind fun name => (repeated_ask _).bind fun t => ?_
  refine (repeated_schemaOf o t).bind fun schema => (repeated_ask _).bind fun isOptional => ?_
  exact (repeated_ask _).bind fun description => repeated_pure _

/-- A typed body replaces the body of both runs. -/
theorem repeated_setBody (t : TypeId) : Repeated (setBody o t) := by
  refine (repeated_schemaOf o t).bind fun schema => ?_
  split
  · constructor
    · exact fun s => ⟨fun _ _ => id, fun _ => id, id, fun _ => rfl⟩
    · refine fun final first second _ h => ⟨rfl, h.visited, ⟨some (.json schema), ?_⟩, Or.inr rfl⟩
      obtain ⟨body, hop⟩ := h.operation
      show { second.operation with requestBody := some (.json schema) } = _
      rw [hop]
  · exact repeated_pure ()

/-- A placeholder for the body is set in the second run only if the first run set it there, too. -/
theorem repeated_placeBody : Repeated (change placeBody : Usage Id Unit) := by
  have isSome : ∀ op, (placeBody op).requestBody.isSome := by
    intro op
    unfold placeBody
    split
    · rfl
    · next h => simpa [Option.isNone_iff_eq_none, Option.isSome_iff_ne_none] using h
  have placed : ∀ op : Operation, op.requestBody.isSome → placeBody op = op := by
    intro op h
    refine if_neg ?_
    simpa [Option.isSome_iff_ne_none] using h
  constructor
  · intro s
    show (placeBody s.operation).Covers s.operation
    refine ⟨?_, ?_, ?_, fun _ => isSome _⟩ <;> unfold placeBody <;> split
    all_goals simp [Operation.hasParameter, HasPayload]
  · intro final first second hfinal h
    have hfinal : final.requestBody.isSome := hfinal.body (isSome first.operation)
    refine ⟨rfl, h.visited, ?_, ?_⟩
    · show ∃ body, placeBody second.operation = { final with requestBody := body }
      obtain ⟨body, hop⟩ := h.operation
      rw [hop, placeBody]
      split
      · exact ⟨_, rfl⟩
      · exact ⟨_, rfl⟩
    · show (placeBody second.operation).requestBody = final.requestBody ∨
        (placeBody second.operation).requestBody = (placeBody first.operation).requestBody
      rcases h.body with hbody | hbody
      · rw [placed second.operation (hbody ▸ hfinal)]
        exact Or.inl hbody
      · refine Or.inr ?_
        unfold placeBody
        rw [hbody]
        split
        · rfl
        · exact hbody

/-- A response 200 is there after a payload, and the schema is its content unless it had some. -/
theorem sendPayload_run (t : TypeId) (s : UsageState) :
    let op := s.operation.ensureResponse "200"
    let (schema, table) := (Schema.ofType o t).run s.table
    (op.HasPayload → (sendPayload o t).run s = ((), { s with operation := op })) ∧
    (¬ op.HasPayload →
      (sendPayload o t).run s = ((), ⟨op.withPayload schema, table, s.visited⟩)) := by
  intro op
  have hrun : (sendPayload o t).run s = StateT.run (do
      if !((Entries.get? "200" op.responses).any fun r => !r.content.isEmpty) then
        let schema ← schemaOf o t
        change fun op => op.withPayload schema) { s with operation := op } := rfl
  constructor
  · intro h
    rw [hrun, if_neg (by simpa [HasPayload] using h)]
    rfl
  · intro h
    rw [hrun, if_pos (by simpa [HasPayload] using h)]
    rfl

/-- After a payload the response 200 has content, and everything that was there has stayed. -/
theorem sendPayload_fills (t : TypeId) (s : UsageState) :
    ((sendPayload o t).run s).2.operation.HasPayload ∧
    ((sendPayload o t).run s).2.operation.Covers s.operation ∧
    ((sendPayload o t).run s).2.operation.requestBody = s.operation.requestBody ∧
    ((sendPayload o t).run s).2.visited = s.visited := by
  obtain ⟨hfull, hempty⟩ := sendPayload_run o t s
  have hhas := Operation.has_ensureResponse s.operation "200"
  have hcovers := Operation.covers_ensureResponse s.operation "200"
  have hbody := Operation.requestBody_ensureResponse s.operation "200"
  by_cases h : (s.operation.ensureResponse "200").HasPayload
  · rw [hfull h]
    exact ⟨h, hcovers, hbody, rfl⟩
  · rw [hempty h]
    exact ⟨Operation.hasPayload_withPayload hhas _,
      (Operation.covers_withPayload hhas _).trans hcovers, hbody, rfl⟩

/-- A payload changes nothing when the response 200 has content. -/
theorem sendPayload_of_hasPayload {t : TypeId} {s : UsageState} (h : s.operation.HasPayload) :
    (sendPayload o t).run s = ((), s) := by
  have hsame : s.operation.ensureResponse "200" = s.operation := if_pos h.has
  have hrun := (sendPayload_run o t s).1
  rw [hsame] at hrun
  exact hrun h

/-- A payload fills the response 200 when it has no content; the second run finds it filled. -/
theorem repeated_sendPayload (t : TypeId) : Repeated (sendPayload o t) where
  covers s := (sendPayload_fills o t s).2.1
  abreast final first second hfinal h := by
    obtain ⟨hpayload, -, hbody, hvisited⟩ := sendPayload_fills o t first
    have hsecond : second.operation.HasPayload := by
      obtain ⟨body, hop⟩ := h.operation
      rw [hop]
      exact hfinal.payload hpayload
    rw [sendPayload_of_hasPayload o hsecond]
    exact ⟨rfl, h.visited.trans hvisited.symm, h.operation, hbody ▸ h.body⟩

/-- Both runs have visited the same functions. -/
theorem repeated_visited {α : Type} {f : List NodeId → Usage Id α}
    (hf : ∀ functions, Repeated (f functions)) : Repeated (get >>= fun s => f s.visited) where
  covers s := (hf s.visited).covers s
  abreast final first second hfinal h := by
    show ((f second.visited).run second).1 = ((f first.visited).run first).1 ∧
      Abreast final ((f first.visited).run first).2 ((f second.visited).run second).2
    rw [h.visited]
    exact (hf first.visited).abreast final first second hfinal h

/-- The second run of every step keeps abreast of the first. -/
theorem steps_repeated : Steps o Repeated where
  pure := repeated_pure
  bind hx hf := hx.bind hf
  ask q _ := repeated_ask q
  header := repeated_addHeader
  query := repeated_addQueryParameter o
  looseQuery _ := repeated_addParameter _
  body := repeated_setBody o
  bodyPlace := repeated_placeBody
  payload := repeated_sendPayload o
  status := repeated_ensureResponse
  visited := repeated_visited
  mark function := ⟨fun s => .refl s.operation, fun _ _ _ _ h =>
    ⟨rfl, congrArg (function :: ·) h.visited, h.operation, h.body⟩⟩

end Steps

/-- **Analysing a handler twice is the same as analysing it once.** The second analysis starts with
the operation and the table that the first one left. -/
theorem analyseHandler_twice (p : Program) (o : Oracle Id) (handler : NodeId) (op : Operation)
    (T : Entries Schema) :
    let once := (analyseHandler p o handler op T).run
    (analyseHandler p o handler once.1 once.2).run.1 = once.1 := by
  intro once
  have hrun := ((steps_repeated o).analyseHandlerM p handler).abreast once.1 ⟨op, T, []⟩
    ⟨once.1, once.2, []⟩ (.refl once.1) ⟨rfl, ⟨_, rfl⟩, Or.inl rfl⟩
  obtain ⟨-, -, ⟨body, hop⟩, hbody⟩ := hrun
  -- the first run ended with `once.1`, so in either case its body is the one of the second run
  have hbody : body = once.1.requestBody := by
    rw [hop] at hbody
    exact hbody.elim id id
  show ((analyseHandlerM p o handler).run ⟨once.1, once.2, []⟩).2.operation = once.1
  rw [hop, hbody]

end Crawl

end RouteContract
