import Mathlib
import RouteContract.Proofs.Crawl.Repetition
import RouteContract.Proofs.Crawl.Updates

/-!
# Usage analysis only adds

An analysis puts parameters behind those that are there and responses behind those that are there.
What it finds of an operation it leaves as it is, up to two things: a response 200 without content
is given the schema of a payload, and the request body may be set or replaced, but does not get
lost.

`op.Enriched op'` says this of the operations before and after. It is reflexive and transitive, so
it holds of an analysis because it holds of each step.
-/

namespace RouteContract

/-- What may become of the response under a code: nothing, or the response 200, which had no
content, is given one entry of content. -/
inductive Response.Filled (code : String) (r : Response) : Response → Prop
  | same : Filled code r r
  | payload (hcode : code = "200") (hempty : r.content = []) (schema : Schema) :
      Filled code r { r with content := [(jsonMediaType, ⟨schema⟩)] }

theorem Response.Filled.trans {code : String} {r r₁ r₂ : Response} (h : r.Filled code r₁)
    (h' : r₁.Filled code r₂) : r.Filled code r₂ := by
  cases h with
  | same => exact h'
  | payload hcode hempty schema =>
    -- a response that was given content has some
    cases h' with
    | same => exact .payload hcode hempty schema
    | payload _ hnone _ => nomatch hnone

namespace Operation

/-- The old entry and the new one have one code, and the response was at most filled. -/
def EntryFilled (e e' : String × Response) : Prop := e'.1 = e.1 ∧ e.2.Filled e.1 e'.2

/-- The second table is the first one, its responses at most filled, with new codes behind it. -/
def ResponsesEnriched (old new : Entries Response) : Prop :=
  ∃ kept added, new = kept ++ added ∧ List.Forall₂ EntryFilled old kept ∧
    ∀ code ∈ Entries.names added, code ∉ Entries.names old

/-- What was there is there in its place, and all else is behind it; what usage does not tell of an
operation is the same. -/
structure Enriched (op op' : Operation) : Prop where
  parameters : op.parameters <+: op'.parameters
  responses : ResponsesEnriched op.responses op'.responses
  requestBody : op.requestBody.isSome → op'.requestBody.isSome
  summary : op'.summary = op.summary
  description : op'.description = op.description
  operationId : op'.operationId = op.operationId
  tags : op'.tags = op.tags
  deprecated : op'.deprecated = op.deprecated
  security : op'.security = op.security
  extensions : op'.extensions = op.extensions

/-! ### Tables of responses -/

theorem entryFilled_refl (e : String × Response) : EntryFilled e e := ⟨rfl, .same⟩

theorem forall₂_entryFilled_refl (entries : Entries Response) :
    List.Forall₂ EntryFilled entries entries :=
  List.forall₂_same.2 fun e _ => entryFilled_refl e

theorem names_of_forall₂ {old new : Entries Response} (h : List.Forall₂ EntryFilled old new) :
    new.names = old.names := by
  induction h with
  | nil => rfl
  | cons he _ ih => exact congrArg₂ List.cons he.1 ih

theorem forall₂_entryFilled_trans {a b c : Entries Response}
    (h : List.Forall₂ EntryFilled a b) (h' : List.Forall₂ EntryFilled b c) :
    List.Forall₂ EntryFilled a c := by
  induction h generalizing c with
  | nil => exact h'
  | cons he _ ih =>
    cases h' with
    | cons he' h' =>
      have hfilled := he.2.trans (he.1 ▸ he'.2)
      exact .cons ⟨he'.1.trans he.1, hfilled⟩ (ih h')

theorem ResponsesEnriched.refl (entries : Entries Response) : ResponsesEnriched entries entries :=
  ⟨entries, [], (List.append_nil entries).symm, forall₂_entryFilled_refl entries, by simp⟩

theorem ResponsesEnriched.trans {a b c : Entries Response} (h : ResponsesEnriched a b)
    (h' : ResponsesEnriched b c) : ResponsesEnriched a c := by
  obtain ⟨kept, added, rfl, hkept, hadded⟩ := h
  obtain ⟨kept', added', rfl, hkept', hadded'⟩ := h'
  -- of the entries that the second step kept, those of the first come first
  obtain ⟨front, back, hfront, hback, rfl⟩ :
      ∃ front back, List.Forall₂ EntryFilled kept front ∧ List.Forall₂ EntryFilled added back ∧
        kept' = front ++ back := by
    refine ⟨_, _, ?_, ?_, (List.take_append_drop kept.length kept').symm⟩
    · simpa using List.forall₂_take kept.length hkept'
    · simpa using List.forall₂_drop kept.length hkept'
  refine ⟨front, back ++ added', List.append_assoc _ _ _,
    forall₂_entryFilled_trans hkept hfront, fun code hcode => ?_⟩
  rw [Entries.names_append, List.mem_append, names_of_forall₂ hback] at hcode
  rcases hcode with hcode | hcode
  · exact hadded code hcode
  · have hnew := hadded' code hcode
    rw [Entries.names_append, List.mem_append, not_or, names_of_forall₂ hkept] at hnew
    exact hnew.1

theorem responsesEnriched_put {entries : Entries Response} {code : String}
    (hnew : code ∉ entries.names) (r : Response) :
    ResponsesEnriched entries (entries.put code r) := by
  refine ⟨entries, [(code, r)], Entries.put_of_notMem hnew r, forall₂_entryFilled_refl entries, ?_⟩
  simpa using hnew

/-- Giving content to a response 200 that has none. -/
theorem responsesEnriched_change {entries : Entries Response}
    (hempty : ¬ ((Entries.get? "200" entries).any fun r => !r.content.isEmpty) = true)
    (schema : Schema) :
    ResponsesEnriched entries
      (entries.change "200" fun r => { r with content := [(jsonMediaType, ⟨schema⟩)] }) := by
  refine ⟨_, [], (List.append_nil _).symm, ?_, by simp⟩
  induction entries with
  | nil => exact .nil
  | cons e rest ih =>
    obtain ⟨code, r⟩ := e
    rw [Entries.change]
    rw [Entries.get?] at hempty
    split
    · next hcode =>
      rw [if_pos hcode] at hempty
      have hnone : r.content = [] := by simpa using hempty
      exact .cons ⟨rfl, .payload hcode hnone schema⟩ (forall₂_entryFilled_refl rest)
    · next hcode =>
      rw [if_neg hcode] at hempty
      exact .cons (entryFilled_refl _) (ih hempty)

/-! ### Steps -/

variable {op op₁ op₂ : Operation}

theorem Enriched.refl (op : Operation) : op.Enriched op :=
  ⟨List.prefix_rfl, .refl _, id, rfl, rfl, rfl, rfl, rfl, rfl, rfl⟩

theorem Enriched.trans (h : op.Enriched op₁) (h' : op₁.Enriched op₂) : op.Enriched op₂ where
  parameters := h.parameters.trans h'.parameters
  responses := h.responses.trans h'.responses
  requestBody := h'.requestBody ∘ h.requestBody
  summary := h'.summary.trans h.summary
  description := h'.description.trans h.description
  operationId := h'.operationId.trans h.operationId
  tags := h'.tags.trans h.tags
  deprecated := h'.deprecated.trans h.deprecated
  security := h'.security.trans h.security
  extensions := h'.extensions.trans h.extensions

theorem enriched_addParameter (op : Operation) (q : Parameter) :
    op.Enriched (op.addParameter q) := by
  unfold addParameter
  split
  · exact .refl op
  · exact { Enriched.refl op with parameters := List.prefix_append _ _ }

theorem enriched_ensureResponse (op : Operation) (code : String) :
    op.Enriched (op.ensureResponse code) := by
  unfold ensureResponse
  split
  · exact .refl op
  · next hnew =>
    have hnew : code ∉ op.responses.names := fun hmem => hnew (Entries.has_iff.2 hmem)
    exact { Enriched.refl op with responses := responsesEnriched_put hnew _ }

theorem enriched_setBody (op : Operation) (body : RequestBody) :
    op.Enriched { op with requestBody := some body } :=
  { Enriched.refl op with requestBody := fun _ => rfl }

theorem enriched_withPayload (h : ¬ op.HasPayload) (schema : Schema) :
    op.Enriched (op.withPayload schema) :=
  { Enriched.refl op with responses := responsesEnriched_change h schema }

end Operation

/-! ### The analysis -/

namespace Crawl

open Operation (Enriched HasPayload)

variable {m : Type → Type} [Monad m] [LawfulMonad m] (o : Oracle m)

/-- Generating a schema leaves the operation as it is. -/
theorem ensures_schemaOf_operation (t : TypeId) (s : UsageState) :
    Ensures (schemaOf o t) s fun _ s' => s'.operation = s.operation :=
  ensures_get_bind (ensures_lift_bind fun _ => ensures_modify_bind (ensures_pure rfl))

section

variable (op : Operation)

theorem keeps_enriched_addParameter (q : Parameter) :
    Keeps op.Enriched (change fun op => op.addParameter q : Usage m Unit) :=
  keeps_change fun op₁ h => h.trans (op₁.enriched_addParameter q)

theorem keeps_enriched_ensureResponse (code : String) :
    Keeps op.Enriched (change fun op => op.ensureResponse code : Usage m Unit) :=
  keeps_change fun op₁ h => h.trans (op₁.enriched_ensureResponse code)

theorem keeps_enriched_schemaOf (t : TypeId) : Keeps op.Enriched (schemaOf o t) := by
  intro s hs
  refine (ensures_schemaOf_operation o t s).imp fun _ s' hsame => ?_
  rw [hsame]
  exact hs

theorem keeps_enriched_addQueryParameter (property : SymbolId) :
    Keeps op.Enriched (addQueryParameter o property) := by
  unfold addQueryParameter queryParameter
  simp only [bind_assoc, pure_bind]
  refine (keeps_ask _).bind fun name => (keeps_ask _).bind fun t => ?_
  refine (keeps_enriched_schemaOf o op t).bind fun schema => (keeps_ask _).bind fun isOptional => ?_
  exact (keeps_ask _).bind fun description => keeps_enriched_addParameter op _

theorem keeps_enriched_setBody (t : TypeId) : Keeps op.Enriched (setBody o t) := by
  refine (keeps_enriched_schemaOf o op t).bind fun schema => ?_
  split
  · exact keeps_change fun op₁ h => h.trans (op₁.enriched_setBody _)
  · exact keeps_pure ()

/-- The content is looked at before the schema is generated, which leaves the operation alone. -/
theorem keeps_enriched_sendPayload (t : TypeId) : Keeps op.Enriched (sendPayload o t) := by
  refine (keeps_enriched_ensureResponse op "200").bind fun _ s hs => ensures_get_bind ?_
  dsimp only
  split
  · next hempty =>
    refine (ensures_schemaOf_operation o t s).bind fun schema s' hsame => ensures_modify ?_
    have hnone : ¬ s'.operation.HasPayload := by
      rw [hsame]
      simpa [HasPayload] using hempty
    rw [hsame] at hnone ⊢
    exact hs.trans (Operation.enriched_withPayload hnone schema)
  · exact ensures_pure hs

/-- Every step of usage analysis leaves an operation that is the first one with additions. -/
theorem steps_keep_enriched : Steps o (Keeps op.Enriched) where
  pure := keeps_pure
  bind hx hf := hx.bind hf
  ask q _ := keeps_ask q
  header name required := by
    unfold addHeader
    split
    · exact keeps_pure ()
    · exact keeps_enriched_addParameter op _
  query := keeps_enriched_addQueryParameter o op
  looseQuery key := keeps_enriched_addParameter op _
  body := keeps_enriched_setBody o op
  bodyPlace := keeps_change fun op₁ h => by
    unfold placeBody
    split
    · exact h.trans (op₁.enriched_setBody _)
    · exact h
  payload := keeps_enriched_sendPayload o op
  status := keeps_enriched_ensureResponse op
  visited hf := fun s hs => ensures_get_bind (hf s.visited s hs)
  mark _ := fun _ hs => ensures_modify hs

/-- Whatever the answers of the oracle are, an analysis only adds. -/
theorem enriched_of_analyseHandler (p : Program) (handler : NodeId) (T : Entries Schema) :
    SatisfiesM (fun r => op.Enriched r.1) (analyseHandler p o handler op T) := by
  have hkeeps := (steps_keep_enriched o op).analyseHandlerM p handler ⟨op, T, []⟩ (.refl op)
  exact SatisfiesM.bind hkeeps fun r hr => SatisfiesM.pure hr

end

/-- **Usage analysis only adds.** After the analysis of a handler the old parameters are the first
ones; every old response is in its place with its description and extensions, and with its content
unless it is a response 200 without any, which may be given one entry; new codes are behind the old
ones; a request body that was there is not lost; all else is as it was. -/
theorem analyseHandler_only_adds (p : Program) (o : Oracle Id) (handler : NodeId) (op : Operation)
    (T : Entries Schema) : op.Enriched (analyseHandler p o handler op T).run.1 :=
  (SatisfiesM_Id_eq (p := fun r : Operation × Entries Schema => op.Enriched r.1)).1
    (enriched_of_analyseHandler o op p handler T)

end Crawl

end RouteContract
