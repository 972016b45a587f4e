import Mathlib
import RouteContract.Document.Update
import RouteContract.Proofs.Crawl.Analysis
import RouteContract.Proofs.Outcome

/-!
# Operations that updates lead to

`Reached settable added op` says that `op` comes from the fresh operation by finitely many updates:
parameters, tags and responses that are added directly, documentation that is merged, directives
with settable keys, and analyses of handlers. `added` lists the parameters that were added directly.

An analysis changes the operation in five ways only (`Stable`), so that a property with these five
laws is kept by every analysis, whatever its oracle answers (`Stable.handler`).
-/

namespace RouteContract.Crawl

variable {m : Type → Type} [Monad m] (o : Oracle m)

/-- A property of operations that usage analysis keeps, given that of the schemas it adds. -/
structure Stable (S : Schema → Prop) (P : Operation → Prop) : Prop where
  header {op : Operation} (h : P op) {name : String}
    (hname : Text.sameAscii name contentType = false) (required : Bool) :
    P (op.addParameter { name, location := .header, required, schema := .typed "string" })
  query {op : Operation} (h : P op) {schema : Schema} (hs : S schema) (name : String)
    (required : Bool) (description : Option String) :
    P (op.addParameter { name, location := .query, required, schema, description })
  body {op : Operation} (h : P op) {schema : Schema} (hs : S schema) :
    P { op with requestBody := some (.json schema) }
  response {op : Operation} (h : P op) (code : String) : P (op.ensureResponse code)
  payload {op : Operation} (h : P op) {schema : Schema} (hs : S schema) (code : String) :
    P { op with
      responses := Entries.change code
        (fun r => { r with content := [(jsonMediaType, ⟨schema⟩)] }) op.responses }

section Analysis

variable [LawfulMonad m] {S : Schema → Prop} {P : Operation → Prop}

/-- A computation keeps a property of the operation. -/
def Keeps (P : Operation → Prop) {α : Type} (x : Usage m α) : Prop :=
  ∀ s, P s.operation → Ensures x s fun _ s' => P s'.operation

theorem keeps_pure {α : Type} (a : α) : Keeps P (pure a : Usage m α) := fun _ hs => ensures_pure hs

theorem Keeps.bind {α β : Type} {x : Usage m α} {f : α → Usage m β} (hx : Keeps P x)
    (hf : ∀ a, Keeps P (f a)) : Keeps P (x >>= f) :=
  fun s hs => (hx s hs).bind fun a s' hs' => hf a s' hs'

theorem keeps_ask {α : Type} (q : m α) : Keeps P (askOracle q) :=
  fun _ hs => ensures_lift fun _ => hs

theorem keeps_change {f : Operation → Operation} (hf : ∀ op, P op → P (f op)) :
    Keeps P (change f : Usage m Unit) := fun _ hs => ensures_modify (hf _ hs)

/-- Every schema that is generated with an oracle has a property. -/
def Generated (S : Schema → Prop) : Prop :=
  ∀ t T, Ensures (Schema.ofType o t) T fun schema _ => S schema

variable {o}

/-- The schema of a type has the property, with the rest of the computation. -/
theorem keeps_schemaOf_bind (hS : Generated o S) {t : TypeId} {α : Type} {f : Schema → Usage m α}
    (hf : ∀ schema, S schema → Keeps P (f schema)) : Keeps P (schemaOf o t >>= f) := by
  intro s hs
  refine Ensures.bind (Q := fun schema s' => S schema ∧ P s'.operation) ?_
    fun schema s' h => hf schema h.1 s' h.2
  refine ensures_get_bind (ensures_lift_bind_of (hS t s.table) fun r hr => ?_)
  exact ensures_modify_bind (ensures_pure ⟨hr, hs⟩)

variable (h : Stable S P) (hS : Generated o S)
include h hS

theorem Stable.keeps_addQueryParameter (htyped : S (.typed "string")) (property : SymbolId) :
    Keeps P (addQueryParameter o property) := by
  unfold addQueryParameter queryParameter
  simp only [bind_assoc, pure_bind]
  refine (keeps_ask _).bind fun name => (keeps_ask _).bind fun t => ?_
  refine keeps_schemaOf_bind hS fun schema hs => (keeps_ask _).bind fun isOptional => ?_
  refine (keeps_ask _).bind fun description => keeps_change fun op hop => h.query hop ?_ _ _ _
  split
  · exact htyped
  · exact hs

theorem Stable.keeps_setBody (t : TypeId) : Keeps P (setBody o t) := by
  refine keeps_schemaOf_bind hS fun schema hs => ?_
  split
  · exact keeps_change fun op hop => h.body hop hs
  · exact keeps_pure ()

theorem Stable.keeps_sendPayload (t : TypeId) : Keeps P (sendPayload o t) := by
  refine (keeps_change fun op hop => h.response hop "200").bind fun _ s hs => ensures_get_bind ?_
  dsimp only
  split
  · refine keeps_schemaOf_bind hS (fun schema hschema => ?_) s hs
    exact keeps_change fun op hop => h.payload hop hschema "200"
  · exact ensures_pure hs

/-- Every step of usage analysis keeps a stable property. -/
theorem Stable.steps (htyped : S (.typed "string")) (hinferred : S Schema.inferredObject) :
    Steps o (Keeps P) where
  pure := keeps_pure
  bind hx hf := hx.bind hf
  ask q _ := keeps_ask q
  header name required := by
    unfold addHeader
    split
    · exact keeps_pure ()
    · next hname => exact keeps_change fun op hop => h.header hop (by simpa using hname) required
  query := h.keeps_addQueryParameter hS htyped
  looseQuery key := keeps_change fun op hop => h.query hop htyped key false none
  body := h.keeps_setBody hS
  bodyPlace := keeps_change fun op hop => by
    unfold placeBody
    split
    · exact h.body hop hinferred
    · exact hop
  payload := h.keeps_sendPayload hS
  status code := keeps_change fun op hop => h.response hop code
  visited hf := fun s hs => ensures_get_bind (hf s.visited s hs)
  mark _ := fun _ hs => ensures_modify hs

/-- A stable property is kept by the analysis of a handler. -/
theorem Stable.handler (htyped : S (.typed "string")) (hinferred : S Schema.inferredObject)
    (p : Program) (handler : NodeId) {op : Operation} (hop : P op) (T : Entries Schema) :
    SatisfiesM (fun r => P r.1) (analyseHandler p o handler op T) := by
  have hkeeps := (h.steps hS htyped hinferred).analyseHandlerM p handler ⟨op, T, []⟩ hop
  exact SatisfiesM.bind hkeeps fun r hr => SatisfiesM.pure hr

end Analysis

/-- A stable property is kept by an analysis whose oracle has a state and may give no answer. -/
theorem Stable.of_run {σ : Type} {o : Oracle (StateT σ Option)} {S : Schema → Prop}
    {P : Operation → Prop} (h : Stable S P) (hS : Generated o S) (htyped : S (.typed "string"))
    (hinferred : S Schema.inferredObject) {p : Program} {handler : NodeId} {op op' : Operation}
    (hop : P op) {T T' : Entries Schema} {s s' : σ}
    (hrun : (analyseHandler p o handler op T).run s = some ((op', T'), s')) : P op' :=
  SatisfiesM_Option_eq.1
    (SatisfiesM_StateT_eq.1 (h.handler hS htyped hinferred p handler hop T) s) _ hrun

/-! ### Sequences of updates -/

/-- The operations that updates lead to from the fresh one, and the parameters that were added
directly on the way; directives may set the settable keys only. An analysis may ask an oracle that
has a state of its own and may give no answer. -/
inductive Reached (settable : String → Prop) : List Parameter → Operation → Prop
  | fresh : Reached settable [] .fresh
  | parameter {added : List Parameter} {op : Operation} (h : Reached settable added op)
      (q : Parameter) : Reached settable (added ++ [q]) (op.addParameter q)
  | tags {added : List Parameter} {op : Operation} (h : Reached settable added op)
      (tags : List String) : Reached settable added (op.addTags tags)
  | response {added : List Parameter} {op : Operation} (h : Reached settable added op)
      (code : String) : Reached settable added (op.ensureResponse code)
  | documentation {added : List Parameter} {op : Operation} (h : Reached settable added op)
      (doc : DocMetadata) : Reached settable added (doc.mergeInto op)
  | directive {added : List Parameter} {op : Operation} (h : Reached settable added op)
      (d : Directive) (hd : settable d.key) : Reached settable added (d.apply op).1
  | analysis {added : List Parameter} {op op' : Operation} (h : Reached settable added op)
      (p : Program) {σ : Type} (o : Oracle (StateT σ Option)) (handler : NodeId)
      {T T' : Entries Schema} {s s' : σ}
      (hrun : (analyseHandler p o handler op T).run s = some ((op', T'), s')) :
      Reached settable added op'

end RouteContract.Crawl
