import Mathlib
import RouteContract.Proofs.Crawl.Descent
import RouteContract.Proofs.Crawl.Forwarding
import RouteContract.Proofs.Crawl.Inquiry
import RouteContract.Proofs.Schema.Ending

/-!
# The descent into helper functions ends

Each round of a descent leaves less work (`ensures_round`): the nodes below those that are pending,
and the bodies of the functions that were not visited, which a helper moves from the second to the
first. In the beginning there is no more work than the square of the size of the unit
(`unvisitedWork_le`), so that after as many rounds nothing is left, and the analysis of a handler is
made of them (`analyseHandler_descends`).
-/

namespace RouteContract.Crawl

open Program

/-! ### What a node tells enters nothing -/

section Own

variable {m : Type → Type} [Monad m] [LawfulMonad m]

/-- A computation visits no functions. -/
def KeepsVisited {α : Type} (x : Usage m α) : Prop :=
  ∀ s, Ensures x s fun _ s' => s'.visited = s.visited

theorem keepsVisited_pure {α : Type} (a : α) : KeepsVisited (pure a : Usage m α) :=
  fun _ => ensures_pure rfl

theorem KeepsVisited.bind {α β : Type} {x : Usage m α} {f : α → Usage m β} (hx : KeepsVisited x)
    (hf : ∀ a, KeepsVisited (f a)) : KeepsVisited (x >>= f) :=
  fun s => (hx s).bind fun a s' hs => (hf a s').imp fun _ _ h => h.trans hs

theorem keepsVisited_ask {α : Type} (q : m α) : KeepsVisited (askOracle q) :=
  fun _ => ensures_lift fun _ => rfl

theorem keepsVisited_change (f : Operation → Operation) : KeepsVisited (change f : Usage m Unit) :=
  fun _ => ensures_modify rfl

variable (o : Oracle m)

theorem keepsVisited_schemaOf (t : TypeId) : KeepsVisited (schemaOf o t) := fun _ =>
  ensures_get_bind (ensures_lift_bind fun _ => ensures_modify_bind (ensures_pure rfl))

theorem keepsVisited_addQueryParameter (property : SymbolId) :
    KeepsVisited (addQueryParameter o property) := by
  unfold addQueryParameter queryParameter
  simp only [bind_assoc, pure_bind]
  refine (keepsVisited_ask _).bind fun name => (keepsVisited_ask _).bind fun t => ?_
  refine (keepsVisited_schemaOf o t).bind fun schema => (keepsVisited_ask _).bind fun _ => ?_
  exact (keepsVisited_ask _).bind fun description => keepsVisited_change _

theorem keepsVisited_setBody (t : TypeId) : KeepsVisited (setBody o t) := by
  refine (keepsVisited_schemaOf o t).bind fun schema => ?_
  split
  · exact keepsVisited_change _
  · exact keepsVisited_pure ()

theorem keepsVisited_sendPayload (t : TypeId) : KeepsVisited (sendPayload o t) := by
  refine (keepsVisited_change _).bind fun _ s => ensures_get_bind ?_
  dsimp only
  split
  · exact (keepsVisited_schemaOf o t).bind (fun schema => keepsVisited_change _) s
  · exact ensures_pure rfl

/-- No step of a single node visits a function. -/
theorem ownSteps_keepsVisited : OwnSteps o KeepsVisited where
  pure := keepsVisited_pure
  bind hx hf := hx.bind hf
  ask q _ := keepsVisited_ask q
  header name required := by
    unfold addHeader
    split
    · exact keepsVisited_pure ()
    · exact keepsVisited_change _
  query := keepsVisited_addQueryParameter o
  looseQuery _ := keepsVisited_change _
  body := keepsVisited_setBody o
  bodyPlace := keepsVisited_change _
  payload := keepsVisited_sendPayload o
  status _ := keepsVisited_change _

theorem keepsVisited_visitOwn (p : Program) (roles : Roles) (node : NodeId) :
    KeepsVisited (visitOwn p o roles node) :=
  (ownSteps_keepsVisited o).visitNode p (fun _ _ _ => keepsVisited_pure ()) roles node

end Own

/-! ### The work that is left -/

section Work

variable (p : Program)

/-- The nodes that the analysis of a function visits, if it receives anything. -/
def bodyNodes (function : NodeId) : List NodeId :=
  (p.field? function "body").toList.flatMap p.preorder

/-- The work that the functions of a unit are, as long as they were not visited. -/
def unvisitedWork (unit : ℕ) (visited : List NodeId) : ℕ :=
  ∑ i ∈ Finset.range (p.size unit) with (⟨unit, i⟩ : NodeId) ∉ visited,
    (1 + (bodyNodes p ⟨unit, i⟩).length)

/-- One round for each node that is still to be visited, and one to leave the body. -/
def Frame.work (f : Frame) : ℕ := 1 + (f.pending.flatMap p.preorder).length

/-- The work that is left of a descent in a unit. -/
def Descent.work (unit : ℕ) (d : Descent) (visited : List NodeId) : ℕ :=
  (d.frames.map (Frame.work p)).sum + unvisitedWork p unit visited

variable {p} {unit : ℕ} {visited visited' : List NodeId} {d : Descent}

theorem unvisitedWork_mono (h : visited ⊆ visited') :
    unvisitedWork p unit visited' ≤ unvisitedWork p unit visited :=
  Finset.sum_le_sum_of_subset (Finset.monotone_filter_right _ fun _ _ hi hm => hi (h hm))

/-- A function is no more work once it is visited. -/
theorem unvisitedWork_cons {function : NodeId} (hunit : function.unit = unit)
    (hinside : function.index < p.size unit) (hfresh : function ∉ visited) :
    unvisitedWork p unit (function :: visited) + (1 + (bodyNodes p function).length) =
      unvisitedWork p unit visited := by
  subst hunit
  have herase : (Finset.range (p.size function.unit)).filter
      (fun i => (⟨function.unit, i⟩ : NodeId) ∉ function :: visited) =
        ((Finset.range (p.size function.unit)).filter
          fun i => (⟨function.unit, i⟩ : NodeId) ∉ visited).erase function.index := by
    ext i
    simp only [Finset.mem_filter, Finset.mem_erase, List.mem_cons, not_or, ne_eq]
    have hsame : (⟨function.unit, i⟩ : NodeId) = function ↔ i = function.index := by
      obtain ⟨u, j⟩ := function
      simp
    rw [hsame]
    tauto
  unfold unvisitedWork
  rw [herase]
  exact Finset.sum_erase_add _ _ (by simpa using ⟨hinside, hfresh⟩)

theorem Entry.work_frame_le {e : Entry} (h : p.field? e.function "body" = some e.body) :
    e.frame.work p ≤ 1 + (bodyNodes p e.function).length := by
  unfold Frame.work Entry.frame bodyNodes
  rw [h]
  split
  · exact Nat.add_le_add_left (Nat.zero_le _) 1
  · exact le_rfl

/-- A descent with work left is one that goes on. -/
theorem Descent.frames_eq_nil (h : d.work p unit visited ≤ 0) : d.frames = [] := by
  cases hd : d.frames with
  | nil => rfl
  | cons f callers =>
    simp only [work, hd, List.map_cons, List.sum_cons, Frame.work] at h
    omega

/-- All functions of a unit are no more work than the square of its size. -/
theorem unvisitedWork_le (hp : p.Linked) (unit : ℕ) (visited : List NodeId) :
    unvisitedWork p unit visited ≤ p.size unit ^ 2 := by
  have hfunction : ∀ i ∈ Finset.range (p.size unit),
      1 + (bodyNodes p ⟨unit, i⟩).length ≤ p.size unit := by
    intro i hi
    have hi := Finset.mem_range.1 hi
    unfold bodyNodes
    cases hbody : p.field? ⟨unit, i⟩ "body" with
    | none =>
      rw [Option.toList_none, List.flatMap_nil, List.length_nil]
      omega
    | some body =>
      obtain ⟨hunit, hindex, hsize⟩ := mem_children (List.mem_of_find?_eq_some hbody)
      have hle := length_preorder_le hp (hunit ▸ hsize)
      rw [hunit] at hle
      rw [Option.toList_some, List.flatMap_singleton]
      dsimp only at hle hindex
      omega
  calc unvisitedWork p unit visited
      ≤ ∑ i ∈ Finset.range (p.size unit), (1 + (bodyNodes p ⟨unit, i⟩).length) :=
        Finset.sum_le_sum_of_subset (Finset.filter_subset _ _)
    _ ≤ ∑ _i ∈ Finset.range (p.size unit), p.size unit := Finset.sum_le_sum hfunction
    _ = p.size unit ^ 2 := by rw [Finset.sum_const, Finset.card_range, smul_eq_mul, sq]

end Work

/-! ### The rounds end -/

namespace Descent

variable {m : Type → Type} [Monad m] [LawfulMonad m] {p : Program} (o : Oracle m)
  {handler : NodeId}

/-- A round keeps what holds of the states, and leaves less work. -/
theorem ensures_round {d : Descent} {s : UsageState} (h : d.Lawful p handler s.visited) :
    Ensures (d.round p o) s fun d' s' => d'.Lawful p handler s'.visited ∧
      (d.frames = [] → d' = d) ∧
      (d.frames ≠ [] → d'.work p handler.unit s'.visited < d.work p handler.unit s.visited) := by
  unfold round
  split
  · next hd => exact ensures_pure ⟨h, fun _ => rfl, fun hne => absurd hd hne⟩
  · next caller callers hd =>
    refine ensures_pure ⟨h.leave hd, fun hnil => ?_, fun _ => ?_⟩
    · rw [hd] at hnil
      cases hnil
    · simp only [work, hd, List.map_cons, List.sum_cons, Frame.work]
      omega
  · next caller node pending callers hd =>
    refine (keepsVisited_visitOwn o p caller.roles node s).bind fun _ s₁ hs₁ => ?_
    rw [← hs₁] at h ⊢
    have hpre : node ∈ p.preorder caller.body :=
      h.pending ⟨caller, node :: pending⟩ (hd ▸ List.mem_cons_self) node List.mem_cons_self
    have hframe : Frame.work p ⟨caller, node :: pending⟩ =
        Frame.work p ⟨caller, p.namedChildren node ++ pending⟩ + 1 := by
      simp only [Frame.work, List.flatMap_cons, List.flatMap_append, List.length_append,
        p.preorder_eq node, List.length_cons]
      omega
    refine (ensures_next o caller node s₁).bind fun next s₂ hnext => ?_
    have hgoes : d.frames ≠ [] := by
      rw [hd]
      exact List.cons_ne_nil _ _
    rcases hnext with ⟨rfl, hsub⟩ | ⟨e, rfl, hs₂, hfresh, hcalls⟩
    · refine ensures_pure ⟨(h.walk hd).mono hsub, fun hnil => absurd hnil hgoes, fun _ => ?_⟩
      have hrest : unvisitedWork p handler.unit s₂.visited ≤
          unvisitedWork p handler.unit s₁.visited := unvisitedWork_mono hsub
      simp only [work, hd, List.map_cons, List.sum_cons]
      omega
    · have hlawful := (h.walk hd).enter rfl hpre hfresh hcalls
      refine ensures_pure ⟨hs₂ ▸ hlawful, fun hnil => absurd hnil hgoes, fun _ => ?_⟩
      have hunit := hlawful.unit e List.mem_cons_self
      have hindex := index_lt_of_mem_children (List.mem_of_find?_eq_some hcalls.body)
      have hrest := unvisitedWork_cons hunit (hunit ▸ hindex) hfresh
      have hbody := Entry.work_frame_le hcalls.body
      simp only [work, hd, hs₂, List.map_cons, List.sum_cons]
      omega

/-- Rounds keep what holds of the states, and no more of them are needed than there is work. -/
theorem ensures_rounds (n : ℕ) {d : Descent} {s : UsageState}
    (h : d.Lawful p handler s.visited) :
    Ensures (rounds p o n d) s fun d' s' => d'.Lawful p handler s'.visited ∧
      (d.frames = [] ∨ d.work p handler.unit s.visited ≤ n → d'.frames = []) := by
  induction n generalizing d s with
  | zero => exact ensures_pure ⟨h, fun hend => hend.elim id frames_eq_nil⟩
  | succ n ih =>
    refine (ensures_round o h).bind fun d₁ s₁ ⟨hlawful, hstop, hless⟩ => ?_
    refine (ih hlawful).imp fun d₂ s₂ ⟨hlawful₂, hend⟩ => ⟨hlawful₂, fun hdone => hend ?_⟩
    by_cases hd : d.frames = []
    · exact .inl (hstop hd ▸ hd)
    · have hwork := hdone.resolve_left hd
      have := hless hd
      exact .inr (by omega)

end Descent

section Handlers

variable {m : Type → Type} [Monad m] [LawfulMonad m] (p : Program) (o : Oracle m)
  (handler : NodeId)

/-- The body of a handler is analysed by any number of rounds, and then by what is left. -/
theorem resume_descendBody (n : ℕ) :
    (do (← descendBody p o handler n).resume p o) = (do
      if let some body := p.field? handler "body" then
        modify fun s => { s with visited := handler :: s.visited }
        analyse p o maxForwarding (handlerRoles p handler) body : Usage m Unit) := by
  unfold descendBody
  cases p.field? handler "body" with
  | none => exact pure_bind _ _
  | some body =>
    dsimp only
    rw [bind_assoc]
    refine bind_congr fun _ => ?_
    rw [Descent.resume_rounds, Descent.resume, List.forM_eq_forM, List.forM_cons, List.forM_nil,
      bind_pure_unit]
    exact (analyse_eq_resume p o (.ofHandler p handler body)).symm

theorem resume_descend (n : ℕ) :
    (do (← descend p o handler n).resume p o) = analyseHandlerM p o handler := by
  have hbody := resume_descendBody p o handler n
  unfold handlerRoles at hbody
  unfold analyseHandlerM descend
  generalize parameterNodes p handler = parameters at hbody ⊢
  match parameters with
  | [] => exact hbody
  | [_] => exact hbody
  | request :: response :: rest =>
    dsimp only
    rw [bind_assoc]
    exact bind_congr fun _ => hbody

variable {p}

theorem ensures_descendBody (hp : p.Linked) (n : ℕ) {s : UsageState} (hs : s.visited = []) :
    Ensures (descendBody p o handler n) s fun d s' => d.Lawful p handler s'.visited ∧
      (p.size handler.unit ^ 2 ≤ n → d.frames = []) := by
  unfold descendBody
  cases hbody : p.field? handler "body" with
  | none => exact ensures_pure ⟨Descent.lawful_empty p handler _, fun _ => rfl⟩
  | some body =>
    refine ensures_modify_bind ?_
    rw [hs]
    refine (Descent.ensures_rounds o n (Descent.lawful_start hbody)).imp
      fun d s' ⟨hlawful, hend⟩ => ⟨hlawful, fun hn => hend (.inr ?_)⟩
    -- the body of the handler is moved from the functions that were not visited to the first frame
    have hindex := index_lt_of_mem_children (List.mem_of_find?_eq_some hbody)
    have hrest := unvisitedWork_cons rfl hindex (List.not_mem_nil (a := handler))
    have hframe := Entry.work_frame_le (e := .ofHandler p handler body) hbody
    have hall := unvisitedWork_le hp handler.unit []
    simp only [Descent.work, List.map_cons, List.map_nil, List.sum_cons, List.sum_nil]
    simp only [Entry.ofHandler] at hframe ⊢
    omega

/-- What holds of the states of a descent from the beginning, and when it ends. -/
theorem ensures_descend (hp : p.Linked) (n : ℕ) (op : Operation) (T : Entries Schema) :
    Ensures (descend p o handler n) ⟨op, T, []⟩ fun d s' => d.Lawful p handler s'.visited ∧
      (p.size handler.unit ^ 2 ≤ n → d.frames = []) := by
  unfold descend
  dsimp only
  split
  · exact (((ownSteps_keepsVisited o).applyRequestArguments p _) _).bind
      fun _ s hs => ensures_descendBody o handler hp n hs
  · exact ensures_descendBody o handler hp n rfl

end Handlers

open Schema in
/-- **The descent of usage analysis ends, and enters every function once.** In a linked tree the
analysis of a handler is made of no more rounds than the square of the size of its unit, whatever
the oracle answers, and of questions to the oracle; where the oracle is a fixed function with finite
chains of promises, the descriptions that it asks for end as well. At any time no function was
entered twice, and no body. A function was entered because it is the handler, or by a call in a body
that was entered: in the unit of the call, by at most eight calls from the handler, which are no
more than the bodies inside each other, and because the call passes the name of the request or the
response. -/
theorem analyseHandler_descends {p : Program} (hp : p.Linked) {m : Type → Type} [Monad m]
    [LawfulMonad m] (o : Oracle m) (handler : NodeId) (op : Operation) (T : Entries Schema) :
    (∀ n, p.size handler.unit ^ 2 ≤ n → analyseHandler p o handler op T = (do
      let (_, s) ← (descend p o handler n).run ⟨op, T, []⟩
      return (s.operation, s.table))) ∧
    (∀ n, Ensures (descend p o handler n) ⟨op, T, []⟩ fun d _ =>
      (p.size handler.unit ^ 2 ≤ n → d.frames = []) ∧
      d.frames.length ≤ maxForwarding + 1 ∧
      (d.entered.map Entry.function).Nodup ∧ (d.entered.map Entry.body).Nodup ∧
      ∀ e ∈ d.entered, p.field? e.function "body" = some e.body ∧
        (e = .ofHandler p handler e.body ∨
          ∃ caller ∈ d.entered, ∃ call ∈ p.preorder caller.body, caller.Calls p call e)) ∧
    (∀ K : (∀ {α : Type}, m α → Prop), o.Closed K → K (analyseHandler p o handler op T)) ∧
    ∀ fixed : Oracle Id, (∀ t, ∃ n r, SettlesTo fixed n t r ∧ n ≤ fixed.promiseDepth t) →
      ∀ t T, Ends fixed 0 t T ((ofType fixed t).run T) := by
  refine ⟨fun n hn => ?_, fun n => ?_, fun K hK => ?_, fun fixed ho t T => ?_⟩
  · unfold analyseHandler
    rw [← resume_descend p o handler n, StateT.run_bind, bind_assoc]
    -- nothing is left of a descent that ended
    refine bind_congr_of_satisfiesM (ensures_descend o handler hp n op T) fun r hr => ?_
    rw [Descent.resume, hr.2 hn, List.forM_eq_forM, List.forM_nil, StateT.run_pure, pure_bind]
  · refine (ensures_descend o handler hp n op T).imp fun d s' hd => ?_
    obtain ⟨h, hend⟩ := hd
    exact ⟨hend, h.length_frames_le, h.nodup, h.nodup_bodies hp,
      fun e he => ⟨h.body e he, h.way e he⟩⟩
  · exact hK.bind (hK.steps_asks.analyseHandlerM p handler ⟨op, T, []⟩) fun _ => hK.pure _
  · exact converges_ofTypeAt ho 0 t T

open Schema in
/-- Helpers that call each other, `a` first and then `b`, which calls `a` again: both are entered
once, and the second call of the handler, of `b`, enters nothing. The rounds come to an end, and so
does the description of a promise of a deferred list. -/
theorem analyseHandler_descends_ring :
    let p := forwardingProgram ["a", "b", "a"] ("a", "res") ("b", "res")
    let o := helperOracle ["a", "b", "a"] p
    let d (n : ℕ) := ((descend p o ⟨0, 4⟩ n).run ⟨.fresh, [], []⟩).1
    p.Linked ∧ (d (p.size 0 ^ 2)).frames = [] ∧
      (d 3).frames.map (·.entry.function) = [⟨0, 31⟩, ⟨0, 22⟩, ⟨0, 4⟩] ∧
      (d 20).entered.map (fun e => (e.function, e.depth)) =
        [(⟨0, 31⟩, 2), (⟨0, 22⟩, 1), (⟨0, 4⟩, 0)] ∧
      ((d 20).entered.map Entry.body).Nodup ∧
      analyseHandler p o ⟨0, 4⟩ .fresh [] = (do
        let (_, s) ← (descend p o ⟨0, 4⟩ (p.size 0 ^ 2)).run ⟨.fresh, [], []⟩
        return (s.operation, s.table)) ∧
      Ends deferredOracle 0 1 [] ((ofType deferredOracle 1).run []) := by
  intro p o d
  have hp : p.Linked := by decide +kernel
  obtain ⟨hrounds, hstates, -, hends⟩ := analyseHandler_descends hp o ⟨0, 4⟩ .fresh []
  have hstate (n : ℕ) := ensures_id_iff.1 (hstates n)
  have hinner : (d 3).frames.map (·.entry.function) = [⟨0, 31⟩, ⟨0, 22⟩, ⟨0, 4⟩] := by
    decide +kernel
  have hentered : (d 20).entered.map (fun e => (e.function, e.depth)) =
      [(⟨0, 31⟩, 2), (⟨0, 22⟩, 1), (⟨0, 4⟩, 0)] := by decide +kernel
  exact ⟨hp, (hstate _).1 le_rfl, hinner, hentered, (hstate 20).2.2.2.1, hrounds _ le_rfl,
    hends deferredOracle settlesTo_deferredOracle 1 []⟩

end RouteContract.Crawl
