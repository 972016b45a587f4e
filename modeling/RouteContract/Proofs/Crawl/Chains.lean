import Mathlib
import RouteContract.Proofs.Crawl.Visits

/-!
# Chains of calls that hand on the request or the response

A call hands the request or the response to a helper function of its unit (`forwarded?`), which
receives it under the name of the parameter in the same place, and may hand it on. `Chain` lists the
functions that are reached in this way from a handler, and its trail says at which places of their
bodies the calls stand: the lexicographic order of trails is the depth-first order of chains. To
hand on a value under more names is to hand it on under more names all along
(`exists_forwardedAt?_of_within`). What the analysis does at a call is told from the helper of the
call alone (`followNode_run`).
-/

namespace RouteContract.Crawl

/-- A function, and the names under which it receives the request and the response. -/
abbrev Link := NodeId × Roles

section Chains

variable (p : Program) (o : Oracle Id)

/-- The helper that a call with these arguments hands the request or the response to: a function of
the same unit that the callee refers to. -/
def forwarded? (roles : Roles) (callee : NodeId) (arguments : List NodeId) : Option Link :=
  if (positionOf? p arguments roles.request).isNone
      && (positionOf? p arguments roles.response).isNone then none
  else if isFunctionLiteral p callee then none
  else (resolveHandler p o callee).run.bind fun helper =>
    if helper.unit = callee.unit then some (helper, forwardedRoles p roles arguments helper)
    else none

/-- The helper that a node hands the request or the response to, when it is a call. -/
def forwardedAt? (roles : Roles) (node : NodeId) : Option Link :=
  if p.kind node = "call_expression" then
    ((p.field? node "function").map p.skipParens).bind fun callee =>
      forwarded? p o roles callee (callArguments p node)
  else none

/-- The helpers that the calls of a body hand the request or the response to, with the positions of
the calls in the body. -/
def forwards (roles : Roles) (body : NodeId) : List (ℕ × Link) :=
  (p.preorder body).zipIdx.filterMap fun (node, position) =>
    (forwardedAt? p o roles node).map (position, ·)

/-- The helpers that a function hands on to what it receives. -/
def helpers (link : Link) : List (ℕ × Link) :=
  (p.field? link.1 "body").toList.flatMap (forwards p o link.2)

/-- The names of the first two parameters of a handler. -/
def handlerRoles (handler : NodeId) : Roles :=
  ⟨(parameterNodes p handler)[0]?.bind (bindingName? p),
    (parameterNodes p handler)[1]?.bind (bindingName? p)⟩

/-- A chain of calls that hand on the request or the response of a handler, the last function first,
and its trail, the positions of the calls from the first one on. -/
inductive Chain (handler : NodeId) : List ℕ → List Link → Prop
  | start : Chain handler [] [(handler, handlerRoles p handler)]
  | call {trail : List ℕ} {position : ℕ} {last link : Link} {before : List Link}
      (h : Chain handler trail (last :: before)) (hlink : (position, link) ∈ helpers p o last) :
      Chain handler (trail ++ [position]) (link :: last :: before)

/-- A chain without repetitions whose calls are no more than the analysis follows. -/
structure Path (handler : NodeId) (trail : List ℕ) (links : List Link) : Prop where
  chain : Chain p o handler trail links
  nodup : (links.map Prod.fst).Nodup
  length_le : links.length ≤ maxForwarding + 1

end Chains

/-! ### One call -/

section Calls

variable {p : Program} {o : Oracle Id} {roles : Roles} {body node : NodeId}

theorem mem_forwards {position : ℕ} {link : Link} :
    (position, link) ∈ forwards p o roles body ↔
      ∃ node, (p.preorder body)[position]? = some node ∧
        forwardedAt? p o roles node = some link := by
  unfold forwards
  rw [List.mem_filterMap]
  constructor
  · rintro ⟨⟨node, place⟩, hmem, hlink⟩
    obtain ⟨other, hother, heq⟩ := Option.map_eq_some_iff.1 hlink
    cases heq
    exact ⟨node, List.mem_zipIdx_iff_getElem?.1 hmem, hother⟩
  · rintro ⟨node, hnode, hlink⟩
    exact ⟨(node, position), List.mem_zipIdx_iff_getElem?.2 hnode, by simp [hlink]⟩

theorem mem_helpers {last link : Link} {position : ℕ} :
    (position, link) ∈ helpers p o last ↔
      ∃ body, p.field? last.1 "body" = some body ∧
        (position, link) ∈ forwards p o last.2 body := by
  simp [helpers]

/-- A call has one helper. -/
theorem helpers_unique {last link link' : Link} {position : ℕ}
    (h : (position, link) ∈ helpers p o last) (h' : (position, link') ∈ helpers p o last) :
    link = link' := by
  obtain ⟨body, hbody, hlink⟩ := mem_helpers.1 h
  obtain ⟨body', hbody', hlink'⟩ := mem_helpers.1 h'
  obtain rfl := Option.some.inj (hbody.symm.trans hbody')
  obtain ⟨node, hnode, hlink⟩ := mem_forwards.1 hlink
  obtain ⟨node', hnode', hlink'⟩ := mem_forwards.1 hlink'
  obtain rfl := Option.some.inj (hnode.symm.trans hnode')
  exact Option.some.inj (hlink.symm.trans hlink')

/-- Nothing is handed on by a function that receives nothing. -/
theorem forwardedAt?_eq_none
    (h : (roles.request.isNone && roles.response.isNone) = true) (node : NodeId) :
    forwardedAt? p o roles node = none := by
  rw [Bool.and_eq_true, Option.isNone_iff_eq_none, Option.isNone_iff_eq_none] at h
  unfold forwardedAt? forwarded?
  rw [h.1, h.2]
  simp [positionOf?]

section Within

variable {fewer : Roles} (h : fewer.Within roles)
include h

theorem within_forwardedRoles (arguments : List NodeId) (helper : NodeId) :
    (forwardedRoles p fewer arguments helper).Within (forwardedRoles p roles arguments helper) := by
  unfold forwardedRoles
  refine ⟨h.1.imp (fun hnone => ?_) fun hsame => ?_, h.2.imp (fun hnone => ?_) fun hsame => ?_⟩
  · rw [hnone]
    rfl
  · dsimp only
    rw [hsame]
  · rw [hnone]
    rfl
  · dsimp only
    rw [hsame]

/-- A call that hands on a value with fewer names hands it on with more names, too. -/
theorem exists_forwarded?_of_within {callee : NodeId} {arguments : List NodeId} {link : Link}
    (hlink : forwarded? p o fewer callee arguments = some link) :
    ∃ received, link.2.Within received ∧
      forwarded? p o roles callee arguments = some (link.1, received) := by
  unfold forwarded? at hlink ⊢
  split at hlink
  · cases hlink
  · next hposition =>
    have hmore : ¬((positionOf? p arguments roles.request).isNone
        && (positionOf? p arguments roles.response).isNone) = true := by
      -- a name that has a position is one, and then it is the same name
      contrapose! hposition
      simp only [Bool.and_eq_true, Option.isNone_iff_eq_none] at hposition ⊢
      exact ⟨h.1.elim (fun hnone => by rw [hnone]; rfl) fun hsame => by rw [hsame, hposition.1],
        h.2.elim (fun hnone => by rw [hnone]; rfl) fun hsame => by rw [hsame, hposition.2]⟩
    rw [if_neg hmore]
    split at hlink
    · cases hlink
    · next hliteral =>
      rw [if_neg hliteral]
      obtain ⟨helper, hhelper, hlink⟩ := Option.bind_eq_some_iff.1 hlink
      rw [hhelper, Option.bind_some]
      split at hlink
      · next hunit =>
        cases hlink
        rw [if_pos hunit]
        exact ⟨_, within_forwardedRoles h arguments helper, rfl⟩
      · cases hlink

theorem exists_forwardedAt?_of_within {link : Link}
    (hlink : forwardedAt? p o fewer node = some link) :
    ∃ received, link.2.Within received ∧
      forwardedAt? p o roles node = some (link.1, received) := by
  unfold forwardedAt? at hlink ⊢
  split at hlink
  · next hcall =>
    rw [if_pos hcall]
    obtain ⟨callee, hcallee, hlink⟩ := Option.bind_eq_some_iff.1 hlink
    rw [hcallee, Option.bind_some]
    exact exists_forwarded?_of_within h hlink
  · cases hlink

end Within

/-- Enter a function: it counts as visited, and its body is analysed. -/
def enter (p : Program) (go : Roles → NodeId → Usage Id Unit) (link : Link) : Usage Id Unit := do
  modify fun s => { s with visited := link.1 :: s.visited }
  if let some body := p.field? link.1 "body" then go link.2 body

theorem run_askOracle_bind {α β : Type} (q : Id α) (f : α → Usage Id β) (s : UsageState) :
    (askOracle q >>= f).run s = (f q.run).run s := rfl

/-- A call enters its helper, if it has one that was not visited. -/
theorem followCall_run (go : Roles → NodeId → Usage Id Unit) (callee : NodeId)
    (arguments : List NodeId) (s : UsageState) :
    (followCall p o go roles callee arguments).run s =
      (forwarded? p o roles callee arguments).elim ((), s) fun link =>
        if link.1 ∈ s.visited then ((), s) else (enter p go link).run s := by
  unfold followCall forwarded?
  split
  · rfl
  · split
    · rfl
    · rw [run_askOracle_bind]
      cases (resolveHandler p o callee).run with
      | none => rfl
      | some helper =>
        rw [Option.bind_some]
        by_cases hunit : helper.unit = callee.unit
        · rw [if_pos hunit]
          show StateT.run (if helper.unit ≠ callee.unit ∨ s.visited.contains helper then pure ()
            else enter p go (helper, forwardedRoles p roles arguments helper) : Usage Id Unit) s =
              if helper ∈ s.visited then ((), s) else _
          by_cases hvisited : helper ∈ s.visited
          · rw [if_pos (.inr (List.contains_iff_mem.2 hvisited)), if_pos hvisited]
            rfl
          · rw [if_neg (by simp [hunit, hvisited]), if_neg hvisited]
        · rw [if_neg hunit]
          show StateT.run (if helper.unit ≠ callee.unit ∨ s.visited.contains helper then pure ()
            else _ : Usage Id Unit) s = ((), s)
          rw [if_pos (.inl hunit)]
          rfl

theorem followNode_run (go : Roles → NodeId → Usage Id Unit) (s : UsageState) :
    (followNode p (followCall p o go) roles node).run s =
      (forwardedAt? p o roles node).elim ((), s) fun link =>
        if link.1 ∈ s.visited then ((), s) else (enter p go link).run s := by
  unfold followNode forwardedAt?
  split
  · cases (p.field? node "function").map p.skipParens with
    | none => rfl
    | some callee => exact followCall_run go callee (callArguments p node) s
  · rfl

end Calls

/-! ### Trails -/

section Trails

variable {p : Program} {o : Oracle Id} {handler : NodeId} {trail earlier : List ℕ}
  {links upTo before : List Link} {link last : Link}

/-- What is behind a position comes before a later position. -/
theorem branch_lt (rest : List ℕ) {i j : ℕ} (h : i < j) : trail ++ i :: rest < trail ++ [j] :=
  List.append_left_lt (List.cons_lt_cons_iff.2 (.inl h))

theorem lt_concat (trail : List ℕ) (i : ℕ) : trail < trail ++ [i] := by
  have h : trail ++ [] < trail ++ [i] := List.append_left_lt (List.nil_lt_cons i [])
  rwa [List.append_nil] at h

/-- A trail that comes before another, and does not lead on to it, does so however both go on. -/
theorem append_lt_append (h : earlier < trail) (hbegins : ¬ earlier <+: trail)
    (rest rest' : List ℕ) : earlier ++ rest < trail ++ rest' := by
  induction earlier generalizing trail with
  | nil => exact absurd List.nil_prefix hbegins
  | cons i earlier ih =>
    cases trail with
    | nil => cases h
    | cons j trail =>
      rw [List.cons_append, List.cons_append, List.cons_lt_cons_iff]
      rcases List.cons_lt_cons_iff.1 h with hlt | ⟨rfl, hlt⟩
      · exact .inl hlt
      · exact .inr ⟨rfl, ih hlt fun hp => hbegins (List.cons_prefix_cons.2 ⟨rfl, hp⟩)⟩

theorem Chain.length_eq (h : Chain p o handler trail links) : links.length = trail.length + 1 := by
  induction h with
  | start => rfl
  | call _ _ ih => simp only [List.length_cons, List.length_append, List.length_nil] at ih ⊢; omega

/-- A trail leads along one chain. -/
theorem Chain.unique (h : Chain p o handler trail links) (h' : Chain p o handler trail upTo) :
    links = upTo := by
  induction h generalizing upTo with
  | start =>
    generalize htrail : [] = trail at h'
    cases h' with
    | start => rfl
    | call => simp at htrail
  | @call trail position _ _ _ _ hlink ih =>
    generalize htrail : trail ++ [position] = other at h'
    cases h' with
    | start => simp at htrail
    | call h' hlink' =>
      obtain ⟨rfl, hposition⟩ := List.append_inj' htrail rfl
      cases hposition
      cases ih h'
      rw [helpers_unique hlink hlink']

/-- A chain goes on from the chain of each beginning of its trail. -/
theorem Chain.of_prefix (h : Chain p o handler trail links) (hbegins : earlier <+: trail) :
    ∃ upTo, Chain p o handler earlier upTo ∧ upTo <:+ links := by
  induction h with
  | start =>
    obtain rfl := List.prefix_nil.1 hbegins
    exact ⟨_, .start, List.suffix_rfl⟩
  | call h hlink ih =>
    rcases List.prefix_concat_iff.1 hbegins with rfl | hbegins
    · exact ⟨_, h.call hlink, List.suffix_rfl⟩
    · obtain ⟨upTo, hupTo, hsuffix⟩ := ih hbegins
      exact ⟨upTo, hupTo, hsuffix.trans (List.suffix_cons _ _)⟩

/-- A chain without repetitions does not lead on to its last function from an earlier place. -/
theorem Chain.eq_of_prefix (h : Chain p o handler trail (last :: before))
    (hnodup : ((last :: before).map Prod.fst).Nodup) (h' : Chain p o handler earlier (link :: upTo))
    (hsame : link.1 = last.1) (hbegins : earlier <+: trail) : earlier = trail := by
  obtain ⟨links, hlinks, hsuffix⟩ := h.of_prefix hbegins
  obtain rfl := h'.unique hlinks
  rcases List.suffix_cons_iff.1 hsuffix with heq | hsuffix
  · have hlength := h.length_eq
    rw [← heq, h'.length_eq] at hlength
    exact hbegins.eq_of_length (by omega)
  · rw [List.map_cons, List.nodup_cons] at hnodup
    have hmem : link.1 ∈ before.map Prod.fst :=
      List.mem_map_of_mem (hsuffix.subset List.mem_cons_self)
    exact absurd (hsame ▸ hmem) hnodup.1

end Trails

end RouteContract.Crawl
