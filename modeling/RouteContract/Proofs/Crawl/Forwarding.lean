import Mathlib
import RouteContract.Proofs.Crawl.Chains
import RouteContract.Proofs.Schema.Generation

/-!
# Helper functions that receive the request or the response

The analysis goes depth first along the chains of calls that hand on the request or the response. It
enters a function once for a handler, under the names that the first chain gives it, and follows no
calls from a function that it entered by eight calls. What a helper does with the names that a chain
gives it is therefore told of the operation when no earlier way into a function of the chain gives
that function less, or leaves no calls for the chain to go on with
(`analyseHandler_tells_forwarded`). Without these conditions an access may be lost
(`forwarded_access_lost`).

The invariant of the search is that functions are entered in the order of their trails
(`Progress.behind`), and that every function that was entered was told, and has had all its calls
followed unless its path was as long as allowed (`Entered`).
-/

namespace RouteContract.Crawl

/-! ### The search -/

/-- A function that the search enters, with the chain along which it does. -/
structure Visit where
  trail : List ℕ
  link : Link
  before : List Link

/-- The function that is entered. -/
def Visit.function (v : Visit) : NodeId := v.link.1

section Search

variable {p : Program} {o : Oracle Id} {handler : NodeId}

/-- A function is entered by a call, or was entered before. -/
def EnteredBy (visits : List Visit) (function : NodeId) (trail : List ℕ) : Prop :=
  ∃ v ∈ visits, v.function = function ∧ v.trail ≤ trail

/-- A body was told under all names that it was analysed with, and unless no calls were left every
helper that it hands something to was entered, by the call if not before. -/
structure Finished (p : Program) (o : Oracle Id) (trail : List ℕ) (left : ℕ) (roles : Roles)
    (body : NodeId) (op : Operation) (visits : List Visit) : Prop where
  told : ∀ fewer : Roles, fewer.Within roles → Told (analyse p o 0 fewer body) op
  followed : 0 < left → ∀ position link, (position, link) ∈ forwards p o roles body →
    EnteredBy visits link.1 (trail ++ [position])

/-- A function was entered along a path, and its body is finished. -/
structure Entered (p : Program) (o : Oracle Id) (handler : NodeId) (op : Operation)
    (visits : List Visit) (v : Visit) : Prop where
  path : Path p o handler v.trail (v.link :: v.before)
  finished : ∀ body, p.field? v.function "body" = some body →
    Finished p o v.trail (maxForwarding - v.before.length) v.link.2 body op visits

/-- A later state of the search behind a trail: more functions were visited, all of them entered,
and all by chains that go on from the trail. -/
structure Progress (p : Program) (o : Oracle Id) (handler : NodeId) (trail : List ℕ)
    (visits : List Visit) (s : UsageState) (more : List Visit) (s' : UsageState) : Prop where
  visited : s'.visited = more.map Visit.function ++ s.visited
  covers : s'.operation.Covers s.operation
  entered : ∀ v ∈ more, Entered p o handler s'.operation (more ++ visits) v
  behind : ∀ v ∈ more, trail <+: v.trail

variable {left position : ℕ} {roles : Roles} {body node function : NodeId} {before : List Link}
  {link : Link} {s s' s'' : UsageState} {op op' : Operation} {trail : List ℕ}
  {visits more more' : List Visit}

theorem EnteredBy.later (h : EnteredBy visits function trail) (hsub : visits ⊆ more) :
    EnteredBy more function trail :=
  h.imp fun _ hv => ⟨hsub hv.1, hv.2⟩

theorem Finished.later (h : Finished p o trail left roles body op visits)
    (hcovers : op'.Covers op) (hsub : visits ⊆ more) :
    Finished p o trail left roles body op' more :=
  ⟨fun fewer hfewer => (h.told fewer hfewer).later hcovers,
    fun hleft position link hlink => (h.followed hleft position link hlink).later hsub⟩

theorem Entered.later {v : Visit} (h : Entered p o handler op visits v) (hcovers : op'.Covers op)
    (hsub : visits ⊆ more) : Entered p o handler op' more v :=
  ⟨h.path, fun body hbody => (h.finished body hbody).later hcovers hsub⟩

/-- There is nothing to tell or to follow without names. -/
theorem finished_of_no_names (h : (roles.request.isNone && roles.response.isNone) = true)
    (trail : List ℕ) (left : ℕ) (body : NodeId) (op : Operation) (visits : List Visit) :
    Finished p o trail left roles body op visits where
  told fewer hfewer := by
    have hown : analyse p o 0 fewer body = pure () := if_pos (hfewer.isNone h)
    rw [hown]
    exact told_pure op
  followed _ position link hlink := by
    obtain ⟨node, -, hnode⟩ := mem_forwards.1 hlink
    rw [forwardedAt?_eq_none h] at hnode
    cases hnode

theorem Progress.refl (trail : List ℕ) (visits : List Visit) (s : UsageState) :
    Progress p o handler trail visits s [] s where
  visited := rfl
  covers := .refl _
  entered _ hv := absurd hv List.not_mem_nil
  behind _ hv := absurd hv List.not_mem_nil

theorem Progress.trans (h : Progress p o handler trail visits s more s')
    (h' : Progress p o handler trail (more ++ visits) s' more' s'') :
    Progress p o handler trail visits s (more' ++ more) s'' where
  visited := by rw [h'.visited, h.visited, List.map_append, List.append_assoc]
  covers := h'.covers.trans h.covers
  entered v hv := by
    rw [List.append_assoc]
    rcases List.mem_append.1 hv with hv | hv
    · exact h'.entered v hv
    · exact (h.entered v hv).later h'.covers (List.subset_append_right _ _)
  behind v hv := (List.mem_append.1 hv).elim (h'.behind v) (h.behind v)

/-- What is behind a trail is behind each beginning of it. -/
theorem Progress.of_prefix {earlier : List ℕ} (h : Progress p o handler trail visits s more s')
    (hbegins : earlier <+: trail) : Progress p o handler earlier visits s more s' :=
  { h with behind := fun v hv => hbegins.trans (h.behind v hv) }

/-- What nodes tell by themselves visits no function. -/
theorem progress_of_visitFree {x : Usage Id Unit} (hx : Repeated x) (hfree : VisitFree x)
    (trail : List ℕ) (visits : List Visit) (s : UsageState) :
    Progress p o handler trail visits s [] (x.run s).2 where
  visited := hfree.visited s
  covers := hx.covers s
  entered _ hv := absurd hv List.not_mem_nil
  behind _ hv := absurd hv List.not_mem_nil

/-- The search at a place: the functions on the path were visited, and no trail that was taken goes
beyond a limit. -/
structure Arrived (links : List Link) (visits : List Visit) (s : UsageState)
    (limit : List ℕ → Prop) : Prop where
  visited : s.visited = visits.map Visit.function
  onPath : ∀ link ∈ links, link.1 ∈ s.visited
  limited : ∀ v ∈ visits, limit v.trail

/-- What an analysis of bodies does with some calls left: the body at the end of a path is finished,
and all that is entered in between is behind the path. -/
def Explores (p : Program) (o : Oracle Id) (handler : NodeId) (left : ℕ)
    (go : Roles → NodeId → Usage Id Unit) : Prop :=
  ∀ {trail : List ℕ} {function body : NodeId} {roles : Roles} {before : List Link},
    Path p o handler trail ((function, roles) :: before) → before.length + left = maxForwarding →
    p.field? function "body" = some body →
    ∀ visits s, Arrived ((function, roles) :: before) visits s (· ≤ trail) →
      let s' := ((go roles body).run s).2
      ∃ more, Progress p o handler trail visits s more s' ∧
        Finished p o trail left roles body s'.operation (more ++ visits)

/-- Following the call at a place of the body of a path: all that is entered is behind the place,
and when calls are left the helper was entered. -/
def Follows (p : Program) (o : Oracle Id) (handler : NodeId) (left : ℕ) (links : List Link)
    (trail : List ℕ) (roles : Roles) (body : NodeId)
    (follow : Roles → NodeId → List NodeId → Usage Id Unit) : Prop :=
  ∀ position node, (p.preorder body)[position]? = some node →
    ∀ visits s, Arrived links visits s (· < trail ++ [position]) →
      let s' := ((followNode p follow roles node).run s).2
      ∃ more, Progress p o handler (trail ++ [position]) visits s more s' ∧
        (0 < left → ∀ link, forwardedAt? p o roles node = some link →
          EnteredBy (more ++ visits) link.1 (trail ++ [position]))

/-- Without calls left none is followed. -/
theorem follows_zero (links : List Link) (trail : List ℕ) (roles : Roles) (body : NodeId) :
    Follows p o handler 0 links trail roles body fun _ _ _ => pure () := by
  intro position node _ visits s _
  have hidle : followNode p (fun _ _ _ => pure ()) roles node = (pure () : Usage Id Unit) := by
    unfold followNode
    split
    · split <;> rfl
    · rfl
  rw [hidle]
  exact ⟨[], .refl _ visits s, fun hleft => absurd hleft (lt_irrefl 0)⟩

section Step

variable {go : Roles → NodeId → Usage Id Unit}
  (hpath : Path p o handler trail ((function, roles) :: before))
  (hleft : before.length + (left + 1) = maxForwarding)
  (hbody : p.field? function "body" = some body)
include hpath hleft hbody

/-- A path goes on to a helper that is not on it. -/
theorem Path.call (hlink : (position, link) ∈ forwards p o roles body)
    (hnew : link.1 ∉ ((function, roles) :: before).map Prod.fst) :
    Path p o handler (trail ++ [position]) (link :: (function, roles) :: before) where
  chain := hpath.chain.call (mem_helpers.2 ⟨body, hbody, hlink⟩)
  nodup := List.nodup_cons.2 ⟨hnew, hpath.nodup⟩
  length_le := by
    simp only [List.length_cons]
    omega

/-- A helper that was not visited is entered along the path that goes on to it. -/
theorem progress_enter (hgo : Explores p o handler left go)
    (hs : Arrived ((function, roles) :: before) visits s (· < trail ++ [position]))
    (hlink : (position, link) ∈ forwards p o roles body) (hnew : link.1 ∉ s.visited) :
    ∃ more, Progress p o handler (trail ++ [position]) visits s more ((enter p go link).run s).2 ∧
      EnteredBy (more ++ visits) link.1 (trail ++ [position]) := by
  obtain ⟨helper, received⟩ := link
  have hnext : Path p o handler (trail ++ [position])
      ((helper, received) :: (function, roles) :: before) := by
    refine hpath.call hleft hbody hlink fun hmem => ?_
    obtain ⟨link, hlink, hsame⟩ := List.mem_map.1 hmem
    exact hnew (hsame ▸ hs.onPath link hlink)
  have hlength : ((function, roles) :: before).length + left = maxForwarding := by
    rw [List.length_cons]
    omega
  let v : Visit := ⟨trail ++ [position], (helper, received), (function, roles) :: before⟩
  have hcalls : maxForwarding - v.before.length = left := by
    show maxForwarding - ((function, roles) :: before).length = left
    omega
  cases hinner : p.field? helper "body" with
  | none =>
    have hrun : (enter p go (helper, received)).run s =
        ((), { s with visited := helper :: s.visited }) := by
      simp only [enter, hinner]
      rfl
    rw [hrun]
    refine ⟨[v], ⟨rfl, .refl _, ?_, ?_⟩, v, List.mem_cons_self, rfl, le_rfl⟩
    · rintro _ (_ | ⟨_, ⟨⟩⟩)
      exact ⟨hnext, fun inner hfield => by simp [Visit.function, v, hinner] at hfield⟩
    · rintro _ (_ | ⟨_, ⟨⟩⟩)
      exact List.prefix_rfl
  | some inner =>
    have hrun : (enter p go (helper, received)).run s =
        (go received inner).run { s with visited := helper :: s.visited } := by
      simp only [enter, hinner]
      rfl
    have harrived : Arrived ((helper, received) :: (function, roles) :: before) (v :: visits)
        { s with visited := helper :: s.visited } (· ≤ trail ++ [position]) :=
      ⟨congrArg (helper :: ·) hs.visited,
        List.forall_mem_cons.2
          ⟨List.mem_cons_self, fun link hl => List.mem_cons_of_mem _ (hs.onPath link hl)⟩,
        List.forall_mem_cons.2 ⟨le_rfl, fun w hw => (hs.limited w hw).le⟩⟩
    obtain ⟨more, hprogress, hfinished⟩ := hgo hnext hlength hinner _ _ harrived
    have hall : more ++ v :: visits = (more ++ [v]) ++ visits := by simp
    rw [hrun]
    refine ⟨more ++ [v], ⟨?_, hprogress.covers, ?_, ?_⟩, v, by simp, rfl, le_rfl⟩
    · rw [hprogress.visited]
      simp [Visit.function, v]
    · rw [← hall]
      intro w hw
      rcases List.mem_append.1 hw with hw | hw
      · exact hprogress.entered w hw
      · obtain rfl := List.mem_singleton.1 hw
        refine ⟨hnext, fun other hfield => ?_⟩
        obtain rfl : inner = other := Option.some.inj (hinner.symm.trans hfield)
        rw [hcalls]
        exact hfinished
    · intro w hw
      rcases List.mem_append.1 hw with hw | hw
      · exact hprogress.behind w hw
      · obtain rfl := List.mem_singleton.1 hw
        exact List.prefix_rfl

/-- The helpers that were not visited are entered. -/
theorem follows_succ (hgo : Explores p o handler left go) :
    Follows p o handler (left + 1) ((function, roles) :: before) trail roles body
      (followCall p o go) := by
  intro position node hnode visits s hs
  rw [followNode_run]
  cases hlink : forwardedAt? p o roles node with
  | none => exact ⟨[], .refl _ visits s, nofun⟩
  | some link =>
    rw [Option.elim_some]
    split
    · next hvisited =>
      refine ⟨[], .refl _ visits s, fun _ other hother => ?_⟩
      cases hother
      rw [hs.visited] at hvisited
      obtain ⟨v, hv, hsame⟩ := List.mem_map.1 hvisited
      exact ⟨v, hv, hsame, (hs.limited v hv).le⟩
    · next hnew =>
      obtain ⟨more, hprogress, hin⟩ := progress_enter hpath hleft hbody hgo hs
        (mem_forwards.2 ⟨node, hnode, hlink⟩) hnew
      refine ⟨more, hprogress, fun _ other hother => ?_⟩
      cases hother
      exact hin

end Step

section Walk

variable {links : List Link} {follow : Roles → NodeId → List NodeId → Usage Id Unit}

/-- Later places of a body are arrived at when the earlier ones are behind. -/
theorem Arrived.next {position : ℕ} (hs : Arrived links visits s (· < trail ++ [position]))
    (h : Progress p o handler (trail ++ [position]) visits s more s') :
    Arrived links (more ++ visits) s' (· < trail ++ [position + 1]) where
  visited := by rw [h.visited, hs.visited, List.map_append]
  onPath link hlink := by
    rw [h.visited]
    exact List.mem_append_right _ (hs.onPath link hlink)
  limited v hv := by
    rcases List.mem_append.1 hv with hv | hv
    · obtain ⟨rest, hrest⟩ := h.behind v hv
      rw [← hrest, List.append_assoc, List.singleton_append]
      exact branch_lt rest (Nat.lt_succ_self position)
    · exact (hs.limited v hv).trans (branch_lt [] (Nat.lt_succ_self position))

/-- A visit tells what the node tells by itself, and its helper was entered afterwards. -/
theorem progress_visitNode (hfollow : Follows p o handler left links trail roles body follow)
    (hnode : (p.preorder body)[position]? = some node)
    (hs : Arrived links visits s (· < trail ++ [position])) :
    let s' := ((visitNode p o follow roles node).run s).2
    ∃ more, Progress p o handler (trail ++ [position]) visits s more s' ∧
      (∀ fewer : Roles, fewer.Within roles → Told (visitOwn p o fewer node) s'.operation) ∧
      (0 < left → ∀ link, forwardedAt? p o roles node = some link →
        EnteredBy (more ++ visits) link.1 (trail ++ [position])) := by
  intro s'
  -- the node by itself, and then its call
  set t := ((visitOwn p o roles node).run s).2
  have hown : Progress p o handler (trail ++ [position]) visits s [] t :=
    progress_of_visitFree (repeated_visitOwn p o roles node) (visitFree_visitOwn p o roles node) _
      visits s
  have ht : Arrived links visits t (· < trail ++ [position]) :=
    ⟨hown.visited.trans hs.visited, fun link hl => hown.visited ▸ hs.onPath link hl, hs.limited⟩
  obtain ⟨more, hprogress, hin⟩ := hfollow position node hnode visits t ht
  have hs' : s' = ((followNode p follow roles node).run t).2 := by
    show ((visitNode p o follow roles node).run s).2 = _
    rw [visitNode_eq]
    rfl
  rw [hs']
  refine ⟨more, ?_, fun fewer hfewer => ?_, hin⟩
  · simpa using hown.trans hprogress
  · exact (told_visitOwn p o hfewer node s).later hprogress.covers

/-- Visits of the nodes of a body from a position on, one after the other. -/
theorem progress_forM (hfollow : Follows p o handler left links trail roles body follow)
    (nodes : List NodeId) {first : ℕ} (hnodes : (p.preorder body).drop first = nodes)
    (hs : Arrived links visits s (· < trail ++ [first])) :
    let s' := ((nodes.forM (visitNode p o follow roles)).run s).2
    ∃ more, Progress p o handler trail visits s more s' ∧
      (∀ node ∈ nodes, ∀ fewer : Roles, fewer.Within roles →
        Told (visitOwn p o fewer node) s'.operation) ∧
      (0 < left → ∀ position link, first ≤ position →
        (position, link) ∈ forwards p o roles body →
          EnteredBy (more ++ visits) link.1 (trail ++ [position])) := by
  induction nodes generalizing first visits s with
  | nil =>
    refine ⟨[], .refl trail visits s, nofun, fun _ position link hfirst hlink => ?_⟩
    -- there is no node at a later position
    obtain ⟨node, hnode, -⟩ := mem_forwards.1 hlink
    have hlength := List.drop_eq_nil_iff.1 hnodes
    rw [List.getElem?_eq_none (hlength.trans hfirst)] at hnode
    cases hnode
  | cons node nodes ih =>
    have hnode : (p.preorder body)[first]? = some node := by
      rw [← List.head?_drop, hnodes, List.head?_cons]
    have hrest : (p.preorder body).drop (first + 1) = nodes := by
      rw [← List.tail_drop, hnodes, List.tail_cons]
    obtain ⟨more, hprogress, htold, hin⟩ := progress_visitNode hfollow hnode hs
    obtain ⟨more', hprogress', htold', hin'⟩ := ih hrest (hs.next hprogress)
    have hwhole := (hprogress.of_prefix (List.prefix_append trail [first])).trans hprogress'
    refine ⟨more' ++ more, hwhole, List.forall_mem_cons.2 ⟨fun fewer hfewer => ?_, htold'⟩,
      fun hleft position link hfirst hlink => ?_⟩
    · exact (htold fewer hfewer).later hprogress'.covers
    · rw [List.append_assoc]
      rcases hfirst.eq_or_lt with rfl | hlater
      · obtain ⟨other, hother, hlink⟩ := mem_forwards.1 hlink
        obtain rfl := Option.some.inj (hnode.symm.trans hother)
        exact (hin hleft link hlink).later (List.subset_append_right _ _)
      · exact hin' hleft position link hlater hlink

/-- A body is finished when its walk is over. -/
theorem finished_walkM (hfollow : Follows p o handler left links trail roles body follow)
    (hs : Arrived links visits s (· ≤ trail)) :
    let s' := ((p.walkM (visitNode p o follow roles) [body]).run s).2
    ∃ more, Progress p o handler trail visits s more s' ∧
      Finished p o trail left roles body s'.operation (more ++ visits) := by
  rw [p.walkM_singleton]
  have hfirst : Arrived links visits s (· < trail ++ [0]) :=
    { hs with limited := fun v hv => (hs.limited v hv).trans_lt (lt_concat trail 0) }
  obtain ⟨more, hprogress, htold, hin⟩ := progress_forM hfollow _ rfl hfirst
  refine ⟨more, hprogress, fun fewer hfewer => ?_, fun hleft position link hlink => ?_⟩
  · exact told_analyseOwn p o fewer fun node hnode => htold node hnode fewer hfewer
  · exact hin hleft position link (Nat.zero_le position) hlink

end Walk

/-- The analysis of a body finishes it: it is walked, and calls are followed while some are left. -/
theorem explores_analyse (left : ℕ) : Explores p o handler left (analyse p o left) := by
  induction left with
  | zero =>
    intro trail function body roles before _ _ _ visits s hs
    rw [analyse]
    split
    · next hnone => exact ⟨[], .refl trail visits s, finished_of_no_names hnone trail 0 body _ _⟩
    · exact finished_walkM (follows_zero _ trail roles body) hs
  | succ left ih =>
    intro trail function body roles before hpath hleft hbody visits s hs
    rw [analyse]
    split
    · next hnone =>
      exact ⟨[], .refl trail visits s, finished_of_no_names hnone trail (left + 1) body _ _⟩
    · exact finished_walkM (follows_succ hpath hleft hbody ih) hs

/-! ### The analysis of a handler -/

/-- A handler is entered with all its calls left. -/
theorem analyseHandlerM_run (hbody : p.field? handler "body" = some body) (op : Operation)
    (T : Entries Schema) :
    ∃ t : UsageState, t.visited = [] ∧
      (analyseHandlerM p o handler).run ⟨op, T, []⟩ =
        (enter p (analyse p o maxForwarding) (handler, handlerRoles p handler)).run t := by
  unfold analyseHandlerM enter
  simp only [hbody]
  split
  · next request _ _ _ =>
    have hfree := (ownSteps_visitFree o).applyRequestArguments p request
    exact ⟨_, hfree.visited ⟨op, T, []⟩, rfl⟩
  · exact ⟨⟨op, T, []⟩, rfl, rfl⟩

theorem path_handler (p : Program) (o : Oracle Id) (handler : NodeId) :
    Path p o handler [] [(handler, handlerRoles p handler)] where
  chain := .start
  nodup := List.nodup_singleton handler
  length_le := by simp [maxForwarding]

/-- The analysis of a handler with a body enters the handler, and finishes all that it enters. -/
theorem exists_visits_of_analyseHandlerM (hbody : p.field? handler "body" = some body)
    (op : Operation) (T : Entries Schema) :
    let s := ((analyseHandlerM p o handler).run ⟨op, T, []⟩).2
    ∃ visits, EnteredBy visits handler [] ∧
      ∀ v ∈ visits, Entered p o handler s.operation visits v := by
  intro s
  obtain ⟨t, ht, hrun⟩ := analyseHandlerM_run (o := o) hbody op T
  have hs : s = ((analyse p o maxForwarding (handlerRoles p handler) body).run
      { t with visited := handler :: t.visited }).2 := by
    show ((analyseHandlerM p o handler).run ⟨op, T, []⟩).2 = _
    rw [hrun]
    simp only [enter, hbody]
    rfl
  let v : Visit := ⟨[], (handler, handlerRoles p handler), []⟩
  have harrived : Arrived [v.link] [v] { t with visited := handler :: t.visited } (· ≤ []) :=
    ⟨by rw [ht]; rfl, by simp [v], by simp [v]⟩
  obtain ⟨more, hprogress, hfinished⟩ :=
    explores_analyse maxForwarding (path_handler p o handler) rfl hbody [v] _ harrived
  rw [← hs] at hprogress hfinished
  refine ⟨more ++ [v], ⟨v, by simp, rfl, le_rfl⟩, fun w hw => ?_⟩
  rcases List.mem_append.1 hw with hw | hw
  · exact hprogress.entered w hw
  · obtain rfl := List.mem_singleton.1 hw
    refine ⟨path_handler p o handler, fun other hfield => ?_⟩
    obtain rfl : body = other := Option.some.inj (hbody.symm.trans hfield)
    exact hfinished

/-- However the analysis may come to the function of a link before a trail, it comes with the names
of the link at least. -/
def Assured (p : Program) (o : Oracle Id) (handler : NodeId) (trail : List ℕ) (link : Link) :
    Prop :=
  ∀ earlier roles before, Path p o handler earlier ((link.1, roles) :: before) → earlier < trail →
    link.2.Within roles

/-- However the analysis may come to a function before a trail, it comes by fewer calls than it
follows. -/
def Near (p : Program) (o : Oracle Id) (handler : NodeId) (trail : List ℕ) (function : NodeId) :
    Prop :=
  ∀ earlier roles before, Path p o handler earlier ((function, roles) :: before) →
    earlier < trail → before.length < maxForwarding

/-- Only a handler with a body hands on anything. -/
theorem Chain.handler_body {last : Link} (h : Chain p o handler trail (last :: before))
    (hbody : p.field? last.1 "body" = some body) :
    ∃ first, p.field? handler "body" = some first := by
  generalize hlinks : last :: before = links at h
  induction h generalizing last before body with
  | start =>
    cases hlinks
    exact ⟨body, hbody⟩
  | call _ hlink ih =>
    obtain ⟨inner, hinner, -⟩ := mem_helpers.1 hlink
    exact ih hinner rfl

/-- A function that was entered by its call, if not before, was entered with the names of its link
at least, when no earlier way to it matters. -/
theorem Entered.within {v : Visit} (hv : Entered p o handler op visits v)
    (h : Chain p o handler trail (link :: before)) (hlink : Assured p o handler trail link)
    (hfunction : v.function = link.1) (hle : v.trail ≤ trail) : link.2.Within v.link.2 := by
  rcases hle.eq_or_lt with hsame | hearlier
  · have hlinks := hv.path.chain.unique (hsame ▸ h)
    rw [(List.cons.inj hlinks).1]
    exact ⟨.inr rfl, .inr rfl⟩
  · exact hlink v.trail v.link.2 v.before (hfunction ▸ hv.path) hearlier

/-- Every function of a path is entered by its call, if not before, when no earlier way into the
functions of the path matters. -/
theorem Chain.enteredBy {links : List Link} (h : Chain p o handler trail links)
    (hnodup : (links.map Prod.fst).Nodup) (hlength : links.length ≤ maxForwarding + 1)
    (hlinks : ∀ upTo link before, upTo <+: trail → Chain p o handler upTo (link :: before) →
      Assured p o handler upTo link)
    (hnear : ∀ upTo link before, upTo <+: trail → upTo ≠ trail →
      Chain p o handler upTo (link :: before) → Near p o handler upTo link.1)
    (hhandler : EnteredBy visits handler [])
    (hentered : ∀ v ∈ visits, Entered p o handler op visits v) :
    ∀ link ∈ links.head?, EnteredBy visits link.1 trail := by
  induction h with
  | start => simpa using hhandler
  | @call trail position last link before h hlink ih =>
    rw [List.map_cons, List.nodup_cons] at hnodup
    have hbegins : trail <+: trail ++ [position] := List.prefix_append trail [position]
    have hne : trail ≠ trail ++ [position] := (lt_concat trail position).ne
    obtain ⟨v, hv, hfunction, hle⟩ := ih hnodup.2 (Nat.le_of_succ_le hlength)
      (fun upTo link before hupTo => hlinks upTo link before (hupTo.trans hbegins))
      (fun upTo link before hupTo _ => hnear upTo link before (hupTo.trans hbegins) fun hsame =>
        absurd hupTo.length_le (by simp [hsame])) last rfl
    have hpath := (hentered v hv).path
    -- it was entered under these names or more, and with calls left
    have hwithin := (hentered v hv).within h (hlinks trail last before hbegins h) hfunction hle
    have hcalls : v.before.length < maxForwarding := by
      rcases hle.eq_or_lt with hsame | hearlier
      · have hlong := hpath.chain.length_eq
        have hlong' := h.length_eq
        rw [hsame] at hlong
        simp only [List.length_cons] at hlong hlong' hlength
        omega
      · exact hnear trail last before hbegins hne h v.trail v.link.2 v.before (hfunction ▸ hpath)
          hearlier
    -- so the call that goes on was followed, at a place that comes no later
    obtain ⟨body, hbody, hlink⟩ := mem_helpers.1 hlink
    obtain ⟨node, hnode, hlink⟩ := mem_forwards.1 hlink
    obtain ⟨received, -, hreceived⟩ := exists_forwardedAt?_of_within hwithin hlink
    obtain ⟨w, hw, hhelper, hwle⟩ := ((hentered v hv).finished body (hfunction ▸ hbody)).followed
      (Nat.sub_pos_of_lt hcalls) position (link.1, received)
      (mem_forwards.2 ⟨node, hnode, hreceived⟩)
    have hplace : v.trail ++ [position] ≤ trail ++ [position] := by
      rcases hle.eq_or_lt with hsame | hearlier
      · rw [hsame]
      · refine (append_lt_append hearlier (fun hupTo => hearlier.ne ?_) _ _).le
        exact h.eq_of_prefix hnodup.2 hpath.chain hfunction hupTo
    rintro _ ⟨⟩
    exact ⟨w, hw, hhelper, hwle.trans hplace⟩

/-- Analysing a body by itself adds no parameter and no response to an operation, whatever the table
and the functions that were visited are. -/
def NothingNew (p : Program) (o : Oracle Id) (roles : Roles) (body : NodeId) (op : Operation) :
    Prop :=
  ∀ table functions, ∃ requestBody,
    ((analyse p o 0 roles body).run ⟨op, table, functions⟩).2.operation = { op with requestBody }

/-- **What a helper reads of the request and sends as the response is not lost**, when a chain of
calls without repetitions leads to it, no more than are followed, and no earlier chain to a function
of this one hands it less, or is as long as allowed while this one goes on. Analysing the body of
the helper under the names that the chain gives it adds no parameter and no response to the
operation, whatever calls come later. -/
theorem analyseHandler_tells_forwarded
    (hpath : Path p o handler trail ((function, roles) :: before))
    (hlinks : ∀ upTo link links, upTo <+: trail → Chain p o handler upTo (link :: links) →
      Assured p o handler upTo link)
    (hnear : ∀ upTo link links, upTo <+: trail → upTo ≠ trail →
      Chain p o handler upTo (link :: links) → Near p o handler upTo link.1)
    (hbody : p.field? function "body" = some body) (op : Operation) (T : Entries Schema) :
    NothingNew p o roles body (analyseHandler p o handler op T).run.1 := by
  obtain ⟨first, hfirst⟩ := hpath.chain.handler_body hbody
  obtain ⟨visits, hhandler, hentered⟩ := exists_visits_of_analyseHandlerM (o := o) hfirst op T
  obtain ⟨v, hv, hfunction, hle⟩ := hpath.chain.enteredBy hpath.nodup hpath.length_le hlinks hnear
    hhandler hentered (function, roles) rfl
  have hwithin := (hentered v hv).within hpath.chain
    (hlinks trail (function, roles) before List.prefix_rfl hpath.chain) hfunction hle
  exact ((hentered v hv).finished body (hfunction ▸ hbody)).told roles hwithin _ (.refl _)

end Search

/-! ### Handlers with two calls -/

/-- A named node of a tree. -/
def treeNode (parent : ℕ) (kind field text : String) (children : List ℕ) : Node :=
  { kind, field := if field = "" then none else some field, named := true, parent := some parent,
    children, text }

/-- The nodes of `const handler = (req, res) => [first(x), second(y)]`, from 1 on. -/
def handlerNodes (first second : String × String) : List Node := [
  treeNode 0 "lexical_declaration" "" "" [2],
  treeNode 1 "variable_declarator" "" "" [3, 4],
  treeNode 2 "identifier" "name" "handler" [],
  treeNode 2 "arrow_function" "value" "" [5, 10],
  treeNode 4 "formal_parameters" "parameters" "" [6, 8],
  treeNode 5 "required_parameter" "" "" [7],
  treeNode 6 "identifier" "pattern" "req" [],
  treeNode 5 "required_parameter" "" "" [9],
  treeNode 8 "identifier" "pattern" "res" [],
  treeNode 4 "array" "body" "" [11, 15],
  treeNode 10 "call_expression" "" "" [12, 13],
  treeNode 11 "identifier" "function" first.1 [],
  treeNode 11 "arguments" "arguments" "" [14],
  treeNode 13 "identifier" "" first.2 [],
  treeNode 10 "call_expression" "" "" [16, 17],
  treeNode 15 "identifier" "function" second.1 [],
  treeNode 15 "arguments" "arguments" "" [18],
  treeNode 17 "identifier" "" second.2 []]

/-- The nodes of helpers that hand their value each to the next one, `const a = value => b(value)`,
from an index on. The last helper is `const a = value => value.status(404)`. -/
def helperNodes : ℕ → List String → List Node
  | _, [] => []
  | n, [name] => [
    treeNode 0 "lexical_declaration" "" "" [n + 1],
    treeNode n "variable_declarator" "" "" [n + 2, n + 3],
    treeNode (n + 1) "identifier" "name" name [],
    treeNode (n + 1) "arrow_function" "value" "" [n + 4, n + 5],
    treeNode (n + 3) "identifier" "parameter" "value" [],
    treeNode (n + 3) "call_expression" "body" "" [n + 6, n + 9],
    treeNode (n + 5) "member_expression" "function" "" [n + 7, n + 8],
    treeNode (n + 6) "identifier" "object" "value" [],
    treeNode (n + 6) "property_identifier" "property" "status" [],
    treeNode (n + 5) "arguments" "arguments" "" [n + 10],
    treeNode (n + 9) "number" "" "404" []]
  | n, name :: next :: more => [
    treeNode 0 "lexical_declaration" "" "" [n + 1],
    treeNode n "variable_declarator" "" "" [n + 2, n + 3],
    treeNode (n + 1) "identifier" "name" name [],
    treeNode (n + 1) "arrow_function" "value" "" [n + 4, n + 5],
    treeNode (n + 3) "identifier" "parameter" "value" [],
    treeNode (n + 3) "call_expression" "body" "" [n + 6, n + 7],
    treeNode (n + 5) "identifier" "function" next [],
    treeNode (n + 5) "arguments" "arguments" "" [n + 8],
    treeNode (n + 7) "identifier" "" "value" []] ++ helperNodes (n + 9) (next :: more)

/-- The root above the handler and a number of helpers. -/
def rootNode (count : ℕ) : Node :=
  { kind := "program", named := true, children := 1 :: (List.range count).map (19 + 9 * ·) }

/-- A handler that calls two of the helpers. -/
def forwardingProgram (helpers : List String) (first second : String × String) : Program where
  units := #[{
    path := "app.ts"
    nodes :=
      (rootNode helpers.length :: handlerNodes first second ++ helperNodes 19 helpers).toArray }]

/-- An oracle that finds the declarators of the helpers by their names. -/
def helperOracle (helpers : List String) (p : Program) : Oracle Id where
  __ := Schema.commentOracle
  symbolAt node := (helpers.findIdx? (· = p.text node)).map fun i => 20 + 9 * i
  declarations s := [⟨0, s⟩]

/-- The last functions of all chains, with their trails, are among some that are closed under
calls. -/
theorem Chain.mem_of_closed {p : Program} {o : Oracle Id} {handler : NodeId} {trail : List ℕ}
    {last : Link} {before : List Link} {reached : List (List ℕ × Link)}
    (hstart : ([], (handler, handlerRoles p handler)) ∈ reached)
    (hcall : ∀ r ∈ reached, ∀ next ∈ helpers p o r.2, (r.1 ++ [next.1], next.2) ∈ reached)
    (h : Chain p o handler trail (last :: before)) : (trail, last) ∈ reached := by
  generalize hlinks : last :: before = links at h
  induction h generalizing last before with
  | start =>
    cases hlinks
    exact hstart
  | call _ hlink ih =>
    cases hlinks
    exact hcall _ (ih rfl) _ hlink

/-- A helper that two calls lead to, and both hand it the response: what it sends is there. -/
theorem analyseHandler_tells_forwarded_shared :
    let p := forwardingProgram ["a", "b"] ("a", "res") ("b", "res")
    let o := helperOracle ["a", "b"] p
    let received : Roles := ⟨none, some "value"⟩
    let first : Link := (⟨0, 4⟩, handlerRoles p ⟨0, 4⟩)
    let final := (analyseHandler p o ⟨0, 4⟩ .fresh []).run.1
    Path p o ⟨0, 4⟩ [1, 0] [(⟨0, 31⟩, received), (⟨0, 22⟩, received), first] ∧
      Path p o ⟨0, 4⟩ [5] [(⟨0, 31⟩, received), first] ∧
      (∀ upTo link links, upTo <+: [5] → Chain p o ⟨0, 4⟩ upTo (link :: links) →
        Assured p o ⟨0, 4⟩ upTo link) ∧
      (∀ upTo link links, upTo <+: [5] → upTo ≠ [5] → Chain p o ⟨0, 4⟩ upTo (link :: links) →
        Near p o ⟨0, 4⟩ upTo link.1) ∧
      p.field? ⟨0, 31⟩ "body" = some ⟨0, 33⟩ ∧ NothingNew p o received ⟨0, 33⟩ final ∧
      final.responses.names = ["200", "404"] := by
  intro p o received first final
  have hbody : p.field? ⟨0, 31⟩ "body" = some ⟨0, 33⟩ := by decide +kernel
  have hdirect : Path p o ⟨0, 4⟩ [5] [(⟨0, 31⟩, received), first] :=
    ⟨Chain.start.call (by decide +kernel), by decide, by decide⟩
  have hearlier : Path p o ⟨0, 4⟩ [1, 0] [(⟨0, 31⟩, received), (⟨0, 22⟩, received), first] :=
    ⟨(Chain.start.call (by decide +kernel)).call (by decide +kernel), by decide, by decide⟩
  -- nothing comes before the handler, and the earlier way to the helper hands it the response, too
  have hbefore {upTo : List ℕ} (hupTo : upTo <+: [5]) : upTo = [] ∨ upTo = [5] :=
    (List.prefix_concat_iff.1 hupTo).symm.imp_left List.prefix_nil.1
  have hlinks : ∀ upTo link links, upTo <+: [5] → Chain p o ⟨0, 4⟩ upTo (link :: links) →
      Assured p o ⟨0, 4⟩ upTo link := by
    intro upTo link links hupTo hchain earlier roles before hpath hlt
    rcases hbefore hupTo with rfl | rfl
    · exact absurd hlt (List.not_lt_nil earlier)
    · cases hchain.unique hdirect.chain
      have hreached : (earlier, (⟨0, 31⟩, roles)) ∈ [([], first), ([1], ⟨0, 22⟩, received),
          ([1, 0], ⟨0, 31⟩, received), ([5], ⟨0, 31⟩, received)] :=
        hpath.chain.mem_of_closed (by simp [first]) (by decide +kernel)
      have hsame : earlier = [1, 0] ∧ roles = received ∨ earlier = [5] ∧ roles = received := by
        simpa [first] using hreached
      rcases hsame with ⟨-, rfl⟩ | ⟨-, rfl⟩ <;> exact ⟨.inr rfl, .inr rfl⟩
  have hnear : ∀ upTo link links, upTo <+: [5] → upTo ≠ [5] →
      Chain p o ⟨0, 4⟩ upTo (link :: links) → Near p o ⟨0, 4⟩ upTo link.1 := by
    intro upTo link links hupTo hne _ earlier roles before _ hlt
    obtain rfl := (hbefore hupTo).resolve_right hne
    exact absurd hlt (List.not_lt_nil earlier)
  exact ⟨hearlier, hdirect, hlinks, hnear, hbody,
    analyseHandler_tells_forwarded hdirect hlinks hnear hbody .fresh [], by decide +kernel⟩

/-- What is lost without the conditions. A helper that the first call hands the request is not
analysed again for the response that the second call hands it; of two calls that lead to `h`, the
first one by eight calls, neither leads on to `i`; and a handler that calls itself is not analysed
again for the response that it then receives as its request. -/
theorem forwarded_access_lost :
    (let p := forwardingProgram ["a"] ("a", "req") ("a", "res")
     let o := helperOracle ["a"] p
     Path p o ⟨0, 4⟩ [5] [(⟨0, 22⟩, ⟨none, some "value"⟩), (⟨0, 4⟩, handlerRoles p ⟨0, 4⟩)] ∧
      p.field? ⟨0, 22⟩ "body" = some ⟨0, 24⟩ ∧
      ¬ NothingNew p o ⟨none, some "value"⟩ ⟨0, 24⟩ (analyseHandler p o ⟨0, 4⟩ .fresh []).run.1) ∧
    (let helpers := ["a", "b", "c", "d", "e", "f", "g", "h", "i"]
     let p := forwardingProgram helpers ("a", "res") ("h", "res")
     let o := helperOracle helpers p
     Path p o ⟨0, 4⟩ [5, 0] [(⟨0, 94⟩, ⟨none, some "value"⟩), (⟨0, 85⟩, ⟨none, some "value"⟩),
        (⟨0, 4⟩, handlerRoles p ⟨0, 4⟩)] ∧
      p.field? ⟨0, 94⟩ "body" = some ⟨0, 96⟩ ∧
      ¬ NothingNew p o ⟨none, some "value"⟩ ⟨0, 96⟩ (analyseHandler p o ⟨0, 4⟩ .fresh []).run.1) ∧
    let p := forwardingProgram ["a"] ("handler", "res") ("a", "req")
    let o := { helperOracle ["a"] p with
      symbolAt node := some (if p.text node = "handler" then 2 else 20) }
    Chain p o ⟨0, 4⟩ [1, 5] [(⟨0, 22⟩, ⟨none, some "value"⟩), (⟨0, 4⟩, ⟨none, some "req"⟩),
        (⟨0, 4⟩, handlerRoles p ⟨0, 4⟩)] ∧
      p.field? ⟨0, 22⟩ "body" = some ⟨0, 24⟩ ∧
      ¬ NothingNew p o ⟨none, some "value"⟩ ⟨0, 24⟩
        (analyseHandler p o ⟨0, 4⟩ .fresh []).run.1 := by
  -- the status 404 of the last helper is not among the responses
  have lost {p : Program} {o : Oracle Id} {roles : Roles} {body : NodeId} {op : Operation}
      (h : ((analyse p o 0 roles body).run ⟨op, [], []⟩).2.operation.responses.names ≠
        op.responses.names) : ¬ NothingNew p o roles body op := fun hnew => by
    obtain ⟨requestBody, hsame⟩ := hnew [] []
    exact h (congrArg (·.responses.names) hsame)
  refine ⟨⟨⟨?_, by decide, by decide⟩, by decide +kernel, lost (by decide +kernel)⟩,
    ⟨⟨?_, by decide, by decide⟩, by decide +kernel, lost (by decide +kernel)⟩,
    ?_, by decide +kernel, lost (by decide +kernel)⟩
  · exact Chain.start.call (by decide +kernel)
  · exact (Chain.start.call (by decide +kernel)).call (by decide +kernel)
  · exact (Chain.start.call (by decide +kernel)).call (by decide +kernel)

end RouteContract.Crawl
