import Mathlib
import RouteContract.Crawl.Routes
import RouteContract.Proofs.Crawl.Walk

/-!
# Registration sites

A site is a call that registers an operation, together with the calls of `use` that mount its unit
on the way from the entry unit. Over an oracle that is a fixed function of its arguments the sites
of a program can be told without running the crawl:

* `IsSite` says which sites there are: chains of mounts through distinct units;
* `sitesWithin` lists them in the order of the crawl, to a number of mounts, and `mem_sitesWithin`
  and `sorted_sitesWithin` say that the list has them all in depth-first order;
* `crawlUnit_run` says that the crawl records the sites of the list one after the other.
-/

namespace RouteContract.Crawl

/-- A call that mounts a unit, by its position in the walk of the unit around it. -/
structure Mount where
  position : Nat
  path : String
  target : Nat

/-- A call that registers an operation, behind the mounts that lead to its unit. -/
structure Site where
  mounts : List Mount := []
  position : Nat
  call : NodeId
  method : Method
  path : String
  handlers : List NodeId

/-- The site behind one more mount. -/
def Site.behind (mount : Mount) (site : Site) : Site :=
  { site with mounts := mount :: site.mounts }

/-- The paths of the mounts and of the registration joined onto a base path, in braces. -/
def Site.keyUnder (base : String) (site : Site) : String :=
  Route.braced ((site.mounts.map Mount.path ++ [site.path]).foldl Route.join base)

/-- The path under which a site registers. -/
def Site.key (site : Site) : String := site.keyUnder "/"

/-- The positions of the mounts and of the registration; sites come in their lexicographic order. -/
def Site.trail (site : Site) : List Nat := site.mounts.map Mount.position ++ [site.position]

section

variable (p : Program) (o : Oracle Id)

/-- A position of the walk of a unit holds a call of a member with at least two arguments. -/
def CallAt (unit position : Nat) (call : NodeId) (c : MemberCall) : Prop :=
  (p.preorder (.root unit))[position]? = some call ∧ p.kind call = "call_expression" ∧
    memberCall? p call = some c

/-- A unit holds the call of `use` of a mount. -/
def Mount.OccursIn (mount : Mount) (unit : Nat) : Prop :=
  ∃ call c, CallAt p unit mount.position call c ∧ Text.sameAscii c.verb "use" = true ∧
    (resolvePath p o c.first).run.getD "/" = mount.path ∧
    (resolveMount p o c.second).run = some mount.target

/-- The handlers that the arguments of a route lead to. -/
def handlersOf (c : MemberCall) : List NodeId :=
  (handlerArguments p c).filterMap fun argument => (resolveHandler p o argument).run

/-- A unit holds the registration of a site. -/
def Site.OccursIn (site : Site) (unit : Nat) : Prop :=
  ∃ c, CallAt p unit site.position site.call c ∧ Method.ofVerb? c.verb = some site.method ∧
    (resolvePath p o c.first).run = some site.path ∧ handlersOf p o c = site.handlers ∧
    site.handlers ≠ []

/-- A chain of mounts leads from a unit to another. -/
def Leads : Nat → List Mount → Nat → Prop
  | unit, [], last => unit = last
  | unit, mount :: mounts, last => mount.OccursIn p o unit ∧ Leads mount.target mounts last

/-- The sites that an entry unit leads to, through units that are all distinct. -/
def IsSite (entry : Nat) (site : Site) : Prop :=
  (entry :: site.mounts.map Mount.target).Nodup ∧
    ∃ last, Leads p o entry site.mounts last ∧ site.OccursIn p o last

/-! ### The sites in order -/

/-- The site of a call named after a method, when its path and one of its handlers resolve. -/
def routeSites (method : Method) (call : NodeId) (position : Nat) (c : MemberCall) : List Site :=
  match (resolvePath p o c.first).run with
  | none => []
  | some path =>
    if (handlersOf p o c).isEmpty then []
    else [{ position, call, method, path, handlers := handlersOf p o c }]

/-- The sites behind the unit that a call of `use` mounts. -/
def mountedSites (within : Nat → List Nat → List Site) (stack : List Nat) (position : Nat)
    (c : MemberCall) : List Site :=
  match (resolveMount p o c.second).run with
  | none => []
  | some target =>
    if stack.contains target then []
    else (within target (stack ++ [target])).map
      (Site.behind ⟨position, (resolvePath p o c.first).run.getD "/", target⟩)

/-- The sites at a node and behind the unit that it mounts. -/
def sitesAt (within : Nat → List Nat → List Site) (stack : List Nat) (node : NodeId)
    (position : Nat) : List Site :=
  if p.kind node = "call_expression" then
    match memberCall? p node with
    | none => []
    | some c =>
      if Text.sameAscii c.verb "use" then mountedSites p o within stack position c
      else match Method.ofVerb? c.verb with
        | some method => routeSites p o method node position c
        | none => []
  else []

/-- The sites of a unit, and those behind the units that it mounts. -/
def sitesIn (within : Nat → List Nat → List Site) (unit : Nat) (stack : List Nat) : List Site :=
  (p.preorder (.root unit)).zipIdx.flatMap fun (node, position) =>
    sitesAt p o within stack node position

/-- The sites of a unit behind at most so many mounts, none of a unit on the stack. -/
def sitesWithin : Nat → Nat → List Nat → List Site
  | 0 => sitesIn p o fun _ _ => []
  | left + 1 => sitesIn p o (sitesWithin left)

/-! ### The crawl records the sites -/

/-- The operation of a site under a base path and the table behind it, from a table before it. -/
def Site.build (markers : List String) (base : String) (table : Entries Schema) (site : Site) :
    Operation × Entries Schema :=
  (analyseHandlers p o
    (documentedOperation p markers site.call (site.keyUnder base) site.handlers).1 table
    site.handlers).run

/-- Record a site in what the crawl has found. -/
def Site.record (markers : List String) (base : String) (s : CrawlState) (site : Site) :
    CrawlState where
  routes :=
    s.routes.register (site.keyUnder base) site.method (site.build p o markers base s.table).1
  table := (site.build p o markers base s.table).2
  warnings := s.warnings ++
    (documentedOperation p markers site.call (site.keyUnder base) site.handlers).2

end

@[simp] theorem Site.keyUnder_behind (mount : Mount) (site : Site) (base : String) :
    (site.behind mount).keyUnder base = site.keyUnder (Route.join base mount.path) := by
  unfold Site.keyUnder Site.behind
  rw [List.map_cons, List.cons_append, List.foldl_cons]

@[simp] theorem Site.trail_behind (mount : Mount) (site : Site) :
    (site.behind mount).trail = mount.position :: site.trail := rfl

variable {p : Program} {o : Oracle Id} {markers : List String}

/-- A site behind a mount is recorded as it is under the path of the mount. -/
theorem Site.record_behind (base : String) (s : CrawlState) (mount : Mount) (site : Site) :
    Site.record p o markers base s (site.behind mount) =
      Site.record p o markers (Route.join base mount.path) s site := by
  simp only [Site.record, Site.build, Site.keyUnder_behind]
  rfl

theorem resolveHandlers_cons_run (a : NodeId) (rest : List NodeId) :
    (resolveHandlers p o (a :: rest)).run =
      match (resolveHandler p o a).run with
      | some handler => handler :: (resolveHandlers p o rest).run
      | none => (resolveHandlers p o rest).run := rfl

theorem resolveHandlers_run (arguments : List NodeId) :
    (resolveHandlers p o arguments).run =
      arguments.filterMap fun argument => (resolveHandler p o argument).run := by
  induction arguments with
  | nil => rfl
  | cons a rest ih =>
    rw [List.filterMap_cons, ← ih, resolveHandlers_cons_run]
    cases (resolveHandler p o a).run with
    | none => rfl
    | some handler => rfl

/-- A question to a fixed oracle has one answer. -/
theorem inquire_bind_run {α β : Type} (q : Id α) (f : α → Crawling Id β) (s : CrawlState) :
    (inquire q >>= f).run s = (f q.run).run s := rfl

/-- A registration records its site. -/
theorem registerRoute_run (base : String) (method : Method) (call : NodeId) (c : MemberCall)
    (position : Nat) (s : CrawlState) :
    ((registerRoute p o markers base method call c).run s).2 =
      (routeSites p o method call position c).foldl (Site.record p o markers base) s := by
  unfold registerRoute routeSites
  rw [inquire_bind_run]
  cases (resolvePath p o c.first).run with
  | none => rfl
  | some path =>
    dsimp only
    rw [inquire_bind_run, show (resolveHandlers p o (handlerArguments p c)).run = handlersOf p o c
      from resolveHandlers_run _]
    split
    · rfl
    · rfl

/-- A mount records the sites behind it. -/
theorem mountUnit_run {crawl : Nat → String → List Nat → Crawling Id Unit}
    {within : Nat → List Nat → List Site}
    (h : ∀ unit base stack s, ((crawl unit base stack).run s).2 =
      (within unit stack).foldl (Site.record p o markers base) s)
    (base : String) (stack : List Nat) (position : Nat) (c : MemberCall) (s : CrawlState) :
    ((mountUnit p o crawl base stack c).run s).2 =
      (mountedSites p o within stack position c).foldl (Site.record p o markers base) s := by
  unfold mountUnit mountedSites
  rw [inquire_bind_run, inquire_bind_run]
  cases (resolveMount p o c.second).run with
  | none => rfl
  | some target =>
    dsimp only
    split
    · rfl
    · rw [h, List.foldl_map]
      simp only [Site.record_behind]

/-- A node records its sites. -/
theorem visitCallSite_run {crawl : Nat → String → List Nat → Crawling Id Unit}
    {within : Nat → List Nat → List Site}
    (h : ∀ unit base stack s, ((crawl unit base stack).run s).2 =
      (within unit stack).foldl (Site.record p o markers base) s)
    (base : String) (stack : List Nat) (node : NodeId) (position : Nat) (s : CrawlState) :
    ((visitCallSite p o markers crawl base stack node).run s).2 =
      (sitesAt p o within stack node position).foldl (Site.record p o markers base) s := by
  unfold visitCallSite sitesAt
  split
  · cases memberCall? p node with
    | none => rfl
    | some c =>
      dsimp only
      split
      · exact mountUnit_run h base stack position c s
      · cases Method.ofVerb? c.verb with
        | none => rfl
        | some method => exact registerRoute_run base method node c position s
  · rfl

/-- A walk records the sites of its nodes in order. -/
theorem forM_run {visit : NodeId → Crawling Id Unit} {sites : NodeId → Nat → List Site}
    {base : String}
    (h : ∀ node position s, ((visit node).run s).2 =
      (sites node position).foldl (Site.record p o markers base) s)
    (nodes : List NodeId) (first : Nat) (s : CrawlState) :
    ((nodes.forM visit).run s).2 =
      ((nodes.zipIdx first).flatMap fun (node, position) => sites node position).foldl
        (Site.record p o markers base) s := by
  induction nodes generalizing first s with
  | nil => rfl
  | cons node nodes ih =>
    rw [List.zipIdx_cons, List.flatMap_cons, List.foldl_append, ← h node first s,
      ← ih (first + 1)]
    rfl

/-- **The crawl of a unit records its sites one after the other.** -/
theorem crawlUnit_run (left unit : Nat) (base : String) (stack : List Nat) (s : CrawlState) :
    ((crawlUnit p o markers left unit base stack).run s).2 =
      (sitesWithin p o left unit stack).foldl (Site.record p o markers base) s := by
  induction left generalizing unit base stack s with
  | zero =>
    rw [crawlUnit, Program.walkM_singleton]
    exact forM_run (visitCallSite_run (fun _ _ _ _ => rfl) base stack) _ 0 s
  | succ left ih =>
    rw [crawlUnit, Program.walkM_singleton]
    exact forM_run (visitCallSite_run ih base stack) _ 0 s

/-! ### Which sites are listed -/

/-- A name of a method is not that of a mount. -/
theorem not_use_of_ofVerb? {verb : String} {method : Method}
    (h : Method.ofVerb? verb = some method) : ¬ Text.sameAscii verb "use" = true := by
  intro huse
  have hlower : Text.lowerAscii verb = Text.lowerAscii "use" := by simpa [Text.sameAscii] using huse
  have hnone : Method.ofKey? (Text.lowerAscii "use") = none := by decide +kernel
  rw [Method.ofVerb?, hlower, hnone] at h
  cases h

theorem mem_routeSites {method : Method} {call : NodeId} {position : Nat} {c : MemberCall}
    {site : Site} : site ∈ routeSites p o method call position c ↔
      (site.mounts = [] ∧ site.position = position ∧ site.call = call ∧ site.method = method) ∧
      (resolvePath p o c.first).run = some site.path ∧ handlersOf p o c = site.handlers ∧
      site.handlers ≠ [] := by
  obtain ⟨mounts, position', call', method', path, handlers⟩ := site
  unfold routeSites
  cases (resolvePath p o c.first).run with
  | none => simp
  | some routePath =>
    dsimp only
    split
    · next h =>
      rw [List.isEmpty_iff] at h
      rw [h]
      simp only [List.not_mem_nil, false_iff]
      rintro ⟨-, -, rfl, hne⟩
      exact hne rfl
    · next h =>
      rw [List.isEmpty_iff] at h
      simp only [List.mem_singleton, Site.mk.injEq, Option.some.injEq]
      constructor
      · rintro ⟨rfl, rfl, rfl, rfl, rfl, rfl⟩
        exact ⟨⟨rfl, rfl, rfl, rfl⟩, rfl, rfl, h⟩
      · rintro ⟨⟨rfl, rfl, rfl, rfl⟩, rfl, rfl, -⟩
        exact ⟨rfl, rfl, rfl, rfl, rfl, rfl⟩

theorem mem_mountedSites {within : Nat → List Nat → List Site} {stack : List Nat}
    {position : Nat} {c : MemberCall} {site : Site} :
    site ∈ mountedSites p o within stack position c ↔
      ∃ mount inner, (mount.position = position ∧
        (resolvePath p o c.first).run.getD "/" = mount.path ∧
        (resolveMount p o c.second).run = some mount.target) ∧ mount.target ∉ stack ∧
        inner ∈ within mount.target (stack ++ [mount.target]) ∧ inner.behind mount = site := by
  unfold mountedSites
  cases (resolveMount p o c.second).run with
  | none => simp
  | some target =>
    dsimp only
    split
    · next h =>
      simp only [List.not_mem_nil, false_iff]
      rintro ⟨mount, inner, ⟨-, -, ht⟩, hn, -⟩
      cases ht
      exact hn (by simpa using h)
    · next h =>
      rw [List.mem_map]
      constructor
      · rintro ⟨inner, hi, rfl⟩
        exact ⟨_, inner, ⟨rfl, rfl, rfl⟩, by simpa using h, hi, rfl⟩
      · rintro ⟨⟨_, _, _⟩, inner, ⟨rfl, rfl, ht⟩, -, hi, rfl⟩
        cases ht
        exact ⟨inner, hi, rfl⟩

/-- A site of a unit is registered there, or lies behind a unit that is mounted there. -/
theorem mem_sitesIn {within : Nat → List Nat → List Site} {unit : Nat} {stack : List Nat}
    {site : Site} : site ∈ sitesIn p o within unit stack ↔
      (site.mounts = [] ∧ site.OccursIn p o unit) ∨
      ∃ mount inner, mount.OccursIn p o unit ∧ mount.target ∉ stack ∧
        inner ∈ within mount.target (stack ++ [mount.target]) ∧ inner.behind mount = site := by
  simp only [sitesIn, List.mem_flatMap, Prod.exists, List.mk_mem_zipIdx_iff_getElem?]
  constructor
  · rintro ⟨node, position, hnode, hs⟩
    unfold sitesAt at hs
    split at hs
    · next hkind =>
      split at hs
      · simp at hs
      · next c hc =>
        split at hs
        · next huse =>
          obtain ⟨mount, inner, ⟨rfl, hpath, htarget⟩, hi⟩ := mem_mountedSites.1 hs
          exact Or.inr ⟨mount, inner, ⟨node, c, ⟨hnode, hkind, hc⟩, huse, hpath, htarget⟩, hi⟩
        · split at hs
          · next method hmethod =>
            obtain ⟨⟨hm, rfl, rfl, rfl⟩, hsite⟩ := mem_routeSites.1 hs
            exact Or.inl ⟨hm, c, ⟨hnode, hkind, hc⟩, hmethod, hsite⟩
          · simp at hs
    · simp at hs
  · rintro (⟨hm, c, ⟨hnode, hkind, hc⟩, hmethod, hsite⟩ |
      ⟨mount, inner, ⟨node, c, ⟨hnode, hkind, hc⟩, huse, hpath, htarget⟩, hi⟩)
    · refine ⟨site.call, site.position, hnode, ?_⟩
      rw [sitesAt, if_pos hkind, hc]
      dsimp only
      rw [if_neg (not_use_of_ofVerb? hmethod), hmethod]
      exact mem_routeSites.2 ⟨⟨hm, rfl, rfl, rfl⟩, hsite⟩
    · refine ⟨node, mount.position, hnode, ?_⟩
      rw [sitesAt, if_pos hkind, hc]
      dsimp only
      rw [if_pos huse]
      exact mem_mountedSites.2 ⟨mount, inner, ⟨rfl, hpath, htarget⟩, hi⟩

/-- The list has the sites behind so many mounts. -/
theorem mem_sitesWithin {left unit : Nat} {stack : List Nat} (hs : stack.Nodup) {site : Site} :
    site ∈ sitesWithin p o left unit stack ↔ site.mounts.length ≤ left ∧
      (stack ++ site.mounts.map Mount.target).Nodup ∧
      ∃ last, Leads p o unit site.mounts last ∧ site.OccursIn p o last := by
  -- each mount moves its target from the chain to the stack, so their append stays the same
  induction left generalizing unit stack site with
  | zero =>
    rw [sitesWithin, mem_sitesIn]
    constructor
    · rintro (⟨hm, ho⟩ | ⟨_, _, _, _, hi, _⟩)
      · rw [hm]
        exact ⟨le_refl 0, by simpa using hs, unit, rfl, ho⟩
      · simp at hi
    · rintro ⟨hl, -, last, hlast, ho⟩
      have hm : site.mounts = [] := List.length_eq_zero_iff.1 (Nat.le_zero.1 hl)
      rw [hm] at hlast
      cases hlast
      exact Or.inl ⟨hm, ho⟩
  | succ left ih =>
    rw [sitesWithin, mem_sitesIn]
    constructor
    · rintro (⟨hm, ho⟩ | ⟨mount, inner, hmount, hn, hi, rfl⟩)
      · rw [hm]
        exact ⟨Nat.zero_le _, by simpa using hs, unit, rfl, ho⟩
      · have hstack : (stack ++ [mount.target]).Nodup := by simpa using hs.concat hn
        obtain ⟨hl, hd, last, hlast, ho⟩ := (ih hstack).1 hi
        refine ⟨Nat.succ_le_succ hl, ?_, last, ⟨hmount, hlast⟩, ho⟩
        rwa [List.append_assoc] at hd
    · rintro ⟨hl, hd, last, hlast, ho⟩
      obtain ⟨mounts, position, call, method, path, handlers⟩ := site
      cases mounts with
      | nil =>
        cases hlast
        exact Or.inl ⟨rfl, ho⟩
      | cons mount mounts =>
        have hd' : ((stack ++ [mount.target]) ++ mounts.map Mount.target).Nodup := by
          rwa [List.append_assoc]
        have hstack := (List.nodup_append.1 hd').1
        have hn : mount.target ∉ stack := fun h =>
          (List.nodup_append.1 hstack).2.2 _ h _ (by simp) rfl
        refine Or.inr ⟨mount, ⟨mounts, position, call, method, path, handlers⟩, hlast.1, hn,
          (ih hstack).2 ⟨Nat.le_of_succ_le_succ hl, hd', last, hlast.2, ho⟩, rfl⟩

/-! ### The list has every site -/

/-- Only a unit of the program holds calls. -/
theorem CallAt.unit_lt {unit position : Nat} {call : NodeId} {c : MemberCall}
    (h : CallAt p unit position call c) : unit < p.units.size := by
  by_contra hu
  -- outside the program a unit is empty, and the walk sees its root only
  have hunit : p.unit unit = {} := by
    rw [Program.unit, Array.getD_eq_getD_getElem?, Array.getElem?_eq_none (not_lt.1 hu)]
    rfl
  have hroot : p.node (.root unit) = {} := by
    rw [Program.node, NodeId.root, hunit]
    rfl
  have hwalk : p.preorder (.root unit) = [.root unit] := by
    rw [Program.preorder_eq, Program.namedChildren, Program.children, hroot]
    rfl
  obtain ⟨hcall, hkind, -⟩ := h
  rw [hwalk] at hcall
  have hc : call = .root unit := List.mem_singleton.1 (List.mem_of_getElem? hcall)
  rw [hc, Program.kind, hroot] at hkind
  exact absurd hkind (by decide)

/-- Every unit on the way to a call is a unit of the program. -/
theorem Leads.units_lt {unit last : Nat} {mounts : List Mount} (h : Leads p o unit mounts last)
    (hlast : last < p.units.size) :
    ∀ u ∈ unit :: mounts.map Mount.target, u < p.units.size := by
  induction mounts generalizing unit with
  | nil =>
    cases h
    simpa using hlast
  | cons mount mounts ih =>
    obtain ⟨⟨call, c, hcall, -⟩, hrest⟩ := h
    intro u hu
    rcases List.mem_cons.1 hu with rfl | hu
    · exact hcall.unit_lt
    · exact ih hrest u hu

/-- The units on the way to a site are distinct, so that there are fewer mounts than units. -/
theorem IsSite.length_mounts_lt {entry : Nat} {site : Site} (h : IsSite p o entry site) :
    site.mounts.length < p.units.size := by
  obtain ⟨hd, last, hlast, c, hcall, -⟩ := h
  have hsub : (entry :: site.mounts.map Mount.target) ⊆ List.range p.units.size := fun u hu =>
    List.mem_range.2 (hlast.units_lt hcall.unit_lt u hu)
  have hlength := (hd.subperm hsub).length_le
  rw [List.length_cons, List.length_map, List.length_range] at hlength
  exact hlength

/-- The sites of an entry unit in the order of the crawl. -/
def sites (p : Program) (o : Oracle Id) (entry : Nat) : List Site :=
  sitesWithin p o p.units.size entry [entry]

theorem mem_sites {entry : Nat} {site : Site} :
    site ∈ sites p o entry ↔ IsSite p o entry site := by
  rw [sites, mem_sitesWithin (List.nodup_singleton entry)]
  constructor
  · exact And.right
  · intro h
    exact ⟨h.length_mounts_lt.le, h⟩

/-! ### The list is in depth-first order -/

theorem trail_of_mem_sitesAt {within : Nat → List Nat → List Site} {stack : List Nat}
    {node : NodeId} {position : Nat} {site : Site}
    (h : site ∈ sitesAt p o within stack node position) :
    ∃ rest, site.trail = position :: rest := by
  unfold sitesAt at h
  split at h
  · split at h
    · simp at h
    · split at h
      · obtain ⟨mount, inner, ⟨rfl, -⟩, -, -, rfl⟩ := mem_mountedSites.1 h
        exact ⟨inner.trail, rfl⟩
      · split at h
        · obtain ⟨⟨hm, rfl, -⟩, -⟩ := mem_routeSites.1 h
          exact ⟨[], by rw [Site.trail, hm]; rfl⟩
        · simp at h
  · simp at h

theorem sorted_sitesAt {within : Nat → List Nat → List Site}
    (hw : ∀ unit stack, (within unit stack).Pairwise fun a b => a.trail < b.trail)
    (stack : List Nat) (node : NodeId) (position : Nat) :
    (sitesAt p o within stack node position).Pairwise fun a b => a.trail < b.trail := by
  unfold sitesAt mountedSites routeSites
  split
  · split
    · exact List.Pairwise.nil
    · split
      · split
        · exact List.Pairwise.nil
        · split
          · exact List.Pairwise.nil
          · rw [List.pairwise_map]
            exact (hw _ _).imp fun hab => by
              rw [Site.trail_behind, Site.trail_behind]
              exact List.cons_lt_cons_self.2 hab
      · split
        · split
          · exact List.Pairwise.nil
          · split
            · exact List.Pairwise.nil
            · exact List.pairwise_singleton _ _
        · exact List.Pairwise.nil
  · exact List.Pairwise.nil

theorem pairwise_zipIdx {α : Type} (l : List α) (first : Nat) :
    (l.zipIdx first).Pairwise fun a b => a.2 < b.2 := by
  rw [← List.pairwise_map (f := Prod.snd) (R := (· < ·)), List.zipIdx_map_snd]
  exact List.pairwise_lt_range'

theorem sorted_sitesIn {within : Nat → List Nat → List Site}
    (hw : ∀ unit stack, (within unit stack).Pairwise fun a b => a.trail < b.trail)
    (unit : Nat) (stack : List Nat) :
    (sitesIn p o within unit stack).Pairwise fun a b => a.trail < b.trail := by
  refine List.pairwise_flatMap.2 ⟨fun a _ => sorted_sitesAt hw stack a.1 a.2, ?_⟩
  refine (pairwise_zipIdx _ 0).imp fun {a b} hab x hx y hy => ?_
  obtain ⟨restx, hx⟩ := trail_of_mem_sitesAt hx
  obtain ⟨resty, hy⟩ := trail_of_mem_sitesAt hy
  rw [hx, hy]
  exact List.cons_lt_cons_iff.2 (Or.inl hab)

/-- The sites are listed in depth-first order. -/
theorem sorted_sitesWithin (left unit : Nat) (stack : List Nat) :
    (sitesWithin p o left unit stack).Pairwise fun a b => a.trail < b.trail := by
  induction left generalizing unit stack with
  | zero => exact sorted_sitesIn (fun _ _ => List.Pairwise.nil) unit stack
  | succ left ih => exact sorted_sitesIn ih unit stack

/-- The whole crawl records the sites of its entry unit. -/
theorem crawl_run (entry : Nat) :
    (crawl p o markers entry).run =
      let s := (sites p o entry).foldl (Site.record p o markers "/") {}
      (⟨s.routes, s.table⟩, s.warnings) := by
  rw [sites, ← crawlUnit_run]
  rfl

end RouteContract.Crawl
