import Mathlib
import RouteContract.Proofs.Crawl.Independence
import RouteContract.Proofs.Crawl.Sites
import RouteContract.Proofs.Json.Entries

/-!
# What the crawl registers

The crawl records the sites of its entry unit in depth-first order, and recording replaces an
earlier operation of the same path and method in its place. So the last site of a path and a method
is the one whose operation is left, and the paths stand in the order of their first sites.
-/

namespace RouteContract

theorem PathItem.get?_put (item : PathItem) (method other : Method) (op : Operation) :
    PathItem.get? other (PathItem.put method op item) =
      if method = other then some op else PathItem.get? other item := by
  induction item with
  | nil => rfl
  | cons entry rest ih =>
    obtain ⟨m, old⟩ := entry
    by_cases hm : m = method
    · subst hm
      rw [PathItem.put, if_pos rfl, PathItem.get?, PathItem.get?]
      split <;> rfl
    · rw [PathItem.put, if_neg hm, PathItem.get?, PathItem.get?, ih]
      by_cases ho : m = other
      · rw [if_pos ho, if_pos ho, if_neg fun h => hm (ho.trans h.symm)]
      · rw [if_neg ho, if_neg ho]

namespace Routes

/-- The operation under a path and a method. -/
def operation? (routes : Routes) (path : String) (method : Method) : Option Operation :=
  (Entries.get? path routes).bind (PathItem.get? method)

theorem operation?_register (routes : Routes) (path : String) (method : Method) (op : Operation)
    (path' : String) (method' : Method) :
    (routes.register path method op).operation? path' method' =
      if path = path' ∧ method = method' then some op else routes.operation? path' method' := by
  rw [register, operation?, Entries.get?_put]
  by_cases hp : path = path'
  · subst hp
    rw [if_pos rfl, Option.bind_some, PathItem.get?_put, operation?]
    cases Entries.get? path routes with
    | none => simp [PathItem.get?]
    | some item => simp
  · rw [if_neg hp, if_neg fun h => hp h.1, operation?]

theorem names_register (routes : Routes) (path : String) (method : Method) (op : Operation) :
    (routes.register path method op).names =
      if path ∈ routes.names then routes.names else routes.names ++ [path] :=
  Entries.names_put _ _ _

end Routes

namespace Crawl

variable (p : Program) (o : Oracle Id) (markers : List String)

/-- The operation that is built for a site, from a table of named schemas. -/
def Site.operation (table : Entries Schema) (site : Site) : Operation :=
  (site.build p o markers "/" table).1

/-- A site is the last one of a path and a method in depth-first order. -/
def IsLastSite (entry : Nat) (path : String) (method : Method) (site : Site) : Prop :=
  (IsSite p o entry site ∧ site.key = path ∧ site.method = method) ∧
    ∀ other, IsSite p o entry other → other.key = path → other.method = method →
      other.trail ≤ site.trail

variable {p o markers}

/-- The operation of a site is the same from every table. -/
theorem Site.operation_eq (site : Site) (table table' : Entries Schema) :
    site.operation p o markers table = site.operation p o markers table' :=
  analyseHandlers_tableFree p o _ _ _ _

theorem Site.routes_record (site : Site) (s : CrawlState) :
    (site.record p o markers "/" s).routes =
      s.routes.register site.key site.method (site.operation p o markers s.table) := rfl

/-- Whether a site is one of a path and a method. -/
def Site.isAt (path : String) (method : Method) (site : Site) : Bool :=
  decide (site.key = path) && decide (site.method = method)

/-- The last recorded site of a path and a method gives its operation. -/
theorem operation?_record (sites : List Site) (path : String) (method : Method) :
    (sites.foldl (Site.record p o markers "/") {}).routes.operation? path method =
      (sites.filter (Site.isAt path method)).getLast?.map (Site.operation p o markers []) := by
  induction sites using List.reverseRecOn with
  | nil => rfl
  | append_singleton sites site ih =>
    rw [List.foldl_append, List.foldl_cons, List.foldl_nil, Site.routes_record,
      Routes.operation?_register, List.filter_append, ih]
    -- the new site hides the ones before it, or stands under another path or method
    by_cases h : site.key = path ∧ site.method = method
    · have hat : site.isAt path method = true := by simp [Site.isAt, h]
      rw [if_pos h, List.filter_singleton, hat]
      simp only [cond_true, List.getLast?_append, List.getLast?_singleton, Option.some_or,
        Option.map_some]
      exact congrArg some (site.operation_eq _ _)
    · have hat : site.isAt path method = false := by simpa [Site.isAt] using h
      rw [if_neg h, List.filter_singleton, hat]
      simp

/-- The last element of a list in strict order is the one that none exceeds. -/
theorem getLast?_eq_some_iff {sites : List Site}
    (h : sites.Pairwise fun a b => a.trail < b.trail) {site : Site} :
    sites.getLast? = some site ↔ site ∈ sites ∧ ∀ other ∈ sites, other.trail ≤ site.trail := by
  induction sites using List.reverseRecOn with
  | nil => simp
  | append_singleton sites last _ =>
    have hlast : ∀ other ∈ sites, other.trail < last.trail := fun other ho =>
      (List.pairwise_append.1 h).2.2 other ho last (by simp)
    rw [List.getLast?_concat, Option.some.injEq]
    constructor
    · rintro rfl
      refine ⟨by simp, fun other ho => ?_⟩
      rcases List.mem_append.1 ho with ho | ho
      · exact (hlast other ho).le
      · rw [List.mem_singleton.1 ho]
    · rintro ⟨hs, hmax⟩
      rcases List.mem_append.1 hs with hs | hs
      · exact absurd (hlast site hs) (not_lt.2 (hmax last (by simp)))
      · exact (List.mem_singleton.1 hs).symm

/-- The paths after recording are those of the sites. -/
theorem mem_names_record (sites : List Site) (path : String) :
    path ∈ (sites.foldl (Site.record p o markers "/") {}).routes.names ↔
      ∃ site ∈ sites, site.key = path := by
  induction sites using List.reverseRecOn with
  | nil => simp
  | append_singleton sites site ih =>
    rw [List.foldl_append, List.foldl_cons, List.foldl_nil, Site.routes_record, Routes.register,
      Entries.mem_names_put, ih]
    simp only [List.mem_append, List.mem_singleton, or_and_right, exists_or, exists_eq_left]
    rw [or_comm, eq_comm]

/-- The paths after recording stand in the order of their first sites. -/
theorem pairwise_names_record {sites : List Site}
    (h : sites.Pairwise fun a b => a.trail < b.trail) :
    (sites.foldl (Site.record p o markers "/") {}).routes.names.Pairwise fun path path' =>
      ∃ site ∈ sites, site.key = path ∧
        ∀ other ∈ sites, other.key = path' → site.trail < other.trail := by
  induction sites using List.reverseRecOn with
  | nil => exact List.Pairwise.nil
  | append_singleton sites last ih =>
    have hlast : ∀ other ∈ sites, other.trail < last.trail := fun other ho =>
      (List.pairwise_append.1 h).2.2 other ho last (by simp)
    -- the site that came first stays first: the new one is behind all others
    have hold := (ih (List.pairwise_append.1 h).1).imp (S := fun path path' =>
        ∃ site ∈ sites ++ [last], site.key = path ∧
          ∀ other ∈ sites ++ [last], other.key = path' → site.trail < other.trail) (by
      rintro path path' ⟨site, hs, hk, hbefore⟩
      refine ⟨site, List.mem_append_left _ hs, hk, fun other ho hk' => ?_⟩
      rcases List.mem_append.1 ho with ho | ho
      · exact hbefore other ho hk'
      · rw [List.mem_singleton.1 ho]
        exact hlast site hs)
    rw [List.foldl_append, List.foldl_cons, List.foldl_nil, Site.routes_record,
      Routes.names_register]
    split
    · exact hold
    · next hnew =>
      refine List.pairwise_append.2 ⟨hold, List.pairwise_singleton _ _, fun path hp path' hp' => ?_⟩
      obtain ⟨site, hs, hk⟩ := (mem_names_record sites path).1 hp
      refine ⟨site, List.mem_append_left _ hs, hk, fun other ho hk' => ?_⟩
      rcases List.mem_append.1 ho with ho | ho
      · refine absurd ((mem_names_record sites _).2 ⟨other, ho, ?_⟩) hnew
        rw [hk', List.mem_singleton.1 hp']
      · rw [List.mem_singleton.1 ho]
        exact hlast site hs

/-- **What the crawl registers.** An operation stands under a path and a method exactly when a chain
of mounts through distinct units leads to a registration there; it is the one that is built for the
last such registration in depth-first order, and the paths stand in the order of their first. -/
theorem crawl_registers (p : Program) (o : Oracle Id) (markers : List String) (entry : Nat) :
    let routes := (crawl p o markers entry).run.1.routes
    (∀ path method, (routes.operation? path method).isSome ↔
      ∃ site, IsSite p o entry site ∧ site.key = path ∧ site.method = method) ∧
    (∀ path method op, routes.operation? path method = some op ↔
      ∃ site, IsLastSite p o entry path method site ∧
        ∀ table, site.operation p o markers table = op) ∧
    (∀ path, path ∈ routes.names ↔ ∃ site, IsSite p o entry site ∧ site.key = path) ∧
    routes.names.Pairwise fun path path' =>
      ∃ site, IsSite p o entry site ∧ site.key = path ∧
        ∀ other, IsSite p o entry other → other.key = path' → site.trail < other.trail := by
  intro routes
  have hroutes : routes = ((sites p o entry).foldl (Site.record p o markers "/") {}).routes := by
    show (crawl p o markers entry).run.1.routes = _
    rw [crawl_run]
  have hsorted : (sites p o entry).Pairwise fun a b => a.trail < b.trail :=
    sorted_sitesWithin _ _ _
  have hmem : ∀ path method site, site ∈ (sites p o entry).filter (Site.isAt path method) ↔
      IsSite p o entry site ∧ site.key = path ∧ site.method = method := by
    intro path method site
    rw [List.mem_filter, mem_sites, Site.isAt, Bool.and_eq_true, decide_eq_true_eq,
      decide_eq_true_eq]
  rw [hroutes]
  refine ⟨fun path method => ?_, fun path method op => ?_, fun path => ?_, ?_⟩
  · rw [operation?_record, Option.isSome_map, List.getLast?_isSome, ne_eq,
      ← List.isEmpty_iff, Bool.not_eq_true, List.isEmpty_eq_false_iff_exists_mem]
    exact exists_congr fun site => hmem path method site
  · rw [operation?_record, Option.map_eq_some_iff]
    refine exists_congr fun site => and_congr ?_ ?_
    · rw [getLast?_eq_some_iff (hsorted.filter _), hmem]
      refine and_congr_right fun _ => ?_
      simp only [hmem, and_imp]
    · exact ⟨fun h table => (site.operation_eq table []).trans h, fun h => h []⟩
  · rw [mem_names_record]
    simp only [mem_sites]
  · refine (pairwise_names_record hsorted).imp fun {path path'} => ?_
    simp only [mem_sites]
    exact id

end Crawl

end RouteContract
