import Mathlib
import RouteContract.Load.Reachable
import RouteContract.Proofs.Load.Specifier

/-!
# Breadth-first search through imports

The files that an entry reaches through imports are told by the trails to them: the positions of the
imports on the way. Shorter trails come before longer ones, and trails of one length in the order of
their positions; this is the order in which a breadth-first search meets them.

`Search` is the invariant of the search, with the trail by which each path was met. One step meets
the targets of one file that are not met yet (`exists_fresh`), at the end of the trails so far
(`Search.step`); when the queue is empty every path that is reached was met, by its least trail
(`Search.least`).
-/

namespace RouteContract.Load

/-- The order of trails: by length, then by positions. -/
def rank (trail : List ℕ) : ℕ ×ₗ List ℕ := toLex (trail.length, trail)

section Rank

theorem append_lt_append {trail other : List ℕ} (hl : trail.length = other.length)
    (h : trail < other) (rest rest' : List ℕ) : trail ++ rest < other ++ rest' := by
  induction trail generalizing other with
  | nil =>
    rw [List.length_nil, eq_comm, List.length_eq_zero_iff] at hl
    rw [hl] at h
    exact absurd h (lt_irrefl _)
  | cons i trail ih =>
    cases other with
    | nil => cases hl
    | cons j other =>
      rw [List.cons_append, List.cons_append, List.cons_lt_cons_iff]
      rcases List.cons_lt_cons_iff.1 h with hij | ⟨hij, hlt⟩
      · exact Or.inl hij
      · exact Or.inr ⟨hij, ih (Nat.succ.inj hl) hlt⟩

/-- Whatever goes on from an earlier trail comes before what goes on from a later one. -/
theorem rank_append_lt {trail other : List ℕ} (h : rank trail < rank other) (i j : ℕ) :
    rank (trail ++ [i]) < rank (other ++ [j]) := by
  rw [rank, rank, Prod.Lex.toLex_lt_toLex] at h ⊢
  simp only [List.length_append, List.length_singleton, add_lt_add_iff_right, add_left_inj]
  exact h.imp_right fun ⟨hl, hlt⟩ => ⟨hl, append_lt_append hl hlt _ _⟩

theorem rank_append_mono {trail other : List ℕ} (h : rank trail ≤ rank other) (i : ℕ) :
    rank (trail ++ [i]) ≤ rank (other ++ [i]) := by
  rcases h.eq_or_lt with h | h
  · have heq : trail = other := congrArg (fun r => (ofLex r).2) h
    rw [heq]
  · exact (rank_append_lt h i i).le

theorem rank_append_lt_append (trail : List ℕ) {i j : ℕ} (h : i < j) :
    rank (trail ++ [i]) < rank (trail ++ [j]) := by
  rw [rank, rank, Prod.Lex.toLex_lt_toLex]
  refine Or.inr ⟨by simp, ?_⟩
  exact List.append_left_lt (List.cons_lt_cons_iff.2 (Or.inl h))

theorem rank_lt_append (trail : List ℕ) (i : ℕ) : rank trail < rank (trail ++ [i]) := by
  rw [rank, rank, Prod.Lex.toLex_lt_toLex]
  exact Or.inl (by simp)

end Rank

section

variable (fs : FileSystem) (parser : SourceParser) (project : Option ProjectConfig)

/-- The file of a path is read and parsed to a unit. -/
def ParsesTo (path : String) (unit : SourceUnit) : Prop :=
  ∃ source language parsed, fs.readText path = .ok source ∧
    Language.ofPath? path = some language ∧ parser language source = some parsed ∧
    unit = SourceUnit.ofRows path (originOf path) source parsed.rows []

/-- The import at a position of the file of a path leads to a target. -/
def ImportsAt (path : String) (position : ℕ) (target : String) : Prop :=
  ∃ unit specifier, ParsesTo fs parser path unit ∧ unit.Mentions position specifier ∧
    resolve? fs project path specifier = some target

/-- Imports at the positions of a trail lead from an entry to a path. -/
inductive Reaches (entry : String) : List ℕ → String → Prop
  | entry : Reaches entry [] entry
  | step {trail : List ℕ} {path : String} {position : ℕ} {target : String}
      (h : Reaches entry trail path) (himport : ImportsAt fs parser project path position target) :
      Reaches entry (trail ++ [position]) target

end

variable {fs : FileSystem} {parser : SourceParser} {project : Option ProjectConfig}

/-! ### Reading a file -/

theorem readSource_eq_ok {path : String} {file : SourceFile} :
    readSource fs parser project path = .ok file → file.path = path ∧
      ParsesTo fs parser path file.unit ∧
      file.targets = file.unit.specifiers.filterMap fun specifier =>
        (resolve? fs project path specifier).map fun target => (specifier, target) := by
  intro h
  unfold readSource at h
  split at h
  · cases h
  next source hsource =>
  split at h
  · cases h
  next language hlanguage =>
  split at h
  · cases h
  next parsed hparsed =>
  cases h
  exact ⟨rfl, ⟨source, language, parsed, hsource, hlanguage, hparsed, rfl⟩, rfl⟩

theorem exists_readSource_of_parsesTo {path : String} {unit : SourceUnit}
    (h : ParsesTo fs parser path unit) :
    ∃ file, readSource fs parser project path = .ok file ∧ file.unit = unit := by
  obtain ⟨source, language, parsed, hsource, hlanguage, hparsed, rfl⟩ := h
  unfold readSource
  rw [hsource]
  dsimp only
  rw [hlanguage]
  dsimp only
  rw [hparsed]
  exact ⟨_, rfl, rfl⟩

theorem ParsesTo.unique {path : String} {unit other : SourceUnit}
    (h : ParsesTo fs parser path unit) (h' : ParsesTo fs parser path other) : unit = other := by
  obtain ⟨source, language, parsed, hs, hl, hp, rfl⟩ := h
  obtain ⟨source', language', parsed', hs', hl', hp', rfl⟩ := h'
  rw [hs] at hs'
  cases hs'
  rw [hl] at hl'
  cases hl'
  rw [hp] at hp'
  cases hp'
  rfl

/-! ### Meeting the targets of a file -/

/-- The targets of the imports of a unit with their positions, in source order. -/
def importTargets (fs : FileSystem) (project : Option ProjectConfig) (path : String)
    (unit : SourceUnit) : List (ℕ × String) :=
  (List.range unit.nodes.size).filterMap fun position =>
    ((unit.specifierAt? position).bind (resolve? fs project path)).map fun target =>
      (position, target)

theorem mem_importTargets {path : String} {unit : SourceUnit} {position : ℕ} {target : String} :
    (position, target) ∈ importTargets fs project path unit ↔
      ∃ specifier, unit.Mentions position specifier ∧
        resolve? fs project path specifier = some target := by
  simp only [importTargets, List.mem_filterMap, List.mem_range, Option.map_eq_some_iff,
    Option.bind_eq_some_iff, SourceUnit.mentions_iff]
  constructor
  · rintro ⟨i, hi, t, ⟨specifier, hs, ht⟩, heq⟩
    cases heq
    exact ⟨specifier, ⟨hi, hs⟩, ht⟩
  · rintro ⟨specifier, ⟨hi, hs⟩, ht⟩
    exact ⟨position, hi, target, ⟨specifier, hs, ht⟩, rfl⟩

theorem pairwise_importTargets (path : String) (unit : SourceUnit) :
    (importTargets fs project path unit).Pairwise fun a b => a.1 < b.1 := by
  refine List.Pairwise.filterMap _ (R := (· < ·)) (fun i j hij a ha b hb => ?_)
    List.pairwise_lt_range
  obtain ⟨-, -, rfl⟩ := Option.map_eq_some_iff.1 ha
  obtain ⟨-, -, rfl⟩ := Option.map_eq_some_iff.1 hb
  exact hij

/-- The paths that are met, with the positions of their imports, on the way from a state of the
search to another. -/
structure Meets (imports fresh : List (ℕ × String)) (s s' : List String × List String) : Prop where
  sublist : fresh.Sublist imports
  queue : s'.2 = s.2 ++ fresh.map Prod.snd
  nodup : s'.1.Nodup
  unmet : ∀ path, path ∈ s'.1 ↔ path ∈ s.1 ∧ path ∉ fresh.map Prod.snd
  distinct : (fresh.map Prod.snd).Nodup
  wasUnmet : ∀ e ∈ fresh, e.2 ∈ s.1
  /-- A target that was not met is met at its first import. -/
  first : ∀ e ∈ imports, e.2 ∈ s.1 → ∃ e' ∈ fresh, e'.2 = e.2 ∧ e'.1 ≤ e.1

theorem exists_fresh {imports : List (ℕ × String)} (hsorted : imports.Pairwise fun a b => a.1 < b.1)
    {s : List String × List String} (hs : s.1.Nodup) :
    ∃ fresh, Meets imports fresh s ((imports.map Prod.snd).foldl meet s) := by
  induction imports generalizing s with
  | nil => exact ⟨[], .slnil, by simp, hs, by simp, by simp, by simp, by simp⟩
  | cons first rest ih =>
    obtain ⟨i, target⟩ := first
    obtain ⟨hlater, hsorted⟩ := List.pairwise_cons.1 hsorted
    rw [List.map_cons, List.foldl_cons]
    by_cases hmem : target ∈ s.1
    · have hmeet : meet s target = (s.1.erase target, s.2 ++ [target]) := if_pos hmem
      rw [hmeet]
      obtain ⟨fresh, h⟩ := ih hsorted (s := (s.1.erase target, s.2 ++ [target])) (hs.erase target)
      have hin : ∀ path, path ∈ s.1.erase target ↔ path ≠ target ∧ path ∈ s.1 := fun path =>
        hs.mem_erase_iff
      refine ⟨(i, target) :: fresh, h.sublist.cons_cons _, ?_, h.nodup, fun path => ?_, ?_, ?_, ?_⟩
      · rw [h.queue, List.append_assoc, List.map_cons, List.singleton_append]
      · rw [h.unmet, hin, List.map_cons, List.mem_cons, not_or]
        tauto
      · refine List.nodup_cons.2 ⟨fun ht => ?_, h.distinct⟩
        obtain ⟨e, he, heq⟩ := List.mem_map.1 ht
        exact ((hin _).1 (h.wasUnmet e he)).1 heq
      · intro e he
        rcases List.mem_cons.1 he with rfl | he
        · exact hmem
        · exact ((hin _).1 (h.wasUnmet e he)).2
      · intro e he hunmet
        by_cases heq : e.2 = target
        · refine ⟨(i, target), by simp, heq.symm, ?_⟩
          rcases List.mem_cons.1 he with rfl | he
          · exact le_refl _
          · exact (hlater e he).le
        · have he : e ∈ rest := (List.mem_cons.1 he).resolve_left fun hf => heq (by rw [hf])
          obtain ⟨e', he', h'⟩ := h.first e he ((hin _).2 ⟨heq, hunmet⟩)
          exact ⟨e', by simp [he'], h'⟩
    · have hmeet : meet s target = s := if_neg hmem
      rw [hmeet]
      obtain ⟨fresh, h⟩ := ih hsorted hs
      refine ⟨fresh, h.sublist.cons _, h.queue, h.nodup, h.unmet, h.distinct, h.wasUnmet, ?_⟩
      intro e he hunmet
      rcases List.mem_cons.1 he with rfl | he
      · exact absurd hunmet hmem
      · exact h.first e he hunmet

/-- The targets of the specifiers of a unit are met as those of all its imports. -/
theorem foldl_meet_specifiers (path : String) (unit : SourceUnit) {s : List String × List String}
    (hs : s.1.Nodup) :
    (unit.specifiers.filterMap (resolve? fs project path)).foldl meet s =
      ((importTargets fs project path unit).map Prod.snd).foldl meet s := by
  have hall : (importTargets fs project path unit).map Prod.snd =
      ((List.range unit.nodes.size).filterMap unit.specifierAt?).filterMap
        (resolve? fs project path) := by
    rw [importTargets, List.map_filterMap, List.filterMap_filterMap]
    refine List.filterMap_congr fun position _ => ?_
    cases (unit.specifierAt? position).bind (resolve? fs project path) <;> rfl
  have hmeet : ∀ (s : List String × List String) (target : String),
      (meet s target).1 = s.1.erase target := by
    intro s target
    unfold meet
    split
    · rfl
    · next hmem => exact (List.erase_of_not_mem hmem).symm
  rw [hall, List.foldl_filterMap, List.foldl_filterMap, SourceUnit.specifiers_eq]
  refine foldl_eraseDups (I := fun s => s.1.Nodup)
    (D := fun specifier s => ∀ target, resolve? fs project path specifier = some target →
      target ∉ s.1) ?_ ?_ ?_ ?_ _ hs
  · intro s specifier hs
    cases resolve? fs project path specifier with
    | none => exact hs
    | some target =>
      dsimp only
      rw [hmeet]
      exact hs.erase target
  · intro s specifier hs target htarget
    rw [htarget]
    dsimp only
    rw [hmeet]
    exact hs.not_mem_erase
  · intro s specifier other hdone target htarget
    cases resolve? fs project path other with
    | none => exact hdone target htarget
    | some target' =>
      dsimp only
      rw [hmeet]
      exact fun hmem => hdone target htarget (List.mem_of_mem_erase hmem)
  · intro s specifier hdone
    cases htarget : resolve? fs project path specifier with
    | none => rfl
    | some target => exact if_neg (hdone target htarget)

/-! ### The invariant of the search -/

/-- A search through the imports of an entry: the paths that were looked at and those in the queue,
each with the trail by which it was met, and the paths that are not met yet. -/
structure Search (fs : FileSystem) (parser : SourceParser) (project : Option ProjectConfig)
    (entry : String) (done queue : List (List ℕ × String)) (unmet : List String) : Prop where
  sorted : (done ++ queue).Pairwise fun a b => rank a.1 < rank b.1
  reaches : ∀ e ∈ done ++ queue, Reaches fs parser project entry e.1 e.2
  distinct : ((done ++ queue).map Prod.snd).Nodup
  entered : ([], entry) ∈ done ++ queue
  /-- What a path that was looked at imports was met, by no later trail. -/
  closed : ∀ e ∈ done, ∀ i target, ImportsAt fs parser project e.2 i target →
    ∃ e' ∈ done ++ queue, e'.2 = target ∧ rank e'.1 ≤ rank (e.1 ++ [i])
  /-- Nothing in the queue comes behind what its first path leads to. -/
  near : ∀ e ∈ queue, ∀ first ∈ queue.head?, ∀ i, rank e.1 < rank (first.1 ++ [i])
  unmetNodup : unmet.Nodup
  mem_unmet : ∀ path, path ∈ unmet ↔
    path ∈ fs.fileNames ∧ path ∉ (done ++ queue).map Prod.snd

namespace Search

variable {entry : String} {done queue : List (List ℕ × String)} {unmet : List String}

theorem start (fs : FileSystem) (parser : SourceParser) (project : Option ProjectConfig)
    (entry : String) :
    Search fs parser project entry [] [([], entry)] (fs.fileNames.erase entry) where
  sorted := List.pairwise_singleton _ _
  reaches e he := by
    rw [List.mem_singleton.1 he]
    exact .entry
  distinct := List.nodup_singleton _
  entered := List.mem_singleton.2 rfl
  closed _ he := by cases he
  near e he first hfirst i := by
    cases hfirst
    rw [List.mem_singleton.1 he]
    exact rank_lt_append [] i
  unmetNodup := fs.nodup_fileNames.erase entry
  mem_unmet path := by
    rw [fs.nodup_fileNames.mem_erase_iff, and_comm]
    simp

/-- Everything that was met comes before what the first path of the queue leads to. -/
theorem rank_lt {first : List ℕ × String}
    (h : Search fs parser project entry done (first :: queue) unmet) (i : ℕ) :
    ∀ e ∈ done ++ first :: queue, rank e.1 < rank (first.1 ++ [i]) := by
  intro e he
  rcases List.mem_append.1 he with he | he
  · exact ((List.pairwise_append.1 h.sorted).2.2 e he first (by simp)).trans (rank_lt_append _ _)
  · exact h.near e he first rfl i

/-- A path that is no source file leads nowhere. -/
theorem skip {first : List ℕ × String}
    (h : Search fs parser project entry done (first :: queue) unmet)
    (hnone : ∀ unit, ¬ ParsesTo fs parser first.2 unit) :
    Search fs parser project entry (done ++ [first]) queue unmet := by
  have hall : done ++ [first] ++ queue = done ++ first :: queue := by simp
  refine ⟨hall ▸ h.sorted, hall ▸ h.reaches, hall ▸ h.distinct, hall ▸ h.entered, ?_, ?_,
    h.unmetNodup, hall ▸ h.mem_unmet⟩
  · intro e he i target himport
    rw [hall]
    rcases List.mem_append.1 he with he | he
    · exact h.closed e he i target himport
    · rw [List.mem_singleton.1 he] at himport
      obtain ⟨unit, -, hparse, -⟩ := himport
      exact absurd hparse (hnone unit)
  · intro e he next hnext i
    have hfirst : rank first.1 < rank next.1 := by
      have hsorted := (List.pairwise_append.1 h.sorted).2.1
      exact (List.pairwise_cons.1 hsorted).1 next (List.mem_of_mem_head? hnext)
    exact (h.near e (by simp [he]) first rfl i).trans (rank_append_lt hfirst i i)

/-- The targets of a source file are met at the end of the queue. -/
theorem step {first : List ℕ × String}
    (h : Search fs parser project entry done (first :: queue) unmet) {unit : SourceUnit}
    (hparse : ParsesTo fs parser first.2 unit) {fresh : List (ℕ × String)}
    {s : List String × List String}
    (hmeets : Meets (importTargets fs project first.2 unit) fresh (unmet, queue.map Prod.snd) s) :
    Search fs parser project entry (done ++ [first])
      (queue ++ fresh.map fun e => (first.1 ++ [e.1], e.2)) s.1 := by
  have hall : ∀ more, done ++ [first] ++ (queue ++ more) = (done ++ first :: queue) ++ more := by
    simp
  have hfirst : first ∈ done ++ first :: queue := by simp
  have hpaths : (fresh.map fun e => (first.1 ++ [e.1], e.2)).map Prod.snd = fresh.map Prod.snd := by
    rw [List.map_map]
    rfl
  have himports : ∀ e ∈ fresh, ImportsAt fs parser project first.2 e.1 e.2 := by
    intro e he
    obtain ⟨specifier, hmentions, hresolve⟩ := mem_importTargets.1 (hmeets.sublist.subset he)
    exact ⟨unit, specifier, hparse, hmentions, hresolve⟩
  refine ⟨?_, ?_, ?_, ?_, ?_, ?_, hmeets.nodup, ?_⟩
  · rw [hall]
    refine List.pairwise_append.2 ⟨h.sorted, ?_, ?_⟩
    · rw [List.pairwise_map]
      exact ((pairwise_importTargets _ _).sublist hmeets.sublist).imp fun hlt =>
        rank_append_lt_append _ hlt
    · intro e he e' he'
      obtain ⟨i, -, rfl⟩ := List.mem_map.1 he'
      exact h.rank_lt i.1 e he
  · rw [hall]
    intro e he
    rcases List.mem_append.1 he with he | he
    · exact h.reaches e he
    · obtain ⟨i, hi, rfl⟩ := List.mem_map.1 he
      exact .step (h.reaches first hfirst) (himports i hi)
  · rw [hall, List.map_append, hpaths]
    refine List.nodup_append.2 ⟨h.distinct, hmeets.distinct, fun path hpath path' hpath' heq => ?_⟩
    obtain ⟨e, he, rfl⟩ := List.mem_map.1 hpath'
    exact ((h.mem_unmet _).1 (hmeets.wasUnmet e he)).2 (heq ▸ hpath)
  · rw [hall]
    exact List.mem_append_left _ h.entered
  · rw [hall]
    intro e he i target himport
    rcases List.mem_append.1 he with he | he
    · obtain ⟨e', he', h'⟩ := h.closed e he i target himport
      exact ⟨e', List.mem_append_left _ he', h'⟩
    rw [List.mem_singleton.1 he] at himport ⊢
    obtain ⟨unit', specifier, hparse', hmentions, hresolve⟩ := himport
    rw [← hparse.unique hparse'] at hmentions
    -- the target was met before, or is met now at its first import
    by_cases hmet : target ∈ (done ++ first :: queue).map Prod.snd
    · obtain ⟨e', he', rfl⟩ := List.mem_map.1 hmet
      exact ⟨e', List.mem_append_left _ he', rfl, (h.rank_lt i e' he').le⟩
    · have hunmet : target ∈ unmet :=
        (h.mem_unmet _).2 ⟨mem_fileNames_of_resolve? hresolve, hmet⟩
      obtain ⟨e', he', htarget, hle⟩ := hmeets.first (i, target)
        (mem_importTargets.2 ⟨specifier, hmentions, hresolve⟩) hunmet
      refine ⟨(first.1 ++ [e'.1], e'.2), List.mem_append_right _ (List.mem_map_of_mem he'), htarget,
        ?_⟩
      rcases hle.eq_or_lt with heq | hlt
      · rw [heq]
      · exact (rank_append_lt_append _ hlt).le
  · intro e he next hnext i
    have hnext' : rank first.1 < rank next.1 := by
      rcases List.mem_append.1 (List.mem_of_mem_head? hnext) with hq | hq
      · exact (List.pairwise_cons.1 (List.pairwise_append.1 h.sorted).2.1).1 next hq
      · obtain ⟨j, -, rfl⟩ := List.mem_map.1 hq
        exact rank_lt_append _ _
    rcases List.mem_append.1 he with he | he
    · exact (h.near e (by simp [he]) first rfl i).trans (rank_append_lt hnext' i i)
    · obtain ⟨j, -, rfl⟩ := List.mem_map.1 he
      exact rank_append_lt hnext' j.1 i
  · intro path
    have hmet :
        ((done ++ first :: queue) ++ fresh.map fun e => (first.1 ++ [e.1], e.2)).map Prod.snd =
          (done ++ first :: queue).map Prod.snd ++ fresh.map Prod.snd := by
      rw [List.map_append, hpaths]
    rw [hall, hmet, hmeets.unmet, h.mem_unmet, List.mem_append, not_or, and_assoc]

/-- The search goes on from its queue until every path that it meets is looked at; the files are
those of the paths that can be read, in the order in which they were met. -/
theorem explore (h : Search fs parser project entry done queue unmet) :
    ∃ found unmet', Search fs parser project entry (done ++ found) [] unmet' ∧
      (Load.explore fs parser project unmet (queue.map Prod.snd)).2 =
        found.filterMap fun e => (readSource fs parser project e.2).toOption := by
  -- the measure of the search: every step takes a path from the queue
  induction hn : unmet.length + queue.length using Nat.strong_induction_on
    generalizing done queue unmet with
  | _ n ih =>
    cases queue with
    | nil => exact ⟨[], unmet, by simpa using h, by rw [List.map_nil, Load.explore]; rfl⟩
    | cons first queue =>
      rw [List.map_cons, Load.explore]
      cases hread : readSource fs parser project first.2 with
      | error e =>
        have hnone : ∀ unit, ¬ ParsesTo fs parser first.2 unit := by
          intro unit hparse
          obtain ⟨file, hfile⟩ : ∃ file, readSource fs parser project first.2 = .ok file :=
            (exists_readSource_of_parsesTo hparse).imp fun _ h => h.1
          rw [hread] at hfile
          cases hfile
        obtain ⟨found, unmet', hfound, hfiles⟩ := ih _ (by rw [List.length_cons] at hn; omega)
          (h.skip hnone) rfl
        refine ⟨first :: found, unmet', by simpa using hfound, ?_⟩
        rw [List.filterMap_cons, hread]
        exact hfiles
      | ok file =>
        obtain ⟨-, hparse, htargets⟩ := readSource_eq_ok hread
        obtain ⟨fresh, hmeets⟩ := exists_fresh (pairwise_importTargets first.2 file.unit)
          (s := (unmet, queue.map Prod.snd)) h.unmetNodup
        have hpaths : file.targets.map Prod.snd =
            file.unit.specifiers.filterMap (resolve? fs project first.2) := by
          rw [htargets, List.map_filterMap]
          refine List.filterMap_congr fun specifier _ => ?_
          cases resolve? fs project first.2 specifier <;> rfl
        have hstate : (file.targets.map Prod.snd).foldl meet (unmet, queue.map Prod.snd) =
            ((importTargets fs project first.2 file.unit).map Prod.snd).foldl meet
              (unmet, queue.map Prod.snd) := by
          rw [hpaths]
          exact foldl_meet_specifiers first.2 file.unit h.unmetNodup
        have hlength := length_foldl_meet (file.targets.map Prod.snd) (unmet, queue.map Prod.snd)
        rw [← hstate] at hmeets
        have hqueue : (queue ++ fresh.map fun e => (first.1 ++ [e.1], e.2)).map Prod.snd =
            ((file.targets.map Prod.snd).foldl meet (unmet, queue.map Prod.snd)).2 := by
          rw [hmeets.queue, List.map_append, List.map_map]
          rfl
        obtain ⟨found, unmet', hfound, hfiles⟩ := ih _ (by
          rw [← hqueue, List.length_map, List.length_map] at hlength
          dsimp only at hlength
          rw [List.length_cons] at hn
          omega) (h.step hparse hmeets) rfl
        refine ⟨first :: found, unmet', by simpa using hfound, ?_⟩
        rw [List.filterMap_cons, hread, ← hfiles, hqueue]
        rfl

/-- When nothing is left in the queue, every path that is reached was met by its least trail. -/
theorem least (h : Search fs parser project entry done [] unmet) {trail : List ℕ} {path : String}
    (hreach : Reaches fs parser project entry trail path) :
    ∃ e ∈ done, e.2 = path ∧ rank e.1 ≤ rank trail := by
  induction hreach with
  | entry => exact ⟨_, by simpa using h.entered, rfl, le_refl _⟩
  | step hreach himport ih =>
    obtain ⟨e, he, rfl, hle⟩ := ih
    obtain ⟨e', he', htarget, hle'⟩ := h.closed e he _ _ himport
    exact ⟨e', by simpa using he', htarget, hle'.trans (rank_append_mono hle _)⟩

end Search

end RouteContract.Load
