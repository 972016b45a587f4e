import Mathlib
import RouteContract.Proofs.Json.Entries
import RouteContract.Proofs.Load.Search

/-!
# The program of an entry file

Loading gives the files that the entry reaches and that can be read, each once and in breadth-first
order, and links each import to the unit that it leads to. The search never runs out of names: every
path that a specifier can lead to is among the names of the files.
-/

namespace RouteContract

namespace Entries

variable {α : Type}

/-- Under distinct names every entry is found. -/
theorem get?_eq_some_iff_mem {name : String} {value : α} {entries : Entries α}
    (h : entries.names.Nodup) : get? name entries = some value ↔ (name, value) ∈ entries := by
  refine ⟨mem_of_get?_eq_some, fun hmem => ?_⟩
  induction entries with
  | nil => cases hmem
  | cons entry rest ih =>
    obtain ⟨key, old⟩ := entry
    obtain ⟨hkey, hrest⟩ := List.nodup_cons.1 h
    rcases List.mem_cons.1 hmem with heq | hmem
    · cases heq
      rw [get?, if_pos rfl]
    · have hne : key ≠ name := fun hk => hkey (List.mem_map.2 ⟨(name, value), hmem, hk.symm⟩)
      rw [get?, if_neg hne, ih hrest hmem]

end Entries

/-- What is made from some elements of a list and keeps a value keeps it in order. -/
theorem map_filterMap_sublist {α β γ : Type} {f : α → Option β} {g : β → γ} {h : α → γ}
    (hf : ∀ a b, f a = some b → g b = h a) (l : List α) :
    ((l.filterMap f).map g).Sublist (l.map h) := by
  induction l with
  | nil => exact .slnil
  | cons a l ih =>
    cases hb : f a with
    | none =>
      rw [List.filterMap_cons_none hb]
      exact ih.cons _
    | some b =>
      rw [List.filterMap_cons_some hb, List.map_cons, List.map_cons, hf a b hb]
      exact ih.cons_cons _

/-- What a unit mentions does not depend on what its imports are linked to. -/
theorem SourceUnit.mentions_imports {unit : SourceUnit} (imports : Entries ℕ) {position : ℕ}
    {specifier : String} :
    { unit with imports }.Mentions position specifier ↔ unit.Mentions position specifier := by
  -- the nodes are the same, and all else is read off the nodes
  have hnodes : ∀ u, ((⟨#[{ unit with imports }]⟩ : Program).unit u).nodes =
      ((⟨#[unit]⟩ : Program).unit u).nodes := by
    intro u
    cases u <;> rfl
  have hnode : (⟨#[{ unit with imports }]⟩ : Program).node = (⟨#[unit]⟩ : Program).node := by
    funext id
    rw [Program.node, Program.node, hnodes]
  have hchildren : (⟨#[{ unit with imports }]⟩ : Program).children =
      (⟨#[unit]⟩ : Program).children := by
    have hsize : (⟨#[{ unit with imports }]⟩ : Program).size = (⟨#[unit]⟩ : Program).size := by
      funext u
      rw [Program.size, Program.size, hnodes]
    funext id
    rw [Program.children, Program.children, hnode, hsize]
  have hkind : (⟨#[{ unit with imports }]⟩ : Program).kind = (⟨#[unit]⟩ : Program).kind := by
    funext id
    rw [Program.kind, Program.kind, hnode]
  have hfield : (⟨#[{ unit with imports }]⟩ : Program).field? = (⟨#[unit]⟩ : Program).field? := by
    funext id role
    rw [Program.field?, Program.field?, hnode, hchildren]
  have hnamed : (⟨#[{ unit with imports }]⟩ : Program).namedChildren =
      (⟨#[unit]⟩ : Program).namedChildren := by
    funext id
    rw [Program.namedChildren, Program.namedChildren, hnode, hkind, hchildren]
  have hvalue : (⟨#[{ unit with imports }]⟩ : Program).stringValue? =
      (⟨#[unit]⟩ : Program).stringValue? := by
    funext id
    rw [Program.stringValue?, Program.stringValue?, Program.text, Program.text, hnode, hkind,
      hchildren]
  rw [mentions_iff, mentions_iff, specifierAt?, specifierAt?, specifierNode?, specifierNode?, hkind,
    hfield, hnamed, hvalue]

namespace Load

/-- A program holds the source files that an entry reaches through imports. -/
structure IsReached (fs : FileSystem) (parser : SourceParser) (project : Option ProjectConfig)
    (entry : String) (p : Program) : Prop where
  first : 0 < p.units.size ∧ (p.unit 0).path = entry
  /-- The units are those of the paths that are reached and can be read and parsed. -/
  units : ∀ path unit,
    (∃ i < p.units.size, (p.unit i).path = path ∧ { p.unit i with imports := [] } = unit) ↔
      (∃ trail, Reaches fs parser project entry trail path) ∧ ParsesTo fs parser path unit
  once : ∀ i < p.units.size, ∀ j < p.units.size, (p.unit i).path = (p.unit j).path → i = j
  /-- Units come in the order of the least trails that reach them. -/
  ordered : ∀ i j, i < j → j < p.units.size → ∃ trail,
    Reaches fs parser project entry trail (p.unit i).path ∧
      ∀ other, Reaches fs parser project entry other (p.unit j).path → rank trail < rank other
  /-- A specifier is linked to the unit that it leads to. -/
  imports : ∀ i < p.units.size, ∀ specifier j, p.resolveImport i specifier = some j ↔
    (∃ position, (p.unit i).Mentions position specifier) ∧ j < p.units.size ∧
      resolve? fs project (p.unit i).path specifier = some (p.unit j).path

variable {fs : FileSystem} {parser : SourceParser} {project : Option ProjectConfig}

/-! ### Linking -/

/-- The targets of a file that are among paths, with their places there. -/
def linked (paths : List String) (file : SourceFile) : Entries ℕ :=
  file.targets.filterMap fun (specifier, target) =>
    (paths.findIdx? (· = target)).map fun i => (specifier, i)

theorem size_link (files : List SourceFile) : (link files).units.size = files.length := by
  rw [link, List.size_toArray, List.length_map]

theorem unit_link {files : List SourceFile} {i : ℕ} {file : SourceFile}
    (h : files[i]? = some file) :
    (link files).unit i =
      { file.unit with imports := linked (files.map SourceFile.path) file } := by
  rw [Program.unit, link, Array.getD_eq_getD_getElem?, List.getElem?_toArray, List.getElem?_map, h]
  rfl

/-- The place of a path among distinct paths. -/
theorem findIdx?_eq_some_iff {paths : List String} (hpaths : paths.Nodup) {path : String} {i : ℕ} :
    paths.findIdx? (· = path) = some i ↔ paths[i]? = some path := by
  rw [List.findIdx?_eq_some_iff_getElem]
  constructor
  · rintro ⟨hi, hpath, -⟩
    rw [List.getElem?_eq_getElem hi, of_decide_eq_true hpath]
  · intro hpath
    obtain ⟨hi, rfl⟩ := List.getElem?_eq_some_iff.1 hpath
    refine ⟨hi, by simp, fun j hji hj => ?_⟩
    have heq := (hpaths.getElem_inj_iff).1 (of_decide_eq_true hj)
    omega

theorem nodup_names_linked {paths : List String} {path : String} {file : SourceFile}
    (hread : readSource fs parser project path = .ok file) : (linked paths file).names.Nodup := by
  have hsub : (linked paths file).names.Sublist (file.unit.specifiers.map id) := by
    rw [linked, (readSource_eq_ok hread).2.2, List.filterMap_filterMap]
    refine map_filterMap_sublist (fun specifier entry h => ?_) _
    obtain ⟨e, he, h⟩ := Option.bind_eq_some_iff.1 h
    obtain ⟨target, -, rfl⟩ := Option.map_eq_some_iff.1 he
    obtain ⟨i, -, rfl⟩ := Option.map_eq_some_iff.1 h
    rfl
  rw [List.map_id] at hsub
  exact hsub.nodup (nodup_eraseDups _)

/-- A specifier of a file is linked to the place of the path that it leads to. -/
theorem get?_linked {paths : List String} (hpaths : paths.Nodup) {path : String} {file : SourceFile}
    (hread : readSource fs parser project path = .ok file) {specifier : String} {i : ℕ} :
    Entries.get? specifier (linked paths file) = some i ↔
      (∃ position, file.unit.Mentions position specifier) ∧ ∃ target, paths[i]? = some target ∧
        resolve? fs project path specifier = some target := by
  rw [Entries.get?_eq_some_iff_mem (nodup_names_linked hread), ← SourceUnit.mem_specifiers, linked,
    (readSource_eq_ok hread).2.2]
  simp only [List.mem_filterMap, Option.map_eq_some_iff, Prod.exists, findIdx?_eq_some_iff hpaths]
  constructor
  · rintro ⟨s, target, ⟨s', hs', target', ht, heq⟩, j, hj, heq'⟩
    cases heq
    cases heq'
    exact ⟨hs', target, hj, ht⟩
  · rintro ⟨hs, target, hj, ht⟩
    exact ⟨specifier, target, ⟨specifier, hs, target, ht, rfl⟩, i, hj, rfl⟩

/-! ### Loading -/

theorem ParsesTo.path_eq {path : String} {unit : SourceUnit} (h : ParsesTo fs parser path unit) :
    unit.path = path ∧ unit.imports = [] := by
  obtain ⟨source, language, parsed, -, -, -, rfl⟩ := h
  exact ⟨rfl, rfl⟩

theorem rank_nil_le (trail : List ℕ) : ¬ rank trail < rank [] := by
  rw [rank, rank, Prod.Lex.toLex_lt_toLex]
  rintro (h | ⟨-, h⟩)
  · exact absurd h (Nat.not_lt_zero _)
  · exact absurd h (List.not_lt_nil _)

namespace Search

variable {entry : String} {found : List (List ℕ × String)} {unmet : List String}

/-- The entry was met first. -/
theorem head?_eq (h : Search fs parser project entry found [] unmet) :
    ∃ rest, found = ([], entry) :: rest := by
  have hentered : ([], entry) ∈ found := by simpa using h.entered
  have hsorted : found.Pairwise fun a b => rank a.1 < rank b.1 := by simpa using h.sorted
  cases found with
  | nil => cases hentered
  | cons first rest =>
    rcases List.mem_cons.1 hentered with heq | hmem
    · exact ⟨rest, by rw [heq]⟩
    · exact absurd ((List.pairwise_cons.1 hsorted).1 _ hmem) (rank_nil_le _)

/-- Two paths that are equal were met by one trail. -/
theorem eq_of_path_eq (h : Search fs parser project entry found [] unmet) {e e' : List ℕ × String}
    (he : e ∈ found) (he' : e' ∈ found) (heq : e.2 = e'.2) : e = e' := by
  have hdistinct : (found.map Prod.snd).Nodup := by simpa using h.distinct
  exact List.inj_on_of_nodup_map hdistinct he he' heq

end Search

theorem of_toOption_eq_some {ε α : Type} {x : Except ε α} {a : α} (h : x.toOption = some a) :
    x = .ok a := by
  cases x with
  | error e => cases h
  | ok a' => exact congrArg _ (Option.some.inj h)

/-- The files of the paths that can be read. -/
def readAll (fs : FileSystem) (parser : SourceParser) (project : Option ProjectConfig)
    (found : List (List ℕ × String)) : List SourceFile :=
  found.filterMap fun e => (readSource fs parser project e.2).toOption

theorem mem_readAll {found : List (List ℕ × String)} {file : SourceFile} :
    file ∈ readAll fs parser project found ↔
      ∃ e ∈ found, readSource fs parser project e.2 = .ok file := by
  simp only [readAll, List.mem_filterMap]
  refine exists_congr fun e => and_congr_right fun _ => ?_
  exact ⟨of_toOption_eq_some, fun h => by rw [h]; rfl⟩

theorem nodup_paths_readAll {found : List (List ℕ × String)} (h : (found.map Prod.snd).Nodup) :
    ((readAll fs parser project found).map SourceFile.path).Nodup := by
  refine (map_filterMap_sublist (fun e file hfile => ?_) found).nodup h
  exact (readSource_eq_ok (of_toOption_eq_some hfile)).1

/-- A unit of the linked program is that of a path that was met and can be read. -/
theorem exists_file {found : List (List ℕ × String)} {i : ℕ}
    (hi : i < (link (readAll fs parser project found)).units.size) :
    ∃ trail file, (readAll fs parser project found)[i]? = some file ∧ (trail, file.path) ∈ found ∧
      readSource fs parser project file.path = .ok file ∧
      ((link (readAll fs parser project found)).unit i).path = file.path := by
  rw [size_link] at hi
  obtain ⟨⟨trail, path⟩, he, hread⟩ := mem_readAll.1 (List.getElem_mem hi)
  obtain ⟨hpath, hparse, -⟩ := readSource_eq_ok hread
  have hfile := List.getElem?_eq_getElem hi
  refine ⟨trail, _, hfile, by rw [hpath]; exact he, by rw [hpath]; exact hread, ?_⟩
  rw [unit_link hfile, hpath]
  exact hparse.path_eq.1

/-- A path that was met and can be read is that of a unit of the linked program. -/
theorem exists_unit {found : List (List ℕ × String)} {e : List ℕ × String} (he : e ∈ found)
    {unit : SourceUnit} (h : ParsesTo fs parser e.2 unit) :
    ∃ i < (link (readAll fs parser project found)).units.size,
      ((link (readAll fs parser project found)).unit i).path = e.2 ∧
      { (link (readAll fs parser project found)).unit i with imports := [] } = unit := by
  obtain ⟨file, hread, rfl⟩ := exists_readSource_of_parsesTo h
  obtain ⟨i, hi, hfile⟩ := List.getElem_of_mem (mem_readAll.2 ⟨e, he, hread⟩)
  obtain ⟨hpath, himports⟩ := h.path_eq
  refine ⟨i, by rwa [size_link], ?_⟩
  rw [unit_link (List.getElem?_eq_some_iff.2 ⟨hi, hfile⟩)]
  exact ⟨hpath, by rw [← himports]⟩

namespace Search

variable {entry : String} {found : List (List ℕ × String)} {unmet : List String}

theorem first_link (h : Search fs parser project entry found [] unmet) {unit : SourceUnit}
    (hentry : ParsesTo fs parser entry unit) :
    0 < (link (readAll fs parser project found)).units.size ∧
      ((link (readAll fs parser project found)).unit 0).path = entry := by
  obtain ⟨rest, rfl⟩ := h.head?_eq
  obtain ⟨file, hread, -⟩ := exists_readSource_of_parsesTo hentry
  have hall : readAll fs parser project (([], entry) :: rest) =
      file :: readAll fs parser project rest := by
    rw [readAll, List.filterMap_cons, hread]
    rfl
  rw [hall, size_link, unit_link (List.getElem?_cons_zero ..)]
  exact ⟨by simp, (readSource_eq_ok hread).2.1.path_eq.1⟩

theorem units_link (h : Search fs parser project entry found [] unmet) (path : String)
    (unit : SourceUnit) :
    (∃ i < (link (readAll fs parser project found)).units.size,
      ((link (readAll fs parser project found)).unit i).path = path ∧
      { (link (readAll fs parser project found)).unit i with imports := [] } = unit) ↔
      (∃ trail, Reaches fs parser project entry trail path) ∧ ParsesTo fs parser path unit := by
  constructor
  · rintro ⟨i, hi, rfl, rfl⟩
    obtain ⟨trail, file, hfile, hfound, hread, hpath⟩ := exists_file hi
    obtain ⟨-, hparse, -⟩ := readSource_eq_ok hread
    rw [hpath, unit_link hfile]
    refine ⟨⟨trail, h.reaches _ (by simpa using hfound)⟩, ?_⟩
    rw [← hparse.path_eq.2]
    exact hparse
  · rintro ⟨⟨trail, hreach⟩, hparse⟩
    obtain ⟨e, he, rfl, -⟩ := h.least hreach
    exact exists_unit he hparse

theorem once_link (h : Search fs parser project entry found [] unmet) :
    ∀ i < (link (readAll fs parser project found)).units.size,
      ∀ j < (link (readAll fs parser project found)).units.size,
        ((link (readAll fs parser project found)).unit i).path =
          ((link (readAll fs parser project found)).unit j).path → i = j := by
  have hpaths : ((readAll fs parser project found).map SourceFile.path).Nodup :=
    nodup_paths_readAll (by simpa using h.distinct)
  intro i hi j hj heq
  obtain ⟨-, file, hfile, -, -, hpath⟩ := exists_file hi
  obtain ⟨-, file', hfile', -, -, hpath'⟩ := exists_file hj
  rw [hpath, hpath'] at heq
  rw [size_link] at hi
  refine (List.getElem?_inj (by simpa using hi) hpaths).1 ?_
  rw [List.getElem?_map, List.getElem?_map, hfile, hfile', Option.map_some, Option.map_some, heq]

theorem ordered_link (h : Search fs parser project entry found [] unmet) (i j : ℕ) (hij : i < j)
    (hj : j < (link (readAll fs parser project found)).units.size) :
    ∃ trail, Reaches fs parser project entry trail
        ((link (readAll fs parser project found)).unit i).path ∧
      ∀ other, Reaches fs parser project entry other
        ((link (readAll fs parser project found)).unit j).path → rank trail < rank other := by
  -- the files come in the order of the paths that were met
  have hsorted : (readAll fs parser project found).Pairwise fun a b =>
      ∃ e ∈ found, ∃ e' ∈ found, e.2 = a.path ∧ e'.2 = b.path ∧ rank e.1 < rank e'.1 := by
    have hmet : found.Pairwise fun e e' => e ∈ found ∧ e' ∈ found ∧ rank e.1 < rank e'.1 :=
      List.Pairwise.imp_of_mem (fun he he' hlt => ⟨he, he', hlt⟩) (by simpa using h.sorted)
    refine List.Pairwise.filterMap _ (fun e e' ⟨he, he', hlt⟩ a ha b hb => ?_) hmet
    exact ⟨e, he, e', he', (readSource_eq_ok (of_toOption_eq_some ha)).1.symm,
      (readSource_eq_ok (of_toOption_eq_some hb)).1.symm, hlt⟩
  obtain ⟨-, file, hfile, -, -, hpath⟩ := exists_file (hij.trans hj)
  obtain ⟨-, file', hfile', -, -, hpath'⟩ := exists_file hj
  obtain ⟨hi, rfl⟩ := List.getElem?_eq_some_iff.1 hfile
  obtain ⟨hj, rfl⟩ := List.getElem?_eq_some_iff.1 hfile'
  obtain ⟨e, he, e', he', hfst, hsnd, hlt⟩ := List.pairwise_iff_getElem.1 hsorted i j hi hj hij
  refine ⟨e.1, ?_, fun other hother => ?_⟩
  · rw [hpath, ← hfst]
    exact h.reaches e (by simpa using he)
  · obtain ⟨least, hleast, heq, hle⟩ := h.least hother
    rw [hpath', ← hsnd] at heq
    rw [h.eq_of_path_eq hleast he' heq] at hle
    exact lt_of_lt_of_le hlt hle

theorem imports_link (h : Search fs parser project entry found [] unmet) (i : ℕ)
    (hi : i < (link (readAll fs parser project found)).units.size) (specifier : String) (j : ℕ) :
    (link (readAll fs parser project found)).resolveImport i specifier = some j ↔
      (∃ position, ((link (readAll fs parser project found)).unit i).Mentions position specifier) ∧
      j < (link (readAll fs parser project found)).units.size ∧
      resolve? fs project ((link (readAll fs parser project found)).unit i).path specifier =
        some ((link (readAll fs parser project found)).unit j).path := by
  have hpaths : ((readAll fs parser project found).map SourceFile.path).Nodup :=
    nodup_paths_readAll (by simpa using h.distinct)
  obtain ⟨-, file, hfile, -, hread, hpath⟩ := exists_file hi
  have hplace : ∀ target,
      ((readAll fs parser project found).map SourceFile.path)[j]? = some target ↔
      j < (link (readAll fs parser project found)).units.size ∧
        ((link (readAll fs parser project found)).unit j).path = target := by
    intro target
    rw [List.getElem?_map, Option.map_eq_some_iff]
    constructor
    · rintro ⟨file', hfile', rfl⟩
      have hj : j < (link (readAll fs parser project found)).units.size := by
        rw [size_link]
        exact (List.getElem?_eq_some_iff.1 hfile').1
      obtain ⟨-, file'', hfile'', -, -, hpath''⟩ := exists_file hj
      rw [hfile'] at hfile''
      cases hfile''
      exact ⟨hj, hpath''⟩
    · rintro ⟨hj, rfl⟩
      obtain ⟨-, file', hfile', -, -, hpath'⟩ := exists_file hj
      exact ⟨file', hfile', hpath'.symm⟩
  rw [Program.resolveImport, hpath, unit_link hfile, get?_linked hpaths hread]
  simp only [SourceUnit.mentions_imports, hplace]
  constructor
  · rintro ⟨hmentions, target, ⟨hj, rfl⟩, hresolve⟩
    exact ⟨hmentions, hj, hresolve⟩
  · rintro ⟨hmentions, hj, hresolve⟩
    exact ⟨hmentions, _, ⟨hj, rfl⟩, hresolve⟩

/-- Linking the files of a finished search gives what the entry reaches. -/
theorem isReached_link (h : Search fs parser project entry found [] unmet) {unit : SourceUnit}
    (hentry : ParsesTo fs parser entry unit) :
    IsReached fs parser project entry (link (readAll fs parser project found)) where
  first := h.first_link hentry
  units := h.units_link
  once := h.once_link
  ordered := h.ordered_link
  imports := h.imports_link

end Search

/-! ### The program of an entry -/

/-- An entry that can be read and parsed gives the program that it reaches. -/
theorem exists_load (project : Option ProjectConfig) {entry : String}
    (hfile : fs.isFile entry = true) {unit : SourceUnit}
    (hentry : ParsesTo fs parser (PathName.normalize (fs.absolute entry)) unit) :
    ∃ p, (load fs parser project entry).2 = .ok p ∧
      IsReached fs parser project (PathName.normalize (fs.absolute entry)) p := by
  obtain ⟨file, hread, -⟩ := exists_readSource_of_parsesTo hentry
  obtain ⟨found, unmet, hfound, hfiles⟩ :=
    (Search.start fs parser project (PathName.normalize (fs.absolute entry))).explore
  refine ⟨link (readAll fs parser project found), ?_,
    Search.isReached_link (by simpa using hfound) hentry⟩
  rw [load, if_neg (by simp [hfile])]
  dsimp only
  rw [hread]
  exact congrArg (fun files => Except.ok (link files)) hfiles

/-- Without an entry that can be read and parsed there is no program. -/
theorem load_eq_error {entry : String} (h : ¬ (fs.isFile entry = true ∧
    ∃ unit, ParsesTo fs parser (PathName.normalize (fs.absolute entry)) unit)) :
    (load fs parser project entry).2 = .error (.entryNotFound entry) := by
  rw [load]
  split
  · rfl
  · next hfile =>
    dsimp only
    cases hread : readSource fs parser project (PathName.normalize (fs.absolute entry)) with
    | error e => rfl
    | ok file => exact absurd ⟨by simpa using hfile, file.unit, (readSource_eq_ok hread).2.1⟩ h

/-- A program that is loaded is the one that the entry reaches. -/
theorem isReached_of_load {entry : String} {p : Program}
    (h : (load fs parser project entry).2 = .ok p) :
    IsReached fs parser project (PathName.normalize (fs.absolute entry)) p := by
  by_cases hentry : fs.isFile entry = true ∧
      ∃ unit, ParsesTo fs parser (PathName.normalize (fs.absolute entry)) unit
  · obtain ⟨hfile, unit, hparse⟩ := hentry
    obtain ⟨q, hq, hreached⟩ := exists_load project hfile hparse
    rw [h] at hq
    cases hq
    exact hreached
  · rw [load_eq_error hentry] at h
    cases h

/-- **The program of an entry file.** Loading succeeds exactly when the entry is a file that can be
read and parsed, and then gives the files that the entry reaches, in breadth-first order; otherwise
it fails with the entry. -/
theorem load_isReached (fs : FileSystem) (parser : SourceParser) (project : Option ProjectConfig)
    (entry : String) :
    let path := PathName.normalize (fs.absolute entry)
    ((∃ p, (load fs parser project entry).2 = .ok p ∧ IsReached fs parser project path p) ↔
      fs.isFile entry = true ∧ ∃ unit, ParsesTo fs parser path unit) ∧
    ((load fs parser project entry).2 = .error (.entryNotFound entry) ↔
      ¬ (fs.isFile entry = true ∧ ∃ unit, ParsesTo fs parser path unit)) := by
  intro path
  by_cases hentry : fs.isFile entry = true ∧ ∃ unit, ParsesTo fs parser path unit
  · obtain ⟨p, hload, hreached⟩ := exists_load project hentry.1 hentry.2.choose_spec
    constructor
    · exact ⟨fun _ => hentry, fun _ => ⟨p, hload, hreached⟩⟩
    · rw [hload]
      exact ⟨(fun h => nomatch h), fun h => absurd hentry h⟩
  · rw [load_eq_error hentry]
    constructor
    · exact ⟨(fun ⟨p, hp, _⟩ => nomatch hp), fun h => absurd h hentry⟩
    · exact ⟨fun _ => hentry, fun _ => rfl⟩

end Load

end RouteContract
