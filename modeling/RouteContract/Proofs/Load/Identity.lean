import Mathlib
import RouteContract.Proofs.Load.Reachable

/-!
# Units and files

Units are told apart by their paths, and a loaded program has each path once. Paths come from the
entry, which is taken from the root, from specifiers that are paths, which go on from the importing
file, and from the settings of a project, whose directories are taken as the configuration file is
given. So a program that is loaded with settings from the root has paths from the root only
(`isAbsolute_of_reaches`), and then two units are one file only when one of their paths goes up from
the root (`unit_eq_of_location_eq`). Settings from a relative path lead to paths that are relative
too, and one file becomes two units (`exists_units_of_one_file`).
-/

namespace RouteContract

namespace PathName

/-! ### Paths from the root -/

theorem isAbsolute_withBody {path : List Char} (h : isAbsolute path = true)
    (pieces : List (List Char)) : isAbsolute (withBody path pieces) = true := by
  rw [withBody, if_pos h]
  rfl

theorem isAbsolute_joinChars {base : List Char} (h : isAbsolute base = true) (path : List Char) :
    isAbsolute (joinChars base path) = true := by
  cases base with
  | nil => cases h
  | cons c rest =>
    unfold joinChars
    split
    · next hpath => exact hpath.resolve_right (List.cons_ne_nil _ _)
    · split <;> exact h

/-- What is put behind a path from the root is a path from the root. -/
theorem isAbsolute_join {base : String} (h : isAbsolute base.toList = true) (path : String) :
    isAbsolute (join base path).toList = true := by
  rw [join, String.toList_ofList]
  exact isAbsolute_joinChars h path.toList

/-- The directory of a path from the root is one. -/
theorem isAbsolute_parent? {path dir : String} (h : isAbsolute path.toList = true)
    (hdir : parent? path = some dir) : isAbsolute dir.toList = true := by
  obtain ⟨text, htext, rfl⟩ := Option.map_eq_some_iff.1 hdir
  rw [String.toList_ofList]
  unfold parentChars? at htext
  split at htext
  · cases htext
  · cases htext
    exact isAbsolute_withBody h _

theorem isAbsolute_withExtension {path : String} (h : isAbsolute path.toList = true)
    (extension : String) : isAbsolute (withExtension extension path).toList = true := by
  unfold withExtension
  split
  · exact h
  · rw [String.toList_ofList]
    exact isAbsolute_withBody h _

theorem isIdle_of_dropIdle_eq_nil {relative : Bool} {pieces : List (List Char)}
    (h : dropIdle relative pieces = []) : ∀ piece ∈ pieces, isIdle piece = true := by
  cases pieces with
  | nil => simp
  | cons first rest =>
    cases hrest : (rest.reverse.dropWhile isIdle).reverse with
    | cons last kept => simp only [dropIdle, hrest, reduceCtorEq] at h
    | nil =>
      simp only [dropIdle, hrest] at h
      rw [List.reverse_eq_nil_iff, List.dropWhile_eq_nil_iff] at hrest
      have hfirst : isIdle first = true := by
        by_contra hfirst
        rw [isIdle, Bool.or_eq_true, not_or, decide_eq_true_eq, decide_eq_true_eq] at hfirst
        simp [hfirst.1, hfirst.2] at h
      exact List.forall_mem_cons.2 ⟨hfirst, fun piece hp => hrest piece (List.mem_reverse.2 hp)⟩

theorem foldl_step_idle {pieces : List (List Char)} (h : ∀ piece ∈ pieces, isIdle piece = true)
    (start : FileLocation) : (pieces.filterMap ofPiece).foldl Component.step start = start := by
  induction pieces with
  | nil => rfl
  | cons piece pieces ih =>
    obtain ⟨hpiece, hrest⟩ := List.forall_mem_cons.1 h
    rw [isIdle, Bool.or_eq_true, decide_eq_true_eq, decide_eq_true_eq] at hpiece
    rcases hpiece with rfl | rfl <;> exact ih hrest

/-- A path from the root that is in no directory stands for the root. -/
theorem location_eq_nil {path : String} (h : isAbsolute path.toList = true)
    (hparent : parent? path = none) (workdir : FileLocation) : location workdir path = [] := by
  have hbody : body path.toList = [] := by
    rw [parent?, Option.map_eq_none_iff] at hparent
    unfold parentChars? at hparent
    split at hparent
    · assumption
    · cases hparent
  rw [body, if_pos h] at hbody
  rw [location_eq_foldl, if_pos h]
  -- the root is the only piece besides those that count for nothing
  cases hpath : path.toList with
  | nil => rfl
  | cons c rest =>
    rw [hpath] at h hbody
    have hc : c = '/' := by simpa [isAbsolute] using h
    rw [Text.splitChars, if_pos hc]
    exact foldl_step_idle (isIdle_of_dropIdle_eq_nil hbody) []

end PathName

namespace FileSystem

variable {fs : FileSystem}

theorem isAbsolute_absolute (path : String) :
    PathName.isAbsolute (fs.absolute path).toList = true := by
  unfold absolute
  split
  · assumption
  · refine PathName.isAbsolute_join ?_ path
    rw [absolutePath, String.toList_ofList]
    rfl

/-- What starts a path that is followed is a directory. -/
theorem contentAt?_origin {path : String} {target : FileLocation}
    (h : fs.locate path = .ok target) :
    fs.contentAt? (fs.origin path.toList) = some .directory := by
  obtain ⟨u, -, h⟩ := exists_of_bind_eq_ok h
  cases hpieces : Text.splitChars '/' path.toList with
  | nil => exact absurd hpieces (Text.splitChars_ne_nil _ _)
  | cons piece pieces =>
    rw [hpieces, List.foldlM_cons] at h
    obtain ⟨next, hnext, -⟩ := exists_of_bind_eq_ok h
    exact (follow_eq_ok hnext).2

/-- A path from the root that is read is in a directory. -/
theorem exists_parent_of_readText {path source : String}
    (habs : PathName.isAbsolute path.toList = true) (h : fs.readText path = .ok source) :
    ∃ dir, PathName.parent? path = some dir := by
  rw [← Option.isSome_iff_exists, Option.isSome_iff_ne_none]
  intro hparent
  obtain ⟨found, hfound, htext⟩ := exists_of_bind_eq_ok h
  obtain ⟨target, htarget, -⟩ := exists_of_bind_eq_ok hfound
  have hroot := contentAt?_origin htarget
  have hthere := contentAt?_of_content hfound
  rw [origin, if_pos habs] at hroot
  rw [PathName.location_eq_nil habs hparent, hroot] at hthere
  cases hthere
  cases htext

end FileSystem

/-! ### Settings from the root -/

namespace ProjectConfig

open PathName

variable {fs : FileSystem}

/-- The directories of settings, from which modules are looked up, are taken from the root. -/
structure FromRoot (config : ProjectConfig) : Prop where
  base : ∀ base, config.baseUrl = some base → isAbsolute base.toList = true
  paths : isAbsolute config.pathsBase.toList = true

/-- The patterns go by the directory of the file when there is no base directory. -/
theorem fromRoot_patterns {config : ProjectConfig} (h : config.FromRoot) {dir : String}
    (hdir : isAbsolute dir.toList = true) (patterns : Option Json) : FromRoot
      (match patterns with
      | some (.obj patterns) =>
        { config with
          pathsBase := if config.baseUrl.isNone then dir else config.pathsBase
          paths := patterns.map fun (pattern, targets) => (pattern, texts targets) }
      | _ => config) := by
  split
  · refine ⟨h.base, ?_⟩
    dsimp only
    split
    · exact hdir
    · exact h.paths
  · exact h

theorem fromRoot_override {config : ProjectConfig} (h : config.FromRoot) {dir : String}
    (hdir : isAbsolute dir.toList = true) (v : Json) : (config.override dir v).FromRoot := by
  unfold override
  split
  · exact h
  · next options _ =>
    -- the base directory is settled first
    cases textField? "baseUrl" options with
    | none => exact fromRoot_patterns h hdir (field? "paths" options)
    | some base =>
      have hjoin := isAbsolute_join hdir base
      have hbased : FromRoot { config with
          baseUrl := some (PathName.join dir base), pathsBase := PathName.join dir base } :=
        ⟨fun b hb => Option.some.inj hb ▸ hjoin, hjoin⟩
      exact fromRoot_patterns hbased hdir (field? "paths" options)

theorem isAbsolute_extended? {dir target : String} (hdir : isAbsolute dir.toList = true) {v : Json}
    (h : extended? dir v = some target) : isAbsolute target.toList = true := by
  obtain ⟨name, -, h⟩ := Option.bind_eq_some_iff.1 h
  have hjoin := isAbsolute_join hdir name
  split at h
  · dsimp only at h
    split at h
    · cases h
      exact isAbsolute_withExtension hjoin "json"
    · cases h
      exact hjoin
  · cases h

/-- The directory of a file that is read is a path from the root when the file is. -/
theorem isAbsolute_directory {path : String} (h : isAbsolute path.toList = true) {v : Json}
    (hread : readFile fs path = .ok v) : isAbsolute (directory path).toList = true := by
  have htext : ∃ text, fs.readText path = .ok text := by
    unfold readFile at hread
    split at hread
    · cases hread
    · exact ⟨_, by assumption⟩
  obtain ⟨text, htext⟩ := htext
  obtain ⟨dir, hdir⟩ := FileSystem.exists_parent_of_readText h htext
  rw [directory, hdir]
  exact isAbsolute_parent? h hdir

theorem fromRoot_extend {left : ℕ} {config found : ProjectConfig} {path : String}
    (hconfig : config.FromRoot) (hpath : isAbsolute path.toList = true)
    (h : extend fs left config path = .ok found) : found.FromRoot := by
  induction left generalizing config found path with
  | zero =>
    obtain ⟨v, hread, h⟩ := exists_of_bind_eq_ok h
    cases h
    exact fromRoot_override hconfig (isAbsolute_directory hpath hread) v
  | succ left ih =>
    obtain ⟨v, hread, h⟩ := exists_of_bind_eq_ok h
    have hdir := isAbsolute_directory hpath hread
    dsimp only at h
    split at h
    · next target htarget =>
      obtain ⟨below, hbelow, h⟩ := exists_of_bind_eq_ok h
      cases h
      exact fromRoot_override (ih hconfig (isAbsolute_extended? hdir htarget) hbelow) hdir v
    · cases h
      exact fromRoot_override hconfig hdir v

theorem exists_readFile_of_extend {left : ℕ} {config found : ProjectConfig} {path : String}
    (h : extend fs left config path = .ok found) : ∃ v, readFile fs path = .ok v := by
  cases left <;>
  · obtain ⟨v, hread, -⟩ := exists_of_bind_eq_ok h
    exact ⟨v, hread⟩

/-- A configuration file given from the root has settings from the root. -/
theorem fromRoot_of_load {path : String} {config : ProjectConfig}
    (hpath : isAbsolute path.toList = true) (h : load fs path = .ok config) : config.FromRoot := by
  rw [load] at h
  obtain ⟨v, hread⟩ := exists_readFile_of_extend h
  have hstart : FromRoot { configPath := path, pathsBase := directory path } :=
    ⟨(fun base hbase => nomatch hbase), isAbsolute_directory hpath hread⟩
  exact fromRoot_extend hstart hpath h

theorem isAbsolute_of_mem_candidates {config : ProjectConfig} (h : config.FromRoot)
    {name path : String} (hmem : path ∈ config.candidates name) :
    isAbsolute path.toList = true := by
  rcases List.mem_append.1 hmem with hmem | hmem
  · obtain ⟨⟨pattern, capture, targets⟩, -, hmem⟩ := List.mem_flatMap.1 hmem
    obtain ⟨target, -, rfl⟩ := List.mem_map.1 hmem
    exact isAbsolute_join h.paths _
  · obtain ⟨base, hbase, rfl⟩ := Option.map_eq_some_iff.1 (Option.mem_toList.1 hmem)
    exact isAbsolute_join (h.base base hbase) name

end ProjectConfig

/-! ### Units -/

namespace Load

open PathName

variable {fs : FileSystem} {parser : SourceParser} {project : Option ProjectConfig}

/-- With settings from the root, what a file from the root imports is a path from the root. -/
theorem isAbsolute_of_resolve? (hproject : ∀ config, project = some config → config.FromRoot)
    {file specifier path : String} (hfile : isAbsolute file.toList = true)
    (h : resolve? fs project file specifier = some path) : isAbsolute path.toList = true := by
  obtain ⟨dir, base, hdir, hprobe, hbase⟩ := exists_of_resolve? h
  obtain ⟨-, n, hn, hrooted⟩ := exists_of_probe? hprobe
  rw [hn, NormalForm.isAbsolute_text, hrooted]
  rcases hbase with rfl | ⟨config, hconfig, hmem⟩
  · exact isAbsolute_join (isAbsolute_parent? hfile hdir) specifier
  · exact ProjectConfig.isAbsolute_of_mem_candidates (hproject config hconfig) hmem

theorem isNormal_of_reaches {entry : String} (hentry : IsNormal entry) {trail : List ℕ}
    {path : String} (h : Reaches fs parser project entry trail path) : IsNormal path := by
  cases h with
  | entry => exact hentry
  | step h himport =>
    obtain ⟨unit, specifier, -, -, hresolve⟩ := himport
    exact (isNormal_of_resolve? hresolve).1

/-- With settings from the root, an entry from the root reaches paths from the root only. -/
theorem isAbsolute_of_reaches (hproject : ∀ config, project = some config → config.FromRoot)
    {entry : String} (hentry : isAbsolute entry.toList = true) {trail : List ℕ} {path : String}
    (h : Reaches fs parser project entry trail path) : isAbsolute path.toList = true := by
  induction h with
  | entry => exact hentry
  | step h himport ih =>
    obtain ⟨unit, specifier, -, -, hresolve⟩ := himport
    exact isAbsolute_of_resolve? hproject ih hresolve

theorem exists_reaches {entry : String} {p : Program} (h : IsReached fs parser project entry p)
    {i : ℕ} (hi : i < p.units.size) :
    ∃ trail, Reaches fs parser project entry trail (p.unit i).path :=
  ((h.units _ _).1 ⟨i, hi, rfl, rfl⟩).1

/-- **Units are files.** Two units of a loaded program that are one file are one unit; unless one
path goes up from where it starts and the other does not, or one is from the root and the other is
not, which takes settings from a configuration file with a relative path. -/
theorem unit_eq_of_location_eq {configPath : Option String} {entry : String} {p : Program}
    (hproject : configPath.mapM (ProjectConfig.load fs) = .ok project)
    (hload : (load fs parser project entry).2 = .ok p) {i j : ℕ} (hi : i < p.units.size)
    (hj : j < p.units.size)
    (hl : location fs.workdir (p.unit i).path = location fs.workdir (p.unit j).path) :
    i = j ∨ climbs (p.unit i).path ≠ climbs (p.unit j).path ∨
      isAbsolute (p.unit i).path.toList ≠ isAbsolute (p.unit j).path.toList ∧
        ∃ path, configPath = some path ∧ isAbsolute path.toList = false := by
  have hreached := isReached_of_load hload
  obtain ⟨trail, hti⟩ := exists_reaches hreached hi
  obtain ⟨trail', htj⟩ := exists_reaches hreached hj
  by_cases hroot : isAbsolute (p.unit i).path.toList = isAbsolute (p.unit j).path.toList
  · by_cases hclimbs : climbs (p.unit i).path = climbs (p.unit j).path
    · have hentry := isNormal_normalize (fs.absolute entry)
      have hpath := eq_of_location_eq (isNormal_of_reaches hentry hti)
        (isNormal_of_reaches hentry htj) hroot hclimbs hl
      exact Or.inl (hreached.once i hi j hj hpath)
    · exact Or.inr (Or.inl hclimbs)
  · refine Or.inr (Or.inr ⟨hroot, ?_⟩)
    by_contra hpath
    have hfromRoot : ∀ config, project = some config → config.FromRoot := by
      rintro config rfl
      cases configPath with
      | none => cases hproject
      | some path =>
        obtain ⟨found, hfound, h⟩ := exists_of_bind_eq_ok hproject
        cases h
        refine ProjectConfig.fromRoot_of_load ?_ hfound
        by_contra hrelative
        exact hpath ⟨path, rfl, by simpa using hrelative⟩
    have hentry : isAbsolute (normalize (fs.absolute entry)).toList = true := by
      obtain ⟨n, hn, hrooted⟩ := exists_normalize (fs.absolute entry)
      rw [hn, NormalForm.isAbsolute_text, hrooted, FileSystem.isAbsolute_absolute]
    exact hroot ((isAbsolute_of_reaches hfromRoot hentry hti).trans
      (isAbsolute_of_reaches hfromRoot hentry htj).symm)

/-- A `..` at the root is kept, though it leads nowhere. -/
example : normalize "/../lib.ts" = "/../lib.ts" ∧
    location ["app".toList] "/../lib.ts" = location ["app".toList] "/lib.ts" := by
  decide +kernel

/-! ### Settings from the working directory -/

/-- A file that imports another one by its path and as a module of the project. -/
def aliasedFiles : FileSystem where
  workdir := ["app".toList]
  entries := [
    (["app".toList, "main.ts".toList], .text "import './lib';import 'lib';"),
    (["app".toList, "lib.ts".toList], .text ""),
    (["app".toList, "tsconfig.json".toList],
      .text "\x7b\"compilerOptions\": \x7b\"baseUrl\": \".\"\x7d\x7d")]

def aliasedRows : Array Row := #[
  ⟨none, "program", none, true, 0, 28⟩,
  ⟨some 0, "import_statement", none, true, 0, 15⟩,
  ⟨some 1, "string", some "source", true, 7, 14⟩,
  ⟨some 2, "string_fragment", none, true, 8, 13⟩,
  ⟨some 0, "import_statement", none, true, 15, 28⟩,
  ⟨some 4, "string", some "source", true, 22, 27⟩,
  ⟨some 5, "string_fragment", none, true, 23, 26⟩]

def aliasedParser : SourceParser := fun _ source =>
  some ⟨if source = "" then #[⟨none, "program", none, true, 0, 0⟩] else aliasedRows, false⟩

def aliasedConfig : ProjectConfig :=
  { configPath := "tsconfig.json", baseUrl := some ".", pathsBase := "." }

theorem load_aliasedConfig :
    ProjectConfig.load aliasedFiles "tsconfig.json" = .ok aliasedConfig :=
  of_toOption_eq_some (by decide +kernel)

def aliasedMain : SourceUnit := SourceUnit.ofRows "/app/main.ts" (originOf "/app/main.ts")
  "import './lib';import 'lib';" aliasedRows []

theorem parsesTo_aliasedMain :
    ParsesTo aliasedFiles aliasedParser "/app/main.ts" aliasedMain :=
  ⟨_, .typeScript, ⟨aliasedRows, false⟩, of_toOption_eq_some (by decide +kernel), by decide +kernel,
    rfl, rfl⟩

/-- The imported file is reached from the root and from the working directory. -/
theorem reaches_aliased :
    Reaches aliasedFiles aliasedParser (some aliasedConfig) "/app/main.ts" [1] "/app/lib.ts" ∧
      Reaches aliasedFiles aliasedParser (some aliasedConfig) "/app/main.ts" [4] "lib.ts" := by
  have hcandidates : aliasedConfig.candidates "lib" = ["./lib"] := by
    have hfitting : aliasedConfig.fitting "lib".toList = [] := List.mergeSort_nil
    rw [ProjectConfig.candidates, hfitting]
    decide +kernel
  have hmodule :
      resolve? aliasedFiles (some aliasedConfig) "/app/main.ts" "lib" = some "lib.ts" := by
    have hparent : PathName.parent? "/app/main.ts" = some "/app" := by decide +kernel
    rw [resolve?, hparent, Option.bind_eq_bind, Option.bind_some, if_neg (by decide +kernel),
      Option.bind_eq_bind, Option.bind_some, hcandidates]
    decide +kernel
  refine ⟨.step .entry ⟨aliasedMain, "./lib", parsesTo_aliasedMain, ?_, by decide +kernel⟩,
    .step .entry ⟨aliasedMain, "lib", parsesTo_aliasedMain, ?_, hmodule⟩⟩
  · exact SourceUnit.mentions_iff.2 (by decide +kernel)
  · exact SourceUnit.mentions_iff.2 (by decide +kernel)

/-- The imported file is two units. -/
theorem exists_aliased : ∃ p,
    (load aliasedFiles aliasedParser (some aliasedConfig) "main.ts").2 = .ok p ∧
    ∃ i < p.units.size, ∃ j < p.units.size,
      (p.unit i).path = "/app/lib.ts" ∧ (p.unit j).path = "lib.ts" := by
  have hentry : PathName.normalize (aliasedFiles.absolute "main.ts") = "/app/main.ts" := by
    decide +kernel
  have hmain := parsesTo_aliasedMain
  rw [← hentry] at hmain
  obtain ⟨p, hload, hreached⟩ := exists_load (some aliasedConfig) (by decide +kernel) hmain
  rw [hentry] at hreached
  have hunit : ∀ path, Language.ofPath? path = some .typeScript →
      (aliasedFiles.readText path).toOption = some "" →
      (∃ trail, Reaches aliasedFiles aliasedParser (some aliasedConfig) "/app/main.ts" trail path) →
      ∃ i < p.units.size, (p.unit i).path = path := by
    intro path hlanguage hread hreaches
    obtain ⟨i, hi, hpath, -⟩ := (hreached.units path _).2
      ⟨hreaches, _, _, _, of_toOption_eq_some hread, hlanguage, rfl, rfl⟩
    exact ⟨i, hi, hpath⟩
  obtain ⟨i, hi, hpath⟩ := hunit "/app/lib.ts" (by decide +kernel) (by decide +kernel)
    ⟨_, reaches_aliased.1⟩
  obtain ⟨j, hj, hpath'⟩ := hunit "lib.ts" (by decide +kernel) (by decide +kernel)
    ⟨_, reaches_aliased.2⟩
  exact ⟨p, hload, i, hi, j, hj, hpath, hpath'⟩

theorem location_aliased :
    location aliasedFiles.workdir "/app/lib.ts" = location aliasedFiles.workdir "lib.ts" := by
  decide +kernel

/-- The units of the imported file start in two ways. -/
theorem unit_eq_of_location_eq_aliased : ∃ p i j,
    (some "tsconfig.json").mapM (ProjectConfig.load aliasedFiles) = .ok (some aliasedConfig) ∧
    (load aliasedFiles aliasedParser (some aliasedConfig) "main.ts").2 = .ok p ∧
    i < p.units.size ∧ j < p.units.size ∧
    location aliasedFiles.workdir (p.unit i).path = location aliasedFiles.workdir (p.unit j).path ∧
    (i = j ∨ climbs (p.unit i).path ≠ climbs (p.unit j).path ∨
      isAbsolute (p.unit i).path.toList ≠ isAbsolute (p.unit j).path.toList ∧
        ∃ path, some "tsconfig.json" = some path ∧ isAbsolute path.toList = false) := by
  obtain ⟨p, hload, i, hi, j, hj, hpath, hpath'⟩ := exists_aliased
  have hproject : (some "tsconfig.json").mapM (ProjectConfig.load aliasedFiles) =
      .ok (some aliasedConfig) := by
    rw [Option.mapM_some, load_aliasedConfig]
    rfl
  have hl : location aliasedFiles.workdir (p.unit i).path =
      location aliasedFiles.workdir (p.unit j).path := by
    rw [hpath, hpath', location_aliased]
  exact ⟨p, i, j, hproject, hload, hi, hj, hl, unit_eq_of_location_eq hproject hload hi hj hl⟩

/-- A file that is imported by its path and through settings from the working directory is loaded
twice. -/
theorem exists_units_of_one_file : ∃ config p,
    ProjectConfig.load aliasedFiles "tsconfig.json" = .ok config ∧
    (load aliasedFiles aliasedParser (some config) "main.ts").2 = .ok p ∧
    ∃ i < p.units.size, ∃ j < p.units.size, i ≠ j ∧
      location aliasedFiles.workdir (p.unit i).path =
        location aliasedFiles.workdir (p.unit j).path := by
  obtain ⟨p, hload, i, hi, j, hj, hpath, hpath'⟩ := exists_aliased
  refine ⟨aliasedConfig, p, load_aliasedConfig, hload, i, hi, j, hj, ?_, ?_⟩
  · rintro rfl
    rw [hpath] at hpath'
    exact absurd hpath' (by decide)
  · rw [hpath, hpath', location_aliased]

end Load

end RouteContract
