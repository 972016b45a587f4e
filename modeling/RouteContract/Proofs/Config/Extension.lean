import Mathlib
import RouteContract.Config.Project

/-!
# Settings of files that extend one another

A configuration file may extend another one, and so on: a chain of files, from the one that is
loaded on (`Chain`). Settings come from the nearest files that have them (`settings`), and loading
puts them together from the far end: one more file in front of a chain is one more override
(`override_settings`). After eight steps a file is taken as if it extended none, so that loading
ends on files that extend one another in a circle, too (`load_chain`).
-/

namespace RouteContract.ProjectConfig

/-- A configuration file that was read. -/
structure Layer where
  path : String
  value : Json

namespace Layer

variable (l : Layer)

def dir : String := directory l.path

/-- The options of the compiler. -/
def options? : Option Json := field? "compilerOptions" l.value

/-- The base directory, seen from the directory of the file. -/
def baseUrl? : Option String := (l.options?.bind (textField? "baseUrl")).map (PathName.join l.dir)

/-- The patterns, when they are an object. -/
def patterns? : Option (Entries (List String)) :=
  match l.options?.bind (field? "paths") with
  | some (.obj patterns) => some (patterns.map fun (pattern, targets) => (pattern, texts targets))
  | _ => none

/-- The file that is extended. -/
def next? : Option String := extended? l.dir l.value

end Layer

variable {fs : FileSystem} {path : String} {files : List Layer} {beyond : Option String}

/-- Files that were read from a path on, each extended by the one before it, and the path of the
file that is next. -/
inductive Chain (fs : FileSystem) : String → List Layer → Option String → Prop
  | start (path : String) : Chain fs path [] (some path)
  | last {path : String} {v : Json} (hread : readFile fs path = .ok v)
      (hnext : Layer.next? ⟨path, v⟩ = none) : Chain fs path [⟨path, v⟩] none
  | extending {path target : String} {v : Json} {files : List Layer} {beyond : Option String}
      (hread : readFile fs path = .ok v) (hnext : Layer.next? ⟨path, v⟩ = some target)
      (rest : Chain fs target files beyond) : Chain fs path (⟨path, v⟩ :: files) beyond

/-- The settings of a file and of those behind it in its chain, the nearest first. The patterns are
seen from the base directory, or without one from the directory of the file that they are from. -/
def settings (path : String) (files : List Layer) : ProjectConfig where
  configPath := path
  baseUrl := files.findSome? Layer.baseUrl?
  paths := (files.findSome? Layer.patterns?).getD []
  pathsBase := (files.findSome? Layer.baseUrl?).getD
    (((files.find? fun l => l.patterns?.isSome).map Layer.dir).getD (directory path))

/-- The settings of a file that are put over others. Its patterns move their directory only when
there is no base directory. -/
theorem override_layer (config : ProjectConfig) (l : Layer) :
    config.override l.dir l.value =
      { configPath := config.configPath
        baseUrl := l.baseUrl?.or config.baseUrl
        paths := l.patterns?.getD config.paths
        pathsBase := l.baseUrl?.getD
          (if l.patterns?.isSome ∧ config.baseUrl = none then l.dir else config.pathsBase) } := by
  unfold override Layer.baseUrl? Layer.patterns? Layer.options?
  cases hoptions : field? "compilerOptions" l.value with
  | none => rfl
  | some options =>
    rw [Option.bind_some, Option.bind_some]
    -- patterns that are no object are as none
    cases hbase : textField? "baseUrl" options with
    | some base =>
      rcases hpaths : field? "paths" options with _ | (_ | _ | _ | _ | _ | patterns) <;>
        simp [hbase, hpaths]
    | none =>
      rcases hpaths : field? "paths" options with _ | (_ | _ | _ | _ | _ | patterns) <;>
        simp [hbase, hpaths]

/-- A file in front of a chain overrides the settings of the chain. -/
theorem override_settings (path : String) (l : Layer) (files : List Layer) :
    (settings path files).override l.dir l.value = settings path (l :: files) := by
  rw [override_layer]
  unfold settings
  rw [List.findSome?_cons, List.findSome?_cons, List.find?_cons]
  cases l.baseUrl? with
  | some base => cases l.patterns? <;> rfl
  | none =>
    cases hbase : files.findSome? Layer.baseUrl? with
    | some base => cases l.patterns? <;> simp
    | none => cases l.patterns? <;> simp

/-! ### Following a chain -/

/-- A file that extends none, or is the last that may be read, overrides what is there. -/
theorem extend_of_last {v : Json} (hread : readFile fs path = .ok v) {limit : Nat}
    (hend : Layer.next? ⟨path, v⟩ = none ∨ limit = 0) (config : ProjectConfig) :
    extend fs limit config path = .ok (config.override (directory path) v) := by
  cases limit with
  | zero =>
    rw [extend, hread]
    rfl
  | succ limit =>
    have hnext : extended? (directory path) v = none := hend.resolve_right (Nat.succ_ne_zero _)
    rw [extend, hread]
    dsimp only [Bind.bind, Except.bind]
    rw [hnext]
    rfl

/-- A file that extends another overrides what comes of that one. -/
theorem extend_of_next {v : Json} {target : String} (hread : readFile fs path = .ok v)
    (hnext : Layer.next? ⟨path, v⟩ = some target) (limit : Nat) (config : ProjectConfig) :
    extend fs (limit + 1) config path =
      (extend fs limit config target).map fun config => config.override (directory path) v := by
  have hnext : extended? (directory path) v = some target := hnext
  rw [extend, hread]
  dsimp only [Bind.bind, Except.bind]
  rw [hnext]
  dsimp only
  cases extend fs limit config target <;> rfl

theorem extend_of_error {e : Failure} (hread : readFile fs path = .error e) (limit : Nat)
    (config : ProjectConfig) : extend fs limit config path = .error e := by
  cases limit <;> rw [extend, hread] <;> rfl

/-- The settings of a chain that ends, or that is as long as a chain may be. -/
theorem extend_of_chain (h : Chain fs path files beyond) {limit : Nat} (config : String)
    (hlength : files.length ≤ limit + 1) (hend : beyond = none ∨ files.length = limit + 1) :
    extend fs limit (settings config []) path = .ok (settings config files) := by
  induction h generalizing limit with
  | start path => simp at hend
  | @last path v hread hnext =>
    rw [extend_of_last hread (Or.inl hnext)]
    exact congrArg Except.ok (override_settings config ⟨path, v⟩ [])
  | @extending path target v files beyond hread hnext rest ih =>
    have hover := override_settings config ⟨path, v⟩ files
    rw [List.length_cons] at hlength hend
    cases limit with
    | zero =>
      have hfiles : files = [] := List.length_eq_zero_iff.1 (by omega)
      subst hfiles
      rw [extend_of_last hread (Or.inr rfl)]
      exact congrArg Except.ok hover
    | succ limit =>
      rw [extend_of_next hread hnext, ih (by omega) (hend.imp_right fun h => by omega)]
      exact congrArg Except.ok hover

/-- A file of a chain that cannot be read. -/
theorem extend_of_broken {target : String} {e : Failure} (h : Chain fs path files (some target))
    {limit : Nat} (hlength : files.length ≤ limit) (hread : readFile fs target = .error e)
    (config : ProjectConfig) : extend fs limit config path = .error e := by
  generalize hb : some target = beyond at h
  induction h generalizing limit with
  | start path =>
    cases hb
    exact extend_of_error hread limit config
  | last => cases hb
  | @extending path next v files beyond hthis hnext rest ih =>
    rw [List.length_cons] at hlength
    obtain ⟨limit, rfl⟩ : ∃ n, limit = n + 1 := Nat.exists_eq_add_one_of_ne_zero (by omega)
    rw [extend_of_next hthis hnext, ih (by omega) hb]
    rfl

/-- A chain is followed until it ends, or is as long as it may be, or a file cannot be read. -/
theorem exists_chain (fs : FileSystem) (limit : Nat) (path : String) :
    ∃ files beyond, Chain fs path files beyond ∧
      (files.length ≤ limit + 1 ∧ (beyond = none ∨ files.length = limit + 1) ∨
        ∃ target e, beyond = some target ∧ files.length ≤ limit ∧
          readFile fs target = .error e) := by
  induction limit generalizing path with
  | zero =>
    cases hread : readFile fs path with
    | error e => exact ⟨[], some path, .start path, Or.inr ⟨path, e, rfl, Nat.le_refl _, hread⟩⟩
    | ok v =>
      cases hnext : Layer.next? ⟨path, v⟩ with
      | none => exact ⟨_, none, .last hread hnext, Or.inl ⟨Nat.le_refl _, Or.inl rfl⟩⟩
      | some target =>
        exact ⟨_, some target, .extending hread hnext (.start target),
          Or.inl ⟨Nat.le_refl _, Or.inr rfl⟩⟩
  | succ limit ih =>
    cases hread : readFile fs path with
    | error e => exact ⟨[], some path, .start path, Or.inr ⟨path, e, rfl, Nat.zero_le _, hread⟩⟩
    | ok v =>
      cases hnext : Layer.next? ⟨path, v⟩ with
      | none => exact ⟨_, none, .last hread hnext, Or.inl ⟨by simp, Or.inl rfl⟩⟩
      | some target =>
        obtain ⟨files, beyond, hchain, hend⟩ := ih target
        refine ⟨_, beyond, .extending hread hnext hchain, ?_⟩
        rw [List.length_cons]
        rcases hend with ⟨hlength, hend⟩ | ⟨last, e, hbeyond, hlength, hlast⟩
        · exact Or.inl ⟨by omega, hend.imp_right fun h => by omega⟩
        · exact Or.inr ⟨last, e, hbeyond, by omega, hlast⟩

/-- A file that cannot be read is named by the failure. -/
theorem exists_fault {e : Failure} (h : readFile fs path = .error e) :
    ∃ fault, e = .config path fault := by
  unfold readFile at h
  split at h
  · exact ⟨_, (Except.error.inj h).symm⟩
  · split at h
    · exact ⟨_, (Except.error.inj h).symm⟩
    · cases h

/-- **Loading a chain of files.** The settings of a chain of at most eight steps are the nearest
ones, and so are those of a longer chain, in which no more than eight steps count. A file of these
that cannot be read is what loading fails with. And whatever files extend one another, be it in a
circle, one of these cases applies, so that loading ends. -/
theorem load_chain (fs : FileSystem) (path : String) :
    (∀ files, Chain fs path files none → files.length ≤ 9 →
      load fs path = .ok (settings path files)) ∧
    (∀ files beyond, Chain fs path files beyond → files.length = 9 →
      load fs path = .ok (settings path files)) ∧
    (∀ files target e, Chain fs path files (some target) → files.length ≤ 8 →
      readFile fs target = .error e →
      load fs path = .error e ∧ ∃ fault, e = .config target fault) ∧
    ∃ files beyond, Chain fs path files beyond ∧
      (files.length ≤ 9 ∧ (beyond = none ∨ files.length = 9) ∨
        ∃ target e, beyond = some target ∧ files.length ≤ 8 ∧ readFile fs target = .error e) :=
  ⟨fun _ h hlength => extend_of_chain h path hlength (Or.inl rfl),
    fun _ _ h hlength => extend_of_chain h path (Nat.le_of_eq hlength) (Or.inr hlength),
    fun _ _ _ h hlength hread => ⟨extend_of_broken h hlength hread _, exists_fault hread⟩,
    exists_chain fs 8 path⟩

/-! ### A chain, a circle and a chain that breaks -/

/-- A text in braces. -/
def braced (text : String) : String := "\x7b" ++ text ++ "\x7d"

/-- Three files of which each but the last extends the next, one that extends itself, and one that
extends a file that is not there. -/
def chainedFiles : FileSystem where
  entries :=
    [(["app".toList, "tsconfig.json".toList], .text
        (braced ("'extends': '../base', 'compilerOptions': " ++ braced "'baseUrl': 'src'"))),
      (["base.json".toList], .text (braced ("'extends': './far.json', 'compilerOptions': " ++
        braced ("'paths': " ++ braced "'@/*': ['lib/*']," ++ ", ") ++ ", "))),
      (["far.json".toList], .text (braced ("'compilerOptions': " ++
        braced ("'baseUrl': 'root', 'paths': " ++ braced "'x': []")) ++ " // the last")),
      (["ring.json".toList], .text (braced "'extends': './ring.json'")),
      (["cut.json".toList], .text (braced "'extends': './none'"))]

/-- What counts of a file: the file that it extends, and its own settings. -/
def Layer.given (l : Layer) : Option String × Option String × Option (Entries (List String)) :=
  (l.next?, l.baseUrl?, l.patterns?)

theorem exists_readFile (fs : FileSystem) (path : String)
    (given : Option String × Option String × Option (Entries (List String)))
    (h : (readFile fs path).toOption.map (fun v => Layer.given ⟨path, v⟩) = some given) :
    ∃ v, readFile fs path = .ok v ∧ Layer.given ⟨path, v⟩ = given := by
  cases hread : readFile fs path with
  | error e =>
    rw [hread] at h
    cases h
  | ok v =>
    rw [hread] at h
    exact ⟨v, rfl, Option.some.inj h⟩

theorem load_chain_chained :
    (∃ files, Chain chainedFiles "/app/tsconfig.json" files none ∧ files.length = 3 ∧
      load chainedFiles "/app/tsconfig.json" = .ok
        { configPath := "/app/tsconfig.json", baseUrl := some "/app/src",
          paths := [("@/*", ["lib/*"])], pathsBase := "/app/src" }) ∧
    (∃ files beyond, Chain chainedFiles "/ring.json" files beyond ∧ files.length = 9 ∧
      load chainedFiles "/ring.json" = .ok { configPath := "/ring.json", pathsBase := "/" }) ∧
    ∃ files target e, Chain chainedFiles "/cut.json" files (some target) ∧ files.length = 1 ∧
      readFile chainedFiles target = .error e ∧
      load chainedFiles "/cut.json" = .error (.config "/./none.json" (.file .missing)) := by
  have hload := load_chain chainedFiles
  refine ⟨?_, ?_, ?_⟩
  · obtain ⟨app, happ, gapp⟩ := exists_readFile chainedFiles "/app/tsconfig.json"
      (some "/app/../base.json", some "/app/src", none) (by decide +kernel)
    obtain ⟨base, hbase, gbase⟩ := exists_readFile chainedFiles "/app/../base.json"
      (some "/app/.././far.json", none, some [("@/*", ["lib/*"])]) (by decide +kernel)
    obtain ⟨far, hfar, gfar⟩ := exists_readFile chainedFiles "/app/.././far.json"
      (none, some "/app/../root", some [("x", [])]) (by decide +kernel)
    simp only [Layer.given, Prod.mk.injEq] at gapp gbase gfar
    have hchain := Chain.extending happ gapp.1 (.extending hbase gbase.1 (.last hfar gfar.1))
    refine ⟨_, hchain, rfl, ?_⟩
    rw [(hload _).1 _ hchain (by simp)]
    simp [settings, gapp, gbase]
  · obtain ⟨first, hfirst, gfirst⟩ := exists_readFile chainedFiles "/ring.json"
      (some "/./ring.json", none, none) (by decide +kernel)
    obtain ⟨v, hv, gv⟩ := exists_readFile chainedFiles "/./ring.json"
      (some "/./ring.json", none, none) (by decide +kernel)
    simp only [Layer.given, Prod.mk.injEq] at gfirst gv
    have hring : ∀ n, Chain chainedFiles "/./ring.json" (List.replicate n ⟨"/./ring.json", v⟩)
        (some "/./ring.json") := by
      intro n
      induction n with
      | zero => exact .start _
      | succ n ih => exact .extending hv gv.1 ih
    have hchain := Chain.extending hfirst gfirst.1 (hring 8)
    refine ⟨_, _, hchain, rfl, ?_⟩
    rw [(hload _).2.1 _ _ hchain rfl]
    have hdir : directory "/ring.json" = "/" := by decide +kernel
    simp [settings, gfirst, gv, hdir]
  · obtain ⟨v, hv, gv⟩ := exists_readFile chainedFiles "/cut.json"
      (some "/./none.json", none, none) (by decide +kernel)
    simp only [Layer.given, Prod.mk.injEq] at gv
    have hchain : Chain chainedFiles "/cut.json" [⟨"/cut.json", v⟩] (some "/./none.json") :=
      .extending hv gv.1 (.start _)
    have hmissing : chainedFiles.readText "/./none.json" = .error .missing := by decide +kernel
    have hread : readFile chainedFiles "/./none.json" =
        .error (.config "/./none.json" (.file .missing)) := by
      rw [readFile, hmissing]
    exact ⟨_, _, _, hchain, rfl, hread, ((hload _).2.2.1 _ _ _ hchain (by simp) hread).1⟩

end RouteContract.ProjectConfig
