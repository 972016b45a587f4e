import RouteContract.Load.Specifier
import RouteContract.Program.Rows

/-!
# Loading a program

A program is the entry file and every source file that it reaches through its imports, in
breadth-first order. A file that cannot be read is left out with a warning; without the entry file
there is no program. The trees come from a parser of the source languages.

The search keeps the paths that are not met yet, among the finitely many that lead to a file: each
step takes a path from the queue, and a path enters the queue when it leaves those not met.
-/

namespace RouteContract

/-- The tree that a parser gives for a source text. -/
structure ParsedSource where
  rows : Array Row
  /-- Whether the source has syntax errors, which the tree leaves out. -/
  hasErrors : Bool := false
deriving Inhabited

/-- A parser of the source languages. -/
abbrev SourceParser := Language → String → Option ParsedSource

namespace Load

/-- Why a source file has no tree. -/
inductive SourceError where
  | unreadable (path : String) (error : FileError)
  | unsupported (path : String)
  | unparsed (path : String)
deriving DecidableEq, Repr

/-- The wording of an error of a source file. -/
def SourceError.message : SourceError → String
  | .unreadable path e => "Failed to read file: " ++ path ++ ": " ++ e.message
  | .unsupported path => "Unsupported source file: " ++ path
  | .unparsed path => "Failed to parse source in file: " ++ path

/-- What is noticed while loading. -/
inductive Warning where
  | entryFailed (error : SourceError)
  | skipped (path : String) (error : SourceError)
  | syntaxErrors (path : String)
deriving DecidableEq, Repr

/-- The wording of a warning. -/
def Warning.message : Warning → String
  | .entryFailed e => e.message
  | .skipped path e => "Skipping " ++ path ++ ": " ++ e.message
  | .syntaxErrors path => "Syntax errors in " ++ path ++ ", analysis may be incomplete"

/-- A source file with its tree, and the file that each of its specifiers leads to. -/
structure SourceFile where
  path : String
  unit : SourceUnit
  hasErrors : Bool
  targets : Entries String
deriving Inhabited

variable (fs : FileSystem) (parser : SourceParser) (project : Option ProjectConfig)

/-- Read and parse the file of a path. -/
def readSource (path : String) : Except SourceError SourceFile :=
  match fs.readText path with
  | .error e => .error (.unreadable path e)
  | .ok source =>
    match Language.ofPath? path with
    | none => .error (.unsupported path)
    | some language =>
      match parser language source with
      | none => .error (.unparsed path)
      | some parsed =>
        let unit := SourceUnit.ofRows path (originOf path) source parsed.rows []
        .ok {
          path, unit, hasErrors := parsed.hasErrors
          targets := unit.specifiers.filterMap fun specifier =>
            (resolve? fs project path specifier).map fun target => (specifier, target) }

/-- Queue a path that is not met yet. -/
def meet (s : List String × List String) (path : String) : List String × List String :=
  if path ∈ s.1 then (s.1.erase path, s.2 ++ [path]) else s

/-- Meeting a path moves it at most from those not met to the queue. -/
theorem length_meet (s : List String × List String) (path : String) :
    (meet s path).1.length + (meet s path).2.length = s.1.length + s.2.length := by
  unfold meet
  split
  · next h =>
    have := List.length_pos_of_mem h
    simp only [List.length_erase_of_mem h, List.length_append, List.length_singleton]
    omega
  · rfl

/-- Meeting several paths keeps the number of paths in the search. -/
theorem length_foldl_meet (paths : List String) (s : List String × List String) :
    (paths.foldl meet s).1.length + (paths.foldl meet s).2.length = s.1.length + s.2.length := by
  induction paths generalizing s with
  | nil => rfl
  | cons path rest ih => rw [List.foldl_cons, ih, length_meet]

/-- The files that are reached from a queue of paths, given the paths that are not met yet. -/
def explore (unmet : List String) : List String → List Warning × List SourceFile
  | [] => ([], [])
  | path :: queue =>
    match readSource fs parser project path with
    | .error e =>
      let (warnings, files) := explore unmet queue
      (.skipped path e :: warnings, files)
    | .ok file =>
      let s := (file.targets.map Prod.snd).foldl meet (unmet, queue)
      let (warnings, files) := explore s.1 s.2
      ((if file.hasErrors then [.syntaxErrors path] else []) ++ warnings, file :: files)
termination_by queue => unmet.length + queue.length
decreasing_by
  · simp only [List.length_cons]
    omega
  · have := length_foldl_meet (file.targets.map Prod.snd) (unmet, queue)
    simp only [List.length_cons] at *
    omega

/-- The program of files, each import linked to the unit that it leads to. -/
def link (files : List SourceFile) : Program :=
  let paths := files.map SourceFile.path
  ⟨(files.map fun file =>
    { file.unit with
      imports := file.targets.filterMap fun (specifier, target) =>
        (paths.findIdx? (· = target)).map fun i => (specifier, i) }).toArray⟩

/-- Load the program of an entry file, which is its first unit. -/
def load (entry : String) : List Warning × Except Failure Program :=
  if !fs.isFile entry then ([], .error (.entryNotFound entry))
  else
    let path := PathName.normalize (fs.absolute entry)
    match readSource fs parser project path with
    | .error e => ([.entryFailed e], .error (.entryNotFound entry))
    | .ok _ =>
      let (warnings, files) := explore fs parser project (fs.fileNames.erase path) [path]
      (warnings, .ok (link files))

end Load

end RouteContract
