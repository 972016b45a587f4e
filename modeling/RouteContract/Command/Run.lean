import RouteContract.Command.Arguments
import RouteContract.Config.Generator
import RouteContract.Crawl.Routes
import RouteContract.Load.Reachable
import RouteContract.Types.Resolver
import RouteContract.Yaml.Printer

/-!
# Runs

A run reads the configuration, loads the program of the entry file, crawls its routes, and writes
the document to the output file. Arguments win over the configuration. A run gives the file system
with the output in it, or the reason why there is none, and the warnings up to there.
-/

namespace RouteContract

/-- Why a run gives no output, with what was being done. -/
inductive RunError where
  | failed (failure : Failure)
  | projectConfig (path : String) (failure : Failure)
  | generatorConfig (path : String) (failure : Failure)
  | entry (path : String) (failure : Failure)
  /-- The types of the program could not be resolved. -/
  | unresolved
  | makeDirectory (path : String) (error : FileError)
  | writeFile (path : String) (error : FileError)
deriving DecidableEq, Repr

namespace RunError

/-- What was being done, for an error that says so. -/
def context? : RunError → Option String
  | .projectConfig path _ => some ("Failed to load project config " ++ path)
  | .generatorConfig path _ => some ("Failed to load generator config " ++ path)
  | .entry path _ => some ("Failed to load entry file " ++ path)
  | .makeDirectory path _ => some ("Failed to create directory: " ++ path)
  | .writeFile path _ => some ("Failed to write to file: " ++ path)
  | .failed _ => none
  | .unresolved => none

/-- The wording of what went wrong. -/
def reason : RunError → String
  | .failed f => f.message
  | .projectConfig _ f => f.message
  | .generatorConfig _ f => f.message
  | .entry _ f => f.message
  | .unresolved => "type resolution did not come to an end"
  | .makeDirectory _ e => e.message
  | .writeFile _ e => e.message

/-- The wording of an error. -/
def message (e : RunError) : String :=
  match e.context? with
  | some context => context ++ ": " ++ e.reason
  | none => e.reason

/-- The failure behind an error. -/
def failure? : RunError → Option Failure
  | .failed f => some f
  | .projectConfig _ f => some f
  | .generatorConfig _ f => some f
  | .entry _ f => some f
  | _ => none

end RunError

/-- What is noticed during a run. -/
inductive RunWarning where
  | load (warning : Load.Warning)
  | crawl (warning : Warning)
deriving Repr

/-- The wording of a warning. -/
def RunWarning.message : RunWarning → String
  | .load w => w.message
  | .crawl w => w.message

namespace Run

variable (fs : FileSystem) (parser : SourceParser) (a : Arguments)

/-- Refuse an entry that is no source file. -/
def checkEntry : Except RunError Unit :=
  if !fs.isFile a.entry then .error (.failed (.entryNotFound a.entry))
  else if (Language.ofPath? a.entry).isNone then
    .error (.failed (.invalidArgument ("unsupported entry file type: " ++ a.entry)))
  else .ok ()

/-- The entry as a path from the root. -/
def entryPath : Except RunError String :=
  match fs.canonical a.entry with
  | .ok path => .ok path
  | .error _ => .error (.failed (.entryNotFound a.entry))

/-- The settings of the project: those asked for, or those found from the entry upward. -/
def projectConfig (entry : String) : Except RunError (Option ProjectConfig) :=
  match a.project.or ((PathName.parent? entry).bind (ProjectConfig.find? fs)) with
  | none => .ok none
  | some path =>
    match ProjectConfig.load fs path with
    | .ok config => .ok (some config)
    | .error e => .error (.projectConfig path e)

/-- The configuration asked for. -/
def generatorConfig : Except RunError GeneratorConfig :=
  match a.config with
  | none => .ok {}
  | some path =>
    match GeneratorConfig.load fs path with
    | .ok config => .ok config
    | .error e => .error (.generatorConfig path e)

/-- What the user supplies: the arguments over the configuration. -/
def parts (config : GeneratorConfig) : Parts :=
  let info := config.info.getD {}
  { info :=
      { info with
        title := a.title.getD info.title
        version := a.apiVersion.getD info.version }
    servers :=
      if a.servers.isEmpty then config.servers else a.servers.map fun url => { url }
    securitySchemes := config.securitySchemes
    security := config.security
    schemas := config.schemas }

/-- The text of a document in a format. -/
def render (format : Format) (d : Document) : String :=
  match format with
  | .json => d.toJson.indented
  | .yaml => Yaml.render d.toJson

/-- The routes and schemas of a program, from its first unit. -/
def crawled (markers : List String) (p : Program) : Except RunError (Crawled × List Warning) :=
  match (Crawl.crawl p (Types.oracle p) (Crawl.markersOrDefault markers) 0).run {} with
  | some (found, _) => .ok found
  | none => .error .unresolved

/-- The text of the document of a program. -/
def describe (config : GeneratorConfig) (p : Program) :
    Except RunError (String × List Warning) := do
  let (found, warnings) ← crawled config.directiveMarkers p
  return (render a.outputFormat ((parts a config).build found), warnings)

/-- Write the output file, making the directories above it. -/
def write (text : String) : Except RunError FileSystem := do
  let fs ← match (PathName.parent? a.output).filter (!·.isEmpty) with
    | none => .ok fs
    | some dir =>
      match fs.makeDirectories dir with
      | .ok fs => .ok fs
      | .error e => .error (.makeDirectory dir e)
  match fs.writeText a.output text with
  | .ok fs => .ok fs
  | .error e => .error (.writeFile a.output e)

/-- The path of the entry and the configurations. -/
def prepare : Except RunError (String × Option ProjectConfig × GeneratorConfig) := do
  checkEntry fs a
  let entry ← entryPath fs a
  let project ← projectConfig fs a entry
  let config ← generatorConfig fs a
  return (entry, project, config)

end Run

/-- Run on a file system. -/
def run (fs : FileSystem) (parser : SourceParser) (a : Arguments) :
    List RunWarning × Except RunError FileSystem :=
  match Run.prepare fs a with
  | .error e => ([], .error e)
  | .ok (entry, project, config) =>
    let (notes, loaded) := Load.load fs parser project entry
    let notes := notes.map RunWarning.load
    match loaded with
    | .error e => (notes, .error (.entry entry e))
    | .ok p =>
      match Run.describe a config p with
      | .error e => (notes, .error e)
      | .ok (text, warnings) => (notes ++ warnings.map RunWarning.crawl, Run.write fs a text)

end RouteContract
