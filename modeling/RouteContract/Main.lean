import RouteContract.Command.Run
import RouteContract.Command.Snapshot

/-!
# The command line

The arguments say what to do, and standard input holds the snapshot of the project. The document is
written to the output file, warnings and errors go to standard error.
-/

namespace RouteContract.Command

/-- How the command is used. -/
def usage : String :=
  "Usage: route-contract [OPTIONS] <ENTRY> <OUTPUT>\n\n" ++
  "  -p, --project <TSCONFIG>   module settings of the project\n" ++
  "  -c, --config <FILE>        document settings in JSON or YAML\n" ++
  "  -f, --format <FORMAT>      json or yaml\n" ++
  "      --title <TITLE>        title of the API\n" ++
  "      --api-version <TEXT>   version of the API\n" ++
  "      --server <URL>         URL of a server, may be repeated\n" ++
  "  -v, --verbose              more output\n" ++
  "  -h, --help                 this text\n" ++
  "  -V, --version              the version of the command\n"

/-- The wording of an error of the arguments. -/
def argumentMessage : ArgumentError → String
  | .missingArgument => "an entry file and an output file are required"
  | .unknownArgument => "unexpected argument"
  | .invalidValue => "a value is missing or not valid"
  | .repeated => "an option is repeated"
  | .unneededValue => "an option takes no value"
  | .helpRequested => usage
  | .versionRequested => "route-contract 0.1.0"

/-- Read a stream to its end. -/
partial def readAll (input : IO.FS.Stream) (text : String) : IO String := do
  let line ← input.getLine
  if line.isEmpty then return text else readAll input (text ++ line)

/-- Put the output of a run on the disk. -/
def writeOutput (a : Arguments) (fs : FileSystem) : IO UInt32 := do
  match fs.readText a.output with
  | .error e =>
    IO.eprintln e.message
    return 1
  | .ok text =>
    match (PathName.parent? a.output).filter (!·.isEmpty) with
    | some dir => IO.FS.createDirAll dir
    | none => pure ()
    IO.FS.writeFile a.output text
    return 0

/-- Run on the snapshot on standard input. -/
def runOn (a : Arguments) : IO UInt32 := do
  match Snapshot.parse? (← readAll (← IO.getStdin) "") with
  | none =>
    IO.eprintln "standard input is no snapshot"
    return 1
  | some s =>
    let (warnings, result) := run s.files s.parser a
    for w in warnings do IO.eprintln w.message
    match result with
    | .error e =>
      IO.eprintln e.message
      return 1
    | .ok fs => writeOutput a fs

end RouteContract.Command

open RouteContract RouteContract.Command

/-- The command. -/
def main (arguments : List String) : IO UInt32 := do
  match Arguments.parse arguments with
  | .error .helpRequested =>
    IO.println usage
    return 0
  | .error .versionRequested =>
    IO.println (argumentMessage .versionRequested)
    return 0
  | .error e =>
    IO.eprintln (argumentMessage e)
    return 2
  | .ok a => runOn a
