import RouteContract.File.Kind

/-!
# Command line arguments

The arguments of a run: the entry file and the output file, in this order, and options anywhere
between them. The value of an option is joined to it or is the next argument; options of one letter
may stand together after one dash, and after `--` every argument is a file.

Arguments are read from the left. A value is looked at only when the next option or file comes, or
at the end, so an unknown option is reported before a bad value directly in front of it.
-/

namespace RouteContract

/-- The arguments of a run. -/
structure Arguments where
  entry : String
  output : String
  project : Option String := none
  config : Option String := none
  format : Option Format := none
  title : Option String := none
  apiVersion : Option String := none
  servers : List String := []
  verbose : Bool := false
deriving DecidableEq, Repr, Inhabited

/-- Why arguments do not make a run. -/
inductive ArgumentError where
  | missingArgument
  | unknownArgument
  | invalidValue
  | repeated
  | unneededValue
  | helpRequested
  | versionRequested
deriving DecidableEq, Repr

namespace Arguments

/-- The format of the output: the one asked for, or that of the name of the output file. -/
def outputFormat (a : Arguments) : Format := a.format.getD (Format.ofPath a.output)

/-- The arguments that have a value. -/
inductive Slot where
  | entry | output | project | config | format | title | apiVersion | server
deriving DecidableEq, Repr

/-- The options that have no value. -/
inductive Flag where
  | verbose | help | version
deriving DecidableEq, Repr

/-- An option. -/
inductive Choice where
  | slot (slot : Slot)
  | flag (flag : Flag)
deriving DecidableEq, Repr

/-- The option of a name. -/
def ofName? : String → Option Choice
  | "project" => some (.slot .project)
  | "config" => some (.slot .config)
  | "format" => some (.slot .format)
  | "title" => some (.slot .title)
  | "api-version" => some (.slot .apiVersion)
  | "server" => some (.slot .server)
  | "verbose" => some (.flag .verbose)
  | "help" => some (.flag .help)
  | "version" => some (.flag .version)
  | _ => none

/-- The option of a letter. -/
def ofLetter? : Char → Option Choice
  | 'p' => some (.slot .project)
  | 'c' => some (.slot .config)
  | 'f' => some (.slot .format)
  | 'v' => some (.flag .verbose)
  | 'h' => some (.flag .help)
  | 'V' => some (.flag .version)
  | _ => none

/-- The format of a name. -/
def formatOfName? : String → Option Format
  | "json" => some .json
  | "yaml" => some .yaml
  | _ => none

/-- Whether a slot accepts a value: a path is not empty, and a format is known. -/
def Slot.accepts (slot : Slot) (value : String) : Bool :=
  match slot with
  | .entry | .output | .project | .config => !value.isEmpty
  | .format => (formatOfName? value).isSome
  | .title | .apiVersion | .server => true

/-- What the arguments read so far say. -/
structure Reading where
  /-- The values given, in order. -/
  given : List (Slot × String) := []
  verbose : Bool := false
  /-- The last option or file, which is not looked at yet; an option may still wait for its
  value. -/
  pending : Option (Slot × Option String) := none
  /-- The files that are still to come. -/
  files : List Slot := [.entry, .output]
  /-- Whether only files follow. -/
  trailing : Bool := false
deriving Repr, Inhabited

namespace Reading

variable (r : Reading)

/-- Whether a slot has a value. -/
def has (slot : Slot) : Bool := r.given.any fun (s, _) => s = slot

/-- Take a value for a slot. Only servers may be given more than once. -/
def give (slot : Slot) (value : String) : Except ArgumentError Reading :=
  if slot ≠ .server ∧ r.has slot then .error .repeated
  else if slot.accepts value then .ok { r with given := r.given ++ [(slot, value)] }
  else .error .invalidValue

/-- Look at what is pending. -/
def settle : Except ArgumentError Reading :=
  match r.pending with
  | none => .ok r
  | some (_, none) => .error .invalidValue
  | some (slot, some value) => { r with pending := none }.give slot value

/-- An option with no value. -/
def flag (f : Flag) : Except ArgumentError Reading := do
  let r ← r.settle
  match f with
  | .help => .error .helpRequested
  | .version => .error .versionRequested
  | .verbose => if r.verbose then .error .repeated else .ok { r with verbose := true }

/-- An option with its value joined to it. -/
def joined (slot : Slot) (value : String) : Except ArgumentError Reading := do
  (← r.settle).give slot value

/-- An option that waits for its value. -/
def await (slot : Slot) : Except ArgumentError Reading := do
  let r ← r.settle
  return { r with pending := some (slot, none) }

/-- An option by its name, after two dashes. -/
def long (text : List Char) : Except ArgumentError Reading :=
  let name := String.ofList (text.takeWhile (· ≠ '='))
  let value := match text.dropWhile (· ≠ '=') with
    | [] => none
    | _ :: value => some (String.ofList value)
  match ofName? name, value with
  | none, _ => .error .unknownArgument
  | some (.slot slot), some value => r.joined slot value
  | some (.slot slot), none => r.await slot
  | some (.flag _), some _ => .error .unneededValue
  | some (.flag f), none => r.flag f

/-- Options by their letters, after one dash; the text after a letter that takes a value is its
value. -/
def short (r : Reading) : List Char → Except ArgumentError Reading
  | [] => .ok r
  | letter :: rest =>
    match ofLetter? letter with
    | none => .error .unknownArgument
    | some (.flag f) => do
      let r ← r.flag f
      r.short rest
    | some (.slot slot) =>
      match rest with
      | [] => r.await slot
      | '=' :: value => r.joined slot (String.ofList value)
      | value => r.joined slot (String.ofList value)

/-- A file. -/
def file (value : String) : Except ArgumentError Reading :=
  match r.files with
  | [] => .error .unknownArgument
  | slot :: files => do
    let r ← r.settle
    return { r with pending := some (slot, some value), files }

/-- The value of the pending option, or a file. -/
def value (text : String) : Except ArgumentError Reading :=
  match r.pending with
  | some (slot, none) =>
    if r.trailing then r.file text else .ok { r with pending := some (slot, some text) }
  | _ => r.file text

/-- Read one more argument. -/
def step (r : Reading) (argument : String) : Except ArgumentError Reading :=
  if r.trailing then r.value argument
  else match argument.toList with
    | ['-', '-'] => .ok { r with trailing := true }
    | '-' :: '-' :: text => r.long text
    | '-' :: c :: rest => r.short (c :: rest)
    | _ => r.value argument

/-- The value of a slot. -/
def get? (slot : Slot) : Option String := (r.given.find? fun (s, _) => s = slot).map Prod.snd

/-- The arguments, when both files are there. -/
def finish : Except ArgumentError Arguments := do
  let r ← r.settle
  match r.get? .entry, r.get? .output with
  | some entry, some output =>
    return {
      entry, output
      project := r.get? .project
      config := r.get? .config
      format := (r.get? .format).bind formatOfName?
      title := r.get? .title
      apiVersion := r.get? .apiVersion
      servers := (r.given.filter fun (s, _) => s = .server).map Prod.snd
      verbose := r.verbose }
  | _, _ => .error .missingArgument

end Reading

/-- Read the arguments after the name of the program. -/
def parse (arguments : List String) : Except ArgumentError Arguments := do
  (← arguments.foldlM Reading.step {}).finish

end Arguments

end RouteContract
