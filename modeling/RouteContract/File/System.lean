import RouteContract.File.PathName

/-!
# File systems

A file system is a finite set of files and directories, each at its location: the row of names that
leads to it from the root. A path is followed from the root or from the working directory, piece by
piece: a name must be there, and whatever is followed further must be a directory. Names and paths
have a greatest length in bytes, and no path holds a NUL.

`fileNames` lists every path in normal form that can lead to a file. There are at most four for each
file: from the root, from the working directory, and each of them after one `..`.
-/

namespace RouteContract

/-- The names that lead from the root to a file or directory. -/
abbrev FileLocation := List (List Char)

/-- What stands at a location. -/
inductive FileContent where
  | text (source : String)
  /-- Bytes that are no text. -/
  | binary
  | directory
deriving DecidableEq, Repr, Inhabited

/-- The content of a file with the given bytes. -/
def FileContent.ofBytes (bytes : ByteArray) : FileContent :=
  match String.fromUTF8? bytes with
  | some source => .text source
  | none => .binary

/-- Why a file cannot be read or made. -/
inductive FileError where
  | missing
  | occupied
  | notDirectory
  | isDirectory
  | nameTooLong
  | nulInName
  | notText
deriving DecidableEq, Repr, Inhabited

/-- The wording of a file error. -/
def FileError.message : FileError → String
  | .missing => "No such file or directory (os error 2)"
  | .occupied => "File exists (os error 17)"
  | .notDirectory => "Not a directory (os error 20)"
  | .isDirectory => "Is a directory (os error 21)"
  | .nameTooLong => "File name too long (os error 36)"
  | .nulInName => "file name contained an unexpected NUL byte"
  | .notText => "stream did not contain valid UTF-8"

/-- Files and directories, and the directory from which relative paths are followed. -/
structure FileSystem where
  workdir : FileLocation := []
  entries : List (FileLocation × FileContent) := []
deriving Repr, Inhabited

namespace FileSystem

variable (fs : FileSystem)

/-- What stands at a location; the directories above an entry or the working directory are there. -/
def contentAt? (location : FileLocation) : Option FileContent :=
  match fs.entries.find? fun entry => entry.1 = location with
  | some entry => some entry.2
  | none =>
    if location.isPrefixOf fs.workdir ||
        fs.entries.any fun entry => location.isPrefixOf entry.1 then
      some .directory
    else none

/-- The greatest number of bytes in a name. -/
def nameLimit : Nat := 255

/-- The greatest number of bytes in a path. -/
def pathLimit : Nat := 4095

/-- Refuse a path that leads nowhere in any file system. -/
def checkPath (path : String) : Except FileError Unit :=
  if path.toList.contains '\x00' then .error .nulInName
  else if path.isEmpty then .error .missing
  else if pathLimit < Text.byteSize path.toList then .error .nameTooLong
  else .ok ()

/-- Follow one piece of a path. -/
def follow (location : FileLocation) (piece : List Char) : Except FileError FileLocation :=
  if fs.contentAt? location ≠ some .directory then .error .notDirectory
  else if PathName.isIdle piece then .ok location
  else if piece = ['.', '.'] then .ok location.dropLast
  else if nameLimit < Text.byteSize piece then .error .nameTooLong
  else if (fs.contentAt? (location ++ [piece])).isSome then .ok (location ++ [piece])
  else .error .missing

/-- Where a path starts. -/
def origin (path : List Char) : FileLocation :=
  if PathName.isAbsolute path then [] else fs.workdir

/-- The location that a path leads to. -/
def locate (path : String) : Except FileError FileLocation := do
  checkPath path
  (Text.splitChars '/' path.toList).foldlM fs.follow (fs.origin path.toList)

/-- What a path leads to. -/
def content (path : String) : Except FileError FileContent := do
  let location ← fs.locate path
  match fs.contentAt? location with
  | some content => .ok content
  | none => .error .missing

/-- Whether a path leads to a file. -/
def isFile (path : String) : Bool :=
  match fs.content path with
  | .ok .directory => false
  | .ok _ => true
  | .error _ => false

/-- Whether a path leads to a directory. -/
def isDirectory (path : String) : Bool :=
  match fs.content path with
  | .ok .directory => true
  | _ => false

/-- The text of the file that a path leads to. -/
def readText (path : String) : Except FileError String := do
  match ← fs.content path with
  | .text source => .ok source
  | .binary => .error .notText
  | .directory => .error .isDirectory

/-- The path from the root to a location. -/
def absolutePath (location : FileLocation) : String :=
  String.ofList (PathName.render (.root :: location.map .name))

/-- A path from the root; a relative one is put behind the working directory. -/
def absolute (path : String) : String :=
  if PathName.isAbsolute path.toList then path else PathName.join (absolutePath fs.workdir) path

/-- The path from the root to what a path leads to. -/
def canonical (path : String) : Except FileError String := (fs.locate path).map absolutePath

/-- The paths in normal form that lead to a location. -/
def normalNames (location : FileLocation) : List String :=
  let above := fs.workdir.dropLast
  let names (base : FileLocation) : List PathName.Component :=
    (location.drop base.length).map .name
  let rows : List (List PathName.Component) :=
    [.root :: names [], .root :: .parent :: names []]
      ++ (if fs.workdir.isPrefixOf location then [names fs.workdir] else [])
      ++ (if above.isPrefixOf location then [.parent :: names above] else [])
  rows.map fun row => String.ofList (PathName.render row)

/-- The paths in normal form that lead to a file, each once. -/
def fileNames : List String :=
  ((fs.entries.filter fun entry => entry.2 ≠ .directory).flatMap
    fun entry => fs.normalNames entry.1).eraseDups

/-- Put something at a location. -/
def put (location : FileLocation) (content : FileContent) : FileSystem :=
  { fs with entries := (location, content) :: fs.entries.filter fun entry => entry.1 ≠ location }

/-- Follow one piece of a path, making a directory that is not there. -/
def make (reached : FileSystem × FileLocation) (piece : List Char) :
    Except FileError (FileSystem × FileLocation) :=
  let (fs, location) := reached
  match fs.follow location piece with
  | .ok location => .ok (fs, location)
  | .error .missing => .ok (fs.put (location ++ [piece]) .directory, location ++ [piece])
  | .error e => .error e

/-- Make the directory of a path, with the directories above it. -/
def makeDirectories (path : String) : Except FileError FileSystem := do
  checkPath path
  let (fs, location) ←
    (Text.splitChars '/' path.toList).foldlM make (fs, fs.origin path.toList)
  if fs.contentAt? location = some .directory then .ok fs else .error .occupied

/-- Write the file of a path in a directory that is there; a slash at the end asks for a
directory. -/
def writeText (path source : String) : Except FileError FileSystem := do
  checkPath path
  let pieces := Text.splitChars '/' path.toList
  let named := (pieces.reverse.dropWhile (· = [])).reverse
  let location ← named.dropLast.foldlM fs.follow (fs.origin path.toList)
  if fs.contentAt? location ≠ some .directory then .error .notDirectory
  else if named.length < pieces.length then .error .isDirectory
  else match fs.follow location (named.getLastD []) with
    | .error .missing => .ok (fs.put (location ++ [named.getLastD []]) (.text source))
    | .error e => .error e
    | .ok target =>
      if fs.contentAt? target = some .directory then .error .isDirectory
      else .ok (fs.put target (.text source))

end FileSystem

end RouteContract
