import Dbml.Files.Path

/-!
# File systems

A file system is a finite list of entries, each at a location: the names that lead to it from the
root. A path leads to a location step by step (`FileSystem.locate`), and every step needs a
directory to start from; so a file followed by a slash leads nowhere.
-/

namespace Dbml

/-- Where an entry is: the names that lead to it from the root. -/
abbrev Location := List String

/-- Where a piece of a path leads to from a location, whether or not there is anything. -/
def Location.go (l : Location) (segment : String) : Location :=
  if segment = "" ∨ segment = "." then l
  else if segment = ".." then l.dropLast
  else l ++ [segment]

/-- What an entry is. -/
inductive Entry where
  | file (content : ByteArray)
  | directory

namespace Entry

/-- Whether the entry is a directory. -/
def isDirectory : Entry → Bool
  | directory => true
  | file _ => false

end Entry

/-- Why a path cannot be read. -/
inductive ReadError where
  | notFound
  | notADirectory
  | isADirectory
  /-- The path or a name in it is longer than any can be. -/
  | nameTooLong
  /-- The path holds a NUL, which ends a path for the system. -/
  | nulInPath
  | invalidText
deriving DecidableEq, Repr

/-- The words for a reason. -/
def ReadError.message : ReadError → String
  | notFound => "No such file or directory (os error 2)"
  | notADirectory => "Not a directory (os error 20)"
  | isADirectory => "Is a directory (os error 21)"
  | nameTooLong => "File name too long (os error 36)"
  | nulInPath => "file name contained an unexpected NUL byte"
  | invalidText => "stream did not contain valid UTF-8"

/-- The number of bytes that a name may have. -/
def nameLimit : Nat := 255

/-- The number of bytes that a path may have. -/
def pathLimit : Nat := 4095

/-- A file system, and the directory that relative paths begin at. -/
structure FileSystem where
  entries : List (Location × Entry)
  workingDirectory : Location

namespace FileSystem

/-- The entry at a location. The root is always a directory. -/
def entry? (fs : FileSystem) (l : Location) : Option Entry :=
  if l = [] then some .directory else fs.entries.lookup l

/-- One step from a location. -/
def step (fs : FileSystem) (l : Location) (segment : String) : Except ReadError Location :=
  match fs.entry? l with
  | none => .error .notFound
  | some (.file _) => .error .notADirectory
  | some .directory =>
    if segment.utf8ByteSize > nameLimit then .error .nameTooLong
    else if (fs.entry? (l.go segment)).isSome then .ok (l.go segment)
    else .error .notFound

/-- The location that a path leads to. -/
def locate (fs : FileSystem) (p : Path) : Except ReadError Location :=
  if '\x00' ∈ p.text.toList then .error .nulInPath
  else if p.text = "" then .error .notFound
  else if p.text.utf8ByteSize > pathLimit then .error .nameTooLong
  else p.segments.foldlM fs.step (if p.isAbsolute then [] else fs.workingDirectory)

/-- The entry that a path leads to. -/
def at? (fs : FileSystem) (p : Path) : Option Entry :=
  match fs.locate p with
  | .ok l => fs.entry? l
  | .error _ => none

/-- Whether a path leads anywhere. -/
def exists? (fs : FileSystem) (p : Path) : Bool := (fs.at? p).isSome

/-- Whether a path leads to a file. -/
def isFile (fs : FileSystem) (p : Path) : Bool :=
  match fs.at? p with
  | some (.file _) => true
  | _ => false

/-- Whether a path leads to a directory. -/
def isDirectory (fs : FileSystem) (p : Path) : Bool :=
  match fs.at? p with
  | some .directory => true
  | _ => false

/-- The text of the file that a path leads to. -/
def read (fs : FileSystem) (p : Path) : Except ReadError String := do
  match fs.entry? (← fs.locate p) with
  | some (.file content) =>
    match String.fromUTF8? content with
    | some text => .ok text
    | none => .error .invalidText
  | some .directory => .error .isADirectory
  | none => .error .notFound

/-- The entries below a location at any depth, each with the names that lead to it from there. -/
def below (fs : FileSystem) (l : Location) : List (List String × Entry) :=
  fs.entries.filterMap fun (k, e) =>
    if l.isPrefixOf k ∧ l.length < k.length then some (k.drop l.length, e) else none

/-- The entries of a directory: those one step below a location. -/
def children (fs : FileSystem) (l : Location) : List (String × Entry) :=
  (fs.below l).filterMap fun
    | ([name], e) => some (name, e)
    | _ => none

/-! ## Making file systems -/

/-- A file system with nothing in its working directory. -/
def empty : FileSystem := ⟨[(["work"], .directory)], ["work"]⟩

/-- The file system with the given entry at a location, in place of what was there. -/
def put (fs : FileSystem) (l : Location) (e : Entry) : FileSystem :=
  { fs with entries := fs.entries.filter (·.1 ≠ l) ++ [(l, e)] }

/-- Makes the directories that the pieces of a path lead through from `l`, unless they are there. -/
def makeDirectories (fs : FileSystem) (l : Location) : List String → FileSystem
  | [] => fs
  | segment :: segments =>
    let l := l.go segment
    let fs := if (fs.entry? l).isSome then fs else fs.put l .directory
    fs.makeDirectories l segments

/-- Makes the directory that a path from the working directory leads to. -/
def addDirectory (fs : FileSystem) (p : Path) : FileSystem :=
  fs.makeDirectories fs.workingDirectory p.segments

/-- Makes the file that a path from the working directory leads to, and the directories that the
path leads through. -/
def addFile (fs : FileSystem) (p : Path) (content : ByteArray) : FileSystem :=
  (fs.makeDirectories fs.workingDirectory p.segments.dropLast).put
    (p.segments.foldl Location.go fs.workingDirectory) (.file content)

end FileSystem

end Dbml
