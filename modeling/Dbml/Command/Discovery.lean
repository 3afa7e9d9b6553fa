import Dbml.Command.Failure
import Dbml.Files.Search

/-!
# Finding documents

The files that path arguments stand for: a file stands for itself, a directory for all entries below
it whose names end in the right extension. The extension may hold wildcards; the name of the
directory never does.
-/

namespace Dbml

/-- The pattern for the entries below a directory that have the extension. -/
def searchPattern (directory : Path) (extension : String) : String :=
  Pattern.escape directory.text ++ "/**/*." ++ extension

/-- The files that one path stands for. -/
def filesAt (fs : FileSystem) (extension : String) (p : Path) : Except Failure (List Path) :=
  if fs.isFile p then .ok [p]
  else if fs.isDirectory p then
    match Pattern.parse (searchPattern p extension) with
    | .ok pattern => .ok (fs.search pattern)
    | .error e => .error (.other e.message)
  else .error (.nothingFound p extension)

/-- The files that paths stand for, in order and each once. The first path that stands for nothing
is the one reported; if all stand for directories without such entries, the first path is. -/
def discover (fs : FileSystem) (paths : List Path) (extension : String) :
    Except Failure (List Path) := do
  let files ← paths.mapM (filesAt fs extension)
  let files := files.flatten
  if files.isEmpty then .error (.nothingFound (paths.head?.getD ⟨"schemas/"⟩) extension)
  else return Path.sortUnique files

end Dbml
