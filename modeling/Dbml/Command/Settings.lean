import Dbml.Command.Failure
import Dbml.Command.Options
import Dbml.Files.System
import Dbml.Toml.Reader

/-!
# Settings

Two settings have defaults and can be set in a file: the one named by the user, or else the first of
three that is there. A file that is chosen counts, whatever is wrong with it: a later one never
takes its place.
-/

namespace Dbml

/-- The settings. -/
structure Settings where
  /-- The directory that is searched when no path is given. -/
  schemaDirectory : String := "schemas/"
  /-- The extension, without its dot, of the files that are found in directories. -/
  fileExtension : String := "dbml"
deriving DecidableEq, Repr

namespace Settings

/-- A setting by its value, which has to be a string if it is there. -/
def text? (default : String) : Option Toml.Value → Option String
  | none => some default
  | some (.string s) => some s
  | some _ => none

/-- The settings by their two values. -/
def ofValues? (schemaDirectory fileExtension : Option Toml.Value) : Option Settings := do
  let defaults : Settings := {}
  return {
    schemaDirectory := ← text? defaults.schemaDirectory schemaDirectory
    fileExtension := ← text? defaults.fileExtension fileExtension }

/-- The settings in a table: under `cli`, by their keys or, in an array, by their order. A date or a
time stands for a table without them. -/
def ofTable? (t : Toml.Table) : Option Settings :=
  match t.lookup "cli" with
  | none => some {}
  | some (.table _ entries) =>
    ofValues? (entries.lookup "default_schema_dir") (entries.lookup "file_extension")
  | some (.array values) => ofValues? values[0]? values[1]?
  | some (.dateTime _) => some {}
  | some _ => none

/-- The settings in a file. -/
def ofFile (fs : FileSystem) (p : Path) : Except Failure Settings :=
  match fs.read p with
  | .error e => .error (.unreadable p e.message)
  | .ok text =>
    match (Toml.parse? text).bind ofTable? with
    | some settings => .ok settings
    | none => .error (.settings ("failed to parse " ++ p.text ++ ": <toml error>"))

/-- The places where settings are looked for unless the user names a file, first to last. -/
def candidates (env : Environment) : List Path :=
  ⟨"dbml.toml"⟩ :: (env.configHome.map fun d => Path.join ⟨d⟩ ⟨"dbml/config.toml"⟩).toList
    ++ (env.home.map fun d => Path.join ⟨d⟩ ⟨".config/dbml/config.toml"⟩).toList

/-- The file that counts, if there is one. -/
def file? (fs : FileSystem) (env : Environment) (named : Option Path) : Option Path :=
  named <|> (candidates env).find? fs.exists?

/-- The settings. -/
def load (fs : FileSystem) (env : Environment) (named : Option Path) : Except Failure Settings :=
  match file? fs env named with
  | some p => ofFile fs p
  | none => .ok {}

end Settings

end Dbml
