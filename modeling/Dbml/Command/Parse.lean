import Dbml.Command.Discovery
import Dbml.Command.Output
import Dbml.Command.Settings
import Dbml.Document.Printer

/-!
# The `parse` command

Every file is read and parsed in turn (`visitAll`); what is shown of it depends on the file alone.
A file that cannot be read ends the run at once, a file that is no document does not.
-/

namespace Dbml

open Json (Value)

/-- A file that was read, and what its text is. -/
structure Visit where
  file : Path
  result : Except Problem Document

/-- The files that were read, up to the first that cannot be. -/
def visitAll (fs : FileSystem) : List Path → List Visit × Option Failure
  | [] => ([], none)
  | file :: files =>
    match fs.read file with
    | .error e => ([], some (.unreadable file e.message))
    | .ok text =>
      let (visits, stop) := visitAll fs files
      (⟨file, Document.parse text⟩ :: visits, stop)

namespace Visit

/-- The number of declarations; there are none in what is no document. -/
def declarations (v : Visit) : Nat :=
  match v.result with
  | .ok d => d.size
  | .error _ => 0

/-- Whether the file is no document. -/
def failed (v : Visit) : Bool :=
  match v.result with
  | .ok _ => false
  | .error _ => true

/-- How much a document declares. -/
def counts (d : Document) : String :=
  let columns := (d.tables.flatMap (·.columns)).length
  toString d.size ++ " declarations (" ++ toString d.tables.length ++ " tables, "
    ++ toString columns ++ " columns, " ++ toString d.enums.length ++ " enums)"

/-- What is shown of a file while the run goes on. In JSON all is shown at the end. -/
def output (p : Presentation) (print : Bool) (v : Visit) : Output :=
  match p.format, v.result with
  | .human, .ok d =>
    .out (if print then d.print else "")
      ++ p.status ("  " ++ v.file.text ++ " .... " ++ counts d)
  | .human, .error problem => Presentation.diagnostic problem v.file
  | .json, _ => {}
  | .plain, .ok d =>
    if print then .out d.print
    else
      .outLine (v.file.text ++ "\t" ++ toString d.size ++ "\t" ++ toString d.tables.length ++ "\t"
        ++ toString d.enums.length)
  | .plain, .error problem => .errLine (v.file.text ++ "\terror\t" ++ problem.message)

/-- A file as JSON. -/
def toJson (print : Bool) (v : Visit) : Value :=
  match v.result with
  | .ok d =>
    .record [("declarations", .nat d.size), ("enums", .array (d.enums.map Enum.toJson)),
      ("errors", .array []), ("file", .str v.file.text),
      ("printed", if print then .str d.print else .null),
      ("project", .orNull Project.toJson d.project?),
      ("tables", .array (d.tables.map Table.toJson))]
  | .error problem =>
    .record [("declarations", .nat 0), ("errors", .array [problem.toJson]),
      ("file", .str v.file.text)]

end Visit

/-- What a run over files comes to. -/
structure Tally where
  files : Nat
  declarations : Nat
  failed : Nat
deriving DecidableEq, Repr

namespace Tally

/-- The tally of visits. -/
def ofVisits (vs : List Visit) : Tally where
  files := vs.length
  declarations := vs.foldl (fun n v => n + v.declarations) 0
  failed := vs.countP Visit.failed

/-- The tally in words. -/
def text (t : Tally) : String :=
  toString t.declarations ++ " declarations parsed from " ++ toString t.files ++ " files, "
    ++ toString t.failed ++ " failed"

/-- The failure of a run with the given tally, if there is one. -/
def failure? (t : Tally) : Option Failure :=
  if t.failed > 0 then some (.unparsed t.failed t.files) else none

end Tally

/-- The whole run as JSON. -/
def visitsToJson (print : Bool) (vs : List Visit) : Value :=
  let t := Tally.ofVisits vs
  .record [("declarations", .nat t.declarations), ("failed", .nat t.failed),
    ("files", .nat t.files), ("results", .array (vs.map (Visit.toJson print)))]

/-- What is shown at the end of a run. -/
def runEnd (p : Presentation) (print : Bool) (vs : List Visit) : Output :=
  match p.format with
  | .human =>
    let t := Tally.ofVisits vs
    p.summary (t.failed == 0) t.text
  | .json => .outLine (visitsToJson print vs).pretty
  | .plain => {}

/-- Parses the files that have been found. -/
def parseFiles (fs : FileSystem) (p : Presentation) (print : Bool) (files : List Path) :
    Output × Option Failure :=
  let (visits, stop) := visitAll fs files
  let shown := Output.concat (visits.map (Visit.output p print))
  match stop with
  | some failure => (shown, some failure)
  | none => (shown ++ runEnd p print visits, (Tally.ofVisits visits).failure?)

/-- The files that the command is about: those of its paths, or of the directory in the settings. -/
def parseTargets (fs : FileSystem) (env : Environment) (config : Option Path) (paths : List Path) :
    Except Failure (List Path) := do
  let settings ← Settings.load fs env config
  let paths := if paths.isEmpty then [⟨settings.schemaDirectory⟩] else paths
  discover fs paths settings.fileExtension

end Dbml
