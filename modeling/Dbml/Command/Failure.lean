import Dbml.Diagnostic
import Dbml.Files.Path

/-!
# Failures of a command

Why a command comes to nothing, or not to all it should: what is said about it, how it looks in
JSON, and the exit code it leads to.
-/

namespace Dbml

open Json (Value)

/-- A reason for a command to fail. -/
inductive Failure where
  /-- A file is not a document. -/
  | problem (file : Path) (problem : Problem)
  /-- Some files are no documents; they have been reported one by one. -/
  | unparsed (failed total : Nat)
  /-- A file cannot be read. -/
  | unreadable (path : Path) (reason : String)
  /-- The settings are wrong. -/
  | settings (message : String)
  /-- A path names nothing, or a directory without files of the right sort. -/
  | nothingFound (path : Path) (extension : String)
  /-- Anything else. -/
  | other (message : String)
deriving DecidableEq, Repr

namespace Failure

/-- The message for the user. -/
def message : Failure → String
  | problem file p => file.text ++ ": " ++ p.message
  | unparsed failed total =>
    toString failed ++ " of " ++ toString total ++ " files failed to parse"
  | unreadable path reason => "IO error for " ++ path.text ++ ": " ++ reason
  | settings message => "configuration error: " ++ message
  | nothingFound path extension =>
    "no ." ++ extension ++ " files found in " ++ path.text
  | other message => message

/-- The exit code: 3 for documents, 2 for what the user asked for, 1 for the rest. -/
def exitCode : Failure → Nat
  | problem .. => 3
  | unparsed .. => 3
  | settings .. => 2
  | nothingFound .. => 2
  | unreadable .. => 1
  | other .. => 1

/-- The name of the sort of failure. -/
def name : Failure → String
  | problem .. => "parse_error"
  | unparsed .. => "parse_error"
  | unreadable .. => "io_error"
  | settings .. => "config_error"
  | nothingFound .. => "error"
  | other .. => "error"

/-- The failure as JSON. -/
def toJson (f : Failure) : Value :=
  .record <| ("error", .str f.name) :: match f with
  | problem file p => [("errors", .array [p.toJson]), ("file", .str file.text)]
  | unparsed failed total => [("failed", .nat failed), ("files", .nat total)]
  | unreadable path reason => [("message", .str reason), ("path", .str path.text)]
  | settings message => [("message", .str message)]
  | nothingFound .. => [("message", .str f.message)]
  | other .. => [("message", .str f.message)]

end Failure

end Dbml
