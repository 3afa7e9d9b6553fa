import Dbml.Document.Parser
import Dbml.Schema.Json

/-!
# Diagnostics

A problem as it is shown to the author of a document: the message, the stretch of text it is about
with a label, and, where there is an obvious one, a suggestion.
-/

namespace Dbml

open Json (Value)

/-- What is shown for a problem. -/
structure Diagnostic where
  file : String
  message : String
  span : Span
  label : String
  help : Option String
deriving DecidableEq, Repr

/-- The name of the mark that closes a literal of the given kind. -/
def closingMark : Kind → String
  | .literal .doubleQuoted => "`\"`"
  | .literal .singleQuoted => "`'`"
  | .literal .funcExpr => "backtick"
  | .literal .multiline => "`'''`"
  | _ => "delimiter"

/-- A suggestion for something that does not fit. What was found decides first: declarations and
settings that are not supported, and the end of the input; then what was expected. All of these are
known by their words alone. -/
def suggestion? (expected found : String) : Option String :=
  if "'Ref'".toList.isPrefixOf found.toList then
    some "Ref declarations are reserved but not supported yet."
  else if "'Note'".toList.isPrefixOf found.toList then
    some "Note settings are not supported yet; remove the Note line."
  else if found = "end of input" then
    some "The file ended inside a declaration; close it with '\x7d'."
  else if expected = "database type string" then
    some "Quote the database type, e.g. database_type: \"PostgreSQL\""
  else if expected = "column type" then
    some "Each column needs a name and a type, e.g. id integer"
  else if expected = "one of Project, Table, Ref, or Enum" then
    some "Top-level declarations start with Project, Table or Enum."
  else none

namespace Problem

/-- The label of the stretch of text that the problem is about. -/
def label : Problem → String
  | unterminatedLiteral kind _ _ => kind.description ++ " opened here"
  | unterminatedComment _ _ => "block comment opened here"
  | unexpected expected _ _ _ => "expected " ++ expected

/-- What the author could do. -/
def help? : Problem → Option String
  | unterminatedLiteral kind _ _ =>
    some ("Add the closing " ++ closingMark kind ++ " before the end of the file.")
  | unterminatedComment _ _ =>
    some "Close the comment with `*/`; block comments do not nest."
  | unexpected expected found _ _ => suggestion? expected found

/-- The diagnostic for a problem in a file. -/
def diagnostic (problem : Problem) (file : String) : Diagnostic where
  file := file
  message := problem.message
  span := problem.span
  label := problem.label
  help := problem.help?

/-- A problem as JSON. -/
def toJson (problem : Problem) : Value :=
  .record [("column", .nat problem.position.column), ("kind", .str problem.name),
    ("line", .nat problem.position.line), ("message", .str problem.message)]

end Problem

/-- A diagnostic as JSON. -/
def Diagnostic.toJson (d : Diagnostic) : Value :=
  .record [("file", .str d.file), ("help", .orNull .str d.help),
    ("labels", .array [.array [.nat d.span.start, .nat d.span.length, .str d.label]]),
    ("message", .str d.message)]

end Dbml
