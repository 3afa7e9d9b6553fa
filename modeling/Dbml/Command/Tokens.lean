import Dbml.Command.Output
import Dbml.Files.System

/-!
# The `tokens` command

The tokens of one file, as rows, as tab-separated lines or as JSON.
-/

namespace Dbml

open Json (Value)

namespace Token

/-- The token as a line with tabs between kind, line, column and value. -/
def plainLine (t : Token) : String :=
  t.kind.spelling ++ "\t" ++ toString t.position.line ++ "\t" ++ toString t.position.column ++ "\t"
    ++ t.value

/-- The token as JSON. -/
def toJson (t : Token) : Value :=
  .record [("column", .nat t.position.column), ("end", .nat t.span.stop),
    ("kind", .str t.kind.spelling), ("line", .nat t.position.line),
    ("start", .nat t.span.start), ("value", .str t.value)]

end Token

/-- What is shown of the tokens of a file. -/
def showTokens (p : Presentation) (ts : List Token) : Output :=
  match p.format with
  | .human => .concat (ts.map fun t => .outLine t.row)
  | .json => .outLine (Value.array (ts.map Token.toJson)).pretty
  | .plain => .concat (ts.map fun t => .outLine t.plainLine)

/-- Shows the tokens of a file. -/
def tokensOf (fs : FileSystem) (p : Presentation) (file : Path) : Output × Option Failure :=
  match fs.read file with
  | .error e => ({}, some (.unreadable file e.message))
  | .ok text =>
    match tokenize text with
    | .error problem => ({}, some (.problem file problem))
    | .ok ts => (showTokens p ts ++ p.status (toString ts.length ++ " tokens"), none)

end Dbml
