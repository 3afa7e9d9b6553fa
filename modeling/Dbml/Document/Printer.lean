import Dbml.Document.Basic
import Dbml.Text.Cut

/-!
# Printing documents

The canonical text of a document: one blank line between declarations, four blanks before each line
of a body, and double quotes around a database type wherever they can stand.
-/

namespace Dbml

/-- A database type between quotes. The text is still escaped as it was written, so a double quote
in it that no backslash escapes was written between single quotes, and they are kept. -/
def quoteType (raw : String) : String :=
  if hasUnescaped '"' raw.toList then "'" ++ raw ++ "'" else "\"" ++ raw ++ "\""

/-- A line of a body. -/
def bodyLine (text : String) : String := "    " ++ text ++ "\n"

namespace Decl

/-- The first line of a declaration, up to the opening brace. -/
def header : Decl → String
  | project n _ _ => "Project " ++ n
  | table n none _ _ => "Table " ++ n
  | table n (some a) _ _ => "Table " ++ n ++ " as " ++ a
  | enum n _ _ => "Enum " ++ n

/-- The lines between the braces. -/
def bodyLines : Decl → List String
  | project _ none _ => []
  | project _ (some d) _ => [bodyLine ("database_type: " ++ quoteType d)]
  | table _ _ cs _ => cs.map fun c => bodyLine (c.name ++ " " ++ c.type)
  | enum _ vs _ => vs.map bodyLine

/-- The canonical text of a declaration. -/
def print (d : Decl) : String :=
  d.header ++ " \x7b\n" ++ String.join d.bodyLines ++ "\x7d\n"

end Decl

/-- The canonical text of a document. -/
def Document.print (d : Document) : String :=
  String.join ((d.decls.map Decl.print).intersperse "\n")

end Dbml
