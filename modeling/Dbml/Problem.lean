import Dbml.Token.Basic

/-!
# Problems with a document

What can be wrong with the text of a document: a literal or a block comment that never ends, or a
token that does not fit. A problem knows where it is; its message is composed here and nowhere else.
-/

namespace Dbml

/-- A reason why a text is not a document. -/
inductive Problem where
  /-- A literal of the given kind is opened and never closed. -/
  | unterminatedLiteral (kind : Kind) (position : Position) (span : Span)
  /-- A block comment is opened and never closed. -/
  | unterminatedComment (position : Position) (span : Span)
  /-- Something else than `expected` was found. -/
  | unexpected (expected found : String) (position : Position) (span : Span)
deriving DecidableEq, Repr

namespace Problem

/-- The name of the sort of problem. -/
def name : Problem → String
  | unterminatedLiteral .. => "unterminated_literal"
  | unterminatedComment .. => "unterminated_comment"
  | unexpected .. => "syntax_error"

/-- The position that the problem is reported at. -/
def position : Problem → Position
  | unterminatedLiteral _ p _ => p
  | unterminatedComment p _ => p
  | unexpected _ _ p _ => p

/-- The stretch of text that the problem is about. -/
def span : Problem → Span
  | unterminatedLiteral _ _ s => s
  | unterminatedComment _ s => s
  | unexpected _ _ _ s => s

/-- The message for the reader. -/
def message : Problem → String
  | unterminatedLiteral kind p _ =>
    "unterminated " ++ kind.description ++ " starting at " ++ p.text
  | unterminatedComment p _ => "unterminated block comment starting at " ++ p.text
  | unexpected expected found p _ =>
    "syntax error at " ++ p.text ++ ": expected " ++ expected ++ ", found " ++ found

end Problem

end Dbml
