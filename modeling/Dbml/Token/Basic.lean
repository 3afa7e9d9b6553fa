import Dbml.Text.Place
import Dbml.Token.Kind

/-!
# Tokens

A token is a kind, a value (its text without the marks around it) and the place it was read from.
-/

namespace Dbml

/-- One token of a document. -/
structure Token where
  kind : Kind
  value : String
  position : Position
  span : Span
deriving DecidableEq, Repr

namespace Token

/-- The token that stands for the end of the input. -/
def eof (p : Place) : Token := ⟨.eof, "", p.position, ⟨p.offset, p.offset⟩⟩

/-- The token with the given kind and value that was read at `p`. -/
def read (p : Place) (kind : Kind) (value : List Char) : Token :=
  ⟨kind, String.ofList value, p.position, p.span (kind.fence ++ value ++ kind.fence)⟩

/-- Whether the token stands for the end of the input. -/
def isEof (t : Token) : Bool := t.kind == .eof

/-- The words for the token in a message: its kind, and what was written. -/
def describe (t : Token) : String :=
  if t.isEof then t.kind.description
  else t.kind.description ++ " ('" ++ t.value ++ "')"

/-- Fills up with blanks on the left to `width` characters. -/
def alignRight (width : Nat) (s : String) : String :=
  String.ofList (List.replicate (width - s.length) ' ') ++ s

/-- Fills up with blanks on the right to `width` characters. -/
def alignLeft (width : Nat) (s : String) : String :=
  s ++ String.ofList (List.replicate (width - s.length) ' ')

/-- The token as a row: kind, line and column in fixed widths, then the value. -/
def row (t : Token) : String :=
  alignRight 13 t.kind.spelling ++ "  " ++ alignRight 4 (toString t.position.line) ++ ":"
    ++ alignLeft 4 (toString t.position.column) ++ " " ++ t.value

/-- The position just past the token, reckoned from the token alone. The marks around a value are
one byte to the character, so together they take what the span has more than the value; half of
them stand after the value. -/
def endPosition (t : Token) : Position :=
  let marks := t.span.length - t.value.utf8ByteSize
  let chars := t.value.toList
  if '\n' ∈ chars then
    ⟨t.position.line + chars.count '\n',
      (chars.reverse.takeWhile (· ≠ '\n')).length + marks / 2 + 1⟩
  else ⟨t.position.line, t.position.column + chars.length + marks⟩

/-- The place just past the token. -/
def endPlace (t : Token) : Place := ⟨t.endPosition, t.span.stop⟩

end Token

end Dbml
