import Dbml.Problem
import Dbml.Token.Lexeme

/-!
# Token streams

A text is read into tokens by taking one front after another. `tokenize` reads the whole text: all
its tokens, the last of which stands for the end of the input, or the problem that stopped the
reading. `Stream` is the same reading one item at a time.
-/

namespace Dbml

/-- The literal that is opened at `p` and not closed in the text `s` that begins there. -/
def Problem.openLiteral (literal : Literal) (p : Place) (s : List Char) : Problem :=
  .unterminatedLiteral (.literal literal) p.position (p.span s)

/-- The block comment that is opened at `p` and not closed in the text `s` that begins there. -/
def Problem.openComment (p : Place) (s : List Char) : Problem :=
  .unterminatedComment p.position (p.span s)

/-! ## The whole text -/

/-- The tokens of the text `s` that begins at `p`, the end of the input included. -/
def tokenizeAt (p : Place) (s : List Char) : Except Problem (List Token) :=
  match s with
  | [] => .ok [Token.eof p]
  | c :: cs =>
    match _h : Front.read c cs with
    | (.lexeme kind value, rest) =>
      (tokenizeAt (p.after (Front.lexeme kind value).text) rest).map (Token.read p kind value :: ·)
    | (.trivia text, rest) => tokenizeAt (p.after text) rest
    | (.openLiteral literal, rest) => .error (.openLiteral literal p rest)
    | (.openComment, rest) => .error (.openComment p rest)
termination_by s.length
decreasing_by all_goals exact Front.length_read (by assumption) rfl

/-- The tokens of a text, the last of which stands for the end of the input. -/
def tokenize (source : String) : Except Problem (List Token) := tokenizeAt .start source.toList

/-! ## One item at a time -/

/-- A reading in progress: what is left of the text and where that begins, or nothing once the
reading has come to its end. -/
structure Stream where
  left : Option (Place × List Char)
deriving Repr

namespace Stream

/-- A reading that has not begun. -/
def ofText (source : String) : Stream := ⟨some (.start, source.toList)⟩

/-- A reading that has come to its end. -/
def done : Stream := ⟨none⟩

/-- The next item of the text `s` that begins at `p`, and the reading after it. -/
def nextAt (p : Place) (s : List Char) : Except Problem Token × Stream :=
  match s with
  | [] => (.ok (Token.eof p), done)
  | c :: cs =>
    match _h : Front.read c cs with
    | (.lexeme kind value, rest) =>
      (.ok (Token.read p kind value), ⟨some (p.after (Front.lexeme kind value).text, rest)⟩)
    | (.trivia text, rest) => nextAt (p.after text) rest
    | (.openLiteral literal, rest) => (.error (.openLiteral literal p rest), done)
    | (.openComment, rest) => (.error (.openComment p rest), done)
termination_by s.length
decreasing_by exact Front.length_read (by assumption) rfl

/-- The next item, if the reading has not come to its end: a token, or the problem that ends it. -/
def next (r : Stream) : Option (Except Problem Token) × Stream :=
  match r.left with
  | none => (none, r)
  | some (p, s) =>
    let (item, r') := nextAt p s
    (some item, r')

/-- The answers to `n` calls of `next`, in order. -/
def steps (r : Stream) : Nat → List (Option (Except Problem Token))
  | 0 => []
  | n + 1 =>
    let (item, r') := r.next
    item :: r'.steps n

end Stream

end Dbml
