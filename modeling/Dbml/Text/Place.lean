/-!
# Places in a text

A place is known in two ways at once: to a reader by line and column, to a program by the number of
bytes before it. Both are folds of one step over the characters already read (`Place.after`), so a
place never needs the text that follows it, and the place after `s ++ t` is the place after `t`
counted from the place after `s` (`Place.after_append`).
-/

namespace Dbml

/-- A line and a column, both counted from 1; columns count characters. -/
structure Position where
  line : Nat
  column : Nat
deriving DecidableEq, Repr, Inhabited

namespace Position

/-- The position of the first character of a text. -/
def start : Position := ⟨1, 1⟩

/-- Earlier lines come first; on one line, earlier columns. -/
instance : Ord Position where
  compare a b := (compare a.line b.line).then (compare a.column b.column)

/-- The position after a character that stands at `p`. -/
def step (p : Position) (c : Char) : Position :=
  if c = '\n' then ⟨p.line + 1, 1⟩ else ⟨p.line, p.column + 1⟩

/-- The position after a text that begins at `p`. -/
def after (p : Position) (text : List Char) : Position := text.foldl step p

/-- The written form, `line:column`. -/
def text (p : Position) : String := toString p.line ++ ":" ++ toString p.column

@[simp] theorem after_nil (p : Position) : p.after [] = p := rfl

@[simp] theorem after_cons (p : Position) (c : Char) (cs : List Char) :
    p.after (c :: cs) = (p.step c).after cs := rfl

@[simp] theorem after_append (p : Position) (s t : List Char) :
    p.after (s ++ t) = (p.after s).after t := List.foldl_append

end Position

/-- A stretch of a text, by the byte offsets of its two ends. -/
structure Span where
  start : Nat
  stop : Nat
deriving DecidableEq, Repr, Inhabited

namespace Span

/-- The number of bytes covered; a span whose ends are crossed covers none. -/
def length (s : Span) : Nat := s.stop - s.start

/-- Whether nothing is covered. -/
def isEmpty (s : Span) : Bool := s.length == 0

/-- The written form, `start..stop`. -/
def text (s : Span) : String := toString s.start ++ ".." ++ toString s.stop

end Span

/-- The number of bytes that a text takes in UTF-8. -/
def byteLength : List Char → Nat
  | [] => 0
  | c :: cs => c.utf8Size + byteLength cs

@[simp] theorem byteLength_nil : byteLength [] = 0 := rfl

@[simp] theorem byteLength_cons (c : Char) (cs : List Char) :
    byteLength (c :: cs) = c.utf8Size + byteLength cs := rfl

@[simp] theorem byteLength_append (s t : List Char) :
    byteLength (s ++ t) = byteLength s + byteLength t := by
  induction s with
  | nil => simp
  | cons c cs ih => simp [ih, Nat.add_assoc]

/-- A place in a text: its position together with its byte offset. -/
structure Place where
  position : Position
  offset : Nat
deriving DecidableEq, Repr, Inhabited

namespace Place

/-- The place before the first character. -/
def start : Place := ⟨.start, 0⟩

/-- The place after a text that begins at `p`. -/
def after (p : Place) (text : List Char) : Place :=
  ⟨p.position.after text, p.offset + byteLength text⟩

@[simp] theorem after_nil (p : Place) : p.after [] = p := rfl

@[simp] theorem after_append (p : Place) (s t : List Char) :
    p.after (s ++ t) = (p.after s).after t := by
  simp [after, Nat.add_assoc]

/-- The span of a text that begins at `p`. -/
def span (p : Place) (text : List Char) : Span := ⟨p.offset, (p.after text).offset⟩

end Place

end Dbml
