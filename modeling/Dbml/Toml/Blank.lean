import Dbml.Text.Reader

/-!
# Blanks, comments and line ends

What stands between the phrases of a TOML text. Passing over it leaves no more than there was
(`length_skipLines`, `length_endLine?`).
-/

namespace Dbml.Toml

/-- The blanks within a line. -/
def isBlank (c : Char) : Bool := c == ' ' || c == '\t'

/-- Passes over blanks. -/
def skip (s : List Char) : List Char := s.dropWhile isBlank

/-- The characters that may stand in comments and strings: all but control characters, of which the
tab may. -/
def isText (c : Char) : Bool := c == '\t' || (32 ≤ c.toNat && c.toNat ≠ 127)

/-- Passes over a line end. -/
def newline? : List Char → Option (List Char)
  | '\n' :: rest => some rest
  | '\r' :: '\n' :: rest => some rest
  | _ => none

/-- Passes over blanks and the comment after them, if there is one. -/
def skipComment (s : List Char) : List Char :=
  match skip s with
  | '#' :: rest => rest.dropWhile isText
  | rest => rest

/-- Passes over the rest of a line that holds nothing more but a comment. -/
def endLine? (s : List Char) : Option (List Char) :=
  match skipComment s with
  | [] => some []
  | rest => newline? rest

/-- Passes over blanks, line ends and comments; `comment` says whether `s` is inside a comment. -/
def skipLines (comment : Bool) : List Char → List Char
  | [] => []
  | '\n' :: rest => skipLines false rest
  | '\r' :: '\n' :: rest => skipLines false rest
  | c :: rest =>
    if comment then
      if isText c then skipLines true rest else c :: rest
    else if isBlank c then skipLines false rest
    else if c = '#' then skipLines true rest
    else c :: rest

theorem length_newline? {s rest : List Char} (h : newline? s = some rest) :
    rest.length < s.length := by
  unfold newline? at h
  split at h <;> cases h <;> simp only [List.length_cons] <;> omega

theorem length_skipComment (s : List Char) : (skipComment s).length ≤ s.length := by
  have hs : (skip s).length ≤ s.length := length_dropWhile_le isBlank s
  unfold skipComment
  split
  case h_1 rest hc =>
    have := length_dropWhile_le isText rest
    rw [hc, List.length_cons] at hs
    omega
  case h_2 => exact hs

theorem length_endLine? {s rest : List Char} (h : endLine? s = some rest) :
    rest.length ≤ s.length := by
  unfold endLine? at h
  split at h
  · cases h; simp
  · have := length_newline? h
    have := length_skipComment s
    omega

theorem length_skipLines (comment : Bool) (s : List Char) :
    (skipLines comment s).length ≤ s.length := by
  fun_induction skipLines comment s <;> simp only [List.length_cons, List.length_nil] at * <;> omega

theorem length_of_skipLines {comment : Bool} {s rest : List Char} {c : Char}
    (h : skipLines comment s = c :: rest) : rest.length < s.length := by
  have := length_skipLines comment s
  rw [h, List.length_cons] at this
  omega

end Dbml.Toml
