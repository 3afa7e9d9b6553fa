import Dbml.Files.Path

/-!
# Patterns

A pattern is a path in which some characters stand for others: `?` for any one, `*` for any number
of them, `[ab]` and `[a-z]` for one of a set, `[!ab]` for one outside it. As a whole component, `**`
stands for any number of directories. A pattern is read once as a whole, for its faults are reported
by their place in it (`PatternError`), and then component by component (`Pattern.parse`).
-/

namespace Dbml

/-! ## Faults -/

/-- What can be wrong with a pattern; places count characters from 0. -/
inductive PatternError where
  /-- A bracket opens a set that is not closed. -/
  | invalidRange (place : Nat)
  /-- A `**` is not a component of its own. -/
  | recursiveNotAlone (place : Nat)
  /-- Three stars or more stand in a row. -/
  | tooManyStars (place : Nat)
deriving DecidableEq, Repr

/-- The words for a fault. -/
def PatternError.message : PatternError → String
  | invalidRange n => "Pattern syntax error near position " ++ toString n ++ ": invalid range pattern"
  | recursiveNotAlone n => "Pattern syntax error near position " ++ toString n
      ++ ": recursive wildcards must form a single path component"
  | tooManyStars n => "Pattern syntax error near position " ++ toString n
      ++ ": wildcards are either regular `*` or recursive `**`"

/-! ## Glyphs -/

/-- A range of characters, both ends included. -/
structure CharRange where
  first : Char
  last : Char
deriving DecidableEq, Repr

/-- Whether a character is in one of the ranges. -/
def CharRange.anyHolds (ranges : List CharRange) (c : Char) : Bool :=
  ranges.any fun r => r.first ≤ c && c ≤ r.last

/-- The ranges that the inside of a pair of brackets names. -/
def CharRange.ofChars : List Char → List CharRange
  | a :: '-' :: b :: cs => ⟨a, b⟩ :: ofChars cs
  | c :: cs => ⟨c, c⟩ :: ofChars cs
  | [] => []

/-- A sign of a pattern. -/
inductive Glyph where
  | char (c : Char)
  | anyChar
  | anyChars
  | oneOf (ranges : List CharRange)
  | noneOf (ranges : List CharRange)
  | recursive
deriving DecidableEq, Repr

/-- A set of which `taken` characters are read, up to its closing bracket: what `make` makes of the
characters before the bracket, the number of characters read in all, and the characters after. -/
def Glyph.closeSet (make : List Char → Glyph) (taken : Nat) (cs : List Char) :
    Option (Glyph × Nat × List Char) :=
  match cs.dropWhile (· ≠ ']') with
  | [] => none
  | _ :: rest =>
    let inside := cs.takeWhile (· ≠ ']')
    some (make inside, taken + inside.length + 1, rest)

/-- A set from after its opening bracket. Its first character belongs to it even if that is a
closing bracket. -/
def Glyph.readSet : List Char → Option (Glyph × Nat × List Char)
  | '!' :: c :: cs => closeSet (fun inside => .noneOf (CharRange.ofChars (c :: inside))) 3 cs
  | '!' :: [] => none
  | c :: cs => closeSet (fun inside => .oneOf (CharRange.ofChars (c :: inside))) 2 cs
  | [] => none

namespace Glyph

theorem length_closeSet {make : List Char → Glyph} {taken n : Nat} {cs rest : List Char} {g : Glyph}
    (h : closeSet make taken cs = some (g, n, rest)) : rest.length < cs.length := by
  unfold closeSet at h
  split at h
  · simp at h
  · rename_i hd
    cases h
    have := (List.dropWhile_suffix (l := cs) (· ≠ ']')).length_le
    rw [hd] at this
    simp only [List.length_cons] at this
    omega

theorem length_readSet {cs rest : List Char} {g : Glyph} {n : Nat}
    (h : readSet cs = some (g, n, rest)) : rest.length < cs.length := by
  unfold readSet at h
  split at h
  · have := length_closeSet h; simp only [List.length_cons]; omega
  · simp at h
  · have := length_closeSet h; simp only [List.length_cons]; omega
  · simp at h

/-- The signs of a pattern. `before` is the character before `s` and `place` the place of `s`. -/
def readAll (before : Option Char) (place : Nat) (s : List Char) :
    Except PatternError (List Glyph) :=
  match s with
  | [] => .ok []
  | '?' :: cs => (readAll (some '?') (place + 1) cs).map (.anyChar :: ·)
  | ['*'] => .ok [.anyChars]
  | ['*', '*'] =>
    if before.all (· == '/') then .ok [.recursive] else .error (.recursiveNotAlone (place - 1))
  | '*' :: '*' :: c :: cs =>
    if c = '*' then .error (.tooManyStars (place + 2))
    else if before.all (· == '/') then
      if c = '/' then (readAll (some '/') (place + 3) cs).map (.recursive :: ·)
      else .error (.recursiveNotAlone (place + 2))
    else .error (.recursiveNotAlone (place - 1))
  | '*' :: cs => (readAll (some '*') (place + 1) cs).map (.anyChars :: ·)
  | '[' :: cs =>
    match _h : readSet cs with
    | some (g, n, rest) => (readAll (some ']') (place + n) rest).map (g :: ·)
    | none => .error (.invalidRange place)
  | c :: cs => (readAll (some c) (place + 1) cs).map (.char c :: ·)
termination_by s.length
decreasing_by
  all_goals simp only [List.length_cons]
  all_goals first
    | omega
    | exact Nat.lt_succ_of_lt (length_readSet (by assumption))

/-- Whether a sign that stands for one character stands for `c`. -/
def holds : Glyph → Char → Bool
  | char d, c => d == c
  | anyChar, _ => true
  | oneOf ranges, c => CharRange.anyHolds ranges c
  | noneOf ranges, c => !CharRange.anyHolds ranges c
  | anyChars, _ => false
  | recursive, _ => false

/-- The character of a sign that stands for itself. -/
def char? : Glyph → Option Char
  | char c => some c
  | _ => none

/-- All ends of a text, from the whole of it down to nothing. -/
def ends : List Char → List (List Char)
  | [] => [[]]
  | c :: cs => (c :: cs) :: ends cs

/-- What may be left of a name after one more sign, if one of `lefts` is left before it. These are
ends of one name, the longest first; so the ends of the first are all that any number of characters
may leave. -/
def advance (lefts : List (List Char)) : Glyph → List (List Char)
  | anyChars =>
    match lefts with
    | [] => []
    | longest :: _ => ends longest
  | g => lefts.filterMap fun
    | c :: cs => if g.holds c then some cs else none
    | [] => none

/-- Whether the signs stand for a name: nothing may be left of it after all of them. -/
def spell (gs : List Glyph) (name : List Char) : Bool :=
  (gs.foldl advance [name]).any List.isEmpty

end Glyph

/-! ## Patterns -/

/-- A component of a pattern. -/
structure PatternSegment where
  glyphs : List Glyph
deriving DecidableEq, Repr

namespace PatternSegment

/-- Whether the component stands for any number of directories. -/
def isRecursive (s : PatternSegment) : Bool := s.glyphs.contains .recursive

/-- The name that the component spells if every sign stands for itself. -/
def literal? (s : PatternSegment) : Option String :=
  (s.glyphs.mapM Glyph.char?).map String.ofList

/-- Whether the component stands for a name. -/
def accepts (s : PatternSegment) (name : String) : Bool := Glyph.spell s.glyphs name.toList

/-- Whether the component begins with a dot that stands for itself. -/
def beginsWithDot (s : PatternSegment) : Bool := s.glyphs.head? == some (.char '.')

end PatternSegment

/-- A pattern for paths. -/
structure Pattern where
  absolute : Bool
  segments : List PatternSegment
  /-- Whether only directories are looked for: the pattern ends in a slash. -/
  directoriesOnly : Bool
deriving DecidableEq, Repr

namespace Pattern

/-- The pattern that a text spells. -/
def parse (text : String) : Except PatternError Pattern := do
  let cs := text.toList
  let _ ← Glyph.readAll none 0 cs
  let absolute := cs.head? == some '/'
  let directoriesOnly := cs.getLast? == some '/'
  let parts := if absolute then (pieces cs).tail else pieces cs
  let parts := if directoriesOnly then parts.dropLast else parts
  let segments ← parts.mapM fun part => (Glyph.readAll none 0 part).map PatternSegment.mk
  return { absolute, segments, directoriesOnly }

/-- The text of a pattern that stands for the given text and nothing else. -/
def escape (text : String) : String :=
  String.ofList <| text.toList.flatMap fun c =>
    if c = '?' ∨ c = '*' ∨ c = '[' ∨ c = ']' then ['[', c, ']'] else [c]

end Pattern

end Dbml
