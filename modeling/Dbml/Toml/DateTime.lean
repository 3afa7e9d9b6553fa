import Dbml.Text.Reader
import Dbml.Toml.Number

/-!
# Dates and times

A date, a time, or both with a letter or a blank between them and perhaps the distance from
universal time. They are checked (no month has too many days, and no minute more than sixty seconds
and a leap second) and keep their written form. The functions pass over what they read.
-/

namespace Dbml.Toml

/-- How many days a month has. -/
def daysIn (year month : Nat) : Nat :=
  if month = 2 then
    if year % 4 = 0 ∧ (year % 100 ≠ 0 ∨ year % 400 = 0) then 29 else 28
  else if month = 4 ∨ month = 6 ∨ month = 9 ∨ month = 11 then 30
  else 31

/-- A date: year, month and day. -/
def date? : List Char → Option (List Char)
  | y₁ :: y₂ :: y₃ :: y₄ :: '-' :: m₁ :: m₂ :: '-' :: d₁ :: d₂ :: rest =>
    let month := ofDigits 10 [m₁, m₂]
    let day := ofDigits 10 [d₁, d₂]
    if [y₁, y₂, y₃, y₄, m₁, m₂, d₁, d₂].all Char.isDigit ∧ 1 ≤ month ∧ month ≤ 12 ∧ 1 ≤ day ∧
        day ≤ daysIn (ofDigits 10 [y₁, y₂, y₃, y₄]) month then
      some rest
    else none
  | _ => none

/-- Hours and minutes. -/
def clock? : List Char → Option (List Char)
  | h₁ :: h₂ :: ':' :: m₁ :: m₂ :: rest =>
    if [h₁, h₂, m₁, m₂].all Char.isDigit ∧ ofDigits 10 [h₁, h₂] ≤ 23 ∧
        ofDigits 10 [m₁, m₂] ≤ 59 then
      some rest
    else none
  | _ => none

/-- The fraction of a second, which may be missing. -/
def skipFraction : List Char → List Char
  | '.' :: d :: rest => if d.isDigit then rest.dropWhile Char.isDigit else '.' :: d :: rest
  | s => s

/-- A time: hours, minutes and seconds. -/
def time? (s : List Char) : Option (List Char) :=
  match clock? s with
  | some (':' :: s₁ :: s₂ :: rest) =>
    if [s₁, s₂].all Char.isDigit ∧ ofDigits 10 [s₁, s₂] ≤ 60 then some (skipFraction rest) else none
  | _ => none

/-- The distance from universal time, which may be missing. -/
def skipOffset : List Char → List Char
  | 'Z' :: rest => rest
  | 'z' :: rest => rest
  | '+' :: rest => (clock? rest).getD ('+' :: rest)
  | '-' :: rest => (clock? rest).getD ('-' :: rest)
  | s => s

/-- The characters between a date and a time. -/
def isBeforeTime (c : Char) : Bool := c == 'T' || c == 't' || c == ' '

/-- The time after a date, which may be missing. -/
def skipTime : List Char → List Char
  | c :: rest =>
    match time? rest with
    | some after => if isBeforeTime c then skipOffset after else c :: rest
    | none => c :: rest
  | [] => []

/-- A date, a time or both. -/
def dateTime (s : List Char) : Option (Term × List Char) :=
  let after := match date? s with
    | some rest => some (skipTime rest)
    | none => time? s
  after.map fun rest => (.dateTime (String.ofList (s.take (s.length - rest.length))), rest)

theorem length_date? {s rest : List Char} (h : date? s = some rest) : rest.length < s.length := by
  unfold date? at h
  split at h
  case h_1 =>
    dsimp only at h
    split at h
    · cases h
      simp only [List.length_cons]
      omega
    · cases h
  case h_2 => cases h

theorem length_clock? {s rest : List Char} (h : clock? s = some rest) : rest.length < s.length := by
  unfold clock? at h
  split at h
  case h_1 =>
    split at h
    · cases h
      simp only [List.length_cons]
      omega
    · cases h
  case h_2 => cases h

theorem length_skipFraction (s : List Char) : (skipFraction s).length ≤ s.length := by
  unfold skipFraction
  split
  case h_1 rest =>
    have := length_dropWhile_le Char.isDigit rest
    split <;> simp only [List.length_cons] <;> omega
  case h_2 => exact Nat.le_refl _

theorem length_time? {s rest : List Char} (h : time? s = some rest) : rest.length < s.length := by
  unfold time? at h
  split at h
  case h_1 r hc =>
    split at h
    · cases h
      have := length_clock? hc
      have := length_skipFraction r
      simp only [List.length_cons] at *
      omega
    · cases h
  case h_2 => cases h

/-- Passing over hours and minutes that may be missing leaves no more than there was. -/
theorem length_clock?_getD (c : Char) (s : List Char) :
    ((clock? s).getD (c :: s)).length ≤ s.length + 1 := by
  match h : clock? s with
  | some rest => exact Nat.le_succ_of_le (Nat.le_of_lt (length_clock? h))
  | none => exact Nat.le_refl _

theorem length_skipOffset (s : List Char) : (skipOffset s).length ≤ s.length := by
  unfold skipOffset
  split
  case h_1 | h_2 => exact Nat.le_succ _
  case h_3 | h_4 => exact length_clock?_getD _ _
  case h_5 => exact Nat.le_refl _

theorem length_skipTime (s : List Char) : (skipTime s).length ≤ s.length := by
  unfold skipTime
  split
  case h_1 rest =>
    split
    case h_1 after ht =>
      split
      · have := length_time? ht
        have := length_skipOffset after
        simp only [List.length_cons]
        omega
      · exact Nat.le_refl _
    case h_2 => exact Nat.le_refl _
  case h_2 => exact Nat.le_refl _

theorem length_dateTime {s rest : List Char} {t : Term} (h : dateTime s = some (t, rest)) :
    rest.length < s.length := by
  obtain ⟨r, hr, he⟩ := Option.map_eq_some_iff.1 h
  cases he
  split at hr
  case h_1 r hd =>
    cases hr
    exact Nat.lt_of_le_of_lt (length_skipTime r) (length_date? hd)
  case h_2 => exact length_time? hr

end Dbml.Toml
