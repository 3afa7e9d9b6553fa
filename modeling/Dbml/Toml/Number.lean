import Dbml.Text.Hex
import Dbml.Toml.Value

/-!
# Numbers

Integers in four bases and decimal numbers with fractions and exponents. Underscores may stand
between digits. An integer that 64 bits do not hold is refused.
-/

namespace Dbml.Toml

/-- More digits, between which an underscore may stand. -/
def moreDigits (isDigit : Char → Bool) : List Char → List Char × List Char
  | '_' :: d :: rest =>
    if isDigit d then
      let (ds, rest) := moreDigits isDigit rest
      (d :: ds, rest)
    else ([], '_' :: d :: rest)
  | d :: rest =>
    if isDigit d then
      let (ds, rest) := moreDigits isDigit rest
      (d :: ds, rest)
    else ([], d :: rest)
  | [] => ([], [])

/-- One digit or more. -/
def digits (isDigit : Char → Bool) : List Char → Option (List Char × List Char)
  | d :: rest =>
    if isDigit d then
      let (ds, rest) := moreDigits isDigit rest
      some (d :: ds, rest)
    else none
  | [] => none

/-- The number that digits in some base spell. -/
def ofDigits (base : Nat) (ds : List Char) : Nat :=
  ds.foldl (fun n d => base * n + (hexValue? d).getD 0) 0

/-- An integer, if 64 bits hold it. -/
def integer? (n : Int) : Option Term :=
  if -9223372036854775808 ≤ n ∧ n ≤ 9223372036854775807 then some (.integer n) else none

/-- An integer in some base from after the sign of its base. -/
def based (base : Nat) (isDigit : Char → Bool) (s : List Char) : Option (Term × List Char) := do
  let (ds, rest) ← digits isDigit s
  return (← integer? (ofDigits base ds), rest)

/-- The sign of a number, which may be missing. -/
def sign : List Char → List Char × List Char
  | '+' :: rest => ([], rest)
  | '-' :: rest => (['-'], rest)
  | s => ([], s)

/-- The digits of a decimal number; a zero stands alone. -/
def whole : List Char → Option (List Char × List Char)
  | '0' :: rest => some (['0'], rest)
  | s => digits Char.isDigit s

/-- A part of a number that begins with a character, or nothing if it is missing. -/
def part (begins : Char → Bool) (digits : List Char → Option (List Char × List Char)) :
    List Char → Option (List Char × List Char)
  | c :: rest =>
    if begins c then (digits rest).map fun (ds, rest) => (c :: ds, rest) else some ([], c :: rest)
  | [] => some ([], [])

/-- The digits of an exponent with their sign. -/
def exponentDigits (s : List Char) : Option (List Char × List Char) :=
  (digits Char.isDigit (sign s).2).map fun (ds, rest) => ((sign s).1 ++ ds, rest)

/-- The number with the given sign and parts: an integer if only the digits before the point are
there. -/
def ofParts? (mark ds fraction exponent : List Char) : Option Term :=
  let n : Int := ofDigits 10 ds
  if fraction.isEmpty && exponent.isEmpty then integer? (if mark.isEmpty then n else -n)
  else some (.float (String.ofList (mark ++ ds ++ fraction ++ exponent)))

/-- A number from after its sign, which is `mark`. -/
def unsigned (mark : List Char) (s : List Char) : Option (Term × List Char) := do
  let (ds, rest) ← whole s
  let (fraction, rest) ← part (· == '.') (digits Char.isDigit) rest
  let (exponent, rest) ← part (fun c => c == 'e' || c == 'E') exponentDigits rest
  return (← ofParts? mark ds fraction exponent, rest)

/-- A decimal number with an optional sign. -/
def decimal (s : List Char) : Option (Term × List Char) :=
  match (sign s).2 with
  | 'i' :: 'n' :: 'f' :: rest => some (.float (String.ofList (sign s).1 ++ "inf"), rest)
  | 'n' :: 'a' :: 'n' :: rest => some (.float (String.ofList (sign s).1 ++ "nan"), rest)
  | rest => unsigned (sign s).1 rest

/-- A number. -/
def number : List Char → Option (Term × List Char)
  | '0' :: 'x' :: rest => based 16 (fun c => (hexValue? c).isSome) rest
  | '0' :: 'o' :: rest => based 8 (fun c => '0' ≤ c && c ≤ '7') rest
  | '0' :: 'b' :: rest => based 2 (fun c => c == '0' || c == '1') rest
  | s => decimal s

theorem length_moreDigits (isDigit : Char → Bool) (s : List Char) :
    (moreDigits isDigit s).2.length ≤ s.length := by
  fun_induction moreDigits isDigit s <;> simp_all <;> omega

theorem length_digits {isDigit : Char → Bool} {s ds rest : List Char}
    (h : digits isDigit s = some (ds, rest)) : rest.length < s.length := by
  unfold digits at h
  split at h
  case h_1 d s =>
    split at h
    · cases h
      exact Nat.lt_succ_of_le (length_moreDigits isDigit s)
    · cases h
  case h_2 => cases h

theorem length_based {base : Nat} {isDigit : Char → Bool} {s rest : List Char} {t : Term}
    (h : based base isDigit s = some (t, rest)) : rest.length < s.length := by
  obtain ⟨⟨ds, r⟩, hd, h⟩ := Option.bind_eq_some_iff.1 h
  obtain ⟨n, hn, h⟩ := Option.bind_eq_some_iff.1 h
  cases h
  exact length_digits hd

theorem length_sign (s : List Char) : (sign s).2.length ≤ s.length := by
  unfold sign
  split <;> simp

theorem length_whole {s ds rest : List Char} (h : whole s = some (ds, rest)) :
    rest.length < s.length := by
  unfold whole at h
  split at h
  · cases h; simp
  · exact length_digits h

theorem length_part {begins : Char → Bool}
    {digits : List Char → Option (List Char × List Char)} {s ds rest : List Char}
    (hdigits : ∀ {s ds rest}, digits s = some (ds, rest) → rest.length ≤ s.length)
    (h : part begins digits s = some (ds, rest)) : rest.length ≤ s.length := by
  unfold part at h
  split at h
  · split at h
    · obtain ⟨⟨ds', r⟩, hd, he⟩ := Option.map_eq_some_iff.1 h
      cases he
      exact Nat.le_succ_of_le (hdigits hd)
    · cases h; simp
  · cases h; simp

theorem length_exponentDigits {s ds rest : List Char} (h : exponentDigits s = some (ds, rest)) :
    rest.length ≤ s.length := by
  obtain ⟨⟨ds', r⟩, hd, he⟩ := Option.map_eq_some_iff.1 h
  cases he
  have := length_digits hd
  have := length_sign s
  omega

theorem length_unsigned {mark s rest : List Char} {t : Term}
    (h : unsigned mark s = some (t, rest)) : rest.length < s.length := by
  obtain ⟨⟨ds, r₁⟩, h₁, h⟩ := Option.bind_eq_some_iff.1 h
  obtain ⟨⟨fraction, r₂⟩, h₂, h⟩ := Option.bind_eq_some_iff.1 h
  obtain ⟨⟨exponent, r₃⟩, h₃, h⟩ := Option.bind_eq_some_iff.1 h
  obtain ⟨term, ht, h⟩ := Option.bind_eq_some_iff.1 h
  cases h
  have := length_whole h₁
  have := length_part (fun hd => Nat.le_of_lt (length_digits hd)) h₂
  have := length_part length_exponentDigits h₃
  omega

theorem length_decimal {s rest : List Char} {t : Term} (h : decimal s = some (t, rest)) :
    rest.length < s.length := by
  have hs := length_sign s
  unfold decimal at h
  split at h
  case h_1 hc | h_2 hc =>
    cases h
    rw [hc] at hs
    simp only [List.length_cons] at hs
    omega
  case h_3 =>
    have := length_unsigned h
    omega

theorem length_number {s rest : List Char} {t : Term} (h : number s = some (t, rest)) :
    rest.length < s.length := by
  unfold number at h
  split at h
  case h_1 | h_2 | h_3 =>
    have := length_based h
    simp only [List.length_cons]
    omega
  case h_4 => exact length_decimal h

end Dbml.Toml
