import Dbml.Json.Value
import Dbml.Text.Hex
import Dbml.Text.Reader

/-!
# Reading JSON

A text is read by one function for each phrase of the grammar: from the characters at the front it
takes the phrase and gives what it stands for and the characters after it. A value is read by the
depth to which values nest in it (`value`), and no text holds values that nest deeper than it has
characters (`parse?`).

The grammar is strict: no comma at the end of a list, no leading zeros, no control character in a
string, and nothing but blanks before and after the value of a whole text.
-/

namespace Dbml.Json

/-! ## Blanks -/

/-- The blanks that may stand between two phrases. -/
def isBlank (c : Char) : Bool := c == ' ' || c == '\t' || c == '\n' || c == '\r'

/-- Passes over blanks. -/
def skip (s : List Char) : List Char := s.dropWhile isBlank

/-! ## Strings -/

/-- The first halves of surrogate pairs. -/
def isHighSurrogate (n : Nat) : Bool := 0xd800 ≤ n && n ≤ 0xdbff

/-- The second halves of surrogate pairs. -/
def isLowSurrogate (n : Nat) : Bool := 0xdc00 ≤ n && n ≤ 0xdfff

/-- The character that a surrogate pair stands for. -/
def ofPair (high low : Nat) : Char :=
  Char.ofNat (0x10000 + (high - 0xd800) * 0x400 + (low - 0xdc00))

/-- The character that a one-letter escape stands for. -/
def unescape? : Char → Option Char
  | '"' => some '"'
  | '\\' => some '\\'
  | '/' => some '/'
  | 'b' => some '\x08'
  | 'f' => some '\x0c'
  | 'n' => some '\n'
  | 'r' => some '\r'
  | 't' => some '\t'
  | _ => none

/-- The code units of a string from after its opening quote to its closing quote: a character gives
its code point, an escape the number it names. -/
def units : List Char → Option (List Nat × List Char)
  | '"' :: rest => some ([], rest)
  | '\\' :: 'u' :: a :: b :: c :: d :: rest =>
    match hexNumber? [a, b, c, d] with
    | some n => (units rest).map fun (us, rest) => (n :: us, rest)
    | none => none
  | '\\' :: e :: rest =>
    match unescape? e with
    | some c => (units rest).map fun (us, rest) => (c.toNat :: us, rest)
    | none => none
  | c :: rest => if c.toNat < 32 then none else (units rest).map fun (us, rest) => (c.toNat :: us, rest)
  | [] => none

theorem length_units {s rest : List Char} {us : List Nat} (h : units s = some (us, rest)) :
    rest.length < s.length := by
  fun_induction units s generalizing us with
  | case1 => cases h; simp
  | case2 a b c d s n hn ih =>
    obtain ⟨⟨us', r⟩, hu, he⟩ := Option.map_eq_some_iff.1 h
    cases he
    have := ih hu
    simp only [List.length_cons]
    omega
  | case3 => cases h
  | case4 e s _ c hc ih =>
    obtain ⟨⟨us', r⟩, hu, he⟩ := Option.map_eq_some_iff.1 h
    cases he
    have := ih hu
    simp only [List.length_cons]
    omega
  | case5 => cases h
  | case6 => cases h
  | case7 c s _ _ _ _ ih =>
    obtain ⟨⟨us', r⟩, hu, he⟩ := Option.map_eq_some_iff.1 h
    cases he
    have := ih hu
    simp only [List.length_cons]
    omega
  | case8 => cases h

/-- The characters that code units stand for: the halves of a surrogate pair make one character,
and a half alone makes none. -/
def ofUnits? : List Nat → Option (List Char)
  | [] => some []
  | n :: us =>
    if isHighSurrogate n then
      match us with
      | m :: us => if isLowSurrogate m then (ofUnits? us).map (ofPair n m :: ·) else none
      | [] => none
    else if isLowSurrogate n then none
    else (ofUnits? us).map (Char.ofNat n :: ·)

/-- A string from after its opening quote to its closing quote. -/
def body (s : List Char) : Option (Option String × List Char) :=
  (units s).map fun (us, rest) => ((ofUnits? us).map String.ofList, rest)

theorem length_body {s rest : List Char} {text : Option String} (h : body s = some (text, rest)) :
    rest.length < s.length := by
  obtain ⟨⟨us, r⟩, hu, he⟩ := Option.map_eq_some_iff.1 h
  cases he
  exact length_units hu

/-! ## Numbers -/

/-- One digit or more. -/
def digits (s : List Char) : Option (List Char × List Char) :=
  match s.takeWhile Char.isDigit with
  | [] => none
  | ds => some (ds, s.dropWhile Char.isDigit)

/-- A whole number without sign; a zero stands alone. -/
def whole : List Char → Option (List Char × List Char)
  | '0' :: rest => some (['0'], rest)
  | s => digits s

/-- The fraction of a number, which may be missing. -/
def fraction : List Char → Option (List Char × List Char)
  | '.' :: rest => (digits rest).map fun (ds, rest) => ('.' :: ds, rest)
  | s => some ([], s)

/-- The sign of an exponent, which may be missing. -/
def exponentSign : List Char → List Char × List Char
  | '+' :: rest => (['+'], rest)
  | '-' :: rest => (['-'], rest)
  | s => ([], s)

/-- The exponent of a number, which may be missing. -/
def exponent : List Char → Option (List Char × List Char)
  | [] => some ([], [])
  | e :: rest =>
    if e = 'e' ∨ e = 'E' then
      (digits (exponentSign rest).2).map fun (ds, after) => (e :: (exponentSign rest).1 ++ ds, after)
    else some ([], e :: rest)

/-- A number without sign. -/
def unsigned (s : List Char) : Option (List Char × List Char) := do
  let (w, s) ← whole s
  let (f, s) ← fraction s
  let (e, s) ← exponent s
  return (w ++ f ++ e, s)

/-- A number. -/
def number : List Char → Option (List Char × List Char)
  | '-' :: rest => (unsigned rest).map fun (n, rest) => ('-' :: n, rest)
  | s => unsigned s

theorem length_digits {s ds rest : List Char} (h : digits s = some (ds, rest)) :
    rest.length < s.length := by
  unfold digits at h
  split at h
  · cases h
  · rename_i hne
    cases h
    exact length_dropWhile_lt hne

theorem length_whole {s ds rest : List Char} (h : whole s = some (ds, rest)) :
    rest.length < s.length := by
  unfold whole at h
  split at h
  · cases h; simp
  · exact length_digits h

theorem length_fraction {s ds rest : List Char} (h : fraction s = some (ds, rest)) :
    rest.length ≤ s.length := by
  unfold fraction at h
  split at h
  · obtain ⟨⟨ds', r⟩, hd, he⟩ := Option.map_eq_some_iff.1 h
    cases he
    have := length_digits hd
    simp only [List.length_cons]
    omega
  · cases h; simp

theorem length_exponentSign (s : List Char) : (exponentSign s).2.length ≤ s.length := by
  unfold exponentSign
  split <;> simp

theorem length_exponent {s ds rest : List Char} (h : exponent s = some (ds, rest)) :
    rest.length ≤ s.length := by
  unfold exponent at h
  split at h
  · cases h; simp
  · rename_i s
    split at h
    · obtain ⟨⟨ds', r⟩, hd, he⟩ := Option.map_eq_some_iff.1 h
      cases he
      have := length_digits hd
      have := length_exponentSign s
      simp only [List.length_cons]
      omega
    · cases h; simp

theorem length_unsigned {s ds rest : List Char} (h : unsigned s = some (ds, rest)) :
    rest.length < s.length := by
  obtain ⟨⟨w, r₁⟩, h₁, h⟩ := Option.bind_eq_some_iff.1 h
  obtain ⟨⟨f, r₂⟩, h₂, h⟩ := Option.bind_eq_some_iff.1 h
  obtain ⟨⟨e, r₃⟩, h₃, h⟩ := Option.bind_eq_some_iff.1 h
  cases h
  have := length_whole h₁
  have := length_fraction h₂
  have := length_exponent h₃
  omega

theorem length_number {s ds rest : List Char} (h : number s = some (ds, rest)) :
    rest.length < s.length := by
  unfold number at h
  split at h
  · obtain ⟨⟨ds', r⟩, hd, he⟩ := Option.map_eq_some_iff.1 h
    cases he
    have := length_unsigned hd
    simp only [List.length_cons]
    omega
  · exact length_unsigned h

/-! ## Values -/

/-- A member of an object: a key, a colon and a value. -/
def readMember (value : Reader Value) (s : List Char) :
    Option ((Option String × Value) × List Char) := do
  let '"' :: s := s | none
  let (key, s) ← body s
  let ':' :: s := skip s | none
  let (v, rest) ← value.read (skip s)
  return ((key, v), rest)

theorem length_readMember {value : Reader Value} {s rest : List Char} {m : Option String × Value}
    (h : readMember value s = some (m, rest)) : rest.length < s.length := by
  unfold readMember at h
  split at h
  case h_1 s =>
    obtain ⟨⟨key, r₁⟩, h₁, h⟩ := Option.bind_eq_some_iff.1 h
    simp only at h
    split at h
    case h_1 r₂ h₂ =>
      obtain ⟨⟨v, r₃⟩, h₃, h⟩ := Option.bind_eq_some_iff.1 h
      cases h
      have := length_body h₁
      have := length_of_dropWhile h₂
      have := length_dropWhile_le isBlank r₂
      have := value.shorter h₃
      unfold skip at this
      simp only [List.length_cons]
      omega
    case h_2 => cases h
  case h_2 => cases h

/-- A member of an object whose value is read by the given reader. -/
def member (value : Reader Value) : Reader (Option String × Value) :=
  ⟨readMember value, length_readMember⟩

/-- A value; those that nest in it are read by the given reader. -/
def readValue (inner : Reader Value) (s : List Char) : Option (Value × List Char) :=
  match s with
  | 'n' :: 'u' :: 'l' :: 'l' :: rest => some (.null, rest)
  | 't' :: 'r' :: 'u' :: 'e' :: rest => some (.bool true, rest)
  | 'f' :: 'a' :: 'l' :: 's' :: 'e' :: rest => some (.bool false, rest)
  | '"' :: rest => (body rest).map fun (text, rest) => (.string text, rest)
  | '[' :: rest =>
    match skip rest with
    | ']' :: after => some (.array [], after)
    | first => (inner.list isBlank ']' first).map fun (vs, after) => (.array vs, after)
  | '{' :: rest =>
    match skip rest with
    | '}' :: after => some (.object [], after)
    | first => ((member inner).list isBlank '}' first).map fun (ms, after) => (.object ms, after)
  | s => (number s).map fun (n, rest) => (.number (String.ofList n), rest)

theorem length_readValue {inner : Reader Value} {s rest : List Char} {v : Value}
    (h : readValue inner s = some (v, rest)) : rest.length < s.length := by
  unfold readValue at h
  split at h
  case h_1 | h_2 | h_3 => cases h; simp only [List.length_cons]; omega
  case h_4 =>
    obtain ⟨⟨text, r⟩, hb, he⟩ := Option.map_eq_some_iff.1 h
    cases he
    have := length_body hb
    simp only [List.length_cons]
    omega
  case h_5 s =>
    have hs := length_dropWhile_le isBlank s
    split at h
    case h_1 hc =>
      cases h
      have := length_of_dropWhile hc
      simp only [List.length_cons]
      omega
    case h_2 =>
      obtain ⟨⟨vs, r⟩, hl, he⟩ := Option.map_eq_some_iff.1 h
      cases he
      have := Reader.length_list hl
      unfold skip at this
      simp only [List.length_cons]
      omega
  case h_6 s =>
    have hs := length_dropWhile_le isBlank s
    split at h
    case h_1 hc =>
      cases h
      have := length_of_dropWhile hc
      simp only [List.length_cons]
      omega
    case h_2 =>
      obtain ⟨⟨ms, r⟩, hl, he⟩ := Option.map_eq_some_iff.1 h
      cases he
      have := Reader.length_list hl
      unfold skip at this
      simp only [List.length_cons]
      omega
  case h_7 =>
    obtain ⟨⟨n, r⟩, hn, he⟩ := Option.map_eq_some_iff.1 h
    cases he
    exact length_number hn

/-- A value in which values nest less than `depth` deep. -/
def value : Nat → Reader Value
  | 0 => ⟨fun _ => none, by simp⟩
  | depth + 1 => ⟨fun s => readValue (value depth) s, length_readValue⟩

/-- The value that a whole text spells. -/
def parse? (text : String) : Option Value :=
  match (value text.length).read (skip text.toList) with
  | some (v, rest) => if skip rest = [] then some v else none
  | none => none

end Dbml.Json
