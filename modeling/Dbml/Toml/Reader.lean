import Dbml.Toml.DateTime
import Dbml.Toml.Quoted

/-!
# Reading TOML

A text is read line by line into statements (`statements`), and the statements make up a table
(`parse?`). As in reading JSON there is one function for each phrase, from the characters at the
front to what the phrase stands for and the characters after it. Values are strings, numbers,
booleans, dates and times, arrays and tables in braces, which nest to a fixed depth.
-/

namespace Dbml.Toml

/-! ## Values -/

/-- The items of an array up to the closing bracket; a comma may stand after the last one. -/
def items (item : Reader Term) (s : List Char) : Option (List Term × List Char) :=
  match _h₁ : skipLines false s with
  | ']' :: rest => some ([], rest)
  | first =>
    match _h₂ : item.read first with
    | none => none
    | some (t, rest) =>
      match _h₃ : skipLines false rest with
      | ']' :: rest => some ([t], rest)
      | ',' :: rest => (items item rest).map fun (ts, rest) => (t :: ts, rest)
      | _ => none
termination_by s.length
decreasing_by
  have hs := length_skipLines false s
  have := item.shorter _h₂
  have := length_of_skipLines _h₃
  rw [_h₁] at hs
  omega

theorem length_items {item : Reader Term} {s rest : List Char} {ts : List Term}
    (h : items item s = some (ts, rest)) : rest.length < s.length := by
  fun_induction items item s generalizing ts with
  | case1 s r hs => cases h; exact length_of_skipLines hs
  | case2 => cases h
  | case3 s t mid r hclose _ hitem =>
    cases h
    have := length_skipLines false s
    have := item.shorter hitem
    have := length_of_skipLines hclose
    omega
  | case4 s t mid r hcomma _ hitem ih =>
    obtain ⟨⟨ts', r''⟩, hi, he⟩ := Option.map_eq_some_iff.1 h
    cases he
    have := ih hi
    have := length_skipLines false s
    have := item.shorter hitem
    have := length_of_skipLines hcomma
    omega
  | case5 => cases h

/-- A key, an equals sign and a value. -/
def readPair (value : Reader Term) (s : List Char) : Option ((List String × Term) × List Char) := do
  let (k, rest) ← key s
  let '=' :: rest := rest | none
  let (t, rest) ← value.read (skip rest)
  return ((k, t), rest)

theorem length_readPair {value : Reader Term} {s rest : List Char} {p : List String × Term}
    (h : readPair value s = some (p, rest)) : rest.length < s.length := by
  obtain ⟨⟨k, r₁⟩, h₁, h⟩ := Option.bind_eq_some_iff.1 h
  have := length_key h₁
  simp only at h
  split at h
  case h_1 r₂ =>
    obtain ⟨⟨t, r₃⟩, h₂, h⟩ := Option.bind_eq_some_iff.1 h
    cases h
    have := value.shorter h₂
    have : (skip r₂).length ≤ r₂.length := length_dropWhile_le isBlank r₂
    simp only [List.length_cons] at *
    omega
  case h_2 => cases h

/-- A key, an equals sign and a value that is read by the given reader. -/
def pair (value : Reader Term) : Reader (List String × Term) := ⟨readPair value, length_readPair⟩

/-- A value; those that nest in it are read by the given reader if there is one. -/
def readValue (inner : Option (Reader Term)) (s : List Char) : Option (Term × List Char) :=
  match s with
  | 't' :: 'r' :: 'u' :: 'e' :: rest => some (.boolean true, rest)
  | 'f' :: 'a' :: 'l' :: 's' :: 'e' :: rest => some (.boolean false, rest)
  | '"' :: _ => (string s).map fun (t, rest) => (.string t, rest)
  | '\'' :: _ => (string s).map fun (t, rest) => (.string t, rest)
  | '[' :: rest => do
    let (ts, rest) ← items (← inner) rest
    return (.array ts, rest)
  | '{' :: rest => do
    let inner ← inner
    match skip rest with
    | '}' :: rest => return (.inline [], rest)
    | first =>
      let (ps, rest) ← (pair inner).list isBlank '}' first
      return (.inline ps, rest)
  | s => (dateTime s).or (number s)

theorem length_readValue {inner : Option (Reader Term)} {s rest : List Char} {t : Term}
    (h : readValue inner s = some (t, rest)) : rest.length < s.length := by
  unfold readValue at h
  split at h
  case h_1 | h_2 => cases h; simp only [List.length_cons]; omega
  case h_3 | h_4 =>
    obtain ⟨⟨text, r⟩, hs, he⟩ := Option.map_eq_some_iff.1 h
    cases he
    exact length_string hs
  case h_5 =>
    obtain ⟨item, _, h⟩ := Option.bind_eq_some_iff.1 h
    obtain ⟨⟨ts, r⟩, hi, h⟩ := Option.bind_eq_some_iff.1 h
    cases h
    exact Nat.lt_succ_of_lt (length_items hi)
  case h_6 s =>
    obtain ⟨item, _, h⟩ := Option.bind_eq_some_iff.1 h
    split at h
    case h_1 hc =>
      cases h
      exact Nat.lt_succ_of_lt (length_of_dropWhile hc)
    case h_2 =>
      obtain ⟨⟨ps, r⟩, hl, h⟩ := Option.bind_eq_some_iff.1 h
      cases h
      have := Reader.length_list hl
      have : (skip s).length ≤ s.length := length_dropWhile_le isBlank s
      simp only [List.length_cons]
      omega
  case h_7 =>
    obtain h | ⟨-, h⟩ := Option.or_eq_some_iff.1 h
    · exact length_dateTime h
    · exact length_number h

/-- A value in which others nest at most `depth` deep. -/
def value : Nat → Reader Term
  | 0 => ⟨readValue none, length_readValue⟩
  | depth + 1 => ⟨fun s => readValue (some (value depth)) s, length_readValue⟩

/-! ## Statements -/

/-- A statement and the rest of its line. -/
def statement : List Char → Option (Statement × List Char)
  | '[' :: '[' :: rest => do
    let (k, rest) ← key rest
    let ']' :: ']' :: rest := rest | none
    return (.itemHeader k, ← endLine? rest)
  | '[' :: rest => do
    let (k, rest) ← key rest
    let ']' :: rest := rest | none
    return (.header k, ← endLine? rest)
  | s => do
    let (p, rest) ← (pair (value nestingLimit)).read s
    return (.pair p.1 p.2, ← endLine? rest)

theorem length_statement {s rest : List Char} {line : Statement}
    (h : statement s = some (line, rest)) : rest.length < s.length := by
  unfold statement at h
  split at h
  case h_1 =>
    obtain ⟨⟨k, r⟩, hk, h⟩ := Option.bind_eq_some_iff.1 h
    simp only at h
    split at h
    case h_1 =>
      obtain ⟨r', he, h⟩ := Option.bind_eq_some_iff.1 h
      cases h
      have := length_key hk
      have := length_endLine? he
      simp only [List.length_cons] at *
      omega
    case h_2 => cases h
  case h_2 =>
    obtain ⟨⟨k, r⟩, hk, h⟩ := Option.bind_eq_some_iff.1 h
    simp only at h
    split at h
    case h_1 =>
      obtain ⟨r', he, h⟩ := Option.bind_eq_some_iff.1 h
      cases h
      have := length_key hk
      have := length_endLine? he
      simp only [List.length_cons] at *
      omega
    case h_2 => cases h
  case h_3 =>
    obtain ⟨⟨p, r⟩, hp, h⟩ := Option.bind_eq_some_iff.1 h
    obtain ⟨r', he, h⟩ := Option.bind_eq_some_iff.1 h
    cases h
    have := (pair (value nestingLimit)).shorter hp
    have := length_endLine? he
    omega

/-- The statements of a text. -/
def statements (s : List Char) : Option (List Statement) :=
  match _h : skipLines false s with
  | [] => some []
  | first =>
    match _h' : statement first with
    | some (line, rest) => (statements rest).map (line :: ·)
    | none => none
termination_by s.length
decreasing_by
  have hs := length_skipLines false s
  have := length_statement _h'
  rw [_h] at hs
  omega

/-- The statements of a whole text. A byte order mark in front does not count. -/
def Statement.ofText? (text : String) : Option (List Statement) :=
  match text.toList with
  | '\ufeff' :: rest => statements rest
  | s => statements s

/-- The table that a whole text spells. -/
def parse? (text : String) : Option Table := (Statement.ofText? text).bind Table.ofStatements

end Dbml.Toml
