import Dbml.Text.Cut
import Dbml.Text.Hex
import Dbml.Toml.Blank

/-!
# Strings and keys

A string is written in one of four forms: in double quotes, with escapes, or in single quotes,
without; in three quotes of either sort it may go over several lines. A key is a list of parts with
dots between them, and a part may be a string of one line.
-/

namespace Dbml.Toml

/-! ## Strings -/

/-- The character with a code point. -/
def ofCodePoint? (n : Nat) : Option Char := if n.isValidChar then some (Char.ofNat n) else none

/-- The character that a one-letter escape stands for. -/
def unescape? : Char → Option Char
  | 'b' => some '\x08'
  | 't' => some '\t'
  | 'n' => some '\n'
  | 'f' => some '\x0c'
  | 'r' => some '\r'
  | '"' => some '"'
  | '\\' => some '\\'
  | _ => none

/-- One more character in front of what is read. -/
def cons (c : Option Char) (s : Option (List Char × List Char)) : Option (List Char × List Char) :=
  match c, s with
  | some c, some (cs, rest) => some (c :: cs, rest)
  | _, _ => none

/-- A string with escapes from after its opening quote to its closing quote. -/
def basic : List Char → Option (List Char × List Char)
  | '"' :: rest => some ([], rest)
  | '\\' :: 'u' :: a :: b :: c :: d :: rest =>
    cons ((hexNumber? [a, b, c, d]).bind ofCodePoint?) (basic rest)
  | '\\' :: 'U' :: a :: b :: c :: d :: e :: f :: g :: h :: rest =>
    cons ((hexNumber? [a, b, c, d, e, f, g, h]).bind ofCodePoint?) (basic rest)
  | '\\' :: e :: rest => cons (unescape? e) (basic rest)
  | c :: rest => if isText c then cons (some c) (basic rest) else none
  | [] => none

/-- A string without escapes from after its opening quote to its closing quote. -/
def literal (s : List Char) : Option (List Char × List Char) :=
  match cutAt ['\''] s with
  | some (text, rest) => if text.all isText then some (text, rest) else none
  | none => none

/-- Whether a line ends after nothing but blanks. -/
def endsHere (s : List Char) : Bool := (newline? (skip s)).isSome

/-- A string over several lines, with escapes, from after its opening quotes to its closing quotes.
A backslash at the end of a line takes away the line end and all blanks after it: `trim` says
whether `s` follows one. Two quotes may stand before the closing ones. -/
def longBasic (trim : Bool) : List Char → Option (List Char × List Char)
  | '\n' :: rest => if trim then longBasic true rest else cons (some '\n') (longBasic false rest)
  | '\r' :: '\n' :: rest =>
    if trim then longBasic true rest else cons (some '\n') (longBasic false rest)
  | '"' :: '"' :: '"' :: '"' :: '"' :: rest => some (['"', '"'], rest)
  | '"' :: '"' :: '"' :: '"' :: rest => some (['"'], rest)
  | '"' :: '"' :: '"' :: rest => some ([], rest)
  | '\\' :: 'u' :: a :: b :: c :: d :: rest =>
    cons ((hexNumber? [a, b, c, d]).bind ofCodePoint?) (longBasic false rest)
  | '\\' :: 'U' :: a :: b :: c :: d :: e :: f :: g :: h :: rest =>
    cons ((hexNumber? [a, b, c, d, e, f, g, h]).bind ofCodePoint?) (longBasic false rest)
  | '\\' :: rest =>
    if endsHere rest then longBasic true rest
    else
      match rest with
      | e :: rest => cons (unescape? e) (longBasic false rest)
      | [] => none
  | c :: rest =>
    if trim && isBlank c then longBasic true rest
    else if isText c then cons (some c) (longBasic false rest)
    else none
  | [] => none

/-- A string over several lines, without escapes, from after its opening quotes to its closing ones. -/
def longLiteral : List Char → Option (List Char × List Char)
  | '\r' :: '\n' :: rest => cons (some '\n') (longLiteral rest)
  | '\'' :: '\'' :: '\'' :: '\'' :: '\'' :: rest => some (['\'', '\''], rest)
  | '\'' :: '\'' :: '\'' :: '\'' :: rest => some (['\''], rest)
  | '\'' :: '\'' :: '\'' :: rest => some ([], rest)
  | c :: rest => if c = '\n' ∨ isText c then cons (some c) (longLiteral rest) else none
  | [] => none

/-- What is read as a `String`. -/
def asString (r : Option (List Char × List Char)) : Option (String × List Char) :=
  r.map fun (cs, rest) => (String.ofList cs, rest)

/-- A string of any of the four forms. A line end right after three quotes does not count. -/
def string : List Char → Option (String × List Char)
  | '"' :: '"' :: '"' :: rest => asString (longBasic false ((newline? rest).getD rest))
  | '\'' :: '\'' :: '\'' :: rest => asString (longLiteral ((newline? rest).getD rest))
  | '"' :: rest => asString (basic rest)
  | '\'' :: rest => asString (literal rest)
  | _ => none

theorem eq_some_of_cons {c : Option Char} {r : Option (List Char × List Char)}
    {cs rest : List Char} (h : cons c r = some (cs, rest)) : ∃ cs', r = some (cs', rest) := by
  unfold cons at h
  split at h
  · cases h; exact ⟨_, rfl⟩
  · cases h

theorem length_basic {s cs rest : List Char} (h : basic s = some (cs, rest)) :
    rest.length < s.length := by
  fun_induction basic s generalizing cs <;>
    simp only [List.length_cons, List.length_nil] <;> grind [eq_some_of_cons]

theorem length_literal {s cs rest : List Char} (h : literal s = some (cs, rest)) :
    rest.length < s.length := by
  unfold literal at h
  split at h
  case h_1 hc =>
    split at h
    · cases h
      rw [append_of_cutAt hc]
      simp only [List.length_append, List.length_cons]
      omega
    · cases h
  case h_2 => cases h

theorem length_longBasic {trim : Bool} {s cs rest : List Char}
    (h : longBasic trim s = some (cs, rest)) : rest.length < s.length := by
  fun_induction longBasic trim s generalizing cs <;>
    simp only [List.length_cons, List.length_nil] <;> grind [eq_some_of_cons]

theorem length_longLiteral {s cs rest : List Char} (h : longLiteral s = some (cs, rest)) :
    rest.length < s.length := by
  fun_induction longLiteral s generalizing cs <;>
    simp only [List.length_cons, List.length_nil] <;> grind [eq_some_of_cons]

theorem eq_some_of_asString {r : Option (List Char × List Char)} {t : String} {rest : List Char}
    (h : asString r = some (t, rest)) : ∃ cs, r = some (cs, rest) := by
  obtain ⟨⟨cs, r'⟩, hr, he⟩ := Option.map_eq_some_iff.1 h
  cases he
  exact ⟨cs, hr⟩

/-- Passing over a line end that may be missing leaves no more than there was. -/
theorem length_newline?_getD (s : List Char) : ((newline? s).getD s).length ≤ s.length := by
  match h : newline? s with
  | some rest => exact Nat.le_of_lt (length_newline? h)
  | none => exact Nat.le_refl _

theorem length_string {s rest : List Char} {t : String} (h : string s = some (t, rest)) :
    rest.length < s.length := by
  unfold string at h
  split at h
  case h_1 s =>
    obtain ⟨cs, hc⟩ := eq_some_of_asString h
    have := length_longBasic hc
    have := length_newline?_getD s
    simp only [List.length_cons]
    omega
  case h_2 s =>
    obtain ⟨cs, hc⟩ := eq_some_of_asString h
    have := length_longLiteral hc
    have := length_newline?_getD s
    simp only [List.length_cons]
    omega
  case h_3 =>
    obtain ⟨cs, hc⟩ := eq_some_of_asString h
    exact Nat.lt_succ_of_lt (length_basic hc)
  case h_4 =>
    obtain ⟨cs, hc⟩ := eq_some_of_asString h
    exact Nat.lt_succ_of_lt (length_literal hc)
  case h_5 => cases h

/-! ## Keys -/

/-- How deep values may nest, and how many parts a key may have. -/
def nestingLimit : Nat := 79

/-- The characters of keys without quotes. -/
def isKeyChar (c : Char) : Bool := c.isAlphanum || c == '_' || c == '-'

/-- One part of a key. -/
def keyPart : List Char → Option (String × List Char)
  | '"' :: rest => asString (basic rest)
  | '\'' :: rest => asString (literal rest)
  | s =>
    match s.takeWhile isKeyChar with
    | [] => none
    | cs => some (String.ofList cs, s.dropWhile isKeyChar)

theorem length_keyPart {s rest : List Char} {k : String} (h : keyPart s = some (k, rest)) :
    rest.length < s.length := by
  unfold keyPart at h
  split at h
  case h_1 =>
    obtain ⟨cs, hc⟩ := eq_some_of_asString h
    exact Nat.lt_succ_of_lt (length_basic hc)
  case h_2 =>
    obtain ⟨cs, hc⟩ := eq_some_of_asString h
    exact Nat.lt_succ_of_lt (length_literal hc)
  case h_3 =>
    split at h
    case h_1 => cases h
    case h_2 hne =>
      cases h
      exact length_dropWhile_lt hne

/-- The parts of a key, with dots between them and blanks around them. -/
def keyParts (s : List Char) : Option (List String × List Char) :=
  match _h : keyPart (skip s) with
  | none => none
  | some (k, rest) =>
    match _h' : skip rest with
    | '.' :: rest => (keyParts rest).map fun (ks, rest) => (k :: ks, rest)
    | rest => some ([k], rest)
termination_by s.length
decreasing_by
  have := length_keyPart _h
  have : (skip s).length ≤ s.length := length_dropWhile_le isBlank s
  have := length_of_dropWhile _h'
  omega

theorem length_keyParts {s rest : List Char} {ks : List String}
    (h : keyParts s = some (ks, rest)) : rest.length < s.length := by
  fun_induction keyParts s generalizing ks with
  | case1 => cases h
  | case2 s k mid hk after hdot ih =>
    obtain ⟨⟨ks', r⟩, hr, he⟩ := Option.map_eq_some_iff.1 h
    cases he
    have := ih hr
    have := length_keyPart hk
    have : (skip s).length ≤ s.length := length_dropWhile_le isBlank s
    have := length_of_dropWhile hdot
    omega
  | case3 s k mid hk =>
    cases h
    have := length_keyPart hk
    have : (skip s).length ≤ s.length := length_dropWhile_le isBlank s
    have : (skip mid).length ≤ mid.length := length_dropWhile_le isBlank mid
    omega

/-- A key. -/
def key (s : List Char) : Option (List String × List Char) :=
  (keyParts s).filter fun (ks, _) => ks.length ≤ nestingLimit

theorem length_key {s rest : List Char} {ks : List String} (h : key s = some (ks, rest)) :
    rest.length < s.length :=
  length_keyParts (Option.filter_eq_some_iff.1 h).1

end Dbml.Toml
