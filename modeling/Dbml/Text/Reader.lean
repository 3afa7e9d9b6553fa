/-!
# Readers

A reader takes a phrase from the front of a text and gives what the phrase stands for, together with
the characters after it. It takes at least one character (`Reader.shorter`): so a reader can be used
over and over, as in a list of phrases with commas between them (`Reader.list`), and the text still
comes to an end.
-/

namespace Dbml

/-- A way to take a phrase from the front of a text. -/
structure Reader (α : Type) where
  /-- What the phrase at the front stands for, and the characters after it. -/
  read : List Char → Option (α × List Char)
  shorter : ∀ {s rest : List Char} {a : α}, read s = some (a, rest) → rest.length < s.length

/-! ## Passing over characters -/

theorem length_dropWhile_le (p : Char → Bool) (s : List Char) :
    (s.dropWhile p).length ≤ s.length :=
  (List.dropWhile_suffix p).length_le

/-- Where characters are passed over up to one that stays, less than the text follows that one. -/
theorem length_of_dropWhile {p : Char → Bool} {s rest : List Char} {c : Char}
    (h : s.dropWhile p = c :: rest) : rest.length < s.length := by
  have := length_dropWhile_le p s
  rw [h, List.length_cons] at this
  omega

/-- Where something is taken while a condition holds, less than the text is left. -/
theorem length_dropWhile_lt {p : Char → Bool} {s : List Char} (h : s.takeWhile p ≠ []) :
    (s.dropWhile p).length < s.length := by
  have hs := congrArg List.length (List.takeWhile_append_dropWhile (p := p) (l := s))
  have := List.length_pos_iff.2 h
  rw [List.length_append] at hs
  omega

namespace Reader

variable {α : Type}

/-! ## Lists -/

/-- Phrases with commas between them, one at least, up to the closing mark and past it. Blanks may
stand around every phrase. -/
def list (isBlank : Char → Bool) (close : Char) (item : Reader α) (s : List Char) :
    Option (List α × List Char) :=
  match _h : item.read (s.dropWhile isBlank) with
  | none => none
  | some (a, rest) =>
    match _h' : rest.dropWhile isBlank with
    | [] => none
    | c :: after =>
      if c = close then some ([a], after)
      else if c = ',' then
        (list isBlank close item after).map fun (items, rest) => (a :: items, rest)
      else none
termination_by s.length
decreasing_by
  have := item.shorter _h
  have := length_dropWhile_le isBlank s
  have := length_of_dropWhile _h'
  omega

/-- A list takes at least one character. -/
theorem length_list {isBlank : Char → Bool} {close : Char} {item : Reader α}
    {s rest : List Char} {items : List α}
    (h : list isBlank close item s = some (items, rest)) : rest.length < s.length := by
  fun_induction list isBlank close item s generalizing items with
  | case1 => cases h
  | case2 => cases h
  | case3 s a mid hitem after hclose =>
    cases h
    have := item.shorter hitem
    have := length_dropWhile_le isBlank s
    have := length_of_dropWhile hclose
    omega
  | case4 s a mid hitem after hcomma hne ih =>
    obtain ⟨⟨items', rest'⟩, hl, he⟩ := Option.map_eq_some_iff.1 h
    cases he
    have := ih hl
    have := item.shorter hitem
    have := length_dropWhile_le isBlank s
    have := length_of_dropWhile hcomma
    omega
  | case5 => cases h

end Reader

end Dbml
