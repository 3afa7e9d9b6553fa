import Dbml.Text.Place

/-!
# Offsets and positions, counted from the text

A byte offset cuts a text in two if it falls between two characters (`splitBytes`), and a span then
covers a text of its own (`Span.cut`). A position is counted from the text before it: the lines by
its line ends, the columns by what stands after the last of them (`Position.after_start`). Walking a
text to a line and a column (`Position.offsetIn`) takes the way back.
-/

namespace Dbml

/-! ## Offsets -/

/-- The text before and after a byte offset, if the offset falls between two characters. -/
def splitBytes : Nat → List Char → Option (List Char × List Char)
  | 0, s => some ([], s)
  | _ + 1, [] => none
  | n + 1, c :: cs =>
    if c.utf8Size ≤ n + 1 then
      (splitBytes (n + 1 - c.utf8Size) cs).map fun (before, rest) => (c :: before, rest)
    else none

/-- The text that a span covers, if both its ends fall between two characters. -/
def Span.cut (span : Span) (s : List Char) : Option (List Char) :=
  (splitBytes span.stop s).bind fun (upTo, _) => (splitBytes span.start upTo).map Prod.snd

theorem byteLength_eq_zero {s : List Char} (h : byteLength s = 0) : s = [] := by
  cases s with
  | nil => rfl
  | cons c cs =>
    have := c.utf8Size_pos
    simp only [byteLength_cons] at h
    omega

theorem byteLength_pos {s : List Char} (h : s ≠ []) : 0 < byteLength s :=
  Nat.pos_of_ne_zero fun h0 => h (byteLength_eq_zero h0)

theorem splitBytes_append (a b : List Char) : splitBytes (byteLength a) (a ++ b) = some (a, b) := by
  induction a with
  | nil => rw [byteLength_nil, List.nil_append, splitBytes]
  | cons c cs ih =>
    have hc := c.utf8Size_pos
    obtain ⟨n, hn⟩ : ∃ n, byteLength (c :: cs) = n + 1 :=
      ⟨byteLength (c :: cs) - 1, by simp only [byteLength_cons]; omega⟩
    have hrest : n + 1 - c.utf8Size = byteLength cs := by
      rw [← hn, byteLength_cons, Nat.add_sub_cancel_left]
    rw [hn, List.cons_append, splitBytes, if_pos (by rw [← hn, byteLength_cons]; omega), hrest, ih]
    rfl

/-- The two parts of a split make up the text, and the first has the length asked for. -/
theorem append_of_splitBytes {n : Nat} {s a b : List Char} (h : splitBytes n s = some (a, b)) :
    s = a ++ b ∧ byteLength a = n := by
  fun_induction splitBytes n s generalizing a with
  | case1 s =>
    cases h
    exact ⟨rfl, rfl⟩
  | case2 => cases h
  | case3 n c cs hc ih =>
    obtain ⟨⟨a', b'⟩, hab, he⟩ := Option.map_eq_some_iff.1 h
    cases he
    obtain ⟨rfl, hlen⟩ := ih hab
    refine ⟨rfl, ?_⟩
    rw [byteLength_cons, hlen]
    omega
  | case4 => cases h

/-- A split by bytes is a division of the characters, at a place where one ends. -/
theorem splitBytes_eq_some_iff {n : Nat} {s a b : List Char} :
    splitBytes n s = some (a, b) ↔ s = a ++ b ∧ byteLength a = n := by
  constructor
  · exact append_of_splitBytes
  · rintro ⟨rfl, rfl⟩
    exact splitBytes_append a b

theorem utf8ByteSize_ofList (s : List Char) : (String.ofList s).utf8ByteSize = byteLength s := by
  induction s with
  | nil => rfl
  | cons c cs ih =>
    have hone : (String.ofList [c]).utf8ByteSize = c.utf8Size := by
      rw [← String.singleton_eq_ofList, String.utf8ByteSize_singleton]
    rw [← List.singleton_append, String.ofList_append, String.utf8ByteSize_append, hone, ih]
    rfl

/-- A span covers the text between its ends. -/
theorem Span.cut_append (a b c : List Char) :
    (⟨byteLength a, byteLength a + byteLength b⟩ : Span).cut (a ++ b ++ c) = some b := by
  unfold Span.cut
  rw [← byteLength_append, splitBytes_append, Option.bind_some]
  simp only
  rw [splitBytes_append]
  rfl

/-! ## Positions -/

/-- The number of characters after the last line end, or of all if there is none. -/
def sinceNewline (s : List Char) : Nat := (s.reverse.takeWhile (· ≠ '\n')).length

theorem sinceNewline_of_not_mem {s : List Char} (h : '\n' ∉ s) : sinceNewline s = s.length := by
  have hall : ∀ c ∈ s.reverse, decide (c ≠ '\n') = true := by
    intro c hc
    simp only [decide_eq_true_eq]
    rintro rfl
    exact h (List.mem_reverse.1 hc)
  have htake := @List.takeWhile_append_of_pos _ _ s.reverse [] hall
  simp only [List.append_nil, List.takeWhile_nil] at htake
  rw [sinceNewline, htake, List.length_reverse]

/-- A character in front counts only if no line end is met. -/
theorem sinceNewline_cons (c : Char) (cs : List Char) :
    sinceNewline (c :: cs) =
      if '\n' ∈ c :: cs then sinceNewline cs else sinceNewline cs + 1 := by
  by_cases hcs : '\n' ∈ cs
  · rw [if_pos (List.mem_cons_of_mem c hcs)]
    unfold sinceNewline
    rw [List.reverse_cons, List.takeWhile_append, if_neg]
    intro hall
    have hmem : '\n' ∈ cs.reverse.takeWhile (· ≠ '\n') := by
      rw [List.IsPrefix.eq_of_length (List.takeWhile_prefix _) hall]
      exact List.mem_reverse.2 hcs
    simpa using List.all_eq_true.1 List.all_takeWhile _ hmem
  · by_cases hc : c = '\n'
    · subst hc
      rw [if_pos List.mem_cons_self]
      have hall := sinceNewline_of_not_mem hcs
      unfold sinceNewline at hall ⊢
      rw [List.reverse_cons, List.takeWhile_append, if_pos (by rw [hall, List.length_reverse]), hall]
      simp
    · have hnot : '\n' ∉ c :: cs := by
        simp [Ne.symm hc, hcs]
      rw [if_neg hnot, sinceNewline_of_not_mem hnot, sinceNewline_of_not_mem hcs]
      rfl

namespace Position

/-- Lines are counted by line ends; columns begin anew after the last one. -/
theorem after_eq (p : Position) (s : List Char) :
    p.after s = if '\n' ∈ s then ⟨p.line + s.count '\n', sinceNewline s + 1⟩
      else ⟨p.line, p.column + s.length⟩ := by
  induction s generalizing p with
  | nil => rfl
  | cons c cs ih =>
    rw [after_cons, ih, sinceNewline_cons]
    by_cases hc : c = '\n'
    · subst hc
      by_cases hcs : '\n' ∈ cs
      · simp [step, hcs]
        omega
      · simp [step, hcs, sinceNewline_of_not_mem hcs, List.count_eq_zero_of_not_mem hcs]
        omega
    · by_cases hcs : '\n' ∈ cs
      · simp [step, hc, hcs]
      · simp [step, hc, hcs, Ne.symm hc]
        omega

/-- A text without line ends moves the column alone. -/
theorem after_of_not_mem (p : Position) {s : List Char} (h : '\n' ∉ s) :
    p.after s = ⟨p.line, p.column + s.length⟩ := by
  rw [after_eq, if_neg h]

/-- The position after a text is counted from the text alone. -/
theorem after_start (s : List Char) :
    Position.start.after s = ⟨1 + s.count '\n', 1 + sinceNewline s⟩ := by
  rw [after_eq]
  split
  · simp [start, Nat.add_comm]
  · rename_i h
    simp [start, sinceNewline_of_not_mem h, List.count_eq_zero_of_not_mem h]

/-- The bytes walked over on the way past `lines` line ends and then past `columns` characters of
the line reached, if the text goes that far. -/
def walk : Nat → Nat → List Char → Option Nat
  | 0, 0, _ => some 0
  | _, _, [] => none
  | 0, columns + 1, c :: cs =>
    if c = '\n' then none else (walk 0 columns cs).map (c.utf8Size + ·)
  | lines + 1, columns, c :: cs =>
    (walk (if c = '\n' then lines else lines + 1) columns cs).map (c.utf8Size + ·)

/-- The byte offset of a position in a text, if the text has it. -/
def offsetIn (p : Position) (s : List Char) : Option Nat := walk (p.line - 1) (p.column - 1) s

/-- The walk to a line and a column arrives behind the part of the text that has so many lines and
columns. -/
theorem walk_append (s t : List Char) :
    walk (s.count '\n') (sinceNewline s) (s ++ t) = some (byteLength s) := by
  induction s with
  | nil => cases t <;> rfl
  | cons c cs ih =>
    rw [sinceNewline_cons, List.cons_append, byteLength_cons]
    by_cases hc : c = '\n'
    · subst hc
      rw [List.count_cons_self, if_pos List.mem_cons_self, walk, if_pos rfl, ih]
      rfl
    · rw [List.count_cons_of_ne hc]
      by_cases hcs : '\n' ∈ cs
      · obtain ⟨n, hn⟩ : ∃ n, cs.count '\n' = n + 1 :=
          ⟨cs.count '\n' - 1, by have := List.count_pos_iff.2 hcs; omega⟩
        rw [hn] at ih ⊢
        rw [if_pos (List.mem_cons_of_mem c hcs), walk, if_neg hc, ih]
        rfl
      · rw [List.count_eq_zero_of_not_mem hcs] at ih ⊢
        rw [if_neg (by simp [Ne.symm hc, hcs]), walk, if_neg hc, ih]
        rfl

/-- Walking to the position after a text leads to the end of that text. -/
theorem offsetIn_after (s t : List Char) :
    (Position.start.after s).offsetIn (s ++ t) = some (byteLength s) := by
  rw [after_start, offsetIn]
  simp only [Nat.add_sub_cancel_left]
  exact walk_append s t

end Position

end Dbml
