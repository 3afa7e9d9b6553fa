import Dbml.Proofs.Command.Accounts
import Dbml.Proofs.Text.Cut

/-!
# Reading a dump of tokens back

In the plain format every token is written as its kind, line, column and value with tabs between
them, and a line feed after them. Kinds and numbers hold neither, so the first three tabs of what is
written of a token are the ones between its fields, whatever the value is
(`Token.splitTabs_plainLine`). But a value is written as it is, and a literal may go over several
lines: so the dump has a line for each token and one more for each line feed in a value, and it can
be read back line by line if and only if no value holds one (`Invocation.tokens_readBack_iff`).
-/

namespace Dbml

/-! ## Lines -/

/-- The lines of a text whose lines are each ended by a line feed. -/
def linesOf (text : String) : List String :=
  (text.toList.splitOn '\n').dropLast.map String.ofList

theorem length_splitOn (s : List Char) : (s.splitOn '\n').length = s.count '\n' + 1 := by
  induction s with
  | nil => rfl
  | cons c s ih =>
    rw [List.splitOn_cons_eq_if_modifyHead]
    by_cases hc : c = '\n'
    · subst hc
      simp [ih]
    · simp [hc, ih]

/-- A line feed inside what was to be a line makes two of it. -/
theorem linesOf_unlines (ls : List String) :
    linesOf (unlines ls) = ls.flatMap fun l => (l.toList.splitOn '\n').map String.ofList := by
  induction ls with
  | nil => rfl
  | cons l ls ih =>
    have htext : (unlines (l :: ls)).toList = l.toList ++ '\n' :: (unlines ls).toList := by
      simp
    rw [linesOf, htext, List.splitOn_append_cons_self,
      List.dropLast_append_of_ne_nil (List.splitOn_ne_nil _ _), List.map_append, List.flatMap_cons,
      ← ih, linesOf]

/-- Texts that are written as lines come to one line each, and one more for every line end inside. -/
theorem length_linesOf_unlines (ls : List String) :
    (linesOf (unlines ls)).length = ls.length + (ls.map fun l => l.toList.count '\n').sum := by
  rw [linesOf_unlines, List.length_flatMap]
  simp only [List.length_map, length_splitOn]
  induction ls with
  | nil => rfl
  | cons l ls ih =>
    simp only [List.map_cons, List.sum_cons, List.length_cons, ih]
    omega

theorem linesOf_unlines_of_not_mem {ls : List String} (h : ∀ l ∈ ls, '\n' ∉ l.toList) :
    linesOf (unlines ls) = ls := by
  rw [linesOf_unlines]
  induction ls with
  | nil => rfl
  | cons l ls ih =>
    obtain ⟨hl, hls⟩ := List.forall_mem_cons.1 h
    rw [List.flatMap_cons, ih hls, List.splitOn_eq_singleton hl]
    simp

/-! ## Fields -/

/-- What stands before the first, the second and the third tab of a line, and after that. -/
def splitTabs (line : String) : Option (String × String × String × String) := do
  let (first, rest) ← cutAt ['\t'] line.toList
  let (second, rest) ← cutAt ['\t'] rest
  let (third, fourth) ← cutAt ['\t'] rest
  return (String.ofList first, String.ofList second, String.ofList third, String.ofList fourth)

/-- Four fields are told apart by the tabs, if only the last of them may hold one. -/
theorem splitTabs_append {first second third : String} (h₁ : '\t' ∉ first.toList)
    (h₂ : '\t' ∉ second.toList) (h₃ : '\t' ∉ third.toList) (fourth : String) :
    splitTabs (first ++ "\t" ++ second ++ "\t" ++ third ++ "\t" ++ fourth) =
      some (first, second, third, fourth) := by
  have hcut {body : List Char} (h : '\t' ∉ body) (rest : List Char) :
      cutAt ['\t'] (body ++ '\t' :: rest) = some (body, rest) := by
    simpa using cutAt_append (by simp) (firstAt_singleton_iff.2 h) rest
  have htext : (first ++ "\t" ++ second ++ "\t" ++ third ++ "\t" ++ fourth).toList =
      first.toList ++ '\t' :: (second.toList ++ '\t' :: (third.toList ++ '\t' :: fourth.toList)) := by
    simp
  simp [splitTabs, htext, hcut h₁, hcut h₂, hcut h₃]

/-- A number is written in digits. -/
theorem isDigit_of_mem_toString {n : Nat} {c : Char} (h : c ∈ (toString n).toList) :
    c.isDigit = true := by
  rw [Nat.toString_eq_repr, Nat.toList_repr] at h
  exact Nat.isDigit_of_mem_toDigits (by decide) (by decide) h

namespace Token

/-- What a line of the dump says of the token. -/
def fields (t : Token) : String × String × String × String :=
  (t.kind.spelling, toString t.position.line, toString t.position.column, t.value)

/-- No kind is spelled with a tab or a line feed. -/
theorem not_mem_spelling (kind : Kind) :
    '\t' ∉ kind.spelling.toList ∧ '\n' ∉ kind.spelling.toList := by
  cases kind with
  | illegal => decide
  | eof => decide
  | literal l => cases l <;> decide
  | relation r => cases r <;> decide
  | delimiter d => cases d <;> decide
  | keyword k => cases k <;> decide

/-- The fields of a token are read back from its line. -/
theorem splitTabs_plainLine (t : Token) : splitTabs t.plainLine = some t.fields := by
  have hnumber (n : Nat) : '\t' ∉ (toString n).toList := fun h =>
    absurd (isDigit_of_mem_toString h) (by decide)
  exact splitTabs_append (not_mem_spelling t.kind).1 (hnumber _) (hnumber _) t.value

/-- The line feeds in what is written of a token are those of its value. -/
theorem count_plainLine (t : Token) :
    t.plainLine.toList.count '\n' = t.value.toList.count '\n' := by
  have hnumber (n : Nat) : (toString n).toList.count '\n' = 0 :=
    List.count_eq_zero_of_not_mem fun h => absurd (isDigit_of_mem_toString h) (by decide)
  have hkind := List.count_eq_zero_of_not_mem (not_mem_spelling t.kind).2
  have htab : "\t".toList.count '\n' = 0 := rfl
  simp only [plainLine, String.toList_append, List.count_append, hnumber, hkind, htab, Nat.zero_add]

end Token

/-! ## Dumps -/

/-- Plainly the tokens are shown one after another, each ended by a line end. -/
theorem showTokens_plain (quiet color : Bool) (ts : List Token) :
    (showTokens ⟨.plain, quiet, color⟩ ts).stdout = unlines (ts.map Token.plainLine) := by
  rw [showTokens, Output.stdout_concat, unlines, List.map_map, List.map_map]
  rfl

theorem Invocation.stdout_run_tokens {fs : FileSystem} {env : Environment} {o : Options}
    {file : Path} {text : String} {ts : List Token} (hread : fs.read file = .ok text)
    (hts : tokenize text = .ok ts) (color : Bool) :
    ((mk (.tokens file) o).run fs env color).output.stdout =
      (showTokens (o.presentation color) ts).stdout := by
  have hcarry : (mk (.tokens file) o).carryOut fs env color =
      (showTokens (o.presentation color) ts ++
        (o.presentation color).status (toString ts.length ++ " tokens"), none) := by
    simp only [carryOut, tokensOf, hread, hts]
  have hrun := run_eq (mk (.tokens file) o) fs env color
  rw [hcarry] at hrun
  rw [hrun]
  simp

/-- The dump of a file has as many lines as there are tokens, and one more for each line feed in a
value. So it is read back line by line if and only if no value goes over several lines. -/
theorem Invocation.tokens_readBack_iff {fs : FileSystem} {env : Environment} {o : Options}
    {file : Path} {text : String} {ts : List Token} (hread : fs.read file = .ok text)
    (hts : tokenize text = .ok ts) (hformat : o.format = .plain) (color : Bool) :
    let lines := linesOf ((mk (.tokens file) o).run fs env color).output.stdout
    lines.length = ts.length + (ts.map fun t => t.value.toList.count '\n').sum ∧
      (lines.map splitTabs = ts.map (fun t => some t.fields) ↔ ∀ t ∈ ts, '\n' ∉ t.value.toList) := by
  intro lines
  have hlines : lines = linesOf (unlines (ts.map Token.plainLine)) := by
    simp only [lines, stdout_run_tokens hread hts, Options.presentation_of_format hformat,
      showTokens_plain]
  have hlength : lines.length = ts.length + (ts.map fun t => t.value.toList.count '\n').sum := by
    rw [hlines, length_linesOf_unlines, List.length_map, List.map_map]
    simp only [Function.comp_def, Token.count_plainLine]
  refine ⟨hlength, fun h => ?_, fun h => ?_⟩
  · have hsum : (ts.map fun t => t.value.toList.count '\n').sum = 0 := by
      have := congrArg List.length h
      rw [List.length_map, List.length_map, hlength] at this
      omega
    intro t ht
    exact List.count_eq_zero.1 (List.sum_eq_zero_iff_forall_eq_nat.1 hsum _ (List.mem_map_of_mem ht))
  · have hnone : ∀ l ∈ ts.map Token.plainLine, '\n' ∉ l.toList := by
      intro l hl
      obtain ⟨t, ht, rfl⟩ := List.mem_map.1 hl
      rw [← List.count_eq_zero, Token.count_plainLine, List.count_eq_zero]
      exact h t ht
    rw [hlines, linesOf_unlines_of_not_mem hnone, List.map_map]
    exact List.map_congr_left fun t _ => t.splitTabs_plainLine

/-- A file with tabs in its tokens, and one with a token on two lines. -/
def FileSystem.dumped : FileSystem :=
  (empty.addFile ⟨"tabs.dbml"⟩ "\"\t\t\t\t\"".toUTF8).addFile ⟨"lines.dbml"⟩ "'a\nb'".toUTF8

/-- Tabs in a value do no harm. -/
theorem Invocation.tokens_readBack_iff_tabs :
    let run := (mk (.tokens ⟨"tabs.dbml"⟩) { format := .plain }).run .dumped {} false
    (linesOf run.output.stdout).map splitTabs =
      [some ("QUOTE", "1", "1", "\t\t\t\t"), some ("EOF", "1", "7", "")] := by
  intro run
  have hread : FileSystem.dumped.read ⟨"tabs.dbml"⟩ = .ok "\"\t\t\t\t\"" := by
    decide +kernel
  have hts : tokenize "\"\t\t\t\t\"" = .ok
      [⟨.literal .doubleQuoted, "\t\t\t\t", ⟨1, 1⟩, ⟨0, 6⟩⟩, ⟨.eof, "", ⟨1, 7⟩, ⟨6, 6⟩⟩] := by
    decide +kernel
  obtain ⟨-, hback⟩ :=
    @tokens_readBack_iff .dumped {} { format := .plain } _ _ _ hread hts rfl false
  exact (hback.2 (by decide)).trans (by decide)

/-- Two tokens are written in three lines, and the second line has no tab. -/
theorem Invocation.not_readBack_lines :
    let run := (mk (.tokens ⟨"lines.dbml"⟩) { format := .plain }).run .dumped {} false
    ∃ ts, FileSystem.dumped.read ⟨"lines.dbml"⟩ = .ok "'a\nb'" ∧ tokenize "'a\nb'" = .ok ts ∧
      ts.length = 2 ∧ linesOf run.output.stdout = ["STRING\t1\t1\ta", "b", "EOF\t2\t3\t"] ∧
      (linesOf run.output.stdout).map splitTabs ≠ ts.map fun t => some t.fields := by
  intro run
  have hread : FileSystem.dumped.read ⟨"lines.dbml"⟩ = .ok "'a\nb'" := by
    decide +kernel
  have hts : tokenize "'a\nb'" = .ok
      [⟨.literal .singleQuoted, "a\nb", ⟨1, 1⟩, ⟨0, 5⟩⟩, ⟨.eof, "", ⟨2, 3⟩, ⟨5, 5⟩⟩] := by
    decide +kernel
  have hout : run.output.stdout = "STRING\t1\t1\ta\nb\nEOF\t2\t3\t\n" := by
    rw [stdout_run_tokens hread hts, Options.presentation_of_format rfl]
    decide +kernel
  refine ⟨_, hread, hts, rfl, ?_, ?_⟩
  · rw [hout]
    decide +kernel
  · rw [hout]
    decide +kernel

end Dbml
