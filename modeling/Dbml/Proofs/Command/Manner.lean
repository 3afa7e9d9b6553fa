import Dbml.Proofs.Command.Accounts
import Dbml.Proofs.Command.Differences
import Dbml.Proofs.Command.Placement
import Dbml.Proofs.Command.Refused

/-!
# Showing results does not change them

Some options say only how results are shown: the format, whether to be quiet, whether to print the
documents, and what has to do with color. Two lines that differ in these alone, if both are
accepted, come to the same exit code, and each of them touches one stream at most: to be quiet and
to use color, the standard error; to print, the standard output. A quiet run that succeeds says
nothing on the standard error (`run_manner`).

That both are accepted has to be asked for, since to be quiet next to being verbose is refused
(`run_conflict`). It is the only conflict between options: where each is given once on its side, and
these two not on the same one, a line is accepted.

Two accepted lines that differ in some aspects are read alike (`Invocation.alike_of_parse`). From
there the proof goes by congruence from the inside out: for what is shown of one file, for the end
of a run, for the run over all files, and for the command (`Invocation.carryOut_rel`).
-/

namespace Dbml

/-! ## One file, and the end of a run -/

section Steps

variable {p p' : Presentation} (print print' : Bool)

/-- To be quiet is to say nothing of what goes well. -/
theorem Presentation.status_of_quiet (h : p.quiet = true) (line : String) : p.status line = {} := by
  rw [status, h]
  rfl

/-- What is shown of a file on the standard output depends on the format, not on being quiet or on
color. -/
theorem Visit.stdout_output_congr (h : p.format = p'.format) (v : Visit) :
    (v.output p print).stdout = (v.output p' print).stdout := by
  unfold output
  rw [h]
  split <;> simp

/-- What is said of a file does not depend on printing. -/
theorem Visit.stderr_output_print (v : Visit) :
    (v.output p print).stderr = (v.output p print').stderr := by
  unfold output
  split
  · simp
  · rfl
  · rfl
  · split <;> split <;> simp
  · rfl

/-- To be quiet is to say nothing of a file that is a document. -/
theorem Visit.stderr_output_quiet (h : p.quiet = true) {v : Visit} (hv : v.failed = false) :
    (v.output p print).stderr = "" := by
  unfold failed at hv
  unfold output
  split
  · rw [Presentation.status_of_quiet h]
    rfl
  · rename_i hproblem
    rw [hproblem] at hv
    cases hv
  · rfl
  · split <;> simp
  · rename_i hproblem
    rw [hproblem] at hv
    cases hv

/-- What is shown at the end on the standard output depends on the format alone. -/
theorem stdout_runEnd_congr (h : p.format = p'.format) (vs : List Visit) :
    (runEnd p print vs).stdout = (runEnd p' print vs).stdout := by
  unfold runEnd Presentation.summary
  rw [h]
  split <;> simp

theorem stderr_runEnd_print (vs : List Visit) :
    (runEnd p print vs).stderr = (runEnd p print' vs).stderr := by
  unfold runEnd
  split
  · rfl
  · simp
  · rfl

theorem stderr_runEnd_quiet (h : p.quiet = true) (vs : List Visit) :
    (runEnd p print vs).stderr = "" := by
  unfold runEnd Presentation.summary
  rw [Presentation.status_of_quiet h]
  split <;> rfl

end Steps

/-! ## All files -/

section Files

variable {p p' : Presentation} {print print' : Bool} {fs : FileSystem} {files : List Path}

/-- If a run does not fail, all files are documents. -/
theorem failed_of_failure? {vs : List Visit} (h : (Tally.ofVisits vs).failure? = none) :
    ∀ v ∈ vs, v.failed = false := by
  have hcount : vs.countP Visit.failed = 0 := by
    unfold Tally.failure? at h
    split at h
    · cases h
    · rename_i hzero
      exact Nat.eq_zero_of_not_pos hzero
  intro v hv
  exact Bool.eq_false_iff.2 (List.countP_eq_zero.1 hcount v hv)

/-- Whether and how a run over files fails does not depend on how it is shown. -/
theorem snd_parseFiles_congr :
    (parseFiles fs p print files).2 = (parseFiles fs p' print' files).2 := by
  unfold parseFiles
  obtain ⟨visits, stop⟩ := visitAll fs files
  cases stop <;> rfl

/-- The standard output of a run over files depends on the format and on printing alone. -/
theorem stdout_parseFiles_congr (h : p.format = p'.format) :
    (parseFiles fs p print files).1.stdout = (parseFiles fs p' print files).1.stdout := by
  unfold parseFiles
  obtain ⟨visits, stop⟩ := visitAll fs files
  have hvisits : visits.map (Output.stdout ∘ Visit.output p print) =
      visits.map (Output.stdout ∘ Visit.output p' print) :=
    List.map_congr_left fun v _ => v.stdout_output_congr print h
  cases stop with
  | some failure => simp [hvisits]
  | none => simp [hvisits, stdout_runEnd_congr print h]

/-- The standard error of a run over files does not depend on printing. -/
theorem stderr_parseFiles_print :
    (parseFiles fs p print files).1.stderr = (parseFiles fs p print' files).1.stderr := by
  unfold parseFiles
  obtain ⟨visits, stop⟩ := visitAll fs files
  have hvisits : visits.map (Output.stderr ∘ Visit.output p print) =
      visits.map (Output.stderr ∘ Visit.output p print') :=
    List.map_congr_left fun v _ => v.stderr_output_print print print'
  cases stop with
  | some failure => simp [hvisits]
  | none => simp [hvisits, stderr_runEnd_print print print']

/-- A quiet run over files that does not fail says nothing. -/
theorem stderr_parseFiles_quiet (hq : p.quiet = true) (h : (parseFiles fs p print files).2 = none) :
    (parseFiles fs p print files).1.stderr = "" := by
  unfold parseFiles at h ⊢
  rcases hall : visitAll fs files with ⟨visits, stop⟩
  rw [hall] at h
  cases stop with
  | some failure => cases h
  | none =>
    have hvisits : String.join (visits.map (Output.stderr ∘ Visit.output p print)) = "" :=
      join_map_eq_empty fun v hv => v.stderr_output_quiet print hq (failed_of_failure? h v hv)
    simp [hvisits, stderr_runEnd_quiet print hq]

end Files

/-! ## Tokens -/

section Tokens

variable {p p' : Presentation} {fs : FileSystem} {file : Path}

/-- Whether the tokens of a file can be shown does not depend on how. -/
theorem snd_tokensOf_congr : (tokensOf fs p file).2 = (tokensOf fs p' file).2 := by
  unfold tokensOf
  split
  · rfl
  · split <;> rfl

/-- How the tokens of a file are shown depends on the format alone. -/
theorem stdout_tokensOf_congr (h : p.format = p'.format) :
    (tokensOf fs p file).1.stdout = (tokensOf fs p' file).1.stdout := by
  unfold tokensOf
  split
  · rfl
  · split
    · rfl
    · simp [showTokens, h]

theorem stderr_showTokens (ts : List Token) : (showTokens p ts).stderr = "" := by
  unfold showTokens
  split
  · rw [Output.stderr_concat, List.map_map]
    exact join_map_eq_empty fun _ _ => rfl
  · rfl
  · rw [Output.stderr_concat, List.map_map]
    exact join_map_eq_empty fun _ _ => rfl

theorem stderr_tokensOf_quiet (hq : p.quiet = true) : (tokensOf fs p file).1.stderr = "" := by
  unfold tokensOf
  split
  · rfl
  · split
    · rfl
    · rw [Presentation.status_of_quiet hq, Output.stderr_append, stderr_showTokens]
      rfl

end Tokens

/-! ## Commands -/

/-- Where documents are looked for does not depend on the variable against color. -/
theorem parseTargets_congr {S : List Aspect} {env env' : Environment} (h : env.DifferIn S env')
    (fs : FileSystem) (config : Option Path) (paths : List Path) :
    parseTargets fs env config paths = parseTargets fs env' config paths := by
  have hload : Settings.load fs env config = Settings.load fs env' config := by
    unfold Settings.load Settings.file? Settings.candidates
    rw [h.home, h.configHome]
  rw [parseTargets, hload]
  rfl

/-- No failure looks like success. -/
theorem Failure.exitCode_ne_zero (f : Failure) : f.exitCode ≠ 0 := by
  cases f <;> simp [exitCode]

namespace Invocation

section Run

variable (i : Invocation) (fs : FileSystem) (env : Environment) (color : Bool)

theorem exitCode_run :
    (i.run fs env color).exitCode = (i.carryOut fs env color).2.elim 0 Failure.exitCode :=
  congrArg Outcome.exitCode (i.run_eq fs env color)

theorem stdout_run : (i.run fs env color).output.stdout = (i.carryOut fs env color).1.stdout :=
  congrArg (fun o => o.output.stdout) (i.run_eq fs env color)

theorem stderr_run :
    (i.run fs env color).output.stderr = (i.carryOut fs env color).1.stderr ++
      (i.carryOut fs env color).2.elim "" fun f =>
        ((i.options.presentation color).failure f).stderr :=
  congrArg (fun o => o.output.stderr) (i.run_eq fs env color)

end Run

section Alike

variable {S : List Aspect} {fs : FileSystem} {env env' : Environment} {i i' : Invocation}
  {color color' : Bool}

/-- What holds of two runs over the same files, and of two readings of the same file, holds of two
commands that are alike; where there is neither, they do the same. -/
theorem carryOut_rel (hi : i.Alike S i') (henv : env.DifferIn S env')
    {R : Output × Option Failure → Output × Option Failure → Prop}
    (hself : ∀ x, R x x)
    (hfiles : ∀ {print print'}, (.print ∉ S → print = print') → ∀ files,
      R (parseFiles fs (i.options.presentation color) print files)
        (parseFiles fs (i'.options.presentation color') print' files))
    (htokens : ∀ file, R (tokensOf fs (i.options.presentation color) file)
      (tokensOf fs (i'.options.presentation color') file)) :
    R (i.carryOut fs env color) (i'.carryOut fs env' color') := by
  obtain ⟨command, options⟩ := i
  obtain ⟨command', options'⟩ := i'
  have hconfig : options.config = options'.config := hi.config
  cases hi.command with
  | parse paths hprint =>
    simp only [carryOut, parseTargets_congr henv, hconfig]
    cases parseTargets fs env' options'.config paths with
    | ok files => exact hfiles hprint files
    | error failure => exact hself _
  | tokens file => exact htokens file
  | completions shell => exact hself _

/-- Whether and how a command fails is the same for commands that are alike. -/
theorem snd_carryOut_congr (hi : i.Alike S i') (henv : env.DifferIn S env') :
    (i.carryOut fs env color).2 = (i'.carryOut fs env' color').2 :=
  carryOut_rel hi henv (R := fun x y => x.2 = y.2) (fun _ => rfl)
    (fun _ _ => snd_parseFiles_congr) fun _ => snd_tokensOf_congr

/-- Commands that are alike, also in format and printing, write the same to the standard output. -/
theorem stdout_carryOut_congr (hi : i.Alike S i') (henv : env.DifferIn S env')
    (hformat : .format ∉ S) (hprint : .print ∉ S) :
    (i.carryOut fs env color).1.stdout = (i'.carryOut fs env' color').1.stdout := by
  refine carryOut_rel hi henv (R := fun x y => x.1.stdout = y.1.stdout) (fun _ => rfl) ?_ ?_
  · intro print print' h files
    rw [h hprint]
    exact stdout_parseFiles_congr (hi.format hformat)
  · intro file
    exact stdout_tokensOf_congr (hi.format hformat)

/-- Commands that are alike and presented alike write the same to the standard error. -/
theorem stderr_carryOut_congr (hi : i.Alike S i') (henv : env.DifferIn S env')
    (hp : i.options.presentation color = i'.options.presentation color') :
    (i.carryOut fs env color).1.stderr = (i'.carryOut fs env' color').1.stderr := by
  refine carryOut_rel hi henv (R := fun x y => x.1.stderr = y.1.stderr) (fun _ => rfl) ?_ ?_
  · intro print print' _ files
    rw [hp]
    exact stderr_parseFiles_print
  · intro file
    rw [hp]

/-- Where only printing may differ, results are presented in the same way. -/
theorem Alike.presentation (hi : i.Alike S i') (hcolor : .color ∉ S → color = color')
    (hS : ∀ x ∈ S, x = .print) :
    i.options.presentation color = i'.options.presentation color' := by
  have hnot : ∀ {x}, x ≠ .print → x ∉ S := fun hx hmem => hx (hS _ hmem)
  rw [Options.presentation, Options.presentation, hi.format (hnot (by simp)),
    hi.quiet (hnot (by simp)), hcolor (hnot (by simp))]

/-- Alike commands come to the same exit code. -/
theorem Alike.exitCode_run (hi : i.Alike S i') (henv : env.DifferIn S env') :
    (i.run fs env color).exitCode = (i'.run fs env' color').exitCode := by
  rw [Invocation.exitCode_run, Invocation.exitCode_run, snd_carryOut_congr hi henv]

/-- Where neither the format nor printing may differ, the standard output is the same. -/
theorem Alike.stdout_run (hi : i.Alike S i') (henv : env.DifferIn S env') (hformat : .format ∉ S)
    (hprint : .print ∉ S) :
    (i.run fs env color).output.stdout = (i'.run fs env' color').output.stdout := by
  rw [Invocation.stdout_run, Invocation.stdout_run, stdout_carryOut_congr hi henv hformat hprint]

/-- Where only printing may differ, the standard error is the same. -/
theorem Alike.stderr_run (hi : i.Alike S i') (henv : env.DifferIn S env')
    (hcolor : .color ∉ S → color = color') (hS : ∀ x ∈ S, x = .print) :
    (i.run fs env color).output.stderr = (i'.run fs env' color').output.stderr := by
  have hp := hi.presentation hcolor hS
  have hfailure : (i.carryOut fs env color).2 = (i'.carryOut fs env' color').2 :=
    snd_carryOut_congr hi henv
  rw [Invocation.stderr_run, Invocation.stderr_run, stderr_carryOut_congr hi henv hp, hfailure, hp]

/-- A quiet command that does not fail says nothing. -/
theorem stderr_carryOut_quiet (hquiet : i.options.quiet = true)
    (h : (i.carryOut fs env color).2 = none) : (i.carryOut fs env color).1.stderr = "" := by
  obtain ⟨command, options⟩ := i
  cases command with
  | parse paths print =>
    simp only [carryOut] at h ⊢
    cases htargets : parseTargets fs env options.config paths with
    | ok files =>
      rw [htargets] at h
      exact stderr_parseFiles_quiet hquiet h
    | error failure => rfl
  | tokens file => exact stderr_tokensOf_quiet hquiet
  | completions shell => rfl

/-- A quiet run that succeeds says nothing. -/
theorem stderr_run_of_quiet (hquiet : i.options.quiet = true)
    (hcode : (i.run fs env color).exitCode = 0) : (i.run fs env color).output.stderr = "" := by
  have hnone : (i.carryOut fs env color).2 = none := by
    rw [exitCode_run] at hcode
    cases hfailure : (i.carryOut fs env color).2 with
    | none => rfl
    | some f =>
      rw [hfailure] at hcode
      exact absurd hcode f.exitCode_ne_zero
  rw [Invocation.stderr_run, stderr_carryOut_quiet hquiet hnone, hnone]
  rfl

end Alike

end Invocation

/-! ## Runs -/

section Runs

variable {fs : FileSystem} {env : Environment} {args : List String} {color : Bool} {o : Outcome}

/-- A run comes to something if its line is accepted. -/
theorem exists_of_run (h : run fs env args color = .ok o) :
    ∃ i, Invocation.parse env args = .ok i ∧ o = i.run fs env color := by
  obtain ⟨i, hi, h⟩ := exists_of_bind_ok h
  cases h
  exact ⟨i, hi, rfl⟩

theorem run_of_parse {i : Invocation} (h : Invocation.parse env args = .ok i) :
    run fs env args color = .ok (i.run fs env color) := by
  rw [run, h]
  rfl

/-- A line that is not accepted is a usage error. -/
theorem exists_error_of_not_parse (h : ∀ i, Invocation.parse env args ≠ .ok i) :
    ∃ e, run fs env args color = .error e := by
  rw [run]
  cases hparse : Invocation.parse env args with
  | ok i => exact absurd hparse (h i)
  | error e => exact ⟨e, rfl⟩

/-- **The variable against color is checked**: a run without `--no-color` does not come about when
the variable is set to something that is neither `true` nor `false`. -/
theorem run_noColor {v : String} (hv : env.noColor = some v) (htrue : v ≠ "true")
    (hfalse : v ≠ "false") (hargs : "--no-color" ∉ args) :
    ∃ e, run fs env args color = .error e :=
  exists_error_of_not_parse (Invocation.not_parse_of_noColor hv htrue hfalse hargs)

end Runs

/-- **Showing results does not change them.** Of lines that differ only in how results are shown,
any two that are accepted come to the same exit code. If they differ neither in the format nor in
printing they write the same to the standard output, and if they differ in printing alone they write
the same to the standard error; a quiet run that succeeds writes nothing there.

To be quiet and to be verbose on one side of the name of the command is refused. Otherwise options
do not get in each other's way: a line is accepted if each is given once on its side. -/
theorem run_manner (fs : FileSystem) :
    (∀ {S args args' env env' color color' o o'}, DifferIn S args args' → env.DifferIn S env' →
      (.color ∉ S → color = color') →
      run fs env args color = .ok o → run fs env' args' color' = .ok o' →
        o.exitCode = o'.exitCode ∧
        (.format ∉ S → .print ∉ S → o.output.stdout = o'.output.stdout) ∧
        ((∀ x ∈ S, x = .print) → o.output.stderr = o'.output.stderr)) ∧
    (∀ {args env color o}, Flagged .quiet args → run fs env args color = .ok o → o.exitCode = 0 →
      o.output.stderr = "") ∧
    (∀ {args} env color, Invocation.Clash args → ∃ e, run fs env args color = .error e) ∧
    (∀ {env : Environment} {l : Line} {command} color, env.Usable →
      l.name.Asks l.positionals l.prints command → Compatible l.choicesBefore →
      Compatible l.choicesAfter → ∃ o, run fs env l.args color = .ok o) := by
  refine ⟨?_, ?_, ?_, ?_⟩
  · intro S args args' env env' color color' o o' hargs henv hcolor h h'
    obtain ⟨i, hi, rfl⟩ := exists_of_run h
    obtain ⟨i', hi', rfl⟩ := exists_of_run h'
    have halike := Invocation.alike_of_parse hargs henv hi hi'
    exact ⟨halike.exitCode_run henv, halike.stdout_run henv, halike.stderr_run henv hcolor⟩
  · intro args env color o hquiet h hcode
    obtain ⟨i, hi, rfl⟩ := exists_of_run h
    exact Invocation.stderr_run_of_quiet (Invocation.quiet_of_ofArguments (.inr hquiet) hi) hcode
  · intro args env color hclash
    exact exists_error_of_not_parse (Invocation.not_parse_of_clash hclash env)
  · intro env l command color henv hasks hbefore hafter
    exact ⟨_, run_of_parse (Invocation.parse_args henv l hasks hbefore hafter)⟩

/-- A quiet run that prints a document, with color, and a run in another format and without; and the
first line with a request to be verbose as well. -/
theorem run_manner_quietly :
    let quietly := ["-q", "parse", "--print", "schemas/c.dbml"]
    let inFull := ["parse", "--format", "json", "schemas/c.dbml", "--no-color"]
    ∃ o o', run .mixed {} quietly true = .ok o ∧ o.exitCode = 0 ∧ o.output.stderr = "" ∧
      run .mixed { noColor := some "true" } inFull false = .ok o' ∧ o'.exitCode = 0 ∧
      ∃ e, run .mixed {} ("-v" :: quietly) true = .error e := by
  intro quietly inFull
  obtain ⟨hsame, hsilent, hrefused, haccepted⟩ := run_manner .mixed
  have hfiles : parseTargets .mixed {} none [⟨"schemas/c.dbml"⟩] = .ok [⟨"schemas/c.dbml"⟩] :=
    parseTargets_of_perm load_mixed [[⟨"schemas/c.dbml"⟩]] (by decide +kernel) (.refl _)
      (by decide +kernel) (by simp)
  let i : Invocation := ⟨.parse [⟨"schemas/c.dbml"⟩] true, { quiet := true }⟩
  have hquietly : run .mixed {} quietly true = .ok (i.run .mixed {} true) :=
    run_of_parse (by decide)
  have hcode : (i.run .mixed {} true).exitCode = 0 := by
    rw [Invocation.run_parse true true hfiles]
    decide +kernel
  have hquiet : Flagged .quiet quietly := .head (.letter List.not_mem_nil (by decide))
  have hdiffer : DifferIn [.format, .quiet, .print, .color] quietly inFull := by
    have hend : DifferIn [.format, .quiet, .print, .color] ["--no-color"] [] :=
      .word (by decide) .noColor .nil
    exact .word (by decide) .quietLetter (.keep (by decide) (.word (by decide) .print
      (.symm (.word (by decide) (.formatApart .json) (.keep (by decide) hend)))))
  have hclash : Invocation.Clash ("-v" :: quietly) := by
    refine ⟨[], ["-v", "-q"], quietly.tail, rfl, by decide, by decide, ?_, ?_⟩
    · exact .tail (by decide) (.head (.letter List.not_mem_nil (by decide)))
    · exact .head (.letter List.not_mem_nil (by decide))
  let env : Environment := { noColor := some "true" }
  let l : Line := ⟨.parse, [], [.word (.apart (.format .json)), .positional "schemas/c.dbml",
    .word (.named .noColor)], none⟩
  have henv : env.Usable := ⟨by decide, by decide⟩
  have hafter : Compatible l.choicesAfter := by
    refine ⟨?_, by decide⟩
    rintro ((_ | _) | (_ | _ | _ | _ | _ | _)) <;> decide
  obtain ⟨o', ho'⟩ := haccepted (l := l) false henv (.parse (by decide) (by decide))
    (hafter.sublist (List.nil_sublist _)) hafter
  have hline : l.args = inFull := by decide
  rw [hline] at ho'
  obtain ⟨hcode', -⟩ := hsame hdiffer ⟨rfl, rfl, rfl, by decide⟩ (by decide) hquietly ho'
  exact ⟨_, o', hquietly, hcode, hsilent hquiet hquietly hcode, ho', hcode'.symm.trans hcode,
    hrefused {} true hclash⟩

/-- To be quiet next to being verbose is refused: the line without `-q` is carried out, the line
with it is not, though they differ in nothing else. -/
theorem run_conflict :
    DifferIn [.quiet] ["-v", "-q", "completions", "bash"] ["-v", "completions", "bash"] ∧
      run .empty {} ["-v", "completions", "bash"] false = .ok ⟨0, .out "<script>"⟩ ∧
      run .empty {} ["-v", "-q", "completions", "bash"] false = .error .argumentConflict ∧
      UsageError.argumentConflict.exitCode = 2 := by
  refine ⟨?_, by decide +kernel, by decide +kernel, rfl⟩
  have hsame : DifferIn [.quiet] ["completions", "bash"] ["completions", "bash"] :=
    .keep (by decide) (.keep (by decide) .nil)
  exact .keep (by decide) (.word (by decide) .quietLetter hsame)

end Dbml
