import Dbml.Proofs.Command.Visits
import Mathlib.Algebra.Ring.Nat

/-!
# The accounts of a run

The three formats tell the same story of a run whose files can all be read: one record, line or
diagnostic for each file, in the order of the paths, and three numbers that add up
(`Invocation.parse_accounts`). What is told of a file depends on its path and its text alone
(`fileRecord`, `progressLine`, `plainRecord?`, `plainComplaint?`), and the numbers are those of the
records (`Balanced`): none of the formats counts anything by itself. Every line is written out here
in full, from the numbers and the parts of a problem, so that a line that left one of them out would
not be the line that is meant.
-/

namespace Dbml

open Json (Value)

/-! ## What is told of a file -/

/-- The record of a file in JSON. -/
def fileRecord (print : Bool) (file : Path) (text : String) : Value :=
  (Visit.ofText file text).toJson print

/-- The record of what is a document. -/
structure RecordsDocument (print : Bool) (d : Document) (record : Value) : Prop where
  declarations : record.member? "declarations" = some (.nat d.size)
  project : record.member? "project" = some (.orNull Project.toJson d.project?)
  tables : record.member? "tables" = some (.array (d.tables.map Table.toJson))
  enums : record.member? "enums" = some (.array (d.enums.map Enum.toJson))
  printed : record.member? "printed" = some (if print then .str d.print else .null)
  errors : record.member? "errors" = some (.array [])

/-- An error in a record. -/
structure RecordsError (problem : Problem) (error : Value) : Prop where
  kind : error.member? "kind" = some (.str problem.name)
  message : error.member? "message" = some (.str problem.message)
  line : error.member? "line" = some (.nat problem.position.line)
  column : error.member? "column" = some (.nat problem.position.column)

/-- The record of what is no document. -/
structure RecordsProblem (problem : Problem) (record : Value) : Prop where
  declarations : record.member? "declarations" = some (.nat 0)
  errors : ∃ error, record.member? "errors" = some (.array [error]) ∧ RecordsError problem error

/-- The record of a file with the given text. -/
structure Records (print : Bool) (file : Path) (text : String) (record : Value) : Prop where
  file : record.member? "file" = some (.str file.text)
  result : match Document.parse text with
    | .ok d => RecordsDocument print d record
    | .error problem => RecordsProblem problem record

/-- The diagnostic of a problem by its parts: the file, the message, the stretch of text with its
label, and what the author could do. -/
def diagnosis (file : Path) (problem : Problem) : Value :=
  .record [("file", .str file.text), ("help", .orNull .str problem.help?),
    ("labels", .array [.array [.nat problem.span.start, .nat problem.span.length,
      .str problem.label]]),
    ("message", .str problem.message)]

/-- The line for human readers on a file: a status line that counts what is declared, or a
diagnostic. -/
def progressLine (file : Path) (text : String) : String :=
  match Document.parse text with
  | .ok d =>
    "  " ++ file.text ++ " .... " ++ toString d.size ++ " declarations ("
      ++ toString d.tables.length ++ " tables, "
      ++ toString (d.tables.map fun t => t.columns.length).sum ++ " columns, "
      ++ toString d.enums.length ++ " enums)"
  | .error problem => (diagnosis file problem).compact

/-- The plain record of a file that is a document. -/
def plainRecord? (file : Path) (text : String) : Option String :=
  match Document.parse text with
  | .ok d => some (file.text ++ "\t" ++ toString d.size ++ "\t" ++ toString d.tables.length ++ "\t"
      ++ toString d.enums.length)
  | .error _ => none

/-- The plain record of a file that is no document. -/
def plainComplaint? (file : Path) (text : String) : Option String :=
  match Document.parse text with
  | .ok _ => none
  | .error problem => some (file.text ++ "\terror\t" ++ problem.message)

/-- What is written of a file in JSON is the record of the file. -/
theorem records_fileRecord (print : Bool) (file : Path) (text : String) :
    Records print file text (fileRecord print file text) := by
  unfold fileRecord Visit.ofText Visit.toJson
  cases h : Document.parse text with
  | ok d =>
    refine ⟨by simp [List.lookup_cons], ?_⟩
    rw [h]
    constructor <;> simp [List.lookup_cons]
  | error problem =>
    refine ⟨by simp [List.lookup_cons], ?_⟩
    rw [h]
    refine ⟨by simp, problem.toJson, by simp [List.lookup_cons], ?_⟩
    constructor <;> simp [Problem.toJson, List.lookup_cons]

/-! ## Three numbers -/

/-- Lines one after another, each with its end. -/
def unlines (ls : List String) : String := String.join (ls.map (· ++ "\n"))

@[simp] theorem unlines_nil : unlines [] = "" := rfl

@[simp] theorem unlines_cons (l : String) (ls : List String) :
    unlines (l :: ls) = l ++ "\n" ++ unlines ls := by
  simp [unlines]

@[simp] theorem unlines_append (ls ls' : List String) :
    unlines (ls ++ ls') = unlines ls ++ unlines ls' := by
  simp [unlines]

/-- A word that begins a message: in bold and in the color of the given terminal code, if there is
color. -/
def mark (color : Bool) (code word : String) : String :=
  if color then "\x1b[" ++ code ++ "m\x1b[1m" ++ word ++ "\x1b[0m" else word

/-- The line for human readers at the end of a run, with the three numbers. -/
def summaryLine (t : Tally) (color : Bool) : String :=
  (if t.failed = 0 then mark color "32" "ok" else mark color "33" "warning:") ++ " "
    ++ toString t.declarations ++ " declarations parsed from " ++ toString t.files ++ " files, "
    ++ toString t.failed ++ " failed"

/-- What is said of a run some of whose files are no documents. -/
def unparsedText (t : Tally) : String :=
  toString t.failed ++ " of " ++ toString t.files ++ " files failed to parse"

/-- The same as JSON. -/
def unparsedRecord (t : Tally) : Value :=
  .record [("error", .str "parse_error"), ("failed", .nat t.failed), ("files", .nat t.files)]

/-- The last line of a run, if some of its files are no documents. -/
def closing (t : Tally) (line : String) : List String := if t.failed = 0 then [] else [line]

/-! ## Runs -/

/-- The marks by their words and the codes of their colors. -/
theorem text_tag (color : Bool) :
    Tag.ok.text color = mark color "32" "ok" ∧
      Tag.warning.text color = mark color "33" "warning:" ∧
      Tag.error.text color = mark color "31" "error:" := by
  cases color <;> decide

/-- What is said, in the given presentation, of a failure that is not the problem of one file. -/
def Presentation.failureLine (p : Presentation) (f : Failure) : String :=
  match p.format with
  | .human => mark p.color "31" "error:" ++ " " ++ f.message
  | .json => f.toJson.compact
  | .plain => "error\t" ++ f.message

/-- A failure that is not the problem of one file is told in one line. -/
theorem Presentation.stderr_failure (p : Presentation) {f : Failure}
    (h : ∀ file problem, f ≠ .problem file problem) :
    (p.failure f).stderr = unlines [p.failureLine f] := by
  rw [unlines_cons, unlines_nil, String.append_empty]
  obtain ⟨format, quiet, color⟩ := p
  cases format with
  | human =>
    rw [failureLine, ← (text_tag color).2.2]
    cases f with
    | problem file problem => exact absurd rfl (h file problem)
    | _ => rfl
  | json => rfl
  | plain => rfl

/-- A run that has failed says so in one more line, and only then. -/
theorem stderr_failure? (p : Presentation) (t : Tally) :
    (t.failure?.elim "" fun f => (p.failure f).stderr) =
      unlines (closing t (p.failureLine (.unparsed t.failed t.files))) := by
  unfold Tally.failure? closing
  by_cases h : t.failed = 0
  · simp [h]
  · rw [if_pos (Nat.pos_of_ne_zero h), if_neg h]
    exact p.stderr_failure (by simp)

/-- The exit code of a run over files that can all be read. -/
theorem exitCode_failure? (t : Tally) :
    t.failure?.elim 0 Failure.exitCode = if t.failed = 0 then 0 else 3 := by
  unfold Tally.failure?
  by_cases h : t.failed = 0
  · simp [h]
  · rw [if_pos (Nat.pos_of_ne_zero h), if_neg h]
    rfl

/-- What human readers are told of a file, in full. -/
theorem stderr_output_human (print color : Bool) (file : Path) (text : String) :
    ((Visit.ofText file text).output ⟨.human, false, color⟩ print).stderr =
      progressLine file text ++ "\n" := by
  unfold Visit.ofText Visit.output progressLine
  cases Document.parse text with
  | ok d =>
    simp [Presentation.status, Output.out, Output.errLine, Visit.counts, List.length_flatMap,
      String.append_assoc]
  | error problem => rfl

/-- Plainly a file comes to one line: its record if it is a document, a complaint if it is none. -/
theorem output_plain (quiet color : Bool) (file : Path) (text : String) :
    (Visit.ofText file text).output ⟨.plain, quiet, color⟩ false =
      ⟨(plainRecord? file text).elim "" (· ++ "\n"),
        (plainComplaint? file text).elim "" (· ++ "\n")⟩ := by
  unfold Visit.ofText Visit.output plainRecord? plainComplaint?
  cases Document.parse text <;> simp [Output.outLine, Output.errLine]

/-- What is shown of files to human readers, line by line. -/
theorem join_output_human (print color : Bool) (text : Path → String) (files : List Path) :
    String.join (files.map fun f =>
      ((Visit.ofText f (text f)).output ⟨.human, false, color⟩ print).stderr) =
      unlines (files.map fun f => progressLine f (text f)) := by
  simp only [stderr_output_human, unlines, List.map_map, Function.comp_def]

/-- Plainly all files together come to the records on one stream and the complaints on the other. -/
theorem join_output_plain (quiet color : Bool) (text : Path → String) (files : List Path) :
    let shown (f : Path) := (Visit.ofText f (text f)).output ⟨.plain, quiet, color⟩ false
    String.join (files.map fun f => (shown f).stdout) =
        unlines (files.filterMap fun f => plainRecord? f (text f)) ∧
      String.join (files.map fun f => (shown f).stderr) =
        unlines (files.filterMap fun f => plainComplaint? f (text f)) :=
  ⟨join_map_filterMap
      (fun f => congrArg Output.stdout (output_plain quiet color f (text f))) files,
    join_map_filterMap
      (fun f => congrArg Output.stderr (output_plain quiet color f (text f))) files⟩

/-- The summary holds the three numbers. -/
theorem stderr_summary (color : Bool) (t : Tally) :
    (Presentation.summary ⟨.human, false, color⟩ (t.failed == 0) t.text).stderr =
      summaryLine t color ++ "\n" := by
  unfold Presentation.summary Presentation.status summaryLine Tally.text
  by_cases h : t.failed = 0 <;> simp [h, Output.errLine, text_tag, String.append_assoc]

section Runs

variable {fs : FileSystem} {env : Environment} {o : Options} {paths files : List Path}
  {text : Path → String}
  (h : parseTargets fs env o.config paths = .ok files)
  (hread : ∀ f ∈ files, fs.read f = .ok (text f))
include h hread

namespace Invocation

/-- A run over files that can all be read. -/
theorem run_parse_of_read (print color : Bool) :
    let p := o.presentation color
    let visits := files.map fun f => Visit.ofText f (text f)
    let t := Tally.ofVisits visits
    (mk (.parse paths print) o).run fs env color =
      ⟨if t.failed = 0 then 0 else 3,
        String.join (files.map fun f => ((Visit.ofText f (text f)).output p print).stdout)
          ++ (runEnd p print visits).stdout,
        String.join (files.map fun f => ((Visit.ofText f (text f)).output p print).stderr)
          ++ (runEnd p print visits).stderr
          ++ unlines (closing t (p.failureLine (.unparsed t.failed t.files)))⟩ := by
  intro p visits t
  rw [run_parse print color h, parseFiles_of_read _ print hread]
  simp only [Output.stdout_append, Output.stderr_append, Output.stdout_concat, Output.stderr_concat,
    List.map_map, Function.comp_def, exitCode_failure?, stderr_failure?]
  rfl

/-- A run in JSON: one document with all records, and the failure if there is one. -/
theorem run_parse_json (print color : Bool) (hformat : o.format = .json) :
    let visits := files.map fun f => Visit.ofText f (text f)
    let t := Tally.ofVisits visits
    (mk (.parse paths print) o).run fs env color =
      ⟨if t.failed = 0 then 0 else 3, (visitsToJson print visits).pretty ++ "\n",
        unlines (closing t (unparsedRecord t).compact)⟩ := by
  intro visits t
  have hp : o.presentation color = ⟨.json, o.quiet, color⟩ :=
    Options.presentation_of_format hformat color
  have hnothing : String.join (files.map fun _ => "") = "" := join_map_eq_empty fun _ _ => rfl
  rw [run_parse_of_read h hread print color, hp]
  simp only [Visit.output, hnothing, runEnd, Output.outLine, String.empty_append]
  rfl

/-- A run for people: a line for each file, the summary, and the failure if there is one. -/
theorem run_parse_human (print color : Bool) (hformat : o.format = .human)
    (hquiet : o.quiet = false) :
    let t := Tally.ofVisits (files.map fun f => Visit.ofText f (text f))
    let outcome := (mk (.parse paths print) o).run fs env color
    outcome.exitCode = (if t.failed = 0 then 0 else 3) ∧
      outcome.output.stderr = unlines ((files.map fun f => progressLine f (text f)) ++
        summaryLine t color :: closing t (mark color "31" "error:" ++ " " ++ unparsedText t)) := by
  intro t outcome
  have hp : o.presentation color = ⟨.human, false, color⟩ := by
    rw [Options.presentation_of_format hformat, hquiet]
  have houtcome : outcome = _ := run_parse_of_read h hread print color
  rw [hp] at houtcome
  rw [houtcome]
  refine ⟨rfl, ?_⟩
  simp only [join_output_human, runEnd, stderr_summary, unlines_append, unlines_cons]
  exact String.append_assoc

/-- A plain run: a record or a complaint for each file, and the failure if there is one. -/
theorem run_parse_plain (color : Bool) (hformat : o.format = .plain) :
    let t := Tally.ofVisits (files.map fun f => Visit.ofText f (text f))
    (mk (.parse paths false) o).run fs env color =
      ⟨if t.failed = 0 then 0 else 3, unlines (files.filterMap fun f => plainRecord? f (text f)),
        unlines ((files.filterMap fun f => plainComplaint? f (text f)) ++
          closing t ("error\t" ++ unparsedText t))⟩ := by
  intro t
  have hp : o.presentation color = ⟨.plain, o.quiet, color⟩ :=
    Options.presentation_of_format hformat color
  obtain ⟨hout, herr⟩ := join_output_plain o.quiet color text files
  rw [run_parse_of_read h hread false color, hp]
  simp only [hout, herr, runEnd, String.append_empty, unlines_append]
  rfl

end Invocation

end Runs

/-- The default directory with three files, of which the first is no document. -/
def FileSystem.mixed : FileSystem :=
  ((empty.addFile ⟨"schemas/b.dbml"⟩ "Table t\x7bi int\x7d Enum e\x7bx\x7d".toUTF8).addFile
    ⟨"schemas/a.dbml"⟩ "Table".toUTF8).addFile ⟨"schemas/c.dbml"⟩ "Table u\x7b\x7d".toUTF8

/-- The paths of the three files. -/
def FileSystem.mixedFiles : List Path :=
  [⟨"schemas/a.dbml"⟩, ⟨"schemas/b.dbml"⟩, ⟨"schemas/c.dbml"⟩]

theorem load_mixed : Settings.load .mixed {} none = .ok {} := by
  decide +kernel

theorem parseTargets_mixed : parseTargets .mixed {} none [] = .ok FileSystem.mixedFiles :=
  parseTargets_of_perm load_mixed
    [[⟨"schemas/b.dbml"⟩, ⟨"schemas/a.dbml"⟩, ⟨"schemas/c.dbml"⟩]] (by decide +kernel)
    (.swap _ _ _) (by decide +kernel) (by simp [FileSystem.mixedFiles])

theorem read_mixed : ∀ f ∈ FileSystem.mixedFiles,
    FileSystem.mixed.read f = .ok ((FileSystem.mixed.read f).toOption.getD "") := by
  decide +kernel

end Dbml
