import Dbml.Proofs.Command.Accounts

/-!
# A file that cannot be read

A file that is no document is reported and the run goes on; a file that cannot be read ends it. What
stands before that file has been shown by then, line by line, but in JSON nothing is written before
the end of a run, so nothing is written at all, and what stands after it leaves no trace in any
format. So all documents are reported if and only if all files can be read
(`Invocation.parse_reported_iff`).
-/

namespace Dbml

open Json (Value)

/-! ## Where a run stops -/

/-- If not every file can be read there is a first that cannot. -/
theorem exists_first_unreadable {fs : FileSystem} {files : List Path}
    (h : ¬ ∀ f ∈ files, (fs.read f).isOk) :
    ∃ before g after reason, files = before ++ g :: after ∧ (∀ f ∈ before, (fs.read f).isOk) ∧
      fs.read g = .error reason := by
  induction files with
  | nil => exact absurd (fun f hf => nomatch hf) h
  | cons f files ih =>
    cases hf : fs.read f with
    | error reason => exact ⟨[], f, files, reason, rfl, nofun, hf⟩
    | ok t =>
      have hok : (fs.read f).isOk := by
        rw [hf]
        rfl
      obtain ⟨before, g, after, reason, rfl, hbefore, hg⟩ := ih fun hfiles =>
        h (List.forall_mem_cons.2 ⟨hok, hfiles⟩)
      exact ⟨f :: before, g, after, reason, rfl, List.forall_mem_cons.2 ⟨hok, hbefore⟩, hg⟩

/-- A run visits the files before the first that cannot be read, and stops there. -/
theorem visitAll_of_unreadable {fs : FileSystem} {before after : List Path} {g : Path}
    {reason : ReadError} {text : Path → String} (h : ∀ f ∈ before, fs.read f = .ok (text f))
    (hg : fs.read g = .error reason) :
    visitAll fs (before ++ g :: after) =
      (before.map fun f => .ofText f (text f), some (.unreadable g reason.message)) := by
  induction before with
  | nil => simp [visitAll, hg]
  | cons f before ih =>
    rw [List.cons_append, visitAll, h f List.mem_cons_self,
      ih fun f' hf' => h f' (List.mem_cons_of_mem f hf')]
    rfl

/-- What is said of a file that cannot be read. -/
def unreadableText (g : Path) (reason : ReadError) : String :=
  "IO error for " ++ g.text ++ ": " ++ reason.message

/-- The same as JSON. -/
def unreadableRecord (g : Path) (reason : ReadError) : Value :=
  .record [("error", .str "io_error"), ("message", .str reason.message), ("path", .str g.text)]

/-! ## Runs that stop -/

section Stopped

variable {fs : FileSystem} {env : Environment} {o : Options} {paths before after : List Path}
  {g : Path} {reason : ReadError} {text : Path → String}
  (h : parseTargets fs env o.config paths = .ok (before ++ g :: after))
  (hread : ∀ f ∈ before, fs.read f = .ok (text f)) (hg : fs.read g = .error reason)
include h hread hg

namespace Invocation

/-- A run over files of which one cannot be read: nothing in it depends on the files after that. -/
theorem run_parse_of_unreadable (print color : Bool) :
    let p := o.presentation color
    (mk (.parse paths print) o).run fs env color =
      ⟨1, String.join (before.map fun f => ((Visit.ofText f (text f)).output p print).stdout),
        String.join (before.map fun f => ((Visit.ofText f (text f)).output p print).stderr)
          ++ unlines [p.failureLine (.unreadable g reason.message)]⟩ := by
  intro p
  have hfiles : parseFiles fs p print (before ++ g :: after) =
      (Output.concat ((before.map fun f => Visit.ofText f (text f)).map (Visit.output p print)),
        some (.unreadable g reason.message)) := by
    rw [parseFiles, visitAll_of_unreadable hread hg]
  have hstop : (p.failure (.unreadable g reason.message)).stderr =
      unlines [p.failureLine (.unreadable g reason.message)] :=
    p.stderr_failure (by simp)
  rw [run_parse print color h, hfiles]
  simp only [Output.stdout_concat, Output.stderr_concat, List.map_map, Function.comp_def,
    Option.elim_some]
  rw [← hstop]
  rfl

/-- In JSON such a run writes nothing but the failure: the files before it are lost. -/
theorem run_parse_json_unreadable (print color : Bool) (hformat : o.format = .json) :
    (mk (.parse paths print) o).run fs env color =
      ⟨1, "", unlines [(unreadableRecord g reason).compact]⟩ := by
  have hp : o.presentation color = ⟨.json, o.quiet, color⟩ :=
    Options.presentation_of_format hformat color
  have hnothing : String.join (before.map fun _ => "") = "" := join_map_eq_empty fun _ _ => rfl
  rw [run_parse_of_unreadable h hread hg print color, hp]
  simp only [Visit.output, hnothing, String.empty_append]
  rfl

/-- For people it writes what it has to say of the files before it, and the failure. -/
theorem run_parse_human_unreadable (print color : Bool) (hformat : o.format = .human)
    (hquiet : o.quiet = false) :
    let outcome := (mk (.parse paths print) o).run fs env color
    outcome.exitCode = 1 ∧
      outcome.output.stderr = unlines ((before.map fun f => progressLine f (text f)) ++
        [mark color "31" "error:" ++ " " ++ unreadableText g reason]) := by
  intro outcome
  have hp : o.presentation color = ⟨.human, false, color⟩ := by
    rw [Options.presentation_of_format hformat, hquiet]
  have houtcome : outcome = _ := run_parse_of_unreadable h hread hg print color
  rw [hp] at houtcome
  rw [houtcome]
  refine ⟨rfl, ?_⟩
  simp only [join_output_human, unlines_append]
  rfl

/-- Plainly it writes the records of the files before it, and the failure. -/
theorem run_parse_plain_unreadable (color : Bool) (hformat : o.format = .plain) :
    (mk (.parse paths false) o).run fs env color =
      ⟨1, unlines (before.filterMap fun f => plainRecord? f (text f)),
        unlines ((before.filterMap fun f => plainComplaint? f (text f)) ++
          ["error\t" ++ unreadableText g reason])⟩ := by
  have hp : o.presentation color = ⟨.plain, o.quiet, color⟩ :=
    Options.presentation_of_format hformat color
  obtain ⟨hout, herr⟩ := join_output_plain o.quiet color text before
  rw [run_parse_of_unreadable h hread hg false color, hp]
  simp only [hout, herr, unlines_append]
  rfl

end Invocation

end Stopped

/-! ## What is reported -/

/-- Every document among the files is reported in each of the formats: by a record with all that is
told of it in the one JSON text on the standard output, by its status line, by its plain record. -/
structure Reported (fs : FileSystem) (files : List Path) (print : Bool)
    (inJson forHumans plainly : Output) : Prop where
  json : ∃ doc records, Json.parse? inJson.stdout = some doc ∧
    doc.member? "results" = some (.array records) ∧
    ∀ f ∈ files, ∀ t d, fs.read f = .ok t → Document.parse t = .ok d →
      ∃ record ∈ records, Records print f t record
  human : ∃ lines, forHumans.stderr = unlines lines ∧
    ∀ f ∈ files, ∀ t d, fs.read f = .ok t → Document.parse t = .ok d → progressLine f t ∈ lines
  plain : ∃ lines, plainly.stdout = unlines lines ∧
    ∀ f ∈ files, ∀ t d, fs.read f = .ok t → Document.parse t = .ok d →
      ∃ line ∈ lines, plainRecord? f t = some line

theorem plainRecord?_of_parse {t : String} {d : Document} (h : Document.parse t = .ok d)
    (f : Path) : ∃ line, plainRecord? f t = some line := by
  unfold plainRecord?
  rw [h]
  exact ⟨_, rfl⟩

theorem not_reported_of_stdout {fs : FileSystem} {files : List Path} {print : Bool}
    {inJson forHumans plainly : Output} (h : inJson.stdout = "") :
    ¬ Reported fs files print inJson forHumans plainly := by
  rintro ⟨⟨doc, records, hdoc, -⟩, -, -⟩
  have hempty : Json.parse? "" = none := by
    decide +kernel
  rw [h, hempty] at hdoc
  cases hdoc

/-- All documents are reported if and only if all files can be read. The first file that cannot be
read ends the run: in JSON there is nothing on the standard output, and in the other formats there
is what the files before it gave. -/
theorem Invocation.parse_reported_iff {fs : FileSystem} {env : Environment} {o : Options}
    {paths files : List Path} (h : parseTargets fs env o.config paths = .ok files)
    (print color : Bool) :
    let inJson := (mk (.parse paths print) { o with format := .json }).run fs env color
    let forHumans := (mk (.parse paths print) { o with format := .human, quiet := false }).run
      fs env color
    let plainly := (mk (.parse paths false) { o with format := .plain }).run fs env color
    (Reported fs files print inJson.output forHumans.output plainly.output ↔
      ∀ f ∈ files, (fs.read f).isOk) ∧
    ∀ before g after reason (text : Path → String), files = before ++ g :: after →
      (∀ f ∈ before, fs.read f = .ok (text f)) → fs.read g = .error reason →
      inJson = ⟨1, "", unlines [(unreadableRecord g reason).compact]⟩ ∧
      forHumans.exitCode = 1 ∧
      forHumans.output.stderr = unlines ((before.map fun f => progressLine f (text f)) ++
        [mark color "31" "error:" ++ " " ++ unreadableText g reason]) ∧
      plainly = ⟨1, unlines (before.filterMap fun f => plainRecord? f (text f)),
        unlines ((before.filterMap fun f => plainComplaint? f (text f)) ++
          ["error\t" ++ unreadableText g reason])⟩ := by
  intro inJson forHumans plainly
  refine ⟨⟨fun hreported => ?_, fun hreadable => ?_⟩, ?_⟩
  · by_contra hreadable
    obtain ⟨before, g, after, reason, rfl, hbefore, hg⟩ := exists_first_unreadable hreadable
    obtain ⟨text, hread⟩ := FileSystem.exists_text hbefore
    have hjson : inJson = _ :=
      run_parse_json_unreadable (o := { o with format := .json }) h hread hg print color rfl
    exact not_reported_of_stdout (by rw [hjson]) hreported
  · obtain ⟨text, hread⟩ := FileSystem.exists_text hreadable
    have hsame : ∀ f ∈ files, ∀ t, fs.read f = .ok t → text f = t := by
      intro f hf t ht
      exact Except.ok.inj ((hread f hf).symm.trans ht)
    have hjson : inJson = _ :=
      run_parse_json (o := { o with format := .json }) h hread print color rfl
    obtain ⟨-, hhuman⟩ := run_parse_human (o := { o with format := .human, quiet := false }) h hread
      print color rfl rfl
    have hplain : plainly = _ := run_parse_plain (o := { o with format := .plain }) h hread color rfl
    refine ⟨⟨visitsToJson print (files.map fun f => .ofText f (text f)),
      files.map fun f => fileRecord print f (text f), ?_, ?_, fun f hf t d ht _ => ?_⟩,
      ⟨_, hhuman, fun f hf t d ht _ => ?_⟩,
      ⟨files.filterMap fun f => plainRecord? f (text f), by rw [hplain], fun f hf t d ht hd => ?_⟩⟩
    · rw [hjson]
      exact parse?_visitsToJson print _
    · simp [visitsToJson, List.lookup_cons, fileRecord]
    · rw [← hsame f hf t ht]
      exact ⟨_, List.mem_map_of_mem hf, records_fileRecord print f (text f)⟩
    · rw [← hsame f hf t ht]
      exact List.mem_append_left _ (List.mem_map_of_mem hf)
    · obtain ⟨line, hline⟩ := plainRecord?_of_parse hd f
      refine ⟨line, List.mem_filterMap.2 ⟨f, hf, ?_⟩, hline⟩
      rw [hsame f hf t ht]
      exact hline
  · rintro before g after reason text rfl hread hg
    obtain ⟨hcode, hstderr⟩ := run_parse_human_unreadable
      (o := { o with format := .human, quiet := false }) h hread hg print color rfl rfl
    refine ⟨?_, hcode, hstderr, ?_⟩
    · exact run_parse_json_unreadable (o := { o with format := .json }) h hread hg print color rfl
    · exact run_parse_plain_unreadable (o := { o with format := .plain }) h hread hg color rfl

/-- Among the three files there is one more, which is no text. -/
def FileSystem.spoiled : FileSystem := mixed.addFile ⟨"schemas/bad.dbml"⟩ ⟨#[0xff]⟩

theorem parseTargets_spoiled : parseTargets .spoiled {} none [] =
    .ok ([⟨"schemas/a.dbml"⟩, ⟨"schemas/b.dbml"⟩] ++ ⟨"schemas/bad.dbml"⟩ ::
      [⟨"schemas/c.dbml"⟩]) := by
  have hsettings : Settings.load .spoiled {} none = .ok {} := by
    decide +kernel
  exact parseTargets_of_perm hsettings
    [[⟨"schemas/b.dbml"⟩, ⟨"schemas/a.dbml"⟩, ⟨"schemas/c.dbml"⟩, ⟨"schemas/bad.dbml"⟩]]
    (by decide +kernel) (by decide +kernel) (by decide +kernel) (by simp)

theorem read_spoiled : ∀ f ∈ [⟨"schemas/a.dbml"⟩, ⟨"schemas/b.dbml"⟩],
    FileSystem.spoiled.read f = .ok ((FileSystem.spoiled.read f).toOption.getD "") := by
  decide +kernel

theorem read_bad : FileSystem.spoiled.read ⟨"schemas/bad.dbml"⟩ = .error .invalidText := by
  decide +kernel

/-- The file that is no text comes third; the fourth is not reported. -/
theorem Invocation.parse_reported_iff_spoiled :
    let plainly := (mk (.parse [] false) { format := .plain }).run .spoiled {} false
    plainly.exitCode = 1 ∧ plainly.output.stdout = "schemas/b.dbml\t2\t1\t1\n" ∧
      (FileSystem.spoiled.read ⟨"schemas/c.dbml"⟩).isOk := by
  intro plainly
  obtain ⟨-, hstop⟩ := parse_reported_iff (o := {}) parseTargets_spoiled false false
  obtain ⟨-, -, -, hplain⟩ := hstop _ _ _ _ _ rfl read_spoiled read_bad
  have hplain : plainly = _ := hplain
  rw [hplain]
  decide +kernel

/-- One more file takes away the record of another, and in JSON all of them. -/
theorem Invocation.not_reported_spoiled :
    let run (fs : FileSystem) (format : Format) :=
      ((mk (.parse [] false) { format }).run fs {} false).output
    (run .mixed .plain).stdout = "schemas/b.dbml\t2\t1\t1\nschemas/c.dbml\t1\t1\t0\n" ∧
      (run .spoiled .plain).stdout = "schemas/b.dbml\t2\t1\t1\n" ∧
      (run .spoiled .json).stdout = "" ∧
      ∃ files, parseTargets .spoiled {} none [] = .ok files ∧
        ¬ Reported .spoiled files false (run .spoiled .json) (run .spoiled .human)
          (run .spoiled .plain) := by
  intro run
  have hmixed : run .mixed .plain = _ := congrArg Outcome.output
    (run_parse_plain (o := { format := .plain }) parseTargets_mixed read_mixed false rfl)
  have hplain : run .spoiled .plain = _ := congrArg Outcome.output
    (run_parse_plain_unreadable (o := { format := .plain }) parseTargets_spoiled read_spoiled
      read_bad false rfl)
  have hjson : run .spoiled .json = _ := congrArg Outcome.output
    (run_parse_json_unreadable (o := { format := .json }) parseTargets_spoiled read_spoiled
      read_bad false false rfl)
  refine ⟨?_, ?_, ?_, _, parseTargets_spoiled, not_reported_of_stdout ?_⟩
  · rw [hmixed]
    decide +kernel
  · rw [hplain]
    decide +kernel
  · rw [hjson]
  · rw [hjson]

end Dbml
