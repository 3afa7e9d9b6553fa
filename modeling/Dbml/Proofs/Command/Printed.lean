import Dbml.Proofs.Command.Accounts
import Dbml.Proofs.Document.RoundTrip

/-!
# What is printed is a document

With `--print` the canonical texts of the files that are documents come one after another, with
nothing between them. Together they are a document again, that of all their declarations
(`Invocation.parse_printed`). A printed text ends with its line, so nothing in it meets the next one
(`Document.parse_join_print`); what is left is that the standard output, or the records in JSON,
hold these texts and no others.
-/

namespace Dbml

open Json (Value)

/-! ## The documents of a run -/

/-- All documents of a run are well-formed, since they are parsed. -/
theorem FileSystem.wellFormed_documents (fs : FileSystem) (files : List Path) :
    ∀ d ∈ fs.documents files, ∀ x ∈ d.decls, x.WellFormed := by
  intro d hd
  obtain ⟨f, -, hf⟩ := List.mem_filterMap.1 hd
  obtain ⟨text, hparse⟩ := exists_parse_of_document? hf
  exact Document.wellFormed_of_parse hparse

/-! ## What is printed of a file -/

/-- Outside JSON, a document is printed when the run comes to it, and nothing else is shown of it. -/
theorem stdout_output {p : Presentation} (hp : p.format ≠ .json) (v : Visit) :
    (v.output p true).stdout = v.result.toOption.elim "" Document.print := by
  obtain ⟨format, quiet, color⟩ := p
  unfold Visit.output
  cases format with
  | json => exact absurd rfl hp
  | human => cases v.result <;> simp [Except.toOption, Output.out]
  | plain => cases v.result <;> simp [Except.toOption, Output.out, Output.errLine]

theorem stdout_runEnd {p : Presentation} (hp : p.format ≠ .json) (print : Bool) (vs : List Visit) :
    (runEnd p print vs).stdout = "" := by
  obtain ⟨format, quiet, color⟩ := p
  cases format with
  | json => exact absurd rfl hp
  | human => exact Presentation.stdout_status _ _
  | plain => rfl

/-- The text printed in the record of a file. -/
def printedText? (record : Value) : Option String := (record.member? "printed").bind Value.text?

/-- In JSON the printed form is a member of the record of a file. -/
theorem printedText?_toJson (v : Visit) :
    printedText? (v.toJson true) = v.result.toOption.map Document.print := by
  unfold printedText? Visit.toJson
  cases v.result <;> simp [List.lookup_cons, Except.toOption, Value.str, Value.text?]

/-! ## What a run prints -/

section Printed

variable {fs : FileSystem} {env : Environment} {o : Options} {paths files : List Path}

/-- Outside JSON, the standard output is the documents, printed one after another. -/
theorem stdout_parseFiles {p : Presentation} (hp : p.format ≠ .json) :
    (parseFiles fs p true files).1.stdout =
      String.join ((fs.documents files).map Document.print) := by
  have hjoin := join_map_filterMap (fun v => stdout_output hp v) (visitAll fs files).1
  rw [filterMap_visitAll] at hjoin
  unfold parseFiles
  rw [← hjoin]
  obtain ⟨visits, stop⟩ := visitAll fs files
  cases stop with
  | some failure => simp [Function.comp_def]
  | none => simp [Function.comp_def, stdout_runEnd hp]

/-- In JSON, the records hold the printed documents in their order. -/
theorem filterMap_printedText? {text : Path → String}
    (hread : ∀ f ∈ files, fs.read f = .ok (text f)) :
    (files.map fun f => fileRecord true f (text f)).filterMap printedText? =
      (fs.documents files).map Document.print := by
  have hdocs := filterMap_visitAll fs files
  rw [visitAll_of_read hread] at hdocs
  rw [← hdocs, List.map_filterMap]
  simp only [List.filterMap_map, Function.comp_def, fileRecord, printedText?_toJson]

/-- What `--print` writes is a document: that of the declarations of all files that are documents,
in the order of the files, apart from their positions. In JSON it stands in the records. -/
theorem Invocation.parse_printed (color : Bool)
    (h : parseTargets fs env o.config paths = .ok files) :
    let all := Document.mk ((fs.documents files).flatMap Document.decls)
    let outcome (format : Format) := (mk (.parse paths true) { o with format }).run fs env color
    (∀ format, format ≠ .json →
      let printed := (outcome format).output.stdout
      printed = String.join ((fs.documents files).map Document.print) ∧
        ∃ d, Document.parse printed = .ok d ∧ d.unplaced = all.unplaced) ∧
    ((∀ f ∈ files, (fs.read f).isOk) →
      ∃ doc records, Json.parse? (outcome .json).output.stdout = some doc ∧
        doc.member? "results" = some (.array records) ∧
        ∃ d, Document.parse (String.join (records.filterMap printedText?)) = .ok d ∧
          d.unplaced = all.unplaced) := by
  intro all outcome
  have hparse := Document.parse_join_print (fs.wellFormed_documents files)
  refine ⟨fun format hformat => ?_, fun hreadable => ?_⟩
  · intro printed
    have hprinted : printed = String.join ((fs.documents files).map Document.print) := by
      have houtcome : outcome format = _ := run_parse (o := { o with format }) true color h
      rw [← stdout_parseFiles (p := ⟨format, o.quiet, color⟩) hformat]
      exact congrArg (fun x => x.output.stdout) houtcome
    exact ⟨hprinted, hprinted ▸ hparse⟩
  · obtain ⟨text, hread⟩ := FileSystem.exists_text hreadable
    have houtcome : outcome .json = _ :=
      run_parse_json (o := { o with format := .json }) h hread true color rfl
    refine ⟨visitsToJson true (files.map fun f => .ofText f (text f)),
      files.map fun f => fileRecord true f (text f), ?_, ?_, ?_⟩
    · rw [houtcome]
      exact parse?_visitsToJson true _
    · simp [visitsToJson, List.lookup_cons, fileRecord]
    · rw [filterMap_printedText? hread]
      exact hparse

end Printed

/-- Two of three files are documents; what is printed of them is one. -/
theorem Invocation.parse_printed_mixed :
    let outcome := (mk (.parse [] true) { format := .plain }).run .mixed {} false
    parseTargets .mixed {} none [] = .ok FileSystem.mixedFiles ∧
      ∃ d, Document.parse outcome.output.stdout = .ok d ∧
        d.unplaced = ⟨[.table "t" none [⟨"i", "int", .start⟩] .start, .enum "e" ["x"] .start,
          .table "u" none [] .start]⟩ := by
  intro outcome
  obtain ⟨hprinted, -⟩ := parse_printed (o := {}) false parseTargets_mixed
  obtain ⟨-, d, hd, hsame⟩ := hprinted .plain (by decide)
  exact ⟨parseTargets_mixed, d, hd, hsame.trans (by decide +kernel)⟩

end Dbml
