import Dbml.Command.Run
import Dbml.Proofs.Files.Order
import Dbml.Proofs.Schema.Spelling

/-!
# A run over files

What a run of the `parse` command comes to, stream by stream: the outputs of its visits one after
another, then the end of the run, then what is said of a failure (`Invocation.run_parse`). The files
visited are in order (`pairwise_of_parseTargets`), and are those up to the first that cannot be read
(`filterMap_visitAll`); if all can be, a run is a function of the paths and the texts alone
(`visitAll_of_read`). What is written as JSON is read back (`parse?_visitsToJson`).
-/

namespace Dbml

open Json (Value)

/-! ## Output -/

/-- Texts that stand for some of the members of a list, one after another. -/
theorem join_map_filterMap {α β : Type} {f : α → String} {g : α → Option β} {k : β → String}
    (h : ∀ a, f a = (g a).elim "" k) (as : List α) :
    String.join (as.map f) = String.join ((as.filterMap g).map k) := by
  induction as with
  | nil => rfl
  | cons a as ih =>
    rw [List.map_cons, String.join_cons, ih, h]
    cases hg : g a with
    | none => simp [hg]
    | some b => simp [hg]

theorem join_map_eq_empty {α : Type} {f : α → String} {as : List α} (h : ∀ a ∈ as, f a = "") :
    String.join (as.map f) = "" := by
  induction as with
  | nil => rfl
  | cons a as ih =>
    rw [List.map_cons, String.join_cons, h a List.mem_cons_self,
      ih fun b hb => h b (List.mem_cons_of_mem a hb)]
    rfl

namespace Output

@[simp] theorem stdout_append (a b : Output) : (a ++ b).stdout = a.stdout ++ b.stdout := rfl

@[simp] theorem stderr_append (a b : Output) : (a ++ b).stderr = a.stderr ++ b.stderr := rfl

@[simp] theorem stderr_out (text : String) : (out text).stderr = "" := rfl

@[simp] theorem stderr_outLine (line : String) : (outLine line).stderr = "" := rfl

/-- Outputs one after another are joined stream by stream. -/
theorem foldl_append (os : List Output) (o : Output) :
    os.foldl (· ++ ·) o =
      ⟨o.stdout ++ String.join (os.map stdout), o.stderr ++ String.join (os.map stderr)⟩ := by
  induction os generalizing o with
  | nil => simp
  | cons p os ih => simp [ih, String.append_assoc]

@[simp] theorem stdout_concat (os : List Output) :
    (concat os).stdout = String.join (os.map stdout) := by
  simp [concat, foldl_append]

@[simp] theorem stderr_concat (os : List Output) :
    (concat os).stderr = String.join (os.map stderr) := by
  simp [concat, foldl_append]

end Output

namespace Presentation

variable (p : Presentation)

@[simp] theorem stdout_status (line : String) : (p.status line).stdout = "" := by
  unfold status
  split <;> rfl

@[simp] theorem stdout_diagnostic (problem : Problem) (file : Path) :
    (diagnostic problem file).stdout = "" := rfl

@[simp] theorem stdout_failure (f : Failure) : (p.failure f).stdout = "" := by
  unfold failure
  split <;> rfl

end Presentation

theorem Options.presentation_of_format {o : Options} {format : Format} (h : o.format = format)
    (color : Bool) : o.presentation color = ⟨format, o.quiet, color⟩ := by
  rw [presentation, h]

/-! ## What is written as JSON -/

section Json

open Json.Value (Plain)

theorem Problem.plain_toJson (problem : Problem) : problem.toJson.Plain :=
  .record (by simp [Plain.str, Plain.nat])

theorem Visit.plain_toJson (print : Bool) (v : Visit) : (v.toJson print).Plain := by
  unfold toJson
  split
  case h_1 d _ =>
    have hprinted : (if print then Value.str d.print else Value.null).Plain := by
      split
      · exact .str d.print
      · exact .null
    apply Plain.record
    simp [Plain.nat, Plain.str, Plain.items Enum.plain_toJson, Plain.items Table.plain_toJson,
      Plain.orNull Project.plain_toJson, Plain.array, hprinted]
  case h_2 problem _ =>
    apply Plain.record
    simp [Plain.nat, Plain.str, Plain.array, problem.plain_toJson]

/-- What a run writes as JSON is one JSON text. -/
theorem parse?_visitsToJson (print : Bool) (vs : List Visit) :
    Json.parse? ((visitsToJson print vs).pretty ++ "\n") = some (visitsToJson print vs) := by
  refine Value.parse?_pretty (.record ?_) (by simp [Json.isBlank])
  simp [Plain.nat, Plain.items (Visit.plain_toJson print)]

end Json

/-! ## Visits -/

/-- The visit of a file with the given text. -/
def Visit.ofText (file : Path) (text : String) : Visit := ⟨file, Document.parse text⟩

/-- The document that a file is, if it can be read and is one. -/
def FileSystem.document? (fs : FileSystem) (file : Path) : Option Document :=
  match fs.read file with
  | .ok text => (Document.parse text).toOption
  | .error _ => none

theorem FileSystem.exists_parse_of_document? {fs : FileSystem} {file : Path} {d : Document}
    (h : fs.document? file = some d) : ∃ text, Document.parse text = .ok d := by
  unfold document? at h
  split at h
  case h_1 text _ =>
    cases hparse : Document.parse text with
    | error e => rw [hparse] at h; cases h
    | ok d' => rw [hparse] at h; cases h; exact ⟨text, hparse⟩
  case h_2 => cases h

theorem FileSystem.exists_text {fs : FileSystem} {files : List Path}
    (h : ∀ f ∈ files, (fs.read f).isOk) :
    ∃ text : Path → String, ∀ f ∈ files, fs.read f = .ok (text f) := by
  refine ⟨fun f => (fs.read f).toOption.getD "", fun f hf => ?_⟩
  have hok := h f hf
  cases hr : fs.read f with
  | error e => rw [hr] at hok; cases hok
  | ok text => simp [hr, Except.toOption]

theorem visitAll_of_read {fs : FileSystem} {files : List Path} {text : Path → String}
    (h : ∀ f ∈ files, fs.read f = .ok (text f)) :
    visitAll fs files = (files.map fun f => .ofText f (text f), none) := by
  induction files with
  | nil => rfl
  | cons f files ih =>
    rw [visitAll, h f List.mem_cons_self, ih fun g hg => h g (List.mem_cons_of_mem f hg)]
    rfl

/-- The documents that a run over files meets: it ends at the first file that cannot be read. -/
def FileSystem.documents (fs : FileSystem) (files : List Path) : List Document :=
  (files.takeWhile fun f => (fs.read f).isOk).filterMap fs.document?

/-- The documents among the visits are those of the files up to the first that cannot be read. -/
theorem filterMap_visitAll (fs : FileSystem) (files : List Path) :
    (visitAll fs files).1.filterMap (fun v => v.result.toOption) = fs.documents files := by
  unfold FileSystem.documents
  induction files with
  | nil => rfl
  | cons f files ih =>
    cases hf : fs.read f with
    | error e => simp [visitAll, hf, Except.isOk, Except.toBool]
    | ok text =>
      have hdoc : fs.document? f = (Document.parse text).toOption := by
        rw [FileSystem.document?, hf]
      rw [visitAll, hf, List.takeWhile_cons_of_pos (by rw [hf]; rfl), List.filterMap_cons,
        List.filterMap_cons, hdoc, ← ih]

/-! ## Runs -/

section Run

variable {fs : FileSystem} {env : Environment} {o : Options} {paths files : List Path}

/-- A run writes to its two streams what the command does, and then, on the standard error, what is
said of a failure; that also decides the exit code. -/
theorem Invocation.run_eq (i : Invocation) (fs : FileSystem) (env : Environment) (color : Bool) :
    let p := i.options.presentation color
    let (output, failure) := i.carryOut fs env color
    i.run fs env color =
      ⟨failure.elim 0 Failure.exitCode, output.stdout,
        output.stderr ++ failure.elim "" fun f => (p.failure f).stderr⟩ := by
  intro p
  rw [run]
  obtain ⟨⟨out, err⟩, failure⟩ := i.carryOut fs env color
  cases failure with
  | none => simp
  | some f =>
    show Outcome.mk f.exitCode ⟨out ++ (p.failure f).stdout, err ++ (p.failure f).stderr⟩ = _
    simp

/-- A run over files whose targets are found writes what the files come to. -/
theorem Invocation.run_parse (print color : Bool)
    (h : parseTargets fs env o.config paths = .ok files) :
    let p := o.presentation color
    let parsed := parseFiles fs p print files
    (Invocation.mk (.parse paths print) o).run fs env color =
      ⟨parsed.2.elim 0 Failure.exitCode,
        parsed.1.stdout, parsed.1.stderr ++ parsed.2.elim "" fun f => (p.failure f).stderr⟩ := by
  intro p parsed
  have hcarry : (Invocation.mk (.parse paths print) o).carryOut fs env color = parsed := by
    simp only [carryOut, h]
    rfl
  have hrun := run_eq (Invocation.mk (.parse paths print) o) fs env color
  rw [hcarry] at hrun
  exact hrun

/-- If all files can be read, a run shows each of them and then the end. -/
theorem parseFiles_of_read {text : Path → String} (p : Presentation) (print : Bool)
    (h : ∀ f ∈ files, fs.read f = .ok (text f)) :
    let visits := files.map fun f => Visit.ofText f (text f)
    parseFiles fs p print files =
      (Output.concat (visits.map (Visit.output p print)) ++ runEnd p print visits,
        (Tally.ofVisits visits).failure?) := by
  intro visits
  rw [parseFiles, visitAll_of_read h]

/-- What is discovered comes sorted and without repetitions. -/
theorem pairwise_of_discover {extension : String} (h : discover fs paths extension = .ok files) :
    files.Pairwise fun p q => compare p q = .lt := by
  unfold discover at h
  cases hf : paths.mapM (filesAt fs extension) with
  | error e => rw [hf] at h; cases h
  | ok found =>
    rw [hf] at h
    change (if found.flatten.isEmpty then _ else Except.ok (Path.sortUnique found.flatten)) = _ at h
    split at h
    · cases h
    · cases h
      exact Path.pairwise_sortUnique found.flatten

/-- A discovery that finds certain files, in whatever order, comes to these files sorted. -/
theorem discover_of_perm {extension : String} {found : List (List Path)}
    (hfound : paths.mapM (filesAt fs extension) = .ok found) (hperm : found.flatten.Perm files)
    (hfiles : files.Pairwise fun p q => compare p q = .lt) (hne : files ≠ []) :
    discover fs paths extension = .ok files := by
  have hempty : ¬ found.flatten.isEmpty = true := by
    rw [List.isEmpty_iff]
    intro h
    rw [h] at hperm
    exact hne hperm.nil_eq.symm
  unfold discover
  rw [hfound]
  show (if found.flatten.isEmpty then _ else Except.ok (Path.sortUnique found.flatten)) = _
  rw [if_neg hempty, Path.sortUnique_of_perm hperm hfiles]

theorem parseTargets_of_perm {config : Option Path} {settings : Settings}
    (hsettings : Settings.load fs env config = .ok settings) (found : List (List Path))
    (hfound : (if paths.isEmpty then [⟨settings.schemaDirectory⟩] else paths).mapM
      (filesAt fs settings.fileExtension) = .ok found)
    (hperm : found.flatten.Perm files) (hfiles : files.Pairwise fun p q => compare p q = .lt)
    (hne : files ≠ []) : parseTargets fs env config paths = .ok files := by
  unfold parseTargets
  rw [hsettings]
  exact discover_of_perm hfound hperm hfiles hne

end Run

end Dbml
