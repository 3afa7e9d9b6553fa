import Dbml.Proofs.Command.Discovery
import Dbml.Proofs.Command.Unreadable

/-!
# Directories among the files

A path that leads to a directory is never taken for a file, but a search finds directories as it
finds files. So there is a directory among the files if and only if a search finds one, which
with a plain extension depends on the directory's own name (`discover_directory_iff`); and then the
run over the files fails.
-/

namespace Dbml

namespace Location

/-- Components that stay where they are make no difference to where a path leads. -/
theorem foldl_move_filter (cs : List Component) (l : Location) :
    (cs.filter (· ≠ .current)).foldl move l = cs.foldl move l := by
  induction cs generalizing l with
  | nil => rfl
  | cons c cs ih =>
    by_cases hc : c = .current
    · subst hc
      exact ih l
    · rw [List.filter_cons_of_pos (by simpa using hc), List.foldl_cons, List.foldl_cons, ih]

theorem foldl_move_name (names : List String) (l : Location) :
    (names.map .name).foldl move l = l ++ names := by
  induction names generalizing l with
  | nil => simp
  | cons name names ih =>
    rw [List.map_cons, List.foldl_cons, ih, move, List.append_assoc, List.singleton_append]

end Location

namespace FileSystem

variable {fs : FileSystem} {p q : Path} {l k : Location} {extension : String}

/-- The path leads to a directory, however long the path is. -/
def HoldsDirectory (fs : FileSystem) (q : Path) : Prop :=
  ∃ l, fs.Leads q l ∧ fs.entry? l = some .directory

/-- Paths with the same components lead to the same place. -/
theorem Leads.eq_of_same (hp : fs.Leads p l) (hq : fs.Leads q k) (h : p.same q = true) : l = k := by
  rw [hp.eq_foldl, hq.eq_foldl, Path.same_iff.1 h]

/-- A path that goes on by names leads below where it goes on from. -/
theorem Leads.eq_append (hp : fs.Leads p l) (hq : fs.Leads q k) {names : List String}
    (h : q.components = p.course ++ names.map .name) : k = l ++ names := by
  rw [hq.eq_foldl, h, List.foldl_append, Path.course, Location.foldl_move_filter, ← hp.eq_foldl,
    Location.foldl_move_name]

/-- A directory cannot be read as a file. -/
theorem HoldsDirectory.read_ne (h : fs.HoldsDirectory q) (text : String) :
    fs.read q ≠ .ok text := by
  intro hread
  obtain ⟨l, hl, hdir⟩ := h
  unfold read at hread
  obtain ⟨k, hk, hread⟩ := exists_of_bind_ok hread
  cases (locate_eq_ok_iff.1 hk).2.2.2.symm.trans hl
  rw [hdir] at hread
  cases hread

theorem not_holdsDirectory_of_isFile (h : fs.isFile q = true) : ¬ fs.HoldsDirectory q := by
  rintro ⟨l, hl, hdir⟩
  obtain ⟨k, content, hk, hfile⟩ := isFile_iff.1 h
  cases (locate_eq_ok_iff.1 hk).2.2.2.symm.trans hl
  rw [hdir] at hfile
  cases hfile

end FileSystem

section Found

variable {fs : FileSystem} {extension : String} {p q : Path} {paths files : List Path}

/-- What is found for a path is the file itself, or what a search below a directory finds. -/
theorem mem_of_filesAt {found : List Path} (h : filesAt fs extension p = .ok found)
    (hq : q ∈ found) : (fs.isFile p = true ∧ q = p) ∨ (fs.isDirectory p = true ∧
      ∃ pattern, Pattern.parse (searchPattern p extension) = .ok pattern ∧ q ∈ fs.search pattern) := by
  unfold filesAt at h
  split at h
  · rename_i hfile
    cases h
    exact .inl ⟨hfile, List.mem_singleton.1 hq⟩
  split at h
  · rename_i hdir
    split at h
    · rename_i pattern hparse
      cases h
      exact .inr ⟨hdir, pattern, hparse, hq⟩
    · cases h
  · cases h

/-- If a discovery succeeds, the search at every path does, and all that is found is sorted and
without repetitions. -/
theorem discover_eq_ok (h : discover fs paths extension = .ok files) :
    ∃ found, paths.mapM (filesAt fs extension) = .ok found ∧
      files = Path.sortUnique found.flatten := by
  obtain ⟨found, hfound, h⟩ := exists_of_bind_ok h
  refine ⟨found, hfound, ?_⟩
  change (if found.flatten.isEmpty then _ else Except.ok (Path.sortUnique found.flatten)) = _ at h
  split at h
  · cases h
  · cases h
    rfl

theorem exists_filesAt_of_mem (h : discover fs paths extension = .ok files) (hq : q ∈ files) :
    ∃ p ∈ paths, ∃ found, filesAt fs extension p = .ok found ∧ q ∈ found := by
  obtain ⟨found, hfound, rfl⟩ := discover_eq_ok h
  obtain ⟨found', hfound', hq⟩ := List.mem_flatten.1 (Path.mem_of_mem_sortUnique hq)
  obtain ⟨p, hp, hfiles⟩ := exists_of_mapM_ok hfound hfound'
  exact ⟨p, hp, found', hfiles, hq⟩

/-- Everything that is found at a path is discovered, in some spelling. -/
theorem exists_same_of_filesAt (h : discover fs paths extension = .ok files) (hp : p ∈ paths)
    {found : List Path} (hfound : filesAt fs extension p = .ok found) (hq : q ∈ found) :
    ∃ r ∈ files, r.same q = true := by
  obtain ⟨all, hall, rfl⟩ := discover_eq_ok h
  exact Path.exists_mem_sortUnique
    (List.mem_flatten.2 ⟨found, mem_of_mapM_ok hall hp hfound, hq⟩)

/-- Every path found leads to an entry. -/
theorem exists_leads_of_mem (h : fs.IsTree) (hfiles : discover fs paths extension = .ok files)
    (hq : q ∈ files) : ∃ l e, fs.Leads q l ∧ fs.entry? l = some e ∧ q.text ≠ "" := by
  obtain ⟨p, hp, found, hfound, hq⟩ := exists_filesAt_of_mem hfiles hq
  rcases mem_of_filesAt hfound hq with ⟨hfile, rfl⟩ | ⟨-, pattern, hparse, hq⟩
  · obtain ⟨l, content, hl, hcontent⟩ := FileSystem.isFile_iff.1 hfile
    obtain ⟨-, hempty, -, hleads⟩ := FileSystem.locate_eq_ok_iff.1 hl
    exact ⟨l, _, hleads, hcontent, hempty⟩
  · obtain ⟨g, hg, rfl⟩ := h.sound_of_mem_search hparse hq
    obtain ⟨e, he⟩ := Option.isSome_iff_exists.1 hg.present
    exact ⟨g.location, e, hg.leads, he, hg.nonempty⟩

/-- What is discovered in a tree is a directory or a file, unless its path is too long to be
followed. -/
theorem holdsDirectory_or_isFile_of_mem (h : fs.IsTree)
    (hfiles : discover fs paths extension = .ok files) (hq : q ∈ files) :
    fs.HoldsDirectory q ∨ fs.isFile q = true ∨ pathLimit < q.text.utf8ByteSize := by
  obtain ⟨l, e, hl, he, hempty⟩ := exists_leads_of_mem h hfiles hq
  cases e with
  | directory => exact .inl ⟨l, hl, he⟩
  | file content =>
    by_cases hlong : pathLimit < q.text.utf8ByteSize
    · exact .inr (.inr hlong)
    · have hlocate := h.locate_of_leads hl hempty (Nat.not_lt.1 hlong)
      exact .inr (.inl (FileSystem.isFile_iff.2 ⟨l, content, hlocate, he⟩))

/-- A directory among the files was found by the search below a directory. -/
theorem holdsDirectory_mem_iff (h : fs.IsTree) (hfiles : discover fs paths extension = .ok files) :
    (∃ q ∈ files, fs.HoldsDirectory q) ↔ ∃ p ∈ paths, fs.isDirectory p = true ∧ ∃ pattern,
      Pattern.parse (searchPattern p extension) = .ok pattern ∧
        ∃ q ∈ fs.search pattern, fs.HoldsDirectory q := by
  constructor
  · rintro ⟨q, hq, hholds⟩
    obtain ⟨p, hp, found, hfound, hq⟩ := exists_filesAt_of_mem hfiles hq
    rcases mem_of_filesAt hfound hq with ⟨hfile, rfl⟩ | ⟨hdir, pattern, hparse, hq⟩
    · exact absurd hholds (FileSystem.not_holdsDirectory_of_isFile hfile)
    · exact ⟨p, hp, hdir, pattern, hparse, q, hq, hholds⟩
  · rintro ⟨p, hp, hdir, pattern, hparse, q, hq, l, hl, hentry⟩
    obtain ⟨r, hr, hsame⟩ :=
      exists_same_of_filesAt hfiles hp (filesAt_of_isDirectory hdir hparse) hq
    obtain ⟨k, -, hk, -, -⟩ := exists_leads_of_mem h hfiles hr
    cases hk.eq_of_same hl hsame
    exact ⟨r, hr, l, hk, hentry⟩

/-- If every character of the extension stands for itself, the directories among the files are those
whose own names end in it. -/
theorem holdsDirectory_search_iff (h : fs.IsTree) (hplain : Pattern.IsPlain extension)
    {l : Location} (hl : fs.locate p = .ok l) {pattern : Pattern}
    (hparse : Pattern.parse (searchPattern p extension) = .ok pattern) :
    (∃ q ∈ fs.search pattern, fs.HoldsDirectory q) ↔ ¬ p.Stalls ∧ ∃ names name,
      fs.entry? (l ++ (names ++ [name])) = some .directory ∧
        '.' :: extension.toList <:+ name.toList := by
  obtain ⟨-, -, -, hleads⟩ := FileSystem.locate_eq_ok_iff.1 hl
  constructor
  · rintro ⟨q, hq, k, hk, hdir⟩
    obtain ⟨hmoves, names, name, -, hends, htrail⟩ :=
      (FileSystem.exists_mem_search_iff h hl hplain hparse).1 ⟨q, hq, rfl⟩
    cases hleads.eq_append hk htrail
    exact ⟨hmoves, names, name, hdir, hends⟩
  · rintro ⟨hmoves, names, name, hdir, hends⟩
    obtain ⟨q, hq, htrail⟩ := (FileSystem.exists_mem_search_iff h hl hplain hparse).2
      ⟨hmoves, names, name, by rw [hdir]; rfl, hends, rfl⟩
    obtain ⟨g, hg, rfl⟩ := h.sound_of_mem_search hparse hq
    refine ⟨g.shown, hq, g.location, hg.leads, ?_⟩
    rw [hleads.eq_append hg.leads htrail]
    exact hdir

/-- Of a plain extension, the name of the directory itself decides. -/
theorem holdsDirectory_mem_iff_of_isPlain (h : fs.IsTree) (hplain : Pattern.IsPlain extension)
    (hfiles : discover fs paths extension = .ok files) :
    (∃ q ∈ files, fs.HoldsDirectory q) ↔ ∃ p ∈ paths, ¬ p.Stalls ∧ ∃ l names name,
      fs.locate p = .ok l ∧ fs.entry? (l ++ (names ++ [name])) = some .directory ∧
        '.' :: extension.toList <:+ name.toList := by
  rw [holdsDirectory_mem_iff h hfiles]
  constructor
  · rintro ⟨p, hp, hdir, pattern, hparse, hsearch⟩
    obtain ⟨l, hl, -⟩ := FileSystem.isDirectory_iff.1 hdir
    obtain ⟨hmoves, names, name, hentry, hends⟩ :=
      (holdsDirectory_search_iff h hplain hl hparse).1 hsearch
    exact ⟨p, hp, hmoves, l, names, name, hl, hentry, hends⟩
  · rintro ⟨p, hp, hmoves, l, names, name, hl, hentry, hends⟩
    have hsome : (fs.entry? (l ++ (names ++ [name]))).isSome = true := by
      rw [hentry]
      rfl
    have habove := h.directory_above (by simp) hsome
    have hparse := Pattern.parse_searchPattern hplain (FileSystem.locate_eq_ok_iff.1 hl).2.1
    exact ⟨p, hp, FileSystem.isDirectory_iff.2 ⟨l, hl, habove⟩, _, hparse,
      (holdsDirectory_search_iff h hplain hl hparse).2 ⟨hmoves, names, name, hentry, hends⟩⟩

/-- A directory among the files ends the run. -/
theorem exitCode_of_holdsDirectory {env : Environment} {o : Options} (print color : Bool)
    (htargets : parseTargets fs env o.config paths = .ok files) (hq : q ∈ files)
    (hholds : fs.HoldsDirectory q) :
    ((Invocation.mk (.parse paths print) o).run fs env color).exitCode = 1 := by
  have hunreadable : ¬ ∀ f ∈ files, (fs.read f).isOk = true := by
    intro hall
    cases hread : fs.read q with
    | ok text => exact hholds.read_ne text hread
    | error e =>
      have := hall q hq
      rw [hread] at this
      cases this
  obtain ⟨before, g, after, reason, rfl, hbefore, hg⟩ := exists_first_unreadable hunreadable
  obtain ⟨text, hread⟩ := FileSystem.exists_text hbefore
  rw [Invocation.run_parse_of_unreadable htargets hread hg]

/-- What is found is a directory or a file, or its path is too long to be used. There is a directory
in it if and only if a search finds one, which with a plain extension is decided by the names of the
directories below the paths; and then every run over the files fails. -/
theorem discover_directory_iff (h : fs.IsTree) (hfiles : discover fs paths extension = .ok files) :
    (∀ q ∈ files,
      fs.HoldsDirectory q ∨ fs.isFile q = true ∨ pathLimit < q.text.utf8ByteSize) ∧
    ((∃ q ∈ files, fs.HoldsDirectory q) ↔ ∃ p ∈ paths, fs.isDirectory p = true ∧ ∃ pattern,
      Pattern.parse (searchPattern p extension) = .ok pattern ∧
        ∃ q ∈ fs.search pattern, fs.HoldsDirectory q) ∧
    (Pattern.IsPlain extension →
      ((∃ q ∈ files, fs.HoldsDirectory q) ↔ ∃ p ∈ paths, ¬ p.Stalls ∧ ∃ l names name,
        fs.locate p = .ok l ∧ fs.entry? (l ++ (names ++ [name])) = some .directory ∧
          '.' :: extension.toList <:+ name.toList)) ∧
    ∀ env (o : Options) targets print color, parseTargets fs env o.config targets = .ok files →
      (∃ q ∈ files, fs.HoldsDirectory q) →
      ((Invocation.mk (.parse targets print) o).run fs env color).exitCode = 1 := by
  refine ⟨fun q hq => holdsDirectory_or_isFile_of_mem h hfiles hq, holdsDirectory_mem_iff h hfiles,
    fun hplain => holdsDirectory_mem_iff_of_isPlain h hplain hfiles, ?_⟩
  rintro env o targets print color htargets ⟨q, hq, hholds⟩
  exact exitCode_of_holdsDirectory print color htargets hq hholds

end Found

/-- A directory with a file, and with a directory that is named like one. -/
def FileSystem.nested : FileSystem :=
  (empty.addFile ⟨"schemas/a.dbml"⟩ "Table a\x7b\x7d".toUTF8).addFile
    ⟨"schemas/old.dbml/notes.txt"⟩ "".toUTF8

theorem mapM_filesAt_nested : [Path.mk "schemas/"].mapM (filesAt .nested "dbml") =
    .ok [[⟨"schemas/a.dbml"⟩, ⟨"schemas/old.dbml"⟩]] := by
  decide +kernel

theorem parseTargets_nested : parseTargets .nested {} none [] =
    .ok ([⟨"schemas/a.dbml"⟩] ++ ⟨"schemas/old.dbml"⟩ :: []) := by
  have hsettings : Settings.load .nested {} none = .ok {} := by
    decide +kernel
  exact parseTargets_of_perm hsettings _ mapM_filesAt_nested (.refl _) (by decide +kernel) (by simp)

/-- The directory is not empty, and it is still among the files. -/
theorem discover_directory_iff_nested :
    let files := [Path.mk "schemas/a.dbml", ⟨"schemas/old.dbml"⟩]
    FileSystem.nested.IsTree ∧ discover .nested [⟨"schemas/"⟩] "dbml" = .ok files ∧
      (∃ q ∈ files, FileSystem.nested.HoldsDirectory q) ∧
      ((Invocation.mk (.parse [] true) {}).run .nested {} true).exitCode = 1 := by
  intro files
  have htree : FileSystem.nested.IsTree := by
    decide +kernel
  have hfiles : discover .nested [⟨"schemas/"⟩] "dbml" = .ok files :=
    discover_of_perm mapM_filesAt_nested (.refl _) (by decide +kernel) (by simp [files])
  obtain ⟨-, -, hplain, hrun⟩ := discover_directory_iff htree hfiles
  have hholds := (hplain (by decide)).2 ⟨⟨"schemas/"⟩, by simp, by decide, ["work", "schemas"], [],
    "old.dbml", by decide +kernel, rfl, by decide⟩
  exact ⟨htree, hfiles, hholds, hrun {} {} [] true true parseTargets_nested hholds⟩

/-- A directory is among the files; it cannot be read, and the run fails. -/
theorem Invocation.parse_reads_directory :
    let outcome := (mk (.parse [] false) { format := .plain }).run .nested {} false
    parseTargets .nested {} none [] = .ok [⟨"schemas/a.dbml"⟩, ⟨"schemas/old.dbml"⟩] ∧
      FileSystem.nested.isDirectory ⟨"schemas/old.dbml"⟩ = true ∧
      FileSystem.nested.isFile ⟨"schemas/old.dbml"⟩ = false ∧
      outcome.exitCode = 1 ∧ outcome.output.stderr =
        "error\tIO error for schemas/old.dbml: Is a directory (os error 21)\n" := by
  intro outcome
  have hread : ∀ f ∈ [Path.mk "schemas/a.dbml"],
      FileSystem.nested.read f = .ok ((FileSystem.nested.read f).toOption.getD "") := by
    decide +kernel
  have hdirectory : FileSystem.nested.read ⟨"schemas/old.dbml"⟩ = .error .isADirectory := by
    decide +kernel
  have houtcome : outcome = _ := run_parse_plain_unreadable (o := { format := .plain })
    parseTargets_nested hread hdirectory false rfl
  refine ⟨parseTargets_nested, by decide +kernel, by decide +kernel, ?_⟩
  rw [houtcome]
  decide +kernel

end Dbml
