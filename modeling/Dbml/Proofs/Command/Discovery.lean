import Dbml.Proofs.Command.Below
import Dbml.Proofs.Command.Visits

/-!
# What is found

What a path stands for is said without a search (`StandsFor`): a file stands for itself, a directory
for entries below it. Discovery finds what its paths stand for, whatever their order and number, and
fails only if there is nothing to find (`discover_finds`). The exception is a directory whose path
stalls; nothing is found below it (`discover_stalls_at_dot`).
-/

namespace Dbml

/-! ## What a path stands for -/

/-- What a path stands for: a file for itself, a directory for the entries at any depth below it
whose names end in a dot and the extension. -/
inductive StandsFor (fs : FileSystem) (extension : String) (p q : Path) : Prop where
  | itself (hfile : fs.isFile p = true) (hsame : p.same q = true)
  | entry {l : Location} {names : List String} {name : String} (hl : fs.locate p = .ok l)
    (hentry : (fs.entry? (l ++ (names ++ [name]))).isSome = true)
    (hname : '.' :: extension.toList <:+ name.toList)
    (htrail : q.components = p.course ++ (names ++ [name]).map .name)

/-- What a path gives: what it stands for, unless it is a directory whose path stalls. -/
structure Gives (fs : FileSystem) (extension : String) (p q : Path) : Prop where
  stands : StandsFor fs extension p q
  moves : ¬ (fs.isDirectory p = true ∧ p.Stalls)

/-- The path leads to a file or to a directory. -/
def FileSystem.Knows (fs : FileSystem) (p : Path) : Prop :=
  fs.isFile p = true ∨ fs.isDirectory p = true

/-- How discovery fails: with the first path that leads neither to a file nor to a directory; or, if
there is none and no path gives anything, with the first of all. -/
inductive Missing (fs : FileSystem) (extension : String) (paths : List Path) : Failure → Prop where
  | path {before after : List Path} {p : Path} (hpaths : paths = before ++ p :: after)
    (hbefore : ∀ q ∈ before, fs.Knows q) (hp : ¬ fs.Knows p) :
    Missing fs extension paths (.nothingFound p extension)
  | entries {p : Path} (hall : ∀ q ∈ paths, fs.Knows q)
    (hnone : ¬ ∃ q ∈ paths, ∃ r, Gives fs extension q r) (hhead : paths.head? = some p) :
    Missing fs extension paths (.nothingFound p extension)

/-- The paths that are found for one path. -/
def foundAt (fs : FileSystem) (extension : String) (p : Path) : List Path :=
  (filesAt fs extension p).toOption.getD []

section Found

variable {fs : FileSystem} {extension : String} {p : Path}

theorem filesAt_of_isFile (h : fs.isFile p = true) : filesAt fs extension p = .ok [p] := if_pos h

theorem not_isFile_of_isDirectory (h : fs.isDirectory p = true) : ¬ fs.isFile p = true := by
  rw [FileSystem.isFile_iff]
  obtain ⟨l, hl, hdir⟩ := FileSystem.isDirectory_iff.1 h
  rintro ⟨k, content, hk, hfile⟩
  cases hl.symm.trans hk
  rw [hdir] at hfile
  cases hfile

theorem filesAt_of_isDirectory (h : fs.isDirectory p = true) {pattern : Pattern}
    (hparse : Pattern.parse (searchPattern p extension) = .ok pattern) :
    filesAt fs extension p = .ok (fs.search pattern) := by
  rw [filesAt, if_neg (not_isFile_of_isDirectory h), if_pos h, hparse]

theorem filesAt_of_not_knows (h : ¬ fs.Knows p) :
    filesAt fs extension p = .error (.nothingFound p extension) := by
  obtain ⟨hfile, hdir⟩ := not_or.1 h
  rw [filesAt, if_neg hfile, if_neg hdir]

/-- What is found at a known path is what the path gives, up to the spelling. -/
theorem filesAt_eq_ok (h : fs.IsTree) (hplain : Pattern.IsPlain extension) (hp : fs.Knows p) :
    filesAt fs extension p = .ok (foundAt fs extension p) ∧
      ∀ q : Path, (∃ r ∈ foundAt fs extension p, r.same q = true) ↔ Gives fs extension p q := by
  by_cases hdir : fs.isDirectory p = true
  · obtain ⟨l, hl, hentry⟩ := FileSystem.isDirectory_iff.1 hdir
    obtain ⟨pattern, hparse⟩ : ∃ pattern, Pattern.parse (searchPattern p extension) = .ok pattern :=
      ⟨_, Pattern.parse_searchPattern hplain (FileSystem.locate_eq_ok_iff.1 hl).2.1⟩
    have hfound := filesAt_of_isDirectory hdir hparse
    rw [foundAt, hfound]
    refine ⟨rfl, fun q => ?_⟩
    simp only [Except.toOption, Option.getD_some, Path.same_iff]
    rw [FileSystem.exists_mem_search_iff h hl hplain hparse]
    constructor
    · rintro ⟨hmoves, names, name, hsome, hends, htrail⟩
      exact ⟨.entry hl hsome hends htrail, fun hstalls => hmoves hstalls.2⟩
    · rintro ⟨⟨hfile, -⟩ | ⟨hk, hsome, hends, htrail⟩, hmoves⟩
      · exact absurd hfile (not_isFile_of_isDirectory hdir)
      · cases hl.symm.trans hk
        exact ⟨fun hstalls => hmoves ⟨hdir, hstalls⟩, _, _, hsome, hends, htrail⟩
  · have hfile := hp.resolve_right hdir
    obtain ⟨l, content, hl, hcontent⟩ := FileSystem.isFile_iff.1 hfile
    rw [foundAt, filesAt_of_isFile hfile]
    refine ⟨rfl, fun q => ?_⟩
    simp only [Except.toOption, Option.getD_some, List.mem_singleton, exists_eq_left]
    refine ⟨fun hsame => ⟨.itself hfile hsame, fun hstalls => hdir hstalls.1⟩, ?_⟩
    rintro ⟨⟨-, hsame⟩ | ⟨hk, hsome, -, -⟩, -⟩
    · exact hsame
    · cases hl.symm.trans hk
      rw [h.directory_above (by simp) hsome] at hcontent
      cases hcontent

/-! ## All paths together -/

variable {paths before after : List Path}

/-- Where every path is known, the discovery fails only if nothing at all is found. -/
theorem discover_of_forall (h : ∀ p ∈ paths, filesAt fs extension p = .ok (foundAt fs extension p)) :
    discover fs paths extension =
      if (paths.flatMap (foundAt fs extension)).isEmpty then
        .error (.nothingFound (paths.head?.getD ⟨"schemas/"⟩) extension)
      else .ok (Path.sortUnique (paths.flatMap (foundAt fs extension))) := by
  rw [discover, mapM_of_ok h, List.flatMap_def]
  rfl

/-- The first path that is not known is the one that is reported. -/
theorem discover_of_first
    (h : ∀ p ∈ before, filesAt fs extension p = .ok (foundAt fs extension p))
    (hp : ¬ fs.Knows p) :
    discover fs (before ++ p :: after) extension = .error (.nothingFound p extension) := by
  rw [discover, List.mapM_append, mapM_of_ok h, List.mapM_cons, filesAt_of_not_knows hp]
  rfl

theorem exists_first_not_knows (fs : FileSystem) (paths : List Path) :
    (∀ p ∈ paths, fs.Knows p) ∨ ∃ before p after, paths = before ++ p :: after ∧
      (∀ q ∈ before, fs.Knows q) ∧ ¬ fs.Knows p := by
  have hknows (p : Path) : (!(fs.isFile p || fs.isDirectory p)) = true ↔ ¬ fs.Knows p := by
    rw [FileSystem.Knows, ← Bool.or_eq_true, Bool.not_eq_true', Bool.not_eq_true]
  cases hfind : paths.find? fun p => !(fs.isFile p || fs.isDirectory p) with
  | none =>
    left
    intro p hp
    exact not_not.1 ((hknows p).not.1 (List.find?_eq_none.1 hfind p hp))
  | some p =>
    right
    obtain ⟨hp, before, after, hpaths, hbefore⟩ := List.find?_eq_some_iff_append.1 hfind
    refine ⟨before, p, after, hpaths, fun q hq => ?_, (hknows p).1 hp⟩
    simpa [FileSystem.Knows] using hbefore q hq

section Plain

variable (h : fs.IsTree) (hplain : Pattern.IsPlain extension)
include h hplain

theorem filesAt_of_forall (hall : ∀ p ∈ paths, fs.Knows p) :
    ∀ p ∈ paths, filesAt fs extension p = .ok (foundAt fs extension p) :=
  fun p hp => (filesAt_eq_ok h hplain (hall p hp)).1

theorem exists_mem_flatMap_iff (hall : ∀ p ∈ paths, fs.Knows p) {q : Path} :
    (∃ r ∈ paths.flatMap (foundAt fs extension), r.same q = true) ↔
      ∃ p ∈ paths, Gives fs extension p q := by
  simp only [List.mem_flatMap]
  constructor
  · rintro ⟨r, ⟨p, hp, hr⟩, hsame⟩
    exact ⟨p, hp, ((filesAt_eq_ok h hplain (hall p hp)).2 q).1 ⟨r, hr, hsame⟩⟩
  · rintro ⟨p, hp, hgives⟩
    obtain ⟨r, hr, hsame⟩ := ((filesAt_eq_ok h hplain (hall p hp)).2 q).2 hgives
    exact ⟨r, ⟨p, hp, hr⟩, hsame⟩

theorem isEmpty_flatMap_iff (hall : ∀ p ∈ paths, fs.Knows p) :
    (paths.flatMap (foundAt fs extension)).isEmpty = true ↔
      ¬ ∃ p ∈ paths, ∃ q, Gives fs extension p q := by
  rw [List.isEmpty_iff, List.eq_nil_iff_forall_not_mem]
  constructor
  · rintro hnone ⟨p, hp, q, hgives⟩
    obtain ⟨r, hr, -⟩ := (exists_mem_flatMap_iff h hplain hall).2 ⟨p, hp, hgives⟩
    exact hnone r hr
  · intro hnone r hr
    obtain ⟨p, hp, hgives⟩ :=
      (exists_mem_flatMap_iff h hplain hall).1 ⟨r, hr, Path.same_iff.2 rfl⟩
    exact hnone ⟨p, hp, r, hgives⟩

theorem discover_eq_ok_iff {files : List Path} : discover fs paths extension = .ok files ↔
    (∀ p ∈ paths, fs.Knows p) ∧ (∃ p ∈ paths, ∃ q, Gives fs extension p q) ∧
      files = Path.sortUnique (paths.flatMap (foundAt fs extension)) := by
  rcases exists_first_not_knows fs paths with hall | ⟨before, p, after, rfl, hbefore, hp⟩
  · rw [discover_of_forall (filesAt_of_forall h hplain hall), and_iff_right hall]
    split
    · rename_i hempty
      simp [(isEmpty_flatMap_iff h hplain hall).1 hempty]
    · rename_i hsome
      rw [isEmpty_flatMap_iff h hplain hall, not_not] at hsome
      simp [hsome, eq_comm]
  · rw [discover_of_first (filesAt_of_forall h hplain hbefore) hp]
    constructor
    · nofun
    · rintro ⟨hall, -⟩
      exact absurd (hall p (by simp)) hp

/-- When a discovery fails, and how. -/
theorem discover_eq_error_iff (hne : paths ≠ []) {failure : Failure} :
    discover fs paths extension = .error failure ↔ Missing fs extension paths failure := by
  constructor
  · intro hfailure
    rcases exists_first_not_knows fs paths with hall | ⟨before, p, after, hpaths, hbefore, hp⟩
    · obtain ⟨p, hhead⟩ : ∃ p, paths.head? = some p := ⟨_, List.head?_eq_some_head hne⟩
      rw [discover_of_forall (filesAt_of_forall h hplain hall), hhead] at hfailure
      split at hfailure
      · rename_i hempty
        cases hfailure
        exact .entries hall ((isEmpty_flatMap_iff h hplain hall).1 hempty) hhead
      · cases hfailure
    · rw [hpaths, discover_of_first (filesAt_of_forall h hplain hbefore) hp] at hfailure
      cases hfailure
      exact .path hpaths hbefore hp
  · rintro (⟨hpaths, hbefore, hp⟩ | ⟨hall, hnone, hhead⟩)
    · rw [hpaths, discover_of_first (filesAt_of_forall h hplain hbefore) hp]
    · rw [discover_of_forall (filesAt_of_forall h hplain hall),
        if_pos ((isEmpty_flatMap_iff h hplain hall).2 hnone), hhead]
      rfl

/-- What is discovered is what the paths give, up to the spelling. -/
theorem exists_mem_discover_iff {files : List Path}
    (hfiles : discover fs paths extension = .ok files) {q : Path} :
    (∃ r ∈ files, r.same q = true) ↔ ∃ p ∈ paths, Gives fs extension p q := by
  obtain ⟨hall, -, rfl⟩ := (discover_eq_ok_iff h hplain).1 hfiles
  rw [← exists_mem_flatMap_iff h hplain hall]
  constructor
  · rintro ⟨r, hr, hsame⟩
    exact ⟨r, Path.mem_of_mem_sortUnique hr, hsame⟩
  · rintro ⟨r, hr, hsame⟩
    obtain ⟨r', hr', hsame'⟩ := Path.exists_mem_sortUnique hr
    exact ⟨r', hr', Path.same_iff.2 ((Path.same_iff.1 hsame').trans (Path.same_iff.1 hsame))⟩

/-- With more paths, no file is lost. -/
theorem components_subset {paths' files files' : List Path}
    (hfiles : discover fs paths extension = .ok files)
    (hfiles' : discover fs paths' extension = .ok files') (hpaths : ∀ p ∈ paths, p ∈ paths') :
    ∀ cs ∈ files.map Path.components, cs ∈ files'.map Path.components := by
  intro cs hcs
  obtain ⟨q, hq, rfl⟩ := List.mem_map.1 hcs
  obtain ⟨p, hp, hgives⟩ :=
    (exists_mem_discover_iff h hplain hfiles).1 ⟨q, hq, Path.same_iff.2 rfl⟩
  obtain ⟨r, hr, hsame⟩ := (exists_mem_discover_iff h hplain hfiles').2 ⟨p, hpaths p hp, hgives⟩
  exact List.mem_map.2 ⟨r, hr, Path.same_iff.1 hsame⟩

/-- What is found depends on which paths there are, and not on their order or number. -/
theorem discover_of_mem_iff {paths' files : List Path} (hpaths : ∀ p, p ∈ paths' ↔ p ∈ paths)
    (hfiles : discover fs paths extension = .ok files) :
    ∃ files', discover fs paths' extension = .ok files' ∧
      files'.map Path.components = files.map Path.components := by
  obtain ⟨hall, ⟨p, hp, hgives⟩, -⟩ := (discover_eq_ok_iff h hplain).1 hfiles
  have hfiles' := (discover_eq_ok_iff h hplain).2
    ⟨fun p hp => hall p ((hpaths p).1 hp), ⟨p, (hpaths p).2 hp, hgives⟩, rfl⟩
  refine ⟨_, hfiles', Path.map_components_eq (pairwise_of_discover hfiles')
    (pairwise_of_discover hfiles) fun cs => ⟨?_, ?_⟩⟩
  · exact components_subset h hplain hfiles' hfiles (fun p => (hpaths p).1) cs
  · exact components_subset h hplain hfiles hfiles' (fun p => (hpaths p).2) cs

/-- Discovery finds a set: in strict order, what the paths give, however they are ordered or
repeated. It fails only if there is nothing to find. -/
theorem discover_finds (hne : paths ≠ []) :
    (∀ files, discover fs paths extension = .ok files →
      files.Pairwise (fun p q => compare p q = .lt) ∧
      (∀ q, (∃ r ∈ files, r.same q = true) ↔ ∃ p ∈ paths, Gives fs extension p q) ∧
      ∀ paths', (∀ p, p ∈ paths' ↔ p ∈ paths) → ∃ files',
        discover fs paths' extension = .ok files' ∧
        files'.map Path.components = files.map Path.components) ∧
    ∀ failure, discover fs paths extension = .error failure ↔
      Missing fs extension paths failure := by
  refine ⟨fun files hfiles => ⟨pairwise_of_discover hfiles, fun q => ?_, fun paths' hpaths => ?_⟩,
    fun failure => discover_eq_error_iff h hplain hne⟩
  · exact exists_mem_discover_iff h hplain hfiles
  · exact discover_of_mem_iff h hplain hpaths hfiles

end Plain

end Found

/-- A directory whose name is written like a pattern, with one more directory in it. -/
def FileSystem.bracketed : FileSystem :=
  ((empty.addFile ⟨"a[1]/x.dbml"⟩ "".toUTF8).addFile ⟨"a[1]/b/y.dbml"⟩ "".toUTF8).addFile
    ⟨"z.txt"⟩ "".toUTF8

/-- The name of the directory stands for itself, and giving it twice changes nothing. -/
theorem discover_finds_bracketed : FileSystem.bracketed.IsTree ∧ Pattern.IsPlain "dbml" ∧
    ∃ files, discover .bracketed [⟨"a[1]/"⟩, ⟨"z.txt"⟩, ⟨"a[1]/"⟩] "dbml" = .ok files ∧
      files.map Path.components = [[.name "a[1]", .name "b", .name "y.dbml"],
        [.name "a[1]", .name "x.dbml"], [.name "z.txt"]] := by
  have htree : FileSystem.bracketed.IsTree := by
    decide +kernel
  have hplain : Pattern.IsPlain "dbml" := by
    decide
  have hfound : [Path.mk "z.txt", ⟨"a[1]/"⟩].mapM (filesAt .bracketed "dbml") =
      .ok [[⟨"z.txt"⟩], [⟨"a[1]/x.dbml"⟩, ⟨"a[1]/b/y.dbml"⟩]] := by
    decide +kernel
  have hfiles : discover .bracketed [⟨"z.txt"⟩, ⟨"a[1]/"⟩] "dbml" =
      .ok [⟨"a[1]/b/y.dbml"⟩, ⟨"a[1]/x.dbml"⟩, ⟨"z.txt"⟩] :=
    discover_of_perm hfound (by decide) (by decide +kernel) (by simp)
  obtain ⟨hfinds, -⟩ := discover_finds htree hplain (List.cons_ne_nil _ _)
  obtain ⟨-, -, hsame⟩ := hfinds _ hfiles
  obtain ⟨files, hfiles', htrail⟩ := hsame [⟨"a[1]/"⟩, ⟨"z.txt"⟩, ⟨"a[1]/"⟩] (by simp)
  refine ⟨htree, hplain, files, hfiles', htrail.trans ?_⟩
  decide +kernel

/-- The working directory is not searched if a slash stands after its dot. -/
theorem discover_stalls_at_dot :
    let fs := FileSystem.empty.addFile ⟨"a.dbml"⟩ "".toUTF8
    fs.IsTree ∧ fs.isDirectory ⟨"./"⟩ = true ∧ StandsFor fs "dbml" ⟨"./"⟩ ⟨"a.dbml"⟩ ∧
      discover fs [⟨"./"⟩] "dbml" = .error (.nothingFound ⟨"./"⟩ "dbml") := by
  intro fs
  have hl : fs.locate ⟨"./"⟩ = .ok ["work"] := by
    decide +kernel
  have hentry : (fs.entry? (["work"] ++ ([] ++ ["a.dbml"]))).isSome = true := rfl
  exact ⟨by decide +kernel, by decide +kernel, .entry hl hentry (by decide) (by decide),
    by decide +kernel⟩

end Dbml
