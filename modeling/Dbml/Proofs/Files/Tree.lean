import Dbml.Files.System
import Dbml.Proofs.Files.Path
import Mathlib.Tactic.MkIffOfInductiveProp

/-!
# Trees of files

In a tree of files every entry has a directory above it (`FileSystem.IsTree`), so every step on the
way to it can be taken (`FileSystem.IsTree.step_name`). Where a path leads to (`FileSystem.Leads`)
is determined by what it says (`FileSystem.Leads.eq_foldl`), and a path that leads somewhere can be
used unless it is too long (`FileSystem.IsTree.locate_of_leads`).
-/

namespace Dbml

/-- Where a component leads to from a location. -/
def Location.move (l : Location) : Component → Location
  | .root => []
  | .current => l
  | .parent => l.dropLast
  | .name s => l ++ [s]

/-- A segment moves a location as the component does that it is, and not at all if it is none. -/
theorem Location.go_eq (l : Location) (s : String) :
    l.go s = (Path.component? s).elim l l.move := by
  unfold go Path.component?
  split
  · rfl
  · split <;> rfl

/-- To follow the components of a path is to follow its segments: those that are no components do
not move. -/
theorem Location.foldl_move (ss : List String) (l : Location) :
    (ss.filterMap Path.component?).foldl move l = ss.foldl go l := by
  induction ss generalizing l with
  | nil => rfl
  | cons s ss ih =>
    rw [List.foldl_cons, go_eq, ← ih]
    cases hs : Path.component? s with
    | none => rw [List.filterMap_cons_none hs, Option.elim_none]
    | some c => rw [List.filterMap_cons_some hs, List.foldl_cons, Option.elim_some]

/-- A name that an entry can have. -/
@[mk_iff]
structure Entry.IsName (name : String) : Prop where
  ne_empty : name ≠ ""
  ne_dot : name ≠ "."
  ne_dots : name ≠ ".."
  no_slash : '/' ∉ name.toList
  no_nul : '\x00' ∉ name.toList
  short : name.utf8ByteSize ≤ nameLimit

namespace Entry

instance (name : String) : Decidable (IsName name) := decidable_of_iff _ (isName_iff name).symm

theorem IsName.component? {name : String} (h : IsName name) :
    Path.component? name = some (.name name) := by
  simp [Path.component?, h.ne_empty, h.ne_dot, h.ne_dots]

theorem IsName.go {name : String} (h : IsName name) (l : Location) : l.go name = l ++ [name] := by
  simp [Location.go, h.ne_empty, h.ne_dot, h.ne_dots]

instance (e : Option Entry) : Decidable (e = some .directory) :=
  match e with
  | some .directory => isTrue rfl
  | some (.file _) => isFalse nofun
  | none => isFalse nofun

end Entry

namespace FileSystem

/-- The entries are those of a tree: each is in a directory, and the working directory is one. Of
two entries at one location the first counts. -/
@[mk_iff]
structure IsTree (fs : FileSystem) : Prop where
  named : ∀ x ∈ fs.entries, ∀ name ∈ x.1, Entry.IsName name
  above : ∀ x ∈ fs.entries, fs.entry? x.1.dropLast = some .directory
  home : fs.entry? fs.workingDirectory = some .directory

instance (fs : FileSystem) : Decidable fs.IsTree := decidable_of_iff _ (isTree_iff fs).symm

variable {fs : FileSystem} {l k : Location} {p : Path}

/-! ## Entries -/

/-- There is something at a location if the tree has an entry for it. -/
theorem isSome_entry?_iff (hl : l ≠ []) : (fs.entry? l).isSome ↔ ∃ e, (l, e) ∈ fs.entries := by
  rw [ entry?, if_neg hl]
  induction fs.entries with
  | nil => simp
  | cons x xs ih =>
    obtain ⟨k, e⟩ := x
    rw [List.lookup_cons]
    by_cases h : l = k
    · subst h
      simp
    · simp [h, ih, beq_eq_false_iff_ne.2 h]

/-- What is below a location is what has a longer location that begins with it. -/
theorem mem_below_iff {names : List String} {e : Entry} :
    (names, e) ∈ fs.below l ↔ names ≠ [] ∧ (l ++ names, e) ∈ fs.entries := by
  rw [below, List.mem_filterMap]
  constructor
  · rintro ⟨⟨k, e'⟩, hmem, h⟩
    simp only [Option.ite_none_right_eq_some, Option.some.injEq, Prod.mk.injEq] at h
    obtain ⟨⟨hbegins, hlen⟩, rfl, rfl⟩ := h
    obtain ⟨names, rfl⟩ := List.isPrefixOf_iff_prefix.1 hbegins
    rw [List.drop_left]
    refine ⟨?_, hmem⟩
    rintro rfl
    simp at hlen
  · rintro ⟨hne, hmem⟩
    refine ⟨_, hmem, ?_⟩
    simpa [List.isPrefixOf_iff_prefix] using hne

/-- There is something below a location, by some names, if there is something where these names
lead. -/
theorem exists_mem_below_iff {names : List String} :
    (∃ e, (names, e) ∈ fs.below l) ↔ names ≠ [] ∧ (fs.entry? (l ++ names)).isSome := by
  by_cases hne : names = []
  · simp [mem_below_iff, hne]
  · rw [isSome_entry?_iff (by simp [hne])]
    simp [mem_below_iff, hne]

/-- The children of a location are the entries one name further down. -/
theorem mem_children_iff {name : String} {e : Entry} :
    (name, e) ∈ fs.children l ↔ (l ++ [name], e) ∈ fs.entries := by
  rw [children, List.mem_filterMap]
  constructor
  · rintro ⟨⟨names, e'⟩, hmem, h⟩
    split at h
    · rename_i heq
      cases heq
      cases h
      exact (mem_below_iff.1 hmem).2
    · cases h
  · intro h
    exact ⟨_, mem_below_iff.2 ⟨by simp, h⟩, rfl⟩

theorem exists_mem_children_iff {name : String} :
    (∃ e, (name, e) ∈ fs.children l) ↔ (fs.entry? (l ++ [name])).isSome := by
  rw [isSome_entry?_iff (by simp)]
  simp [mem_children_iff]

/-! ## Steps -/

/-- What a step needs: it starts in a directory, its segment is not too long, and there is something
where it leads. -/
theorem step_eq_ok_iff {segment : String} : fs.step l segment = .ok k ↔
    fs.entry? l = some .directory ∧ segment.utf8ByteSize ≤ nameLimit ∧ k = l.go segment ∧
      (fs.entry? k).isSome := by
  unfold step
  split
  · simp_all
  · simp_all
  · grind

/-- An empty segment and a dot stay where they are. -/
theorem step_self {s : String} (hl : fs.entry? l = some .directory) (hs : s = "" ∨ s = ".") :
    fs.step l s = .ok l := by
  refine step_eq_ok_iff.2 ⟨hl, ?_, by rw [Location.go, if_pos hs], by rw [hl]; rfl⟩
  rcases hs with rfl | rfl <;> decide

theorem foldlM_step_cons {s : String} {ss : List String} :
    (s :: ss).foldlM fs.step l = .ok k ↔
      ∃ m, fs.step l s = .ok m ∧ ss.foldlM fs.step m = .ok k := by
  rw [List.foldlM_cons]
  cases fs.step l s <;> simp [bind, Except.bind]

/-- The steps of two parts are those of the first and then those of the second. -/
theorem foldlM_step_append {ss ts : List String} :
    (ss ++ ts).foldlM fs.step l = .ok k ↔
      ∃ m, ss.foldlM fs.step l = .ok m ∧ ts.foldlM fs.step m = .ok k := by
  rw [List.foldlM_append]
  cases ss.foldlM fs.step l <;> simp [bind, Except.bind]

theorem foldlM_step_singleton {s : String} :
    [s].foldlM fs.step l = .ok k ↔ fs.step l s = .ok k := by
  rw [foldlM_step_cons]
  simp [pure, Except.pure]

/-- Where steps lead, if they lead anywhere, depends on the segments alone and not on the tree. -/
theorem eq_foldl_of_foldlM_step {ss : List String} (h : ss.foldlM fs.step l = .ok k) :
    k = ss.foldl Location.go l := by
  induction ss generalizing l with
  | nil =>
    cases h
    rfl
  | cons s ss ih =>
    obtain ⟨m, hm, hk⟩ := foldlM_step_cons.1 h
    obtain ⟨-, -, rfl, -⟩ := step_eq_ok_iff.1 hm
    exact ih hk

namespace IsTree

variable (h : fs.IsTree)
include h

theorem isName_of_mem (hl : (fs.entry? l).isSome) {name : String} (hname : name ∈ l) :
    Entry.IsName name := by
  obtain ⟨e, he⟩ := (isSome_entry?_iff (List.ne_nil_of_mem hname)).1 hl
  exact h.named _ he name hname

/-- In a tree what has something below it is a directory. -/
theorem directory_above {names : List String} (hne : names ≠ [])
    (hl : (fs.entry? (l ++ names)).isSome) : fs.entry? l = some .directory := by
  have hparent {l : Location} (name : String) (hl : (fs.entry? (l ++ [name])).isSome) :
      fs.entry? l = some .directory := by
    obtain ⟨e, he⟩ := (isSome_entry?_iff (by simp)).1 hl
    simpa using h.above _ he
  induction names generalizing l with
  | nil => exact absurd rfl hne
  | cons name names ih =>
    by_cases hnames : names = []
    · subst hnames
      exact hparent name hl
    · rw [List.append_cons] at hl
      apply hparent name
      rw [ih hnames hl]
      rfl

theorem step_name {name : String} (hl : (fs.entry? (l ++ [name])).isSome) :
    fs.step l name = .ok (l ++ [name]) := by
  have hname : Entry.IsName name := h.isName_of_mem hl (by simp)
  exact step_eq_ok_iff.2 ⟨h.directory_above (by simp) hl, hname.short, (hname.go l).symm, hl⟩

/-- A segment that leads somewhere in a tree has no null character. -/
theorem not_mem_of_step {s : String} (hstep : fs.step l s = .ok k) : '\x00' ∉ s.toList := by
  obtain ⟨-, -, rfl, hk⟩ := step_eq_ok_iff.1 hstep
  unfold Location.go at hk
  split at hk
  · rename_i hself
    rcases hself with rfl | rfl <;> decide
  split at hk
  · rename_i hup
    rw [hup]
    decide
  · exact (h.isName_of_mem hk (by simp)).no_nul

end IsTree

/-! ## Where paths lead -/

/-- The path leads to the location, however long the path is. -/
def Leads (fs : FileSystem) (p : Path) (l : Location) : Prop :=
  p.segments.foldlM fs.step (if p.isAbsolute then [] else fs.workingDirectory) = .ok l

/-- When a path can be located: its text is neither empty nor too long, has no null character, and
leads somewhere. -/
theorem locate_eq_ok_iff : fs.locate p = .ok l ↔
    '\x00' ∉ p.text.toList ∧ p.text ≠ "" ∧ p.text.utf8ByteSize ≤ pathLimit ∧ fs.Leads p l := by
  unfold locate Leads
  split
  · simp_all
  split
  · simp_all
  split
  · rename_i hlong
    simp [Nat.not_le.2 hlong]
  · simp_all

theorem isFile_iff :
    fs.isFile p ↔ ∃ l content, fs.locate p = .ok l ∧ fs.entry? l = some (.file content) := by
  rw [isFile, at?]
  cases fs.locate p with
  | error e => simp
  | ok l =>
    cases he : fs.entry? l with
    | none => simp [he]
    | some e => cases e <;> simp [he]

theorem isDirectory_iff :
    fs.isDirectory p ↔ ∃ l, fs.locate p = .ok l ∧ fs.entry? l = some .directory := by
  rw [isDirectory, at?]
  cases fs.locate p with
  | error e => simp
  | ok l =>
    cases he : fs.entry? l with
    | none => simp [he]
    | some e => cases e <;> simp [he]

theorem leads_of_step {s : String} (hs : '/' ∉ s.toList)
    (h : fs.step fs.workingDirectory s = .ok l) : fs.Leads ⟨s⟩ l := by
  rw [Leads, Path.segments_of_not_mem hs, Path.isAbsolute_of_not_mem hs]
  exact foldlM_step_singleton.2 h

namespace Leads

/-- To join one more segment is to take one more step. -/
theorem join (h : fs.Leads p l) (hp : p.text ≠ "") {s : String} (hs : '/' ∉ s.toList)
    (hstep : fs.step l s = .ok k) : fs.Leads (p.join ⟨s⟩) k := by
  obtain ⟨front, -, hfront, hjoin, habs⟩ := Path.exists_segments_join hp hs
  rw [Leads, hjoin, habs, foldlM_step_append]
  refine ⟨l, ?_, foldlM_step_singleton.2 hstep⟩
  rw [Leads] at h
  rcases hfront with hfront | hfront
  · rwa [hfront] at h
  · -- the empty piece after the last slash leads to where the pieces before it do
    rw [hfront, foldlM_step_append] at h
    obtain ⟨m, hm, hlast⟩ := h
    obtain ⟨-, -, hgo, -⟩ := step_eq_ok_iff.1 (foldlM_step_singleton.1 hlast)
    have hml : l = m := by simpa [Location.go] using hgo
    rwa [hml]

/-- Where a path leads to is in what it says. -/
theorem eq_foldl (h : fs.Leads p l) :
    l = p.components.foldl Location.move fs.workingDirectory := by
  rw [eq_foldl_of_foldlM_step h, ← Location.foldl_move, Path.components]
  split
  · rfl
  · split <;> rfl

end Leads

namespace IsTree

variable (h : fs.IsTree)
include h

theorem not_mem_of_foldlM_step {ss : List String} (hss : ss.foldlM fs.step l = .ok k) :
    ∀ s ∈ ss, '\x00' ∉ s.toList := by
  induction ss generalizing l with
  | nil => exact nofun
  | cons s ss ih =>
    obtain ⟨m, hm, hk⟩ := foldlM_step_cons.1 hss
    exact List.forall_mem_cons.2 ⟨h.not_mem_of_step hm, ih hk⟩

/-- Only its length keeps a path from being used. -/
theorem locate_of_leads (hl : fs.Leads p l) (hp : p.text ≠ "")
    (hshort : p.text.utf8ByteSize ≤ pathLimit) : fs.locate p = .ok l := by
  refine locate_eq_ok_iff.2 ⟨fun hnul => ?_, hp, hshort, hl⟩
  obtain ⟨piece, hpiece, hmem⟩ := mem_pieces_of_mem hnul (by decide)
  exact h.not_mem_of_foldlM_step hl (String.ofList piece) (List.mem_map_of_mem hpiece)
    (by simpa using hmem)

end IsTree

end FileSystem

end Dbml
