import Dbml.Command.Discovery
import Dbml.Proofs.Files.Search

/-!
# Below a directory

The pattern for the entries below a directory goes along the pieces of the directory's path,
whatever characters are in them (`Pattern.parse_searchPattern`). So all entries are found whose
names end in the right way (`FileSystem.exists_mem_search_iff`), unless the path stalls: in `./` or
`.//a` an empty piece comes before the first name.
-/

namespace Dbml

/-! ## The pieces of its path -/

namespace Path

/-- A slash that ends or doubles comes after dots only. -/
def Stalls (p : Path) : Prop :=
  p.isAbsolute = false ∧ (p.segments.dropWhile (· = ".")).head? = some ""

instance (p : Path) : Decidable p.Stalls := inferInstanceAs (Decidable (_ ∧ _))

/-- What the path says after the dot at its front, if there is one. -/
def course (p : Path) : List Component := p.components.filter (· ≠ .current)

/-- The pieces of the path that are followed one after another. -/
def steps (p : Path) : List String := if p.isAbsolute then p.segments.tail else p.segments

theorem steps_eq (p : Path) : p.steps =
    (if p.isAbsolute then (pieces p.text.toList).tail else pieces p.text.toList).map
      String.ofList := by
  unfold steps segments
  split
  · rw [List.map_tail]
  · rfl

theorem not_mem_of_mem_steps {p : Path} : ∀ s ∈ p.steps, '/' ∉ s.toList := by
  intro s hs
  unfold steps at hs
  split at hs
  · exact not_mem_of_mem_segments (List.mem_of_mem_tail hs)
  · exact not_mem_of_mem_segments hs

theorem component?_ne_current (s : String) : component? s ≠ some .current := by
  unfold component?
  split
  · simp
  · split <;> simp

/-- The course of a path: the root if it is absolute, and its segments without those that stay. -/
theorem course_eq (p : Path) :
    p.course = (if p.isAbsolute then [.root] else []) ++ p.segments.filterMap component? := by
  have hkept : (p.segments.filterMap component?).filter (· ≠ .current) =
      p.segments.filterMap component? := by
    rw [List.filter_eq_self]
    intro c hc
    obtain ⟨s, -, hs⟩ := List.mem_filterMap.1 hc
    simp only [ne_eq, decide_eq_true_eq]
    rintro rfl
    exact component?_ne_current s hs
  rw [course, components, List.filter_append, hkept]
  split
  · rfl
  · split <;> rfl

/-- The first segment of an absolute path is empty, before its slash. -/
theorem segments_of_isAbsolute {p : Path} (h : p.isAbsolute = true) :
    p.segments = "" :: p.segments.tail := by
  obtain ⟨text⟩ := p
  cases hcs : text.toList with
  | nil => simp [isAbsolute, hcs] at h
  | cons c cs =>
    have hc : c = '/' := by simpa [isAbsolute, hcs] using h
    simp [segments, hcs, pieces, hc]

end Path

/-! ## The pattern for a directory -/

namespace Pattern

/-- The pattern that a directory is searched with: the path, escaped, any levels, and names with the
extension. -/
theorem toList_searchPattern (p : Path) (extension : String) : (searchPattern p extension).toList =
    p.text.toList.flatMap Glyph.escapeChar ++
      '/' :: (['*', '*'] ++ '/' :: '*' :: '.' :: extension.toList) := by
  rw [searchPattern, String.toList_append, String.toList_append, toList_escape, List.append_assoc]
  rfl

theorem head?_escape (cs rest : List Char) (hcs : cs ≠ []) :
    ((cs.flatMap Glyph.escapeChar ++ rest).head? == some '/') = (cs.head? == some '/') := by
  obtain ⟨c, cs, rfl⟩ := List.exists_cons_of_ne_nil hcs
  rw [List.flatMap_cons, Glyph.escapeChar]
  split
  · rename_i h
    rcases h with rfl | rfl | rfl | rfl <;> rfl
  · rfl

/-- The segments of an escaped path are read as the names they are. -/
theorem mapM_read_escape (parts : List (List Char)) :
    (parts.map (·.flatMap Glyph.escapeChar)).mapM
        (fun part => (Glyph.readAll none 0 part).map PatternSegment.mk) =
      .ok ((parts.map String.ofList).map .ofName) := by
  rw [List.mapM_map, List.map_map]
  apply mapM_of_ok
  intro part _
  simp [Glyph.readAll_escape, Except.map, PatternSegment.ofName]

section Plain

variable {p : Path} {extension : String} (h : IsPlain extension)
include h

theorem IsPlain.not_isSpecial : ∀ c ∈ '.' :: extension.toList, ¬ Glyph.IsSpecial c :=
  List.forall_mem_cons.2 ⟨by decide, fun c hc => (h c hc).1⟩

theorem IsPlain.not_mem : '/' ∉ '*' :: '.' :: extension.toList := by
  simp only [List.mem_cons, not_or]
  exact ⟨by decide, by decide, fun hc => (h '/' hc).2 rfl⟩

/-- The pattern of a search does not end with a slash, so it is not restricted to directories. -/
theorem getLast?_searchPattern :
    ((searchPattern p extension).toList.getLast? == some '/') = false := by
  rw [beq_eq_false_iff_ne, toList_searchPattern]
  intro hlast
  have hend : ('*' :: '.' :: extension.toList).getLast? = some '/' := by
    simpa [List.getLast?_append] using hlast
  exact h.not_mem (List.mem_of_getLast? hend)

/-- The parts of the pattern: those of the path, escaped, and the two that are added. -/
theorem parts_searchPattern : (if p.isAbsolute = true then
      (pieces (searchPattern p extension).toList).tail
    else pieces (searchPattern p extension).toList) =
      (if p.isAbsolute = true then (pieces p.text.toList).tail else pieces p.text.toList).map
        (·.flatMap Glyph.escapeChar) ++ [['*', '*'], '*' :: '.' :: extension.toList] := by
  have hpieces : pieces (searchPattern p extension).toList =
      (pieces p.text.toList).map (·.flatMap Glyph.escapeChar) ++
        [['*', '*'], '*' :: '.' :: extension.toList] := by
    rw [toList_searchPattern, pieces_append_slash, pieces_append_slash, pieces_escape,
      pieces_of_not_mem h.not_mem]
    rfl
  rw [hpieces]
  split
  · rw [List.tail_append_of_ne_nil (by simpa using pieces_ne_nil _), List.map_tail]
  · rfl

/-- The pattern for the entries below a directory goes along the pieces of its path. -/
theorem parse_searchPattern (hp : p.text ≠ "") : parse (searchPattern p extension) = .ok {
      absolute := p.isAbsolute
      segments := p.steps.map .ofName ++ [⟨[.recursive]⟩, .ofEnd ('.' :: extension.toList)]
      directoriesOnly := false } := by
  obtain ⟨gs, hwhole⟩ := Glyph.readAll_search p.text.toList h.not_isSpecial
  rw [← toList_searchPattern] at hwhole
  have hhead : ((searchPattern p extension).toList.head? == some '/') = p.isAbsolute := by
    rw [toList_searchPattern, head?_escape _ _ (mt String.toList_eq_nil_iff.1 hp)]
    rfl
  have hend : [['*', '*'], '*' :: '.' :: extension.toList].mapM
        (fun part => (Glyph.readAll none 0 part).map PatternSegment.mk) =
      .ok [⟨[.recursive]⟩, .ofEnd ('.' :: extension.toList)] := by
    rw [List.mapM_cons, List.mapM_cons, Glyph.readAll_stars, Glyph.readAll_star h.not_isSpecial]
    rfl
  unfold parse
  simp only [hwhole, getLast?_searchPattern h, hhead, parts_searchPattern h]
  rw [if_neg Bool.false_ne_true]
  simp only [List.mapM_append]
  rw [mapM_read_escape, hend, ← Path.steps_eq]
  rfl

end Plain

end Pattern

/-! ## The entries below a directory -/

namespace FileSystem

variable {fs : FileSystem} {p q : Path} {l : Location} {extension : String}

/-- The steps of a path lead from where a search for it starts to where the path leads. -/
theorem foldlM_steps (h : fs.Leads p l) :
    p.steps.foldlM fs.step (fs.start p.isAbsolute).location = .ok l := by
  unfold Leads at h
  unfold Path.steps
  cases habs : p.isAbsolute with
  | false => simpa [habs] using h
  | true =>
    rw [habs, if_pos rfl, Path.segments_of_isAbsolute habs] at h
    obtain ⟨m, hm, hrest⟩ := foldlM_step_cons.1 h
    obtain ⟨-, -, rfl, -⟩ := step_eq_ok_iff.1 hm
    exact hrest

theorem stalls_start_iff : (fs.start p.isAbsolute).Stalls p.steps ↔ p.Stalls := by
  unfold Found.Stalls Path.Stalls Path.steps
  cases p.isAbsolute <;> simp

theorem trail_start (fs : FileSystem) (p : Path) :
    (fs.start p.isAbsolute).trail ++ p.steps.filterMap Path.component? = p.course := by
  rw [Path.course_eq, Path.steps]
  cases habs : p.isAbsolute with
  | false => rfl
  | true =>
    have hroot : (fs.start true).trail = [.root] := by
      rw [start_true]
      decide
    rw [hroot, Path.segments_of_isAbsolute habs]
    rfl

/-- The entries that a search below a directory goes through. -/
theorem mem_search_searchPattern_iff (hl : fs.locate p = .ok l) (hplain : Pattern.IsPlain extension)
    {pattern : Pattern} (hparse : Pattern.parse (searchPattern p extension) = .ok pattern) :
    q ∈ fs.search pattern ↔ ∃ f, p.steps.foldlM fs.follow (fs.start p.isAbsolute) = some f ∧
      ∃ names e, (names, e) ∈ fs.below f.location ∧
        '.' :: extension.toList <:+ (names.getLastD "").toList ∧ (f.descend names).shown = q := by
  obtain ⟨-, hempty, -, hleads⟩ := locate_eq_ok_iff.1 hl
  rw [Pattern.parse_searchPattern hplain hempty] at hparse
  cases hparse
  rw [mem_search_iff]
  simp only [Bool.false_eq_true, false_implies, true_and]
  have hexpand {g : Found} : g ∈ fs.expand (p.steps.map .ofName ++
      [⟨[.recursive]⟩, .ofEnd ('.' :: extension.toList)]) (fs.start p.isAbsolute) ↔ _ :=
    mem_expand_ofName (foldlM_steps hleads)
  constructor
  · rintro ⟨g, hg, rfl⟩
    obtain ⟨f, hf, hg⟩ := hexpand.1 hg
    obtain ⟨names, e, hmem, haccepts, rfl⟩ :=
      (mem_expand_below (PatternSegment.isRecursive_ofEnd _)).1 hg
    exact ⟨f, hf, names, e, hmem, PatternSegment.accepts_ofEnd.1 haccepts, rfl⟩
  · rintro ⟨f, hf, names, e, hmem, haccepts, rfl⟩
    refine ⟨_, hexpand.2 ⟨f, hf, ?_⟩, rfl⟩
    exact (mem_expand_below (PatternSegment.isRecursive_ofEnd _)).2
      ⟨names, e, hmem, PatternSegment.accepts_ofEnd.2 haccepts, rfl⟩

/-- A search below a directory finds the entries whose names end in the right way, each under the
path of the directory without a dot at its front; but nothing, if the path stalls. -/
theorem exists_mem_search_iff (h : fs.IsTree) (hl : fs.locate p = .ok l)
    (hplain : Pattern.IsPlain extension) {pattern : Pattern}
    (hparse : Pattern.parse (searchPattern p extension) = .ok pattern) {cs : List Component} :
    (∃ q ∈ fs.search pattern, q.components = cs) ↔ ¬ p.Stalls ∧
      ∃ names name, (fs.entry? (l ++ (names ++ [name]))).isSome ∧
        '.' :: extension.toList <:+ name.toList ∧
        cs = p.course ++ (names ++ [name]).map .name := by
  obtain ⟨-, -, -, hleads⟩ := locate_eq_ok_iff.1 hl
  have hsteps := foldlM_steps hleads
  by_cases hstalls : p.Stalls
  · have hnone : p.steps.foldlM fs.follow (fs.start p.isAbsolute) = none :=
      foldlM_follow_of_stalls (stalls_start_iff.2 hstalls)
    simp [hstalls, mem_search_searchPattern_iff hl hplain hparse, hnone]
  · obtain ⟨f, hf, rfl, hempty, htrail⟩ := exists_foldlM_follow (start_ne_empty _)
      Path.not_mem_of_mem_steps (mt stalls_start_iff.1 hstalls) hsteps
    rw [trail_start] at htrail
    have hshown {names : List String} (hne : names ≠ [])
        (hentry : (fs.entry? (f.location ++ names)).isSome) :
        (f.descend names).shown.components = p.course ++ names.map .name := by
      rw [← htrail]
      exact Found.components_descend hempty hne fun name hname =>
        h.isName_of_mem hentry (List.mem_append_right _ hname)
    rw [and_iff_right hstalls]
    constructor
    · rintro ⟨q, hq, rfl⟩
      obtain ⟨f', hf', names, e, hmem, hends, rfl⟩ :=
        (mem_search_searchPattern_iff hl hplain hparse).1 hq
      cases hf.symm.trans hf'
      obtain ⟨hne, hentry⟩ := exists_mem_below_iff.1 ⟨e, hmem⟩
      obtain ⟨init, name, rfl⟩ : ∃ init name, names = init ++ [name] :=
        ⟨_, _, (List.dropLast_concat_getLast hne).symm⟩
      exact ⟨init, name, hentry, by simpa using hends, hshown hne hentry⟩
    · rintro ⟨names, name, hentry, hends, rfl⟩
      have hne : names ++ [name] ≠ [] := by simp
      obtain ⟨e, hmem⟩ := exists_mem_below_iff.2 ⟨hne, hentry⟩
      exact ⟨_, (mem_search_searchPattern_iff hl hplain hparse).2
        ⟨f, hf, names ++ [name], e, hmem, by simpa using hends, rfl⟩, hshown hne hentry⟩

end FileSystem

end Dbml
