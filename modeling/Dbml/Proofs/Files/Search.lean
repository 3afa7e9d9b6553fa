import Dbml.Files.Search
import Dbml.Proofs.Files.Pattern
import Dbml.Proofs.Files.Tree

/-!
# What a search finds

A search goes from entry to entry along the components of its pattern. Where every component stands
for one name, that is how a path is followed (`FileSystem.mem_expand_ofName`), but for one thing: an
empty piece leads nowhere as long as the search has not left the working directory (`Found.Stalls`).
What is shown of an entry says what led to it (`Found.trail_showing`), so of whatever pattern an
entry is found by, the path shown leads to it (`FileSystem.IsTree.sound_of_mem_search`).
-/

namespace Dbml

/-! ## What is shown -/

namespace Path

/-- A path with something joined to it has a slash, so it is no text without one. -/
theorem join_ne {p : Path} (hp : p.text ≠ "") {s t : String} (hs : '/' ∉ s.toList)
    (ht : '/' ∉ t.toList) : (p.join ⟨s⟩).text ≠ t := by
  obtain ⟨front, hne, -, hjoin, -⟩ := exists_segments_join hp hs
  intro heq
  have hone : (p.join ⟨s⟩).segments = [t] := by
    rw [← segments_of_not_mem ht, ← heq]
  rw [hjoin] at hone
  exact hne (by simpa using congrArg List.dropLast hone)

end Path

namespace Found

/-- What the path shown says; of the working directory it says nothing. -/
def trail (f : Found) : List Component := if f.shown.text = "." then [] else f.shown.components

variable {f : Found} {s : String}

/-- What is shown is never empty, but for an empty piece in the working directory. -/
theorem showing_ne_empty (hf : f.shown.text ≠ "") (hs : '/' ∉ s.toList)
    (hmoves : ¬ (s = "" ∧ f.shown.text = ".")) : (f.showing s).text ≠ "" := by
  unfold showing
  split
  · rename_i hdot
    exact fun h => hmoves ⟨h, hdot⟩
  · exact Path.join_ne hf hs (by decide)

/-- The working directory is shown by a dot only as long as nothing but dots has been followed. -/
theorem showing_eq_dot_iff (hf : f.shown.text ≠ "") (hs : '/' ∉ s.toList) :
    (f.showing s).text = "." ↔ f.shown.text = "." ∧ s = "." := by
  unfold showing
  split
  · rename_i hdot
    simp [hdot]
  · rename_i hdot
    simp [hdot, Path.join_ne hf hs (show '/' ∉ ".".toList by decide)]

/-- To show one more piece is to add its component to the trail. -/
theorem trail_showing (hf : f.shown.text ≠ "") (hs : '/' ∉ s.toList) (l : Location) :
    trail ⟨f.showing s, l⟩ = f.trail ++ (Path.component? s).toList := by
  by_cases hdot : f.shown.text = "."
  · have hnothing : f.trail = [] := if_pos hdot
    rw [hnothing, List.nil_append, showing, if_pos hdot]
    by_cases hs' : s = "."
    · subst hs'
      rfl
    · rw [trail, if_neg hs', Path.components_of_not_mem hs hs']
  · have hmoved : ¬ (f.showing s).text = "." := fun h => hdot ((showing_eq_dot_iff hf hs).1 h).1
    rw [trail, if_neg hmoved, trail, if_neg hdot, showing, if_neg hdot, Path.components_join hf hs]

/-- The path shown of an entry below says one name more for each step. -/
theorem components_descend (hf : f.shown.text ≠ "") {names : List String} (hne : names ≠ [])
    (hnames : ∀ name ∈ names, Entry.IsName name) :
    (f.descend names).shown.components = f.trail ++ names.map .name := by
  induction names generalizing f with
  | nil => exact absurd rfl hne
  | cons name names ih =>
    obtain ⟨hname, hnames⟩ := List.forall_mem_cons.1 hnames
    have hempty : (f.child name).shown.text ≠ "" :=
      showing_ne_empty hf hname.no_slash fun h => hname.ne_empty h.1
    have hdot : ¬ (f.child name).shown.text = "." := fun h =>
      hname.ne_dot ((showing_eq_dot_iff hf hname.no_slash).1 h).2
    have htrail : (f.child name).trail = f.trail ++ [.name name] := by
      rw [child, trail_showing hf hname.no_slash, hname.component?]
      rfl
    rw [descend, List.foldl_cons, ← descend, List.map_cons, List.append_cons, ← htrail]
    by_cases hlast : names = []
    · subst hlast
      rw [List.map_nil, List.append_nil, trail, if_neg hdot]
      rfl
    · exact ih hempty hlast hnames

end Found

/-! ## Following pieces -/

/-- An empty piece comes before the working directory has been left. -/
def Found.Stalls (f : Found) (ts : List String) : Prop :=
  f.shown.text = "." ∧ (ts.dropWhile (· = ".")).head? = some ""

namespace FileSystem

variable {fs : FileSystem} {f g : Found} {k l : Location} {t : String}

/-- When a piece is followed: it is not an empty one in the working directory, and it leads
somewhere by a step. -/
theorem follow_eq_some_iff : fs.follow f t = some g ↔
    ¬ (t = "" ∧ f.shown.text = ".") ∧
      ∃ k, fs.step f.location t = .ok k ∧ g = ⟨f.showing t, k⟩ := by
  unfold follow
  split
  · rename_i hstays
    simp [hstays]
  · rename_i hmoves
    rw [and_iff_right hmoves]
    cases fs.step f.location t with
    | error e => simp
    | ok l => simp [eq_comm]

/-- Where pieces stall, nothing is found: an empty one cannot be shown in the working directory. -/
theorem foldlM_follow_of_stalls {ts : List String} (h : f.Stalls ts) :
    ts.foldlM fs.follow f = none := by
  induction ts generalizing f with
  | nil => exact absurd h.2 (by simp)
  | cons t ts ih =>
    obtain ⟨hdot, hhead⟩ := h
    rw [List.foldlM_cons]
    by_cases ht : t = "."
    · subst ht
      cases hg : fs.follow f "." with
      | none => rfl
      | some g =>
        obtain ⟨-, l, -, rfl⟩ := follow_eq_some_iff.1 hg
        refine ih ⟨?_, by simpa using hhead⟩
        rw [Found.showing, if_pos hdot]
    · have hempty : t = "" := by simpa [ht] using hhead
      rw [follow, if_pos ⟨hempty, hdot⟩]
      rfl

/-- Pieces are followed wherever they lead, unless an empty one comes before the working directory
has been left. -/
theorem exists_foldlM_follow {ts : List String} (hf : f.shown.text ≠ "")
    (hts : ∀ t ∈ ts, '/' ∉ t.toList) (hmoves : ¬ f.Stalls ts)
    (h : ts.foldlM fs.step f.location = .ok k) :
    ∃ g, ts.foldlM fs.follow f = some g ∧ g.location = k ∧ g.shown.text ≠ "" ∧
      g.trail = f.trail ++ ts.filterMap Path.component? := by
  induction ts generalizing f with
  | nil =>
    cases h
    exact ⟨f, rfl, rfl, hf, by simp⟩
  | cons t ts ih =>
    obtain ⟨ht, hts⟩ := List.forall_mem_cons.1 hts
    obtain ⟨m, hm, hk⟩ := foldlM_step_cons.1 h
    have hmove : ¬ (t = "" ∧ f.shown.text = ".") := by
      rintro ⟨rfl, hdot⟩
      exact hmoves ⟨hdot, by simp⟩
    have hrest : ¬ Found.Stalls ⟨f.showing t, m⟩ ts := by
      rintro ⟨hdot, hhead⟩
      obtain ⟨hstart, rfl⟩ := (Found.showing_eq_dot_iff hf ht).1 hdot
      exact hmoves ⟨hstart, by simpa using hhead⟩
    obtain ⟨g, hg, hlocation, hempty, htrail⟩ :=
      ih (f := ⟨f.showing t, m⟩) (Found.showing_ne_empty hf ht hmove) hts hrest hk
    refine ⟨g, ?_, hlocation, hempty, ?_⟩
    · rw [List.foldlM_cons, follow_eq_some_iff.2 ⟨hmove, m, hm, rfl⟩]
      exact hg
    · rw [htrail, Found.trail_showing hf ht, List.append_assoc]
      cases hc : Path.component? t with
      | none => rw [List.filterMap_cons_none hc, Option.toList_none, List.nil_append]
      | some c => rw [List.filterMap_cons_some hc, Option.toList_some, List.singleton_append]

/-! ## Going along components -/

/-- The entries that one component leads to, if it does not stand for any number of directories. -/
def next (fs : FileSystem) (f : Found) (s : PatternSegment) : List Found :=
  match s.literal? with
  | some segment => (fs.follow f segment).toList
  | none => fs.childrenLike f s

/-- A search goes on from everything that its first segment gives. -/
theorem expand_cons {s : PatternSegment} {rest : List PatternSegment} (hs : s.isRecursive = false) :
    fs.expand (s :: rest) f = (fs.next f s).flatMap (fs.expand rest) := by
  rw [expand.eq_def, next]
  simp only [hs, Bool.false_eq_true, if_false]
  cases s.literal? with
  | none => rfl
  | some segment => cases hfollow : fs.follow f segment <;> simp [hfollow]

/-- A search of all levels looks at everything below, and goes on from what the next segment
accepts. -/
theorem expand_recursive {s s' : PatternSegment} {rest : List PatternSegment}
    (hs : s.isRecursive = true) (hs' : s'.isRecursive = false) :
    fs.expand (s :: s' :: rest) f = (fs.below f.location).flatMap fun x =>
      if s'.accepts (x.1.getLastD "") then fs.expand rest (f.descend x.1) else [] := by
  rw [expand.eq_def]
  simp only [hs, hs', if_true, Bool.false_eq_true, if_false]

/-- To search all levels twice is to do so once. -/
theorem expand_recursive_recursive {s s' : PatternSegment} {rest : List PatternSegment}
    (hs : s.isRecursive = true) (hs' : s'.isRecursive = true) :
    fs.expand (s :: s' :: rest) f = fs.expand (s' :: rest) f := by
  rw [expand.eq_def]
  simp only [hs, hs', if_true]

/-- A search that ends with all levels finds the directories below. -/
theorem expand_recursive_nil {s : PatternSegment} (hs : s.isRecursive = true) :
    fs.expand [s] f = (fs.below f.location).filterMap fun x =>
      if x.2.isDirectory then some (f.descend x.1) else none := by
  rw [expand.eq_def]
  simp only [hs, if_true]

-- A name that holds a special character is looked up among the children, and found there by itself.
/-- A name with special characters is not looked up but found among the entries, and there is one
such entry at most. -/
theorem mem_childrenLike_ofName (ht : ∃ c ∈ t.toList, Glyph.IsSpecial c)
    (hstep : fs.step f.location t = .ok k) :
    g ∈ fs.childrenLike f (.ofName t) ↔ fs.follow f t = some g := by
  have hne (s : String) (hs : Pattern.IsPlain s) : s ≠ t := by
    rintro rfl
    obtain ⟨c, hc, hspecial⟩ := ht
    exact (hs c hc).1 hspecial
  have hempty := hne "" (by decide)
  have hdot := hne "." (by decide)
  have hdots := hne ".." (by decide)
  obtain ⟨-, -, hk, hentry⟩ := step_eq_ok_iff.1 hstep
  rw [Location.go, if_neg (by simp [Ne.symm hempty, Ne.symm hdot]), if_neg (Ne.symm hdots)] at hk
  subst hk
  have hnone : [".", ".."].filter (PatternSegment.ofName t).accepts = [] := by
    simp [PatternSegment.accepts_ofName, hdot, hdots]
  have hchild : fs.follow f t = some (f.child t) :=
    follow_eq_some_iff.2 ⟨fun h => hempty h.1.symm, _, hstep, rfl⟩
  rw [hchild, Option.some.injEq, childrenLike, hnone]
  simp only [ite_self, List.filterMap_nil, List.append_nil, List.mem_filterMap]
  constructor
  · rintro ⟨⟨name, e⟩, -, h⟩
    simp only [PatternSegment.accepts_ofName, Option.ite_none_right_eq_some, Option.some.injEq] at h
    obtain ⟨rfl, h⟩ := h
    exact h
  · rintro rfl
    obtain ⟨e, he⟩ := exists_mem_children_iff.2 hentry
    exact ⟨_, he, if_pos (PatternSegment.accepts_ofName.2 rfl)⟩

/-- However a name is found, the step by it is what is followed. -/
theorem mem_next_ofName (hstep : fs.step f.location t = .ok k) :
    g ∈ fs.next f (.ofName t) ↔ fs.follow f t = some g := by
  rw [next, PatternSegment.literal?_ofName]
  by_cases hspecial : t.toList.any fun c => Glyph.IsSpecial c
  · rw [if_pos hspecial]
    exact mem_childrenLike_ofName (by simpa using hspecial) hstep
  · rw [if_neg hspecial]
    exact Option.mem_toList

/-- Components that stand for one name each are followed like the pieces of a path. -/
theorem mem_expand_ofName {ts : List String} {rest : List PatternSegment}
    (h : ts.foldlM fs.step f.location = .ok k) :
    g ∈ fs.expand (ts.map .ofName ++ rest) f ↔
      ∃ m, ts.foldlM fs.follow f = some m ∧ g ∈ fs.expand rest m := by
  induction ts generalizing f with
  | nil => simp
  | cons t ts ih =>
    obtain ⟨m, hm, hk⟩ := foldlM_step_cons.1 h
    rw [List.map_cons, List.cons_append, expand_cons (PatternSegment.isRecursive_ofName t),
      List.mem_flatMap, List.foldlM_cons]
    constructor
    · rintro ⟨f', hf', hg⟩
      rw [mem_next_ofName hm] at hf'
      obtain ⟨-, k', hk', rfl⟩ := follow_eq_some_iff.1 hf'
      cases hm.symm.trans hk'
      obtain ⟨g', hg', hrest⟩ := (ih hk).1 hg
      rw [hf']
      exact ⟨g', hg', hrest⟩
    · rintro ⟨g', hg', hrest⟩
      obtain ⟨f', hf', hts⟩ := Option.bind_eq_some_iff.1 hg'
      refine ⟨f', (mem_next_ofName hm).2 hf', ?_⟩
      obtain ⟨-, k', hk', rfl⟩ := follow_eq_some_iff.1 hf'
      cases hm.symm.trans hk'
      exact (ih hk).2 ⟨g', hts, hrest⟩

/-- The search of all levels for one segment finds what is below by a last name that the segment
accepts. -/
theorem mem_expand_below {s : PatternSegment} (hs : s.isRecursive = false) :
    g ∈ fs.expand [⟨[.recursive]⟩, s] f ↔
      ∃ names e, (names, e) ∈ fs.below f.location ∧ s.accepts (names.getLastD "") ∧
        g = f.descend names := by
  rw [expand_recursive rfl hs, List.mem_flatMap]
  constructor
  · rintro ⟨⟨names, e⟩, hmem, h⟩
    simp only [expand, List.mem_ite_nil_right, List.mem_singleton] at h
    exact ⟨names, e, hmem, h⟩
  · rintro ⟨names, e, hmem, haccepts, rfl⟩
    refine ⟨_, hmem, ?_⟩
    simp only [if_pos haccepts, expand, List.mem_singleton]

end FileSystem

/-! ## Every search -/

namespace Found

open FileSystem

/-- The path shown leads to the entry. -/
structure Sound (fs : FileSystem) (f : Found) : Prop where
  nonempty : f.shown.text ≠ ""
  leads : fs.Leads f.shown f.location
  present : (fs.entry? f.location).isSome

namespace Sound

variable {fs : FileSystem} {f g : Found} {k : Location} {t : String}

/-- One more step keeps what is found sound: the path shown leads to where it is. -/
theorem showing (hf : f.Sound fs) (ht : '/' ∉ t.toList)
    (hmoves : ¬ (t = "" ∧ f.shown.text = ".")) (hstep : fs.step f.location t = .ok k) :
    Found.Sound fs ⟨f.showing t, k⟩ := by
  refine ⟨Found.showing_ne_empty hf.nonempty ht hmoves, ?_, (step_eq_ok_iff.1 hstep).2.2.2⟩
  rw [Found.showing]
  split
  · rename_i hdot
    have hhome : f.location = fs.workingDirectory := by
      have hshown : f.shown.components = [.current] := by
        rw [show f.shown = ⟨"."⟩ from congrArg Path.mk hdot]
        decide
      rw [hf.leads.eq_foldl, hshown]
      rfl
    rw [hhome] at hstep
    exact leads_of_step ht hstep
  · exact hf.leads.join hf.nonempty ht hstep

/-- A child in a tree keeps what is found sound. -/
theorem child (h : fs.IsTree) (hf : f.Sound fs) {name : String}
    (hname : (fs.entry? (f.location ++ [name])).isSome) : (f.child name).Sound fs := by
  have hisName : Entry.IsName name := h.isName_of_mem hname (by simp)
  exact hf.showing hisName.no_slash (fun h => hisName.ne_empty h.1) (h.step_name hname)

/-- Several names one after another, as long as they lead somewhere, keep what is found sound. -/
theorem descend (h : fs.IsTree) (hf : f.Sound fs) {names : List String}
    (hnames : (fs.entry? (f.location ++ names)).isSome) : (f.descend names).Sound fs := by
  induction names generalizing f with
  | nil => exact hf
  | cons name names ih =>
    rw [List.append_cons] at hnames
    have hname : (fs.entry? (f.location ++ [name])).isSome := by
      by_cases hlast : names = []
      · simpa [hlast] using hnames
      · rw [h.directory_above hlast hnames]
        rfl
    exact ih (hf.child h hname) hnames

/-- Everything that is found among the entries of a directory is sound. -/
theorem childrenLike (h : fs.IsTree) (hf : f.Sound fs) {s : PatternSegment}
    (hg : g ∈ fs.childrenLike f s) : g.Sound fs := by
  rcases List.mem_append.1 hg with hg | hg
  · obtain ⟨⟨name, e⟩, hmem, hg⟩ := List.mem_filterMap.1 hg
    simp only [Option.ite_none_right_eq_some, Option.some.injEq] at hg
    obtain ⟨-, rfl⟩ := hg
    exact hf.child h (exists_mem_children_iff.1 ⟨e, hmem⟩)
  · obtain ⟨dot, hmem, hg⟩ := List.mem_filterMap.1 hg
    have hslash : '/' ∉ dot.toList := by
      have hdot : dot = "." ∨ dot = ".." := by
        split at hmem
        · simpa using (List.mem_filter.1 hmem).1
        · cases hmem
      rcases hdot with rfl | rfl <;> decide
    cases hstep : fs.step f.location dot with
    | error e => simp [hstep] at hg
    | ok l =>
      simp only [hstep, Option.some.injEq] at hg
      subst hg
      exact ⟨Path.join_ne hf.nonempty hslash (by decide), hf.leads.join hf.nonempty hslash hstep,
        (step_eq_ok_iff.1 hstep).2.2.2⟩

/-- Everything that a segment gives is sound. -/
theorem next (h : fs.IsTree) (hf : f.Sound fs) {s : PatternSegment}
    (hs : ∀ t, s.literal? = some t → '/' ∉ t.toList) (hg : g ∈ fs.next f s) : g.Sound fs := by
  unfold FileSystem.next at hg
  split at hg
  · rename_i t ht
    obtain ⟨hmoves, k, hstep, rfl⟩ := follow_eq_some_iff.1 (Option.mem_toList.1 hg)
    exact hf.showing (hs t ht) hmoves hstep
  · exact hf.childrenLike h hg

/-- Every path that is found leads to an entry. -/
theorem expand (h : fs.IsTree) {f : Found} (hf : f.Sound fs) (ss : List PatternSegment)
    (hss : ∀ s ∈ ss, ∀ t, s.literal? = some t → '/' ∉ t.toList) (hg : g ∈ fs.expand ss f) :
    g.Sound fs := by
  have hbelow {names : List String} {e : Entry} (hmem : (names, e) ∈ fs.below f.location) :
      (f.descend names).Sound fs :=
    hf.descend h (exists_mem_below_iff.1 ⟨e, hmem⟩).2
  match ss with
  | [] =>
    cases List.mem_singleton.1 hg
    exact hf
  | s :: rest =>
    obtain ⟨hs, hrest⟩ := List.forall_mem_cons.1 hss
    cases hrec : s.isRecursive with
    | false =>
      rw [expand_cons hrec] at hg
      obtain ⟨m, hm, hg⟩ := List.mem_flatMap.1 hg
      exact expand h (hf.next h hs hm) rest hrest hg
    | true =>
      match rest with
      | [] =>
        rw [expand_recursive_nil hrec] at hg
        obtain ⟨⟨names, e⟩, hmem, hg⟩ := List.mem_filterMap.1 hg
        simp only [Option.ite_none_right_eq_some, Option.some.injEq] at hg
        obtain ⟨-, rfl⟩ := hg
        exact hbelow hmem
      | s' :: rest =>
        cases hrec' : s'.isRecursive with
        | false =>
          rw [expand_recursive hrec hrec'] at hg
          obtain ⟨⟨names, e⟩, hmem, hg⟩ := List.mem_flatMap.1 hg
          exact expand h (hbelow hmem) rest (List.forall_mem_cons.1 hrest).2
            (List.mem_ite_nil_right.1 hg).2
        | true =>
          rw [expand_recursive_recursive hrec hrec'] at hg
          exact expand h hf (s' :: rest) hrest hg

end Sound

end Found

namespace FileSystem

variable {fs : FileSystem} {p : Pattern} {q : Path}

/-- Where a search begins. -/
def start (fs : FileSystem) (absolute : Bool) : Found :=
  if absolute then ⟨⟨"/"⟩, []⟩ else ⟨⟨"."⟩, fs.workingDirectory⟩

@[simp] theorem start_true : fs.start true = ⟨⟨"/"⟩, []⟩ := rfl

@[simp] theorem start_false : fs.start false = ⟨⟨"."⟩, fs.workingDirectory⟩ := rfl

theorem start_ne_empty (absolute : Bool) : (fs.start absolute).shown.text ≠ "" := by
  cases absolute <;> simp

/-- What a search finds: what its segments lead to from where it starts, and only directories if
these alone are asked for. -/
theorem mem_search_iff : q ∈ fs.search p ↔
    ∃ g ∈ fs.expand p.segments (fs.start p.absolute),
      (p.directoriesOnly = true → (fs.entry? g.location).any (·.isDirectory)) ∧ g.shown = q := by
  rw [search, List.mem_map]
  constructor
  · rintro ⟨g, hg, rfl⟩
    obtain ⟨hmem, hg⟩ := List.mem_filter.1 hg
    refine ⟨g, hmem, fun hdirectories => ?_, rfl⟩
    simpa [hdirectories] using hg
  · rintro ⟨g, hmem, hg, rfl⟩
    refine ⟨g, List.mem_filter.2 ⟨hmem, ?_⟩, rfl⟩
    cases hdirectories : p.directoriesOnly with
    | false => rfl
    | true => simpa [hdirectories] using hg

/-- A search starts from what is sound. -/
theorem IsTree.sound_start (h : fs.IsTree) (absolute : Bool) : (fs.start absolute).Sound fs := by
  cases absolute with
  | false =>
    refine ⟨start_ne_empty false, leads_of_step (by decide) (step_self h.home (.inr rfl)), ?_⟩
    rw [start_false, h.home]
    rfl
  | true =>
    refine ⟨start_ne_empty true, ?_, rfl⟩
    have hstep : fs.step [] "" = .ok [] := step_self rfl (.inl rfl)
    have hsegments : (Path.mk "/").segments = ["", ""] := by decide
    have habsolute : (Path.mk "/").isAbsolute = true := by decide
    rw [start_true, Leads, hsegments, habsolute]
    exact foldlM_step_cons.2 ⟨[], hstep, foldlM_step_singleton.2 hstep⟩

/-- Whatever a pattern finds is there. -/
theorem IsTree.sound_of_mem_search (h : fs.IsTree) {text : String}
    (hp : Pattern.parse text = .ok p) (hq : q ∈ fs.search p) :
    ∃ g : Found, g.Sound fs ∧ g.shown = q := by
  obtain ⟨g, hg, -, hshown⟩ := mem_search_iff.1 hq
  exact ⟨g, (h.sound_start p.absolute).expand h p.segments
    (fun s hs t ht => Pattern.not_mem_of_parse hp hs ht) hg, hshown⟩

end FileSystem

end Dbml
