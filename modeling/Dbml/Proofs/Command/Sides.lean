import Dbml.Proofs.Command.Wording

/-!
# What one side of the command line holds

After the name of the command a line goes on in pieces: words for options, positional arguments and
requests to print (`Item`), in any order. What is given on a side depends on which options,
positional arguments and requests there are (`Given.ofChoices`). Reading the pieces one by one, a
side holds at every point what the pieces so far say, however they are mixed
(`Side.ofArguments_items`), and what is checked at its end is no obstacle to options that go
together (`Side.finish_of_holds`).
-/

namespace Dbml

/-! ## Pieces -/

/-- A piece of a command line after the name of the command. -/
inductive Item where
  | word (w : Word)
  | positional (v : String)
  | print
deriving DecidableEq, Repr

namespace Item

def args : Item → List String
  | word w => w.args
  | positional v => [v]
  | print => ["--print"]

def choices : Item → List Choice
  | word w => w.choices
  | _ => []

def positionals : Item → List String
  | positional v => [v]
  | _ => []

end Item

/-- A positional argument that is none of the other shapes: it does not begin with a dash. -/
def isPositional (v : String) : Bool := v.toList.head?.any (· ≠ '-')

/-! ## Options that go together -/

/-- Options that go together: all but verbosity are given at most once, and to be quiet and to be
verbose exclude each other. -/
structure Compatible (cs : List Choice) : Prop where
  once : ∀ o, o ≠ .flag .verbose → (cs.map Choice.option).count o ≤ 1
  exclusive : .switch .quiet ∈ cs → .switch .verbose ∉ cs

/-- The variables that stand in for options have values that options could have. -/
structure Environment.Usable (env : Environment) : Prop where
  config : env.config ≠ some ""
  noColor : env.noColor = none ∨ env.noColor = some "true" ∨ env.noColor = some "false"

namespace Choice

def config? : Choice → Option Path
  | value (.config v) => some ⟨v.text⟩
  | _ => none

def format? : Choice → Option Format
  | value (.format f) => some f
  | _ => none

/-- What is given for one option is counted by the option. -/
theorem length_filterMap {α : Type} {f : Choice → Option α} {o : OptionName}
    (h : ∀ c, (f c).isSome = (c.option == o)) (cs : List Choice) :
    (cs.filterMap f).length = (cs.map option).count o := by
  rw [List.length_filterMap_eq_countP, List.count, List.countP_map]
  congr 1
  funext c
  exact h c

theorem isSome_config? (c : Choice) : c.config?.isSome = (c.option == .withValue .config) := by
  rcases c with (v | f) | f <;> rfl

theorem isSome_format? (c : Choice) : c.format?.isSome = (c.option == .withValue .format) := by
  rcases c with (v | f) | f <;> rfl

theorem count_switch (cs : List Choice) (f : Switch) :
    cs.count (.switch f) = (cs.map option).count (.flag f.flag) := by
  rw [List.count, List.count, List.countP_map]
  congr 1
  funext c
  rcases c with o | f'
  · rfl
  · cases f <;> cases f' <;> rfl

end Choice

namespace Compatible

variable {cs ds : List Choice}

/-- Options that go together still do when some are left out. -/
theorem sublist (h : Compatible ds) (hsub : cs.Sublist ds) : Compatible cs :=
  ⟨fun o ho => Nat.le_trans ((hsub.map _).count_le o) (h.once o ho),
    fun hq hv => h.exclusive (hsub.subset hq) (hsub.subset hv)⟩

/-- Whether options go together does not depend on their order. -/
theorem perm (h : Compatible ds) (hperm : cs.Perm ds) : Compatible cs :=
  ⟨fun o ho => (hperm.map Choice.option).count_eq o ▸ h.once o ho,
    fun hq hv => h.exclusive (hperm.mem_iff.1 hq) (hperm.mem_iff.1 hv)⟩

theorem length_config (h : Compatible cs) : (cs.filterMap Choice.config?).length ≤ 1 := by
  rw [Choice.length_filterMap Choice.isSome_config?]
  exact h.once _ (by simp)

theorem length_format (h : Compatible cs) : (cs.filterMap Choice.format?).length ≤ 1 := by
  rw [Choice.length_filterMap Choice.isSome_format?]
  exact h.once _ (by simp)

/-- Of compatible options, a flag other than that for verbosity is raised once at most. -/
theorem count_switch (h : Compatible cs) {f : Switch} (hf : f ≠ .verbose) :
    cs.count (.switch f) ≤ 1 := by
  rw [Choice.count_switch]
  refine h.once _ ?_
  cases f <;> simp_all [Switch.flag]

end Compatible

/-! ## What the pieces say -/

/-- What is given on a side by options, positional arguments and requests to print. -/
def Given.ofChoices (cs : List Choice) (positionals : List String) (prints : Nat) : Given where
  config := (cs.filterMap Choice.config?).head?
  format := (cs.filterMap Choice.format?).head?
  verbose := min 255 (cs.count (.switch .verbose))
  quiet := .switch .quiet ∈ cs
  noColor := .switch .noColor ∈ cs
  print := 0 < prints
  positionals := positionals

namespace Given

variable {cs : List Choice} {positionals : List String} {prints : Nat}

theorem eq_nil_of_length_append {α : Type} {l : List α} {a : α} (h : (l ++ [a]).length ≤ 1) :
    l = [] := by
  rw [List.length_append, List.length_singleton] at h
  exact List.eq_nil_of_length_eq_zero (by omega)

theorem not_mem_of_count_append {c : Choice} (h : (cs ++ [c]).count c ≤ 1) : c ∉ cs := by
  intro hmem
  have hpos := List.count_pos_iff.2 hmem
  rw [List.count_append, List.count_singleton_self] at h
  omega

theorem choose_config {v : OptionValue} (h : Compatible (cs ++ [.value (.config v)])) :
    (ofChoices cs positionals prints).choose (.value (.config v)) =
      .ok (ofChoices (cs ++ [.value (.config v)]) positionals prints) := by
  have hnone : cs.filterMap Choice.config? = [] := by
    refine eq_nil_of_length_append (a := ⟨v.text⟩) ?_
    simpa [Choice.config?] using h.length_config
  have hne : v.text ≠ "" := by
    intro hempty
    obtain ⟨c, cs', htext, -⟩ := v.exists_cons
    simp [hempty] at htext
  simp [choose, Valued.option, Valued.text, setValue, ofChoices, hnone, hne, Choice.config?,
    Choice.format?]

theorem choose_format {f : Format} (h : Compatible (cs ++ [.value (.format f)])) :
    (ofChoices cs positionals prints).choose (.value (.format f)) =
      .ok (ofChoices (cs ++ [.value (.format f)]) positionals prints) := by
  have hnone : cs.filterMap Choice.format? = [] := by
    refine eq_nil_of_length_append (a := f) ?_
    simpa [Choice.format?] using h.length_format
  have hname : Format.ofName? f.name = some f := by
    cases f <;> decide
  simp [choose, Valued.option, Valued.text, setValue, ofChoices, hnone, hname, Choice.config?,
    Choice.format?]

/-- A flag can be raised if it is not raised so far; verbosity can be raised again. -/
theorem choose_switch {f : Switch} (h : Compatible (cs ++ [.switch f])) :
    (ofChoices cs positionals prints).choose (.switch f) =
      .ok (ofChoices (cs ++ [.switch f]) positionals prints) := by
  cases f with
  | verbose =>
    have hmin : min 255 (min 255 (cs.count (.switch .verbose)) + 1) =
        min 255 (cs.count (.switch .verbose) + 1) := by omega
    simp [choose, Switch.flag, raise, ofChoices, Choice.config?, Choice.format?, hmin]
  | quiet =>
    have hnew := not_mem_of_count_append (h.count_switch (by simp))
    simp [choose, Switch.flag, raise, ofChoices, Choice.config?, Choice.format?, hnew]
  | noColor =>
    have hnew := not_mem_of_count_append (h.count_switch (by simp))
    simp [choose, Switch.flag, raise, ofChoices, Choice.config?, Choice.format?, hnew]

/-- Options are added to what is given one after another, whatever came before them. -/
theorem foldlM_choose (positionals : List String) (prints : Nat) {cs ds : List Choice}
    (h : Compatible (cs ++ ds)) :
    ds.foldlM choose (ofChoices cs positionals prints) =
      .ok (ofChoices (cs ++ ds) positionals prints) := by
  induction ds generalizing cs with
  | nil => simp [pure, Except.pure]
  | cons d ds ih =>
    rw [List.append_cons] at h
    have hd : Compatible (cs ++ [d]) := h.sublist (List.sublist_append_left _ _)
    have hone : (ofChoices cs positionals prints).choose d =
        .ok (ofChoices (cs ++ [d]) positionals prints) := by
      rcases d with (v | f) | f
      · exact choose_config hd
      · exact choose_format hd
      · exact choose_switch hd
    rw [List.foldlM_cons, hone, List.append_cons cs d ds]
    exact ih h

end Given

/-! ## Reading a side -/

namespace Side

variable {name : CommandName} {s s' : Side} {g : Given}

/-- After the name of the command, arguments that belong to options are taken before the rest is
read. -/
theorem ofArguments_of_takesAll {args : List String} (h : TakesAll (some name) s args s')
    (rest : List String) : s.ofArguments name (args ++ rest) = s'.ofArguments name rest := by
  induction h with
  | nil => rfl
  | cons h _ ih =>
    rw [← ih, List.cons_append, ofArguments]
    cases h with
    | long ha h => rw [ha]; simp only [h]; rfl
    | short ha h => rw [ha]; simp only [h]; rfl
    | value ha => rw [ha]

theorem Holds.ne_option {command : Option CommandName} (hs : s.Holds command g) (o : ValueOption) :
    s.pending ≠ .option o := by
  intro hpending
  have hsettled := hs.settled
  rw [settle, hpending] at hsettled
  cases hsettled

/-- A positional argument that a command of this name could have. -/
def Fits (name : CommandName) (v : String) : Prop :=
  isPositional v = true ∧ (name = .completions → (Shell.ofName? v).isSome = true)

/-- Positional arguments and requests to print that a command of this name could have, as far as
they are read. -/
structure Accepts (name : CommandName) (positionals : List String) (prints : Nat) : Prop where
  fits : ∀ v ∈ positionals, Fits name v
  single : name = .parse ∨ positionals.length ≤ 1
  print : prints = 0 ∨ name = .parse ∧ prints ≤ 1

theorem Accepts.of_append {vs ws : List String} {j k : Nat} (h : Accepts name (vs ++ ws) (j + k)) :
    Accepts name vs j := by
  refine ⟨fun v hv => h.fits v (List.mem_append_left _ hv), ?_, ?_⟩
  · rcases h.single with hname | hlength
    · exact .inl hname
    · rw [List.length_append] at hlength
      exact .inr (by omega)
  · rcases h.print with hzero | ⟨hname, hone⟩
    · exact .inl (by omega)
    · exact .inr ⟨hname, by omega⟩

/-- The next positional argument fits, and is the first one unless there may be more. -/
theorem Accepts.next {vs ws : List String} {v : String} {k : Nat}
    (h : Accepts name (vs ++ [v] ++ ws) k) : Fits name v ∧ (name = .parse ∨ vs = []) := by
  refine ⟨h.fits v (by simp), h.single.imp_right fun hlength => ?_⟩
  refine Given.eq_nil_of_length_append (a := v) (Nat.le_trans ?_ hlength)
  simp

theorem ofString_of_isPositional {v : String} (h : isPositional v = true) :
    Argument.ofString v = .plain v := by
  apply Argument.ofString_plain
  intro c cs htext
  simpa [isPositional, htext] using h

theorem ne_empty_of_isPositional {v : String} (h : isPositional v = true) : v ≠ "" := by
  rintro rfl
  simp [isPositional] at h

/-- Positional arguments are added if every one of them fits the command. -/
theorem addPositionals_eq_ok_iff {command : Option CommandName} {vs : List String} {g' : Given} :
    g.addPositionals command vs = .ok g' ↔
      vs.all (fun v => if command = some .completions then (Shell.ofName? v).isSome else v ≠ "") =
        true ∧ { g with positionals := g.positionals ++ vs } = g' := by
  unfold Given.addPositionals
  simp only
  generalize vs.all _ = fits
  cases fits <;> simp

theorem addPositionals_of_fits (g : Given) {v : String} (h : Fits name v) :
    g.addPositionals (some name) [v] = .ok { g with positionals := g.positionals ++ [v] } := by
  obtain ⟨hpositional, hshell⟩ := h
  refine addPositionals_eq_ok_iff.2 ⟨?_, rfl⟩
  by_cases hname : name = .completions
  · simpa [hname] using hshell hname
  · simpa [hname] using ne_empty_of_isPositional hpositional

/-- To add some and then others is to add all of them at once. -/
theorem addPositionals_append {command : Option CommandName} {g₁ g₂ : Given} {vs ws : List String}
    (h₁ : g.addPositionals command vs = .ok g₁) (h₂ : g₁.addPositionals command ws = .ok g₂) :
    g.addPositionals command (vs ++ ws) = .ok g₂ := by
  obtain ⟨hvs, rfl⟩ := addPositionals_eq_ok_iff.1 h₁
  obtain ⟨hws, rfl⟩ := addPositionals_eq_ok_iff.1 h₂
  refine addPositionals_eq_ok_iff.2 ⟨?_, by simp⟩
  rw [List.all_append, hvs, hws]
  rfl

theorem positionals_of_setValue {g' : Given} {v : String} {o : ValueOption}
    (h : g.setValue v o = .ok g') : g'.positionals = g.positionals := by
  cases o with
  | config =>
    simp only [Given.setValue] at h
    split at h
    · cases h
    split at h
    · cases h
    · cases h
      rfl
  | format =>
    simp only [Given.setValue] at h
    split at h
    · cases h
    split at h
    · cases h
      rfl
    · cases h

/-- Where no positional argument is read yet, none is pending. -/
theorem Holds.fresh {command : Option CommandName} (hs : s.Holds command g)
    (hg : g.positionals = []) :
    s.given.positionals = [] ∧ ∀ vs, s.pending ≠ .positionals vs := by
  have hsettled := hs.settled
  unfold settle at hsettled
  split at hsettled
  case h_1 hpending =>
    cases hsettled
    exact ⟨hg, by simp [hpending]⟩
  case h_2 => cases hsettled
  case h_3 hpending =>
    exact ⟨(positionals_of_setValue hsettled).symm.trans hg, by simp [hpending]⟩
  case h_4 vs hpending =>
    obtain ⟨-, rfl⟩ := addPositionals_eq_ok_iff.1 hsettled
    obtain ⟨-, rfl⟩ := List.append_eq_nil_iff.1 hg
    exact absurd hpending hs.filled

/-- A positional argument joins those that are already given. -/
theorem takePositional_of_holds (hs : s.Holds (some name) g) {v : String} (hv : Fits name v)
    (hsingle : name = .parse ∨ g.positionals = []) :
    ∃ s', takePositional name s v = .ok s' ∧
      s'.Holds (some name) { g with positionals := g.positionals ++ [v] } := by
  have hsettled := hs.settled
  have hadd := addPositionals_of_fits g hv
  have hnew : Holds (some name) ⟨g, .positionals [v]⟩
      { g with positionals := g.positionals ++ [v] } := ⟨hadd, by simp⟩
  unfold takePositional
  split
  case h_1 vs _ hpending =>
    refine ⟨_, rfl, ?_, by simp⟩
    rw [settle, hpending] at hsettled
    exact addPositionals_append hsettled hadd
  case h_2 vs hpending hname =>
    -- only `parse` has more than one, so there is none yet and none can be pending
    rcases hsingle with rfl | hnone
    · exact absurd rfl hname
    · exact absurd hpending ((hs.fresh hnone).2 vs)
  case h_3 => exact ⟨_, by rw [hsettled]; rfl, hnew⟩
  case h_4 hname _ _ =>
    rcases hsingle with rfl | hnone
    · exact absurd rfl hname
    · rw [(hs.fresh hnone).1]
      exact ⟨_, by rw [hsettled]; rfl, hnew⟩

/-- After the name of the command, a positional argument is taken as one. -/
theorem ofArguments_positional (hs : s.Holds (some name) g) {v : String}
    (hv : isPositional v = true) (htake : takePositional name s v = .ok s') (rest : List String) :
    s.ofArguments name (v :: rest) = s'.ofArguments name rest := by
  rw [ofArguments, ofString_of_isPositional hv]
  simp only
  split
  case h_1 o hpending => exact absurd hpending (hs.ne_option o)
  case h_2 => rw [htake]; rfl

/-- After `parse`, printing can be asked for once. -/
theorem takes_print {cs : List Choice} {vs : List String}
    (hs : s.Holds (some .parse) (.ofChoices cs vs 0)) :
    Takes (some .parse) s "--print" { given := .ofChoices cs vs 1 } := by
  refine .long (Argument.ofString_long "print" (by decide) (by decide)) ?_
  exact takeFlag_of_holds hs rfl

/-- A side holds what its pieces say, in whatever order they are mixed. -/
theorem ofArguments_items {cs : List Choice} {vs : List String} {k : Nat} {items : List Item}
    (hs : s.Holds (some name) (.ofChoices cs vs k))
    (hcs : Compatible (cs ++ items.flatMap Item.choices))
    (hvs : Accepts name (vs ++ items.flatMap Item.positionals) (k + items.count .print))
    (rest : List String) :
    ∃ s' : Side, s'.Holds (some name)
        (.ofChoices (cs ++ items.flatMap Item.choices) (vs ++ items.flatMap Item.positionals)
          (k + items.count .print)) ∧
      s.ofArguments name (items.flatMap Item.args ++ rest) = s'.ofArguments name rest := by
  induction items generalizing s cs vs k with
  | nil => exact ⟨s, by simpa using hs, rfl⟩
  | cons item items ih =>
    cases item with
    | word w =>
      rw [List.flatMap_cons, Item.choices, ← List.append_assoc] at hcs ⊢
      -- what is given so far and the options of this word are a part of what goes together
      have hfold := Given.foldlM_choose vs k
        (hcs.sublist (List.sublist_append_left _ _))
      obtain ⟨s₁, htakes, hs₁⟩ := w.takesAll hs hfold
      obtain ⟨s', hs', hread⟩ := ih hs₁ hcs (by simpa [Item.positionals] using hvs)
      refine ⟨s', by simpa [Item.positionals] using hs', ?_⟩
      rw [List.flatMap_cons, List.append_assoc, Item.args, ofArguments_of_takesAll htakes, hread]
    | positional v =>
      have hsame : (Item.positional v :: items).flatMap Item.positionals =
          v :: items.flatMap Item.positionals := rfl
      rw [hsame, List.append_cons, List.count_cons_of_ne (by simp)] at hvs ⊢
      obtain ⟨hv, hsingle⟩ := hvs.next
      obtain ⟨s₁, htake, (hs₁ : s₁.Holds (some name) (.ofChoices cs (vs ++ [v]) k))⟩ :=
        takePositional_of_holds hs hv hsingle
      obtain ⟨s', hs', hread⟩ := ih hs₁ hcs hvs
      refine ⟨s', hs', ?_⟩
      rw [List.flatMap_cons, Item.args, List.append_assoc, List.singleton_append,
        ofArguments_positional hs hv.1 htake, hread]
    | print =>
      rw [List.count_cons_self] at hvs ⊢
      obtain ⟨rfl, rfl⟩ : name = .parse ∧ k = 0 := by
        rcases hvs.print with hzero | ⟨hname, hone⟩
        · omega
        · exact ⟨hname, by omega⟩
      have hcount : 0 + (items.count .print + 1) = 1 + items.count .print := by omega
      rw [hcount] at hvs ⊢
      obtain ⟨s', hs', hread⟩ := ih (holds_given (.ofChoices cs vs 1)) hcs hvs
      refine ⟨s', hs', ?_⟩
      rw [List.flatMap_cons, List.append_assoc, Item.args,
        ofArguments_of_takesAll (.one (takes_print hs)), hread]

/-- Positional arguments after two dashes join those before them. -/
theorem foldlM_takePositional {cs : List Choice} {vs ws : List String} {k : Nat}
    (hs : s.Holds (some name) (.ofChoices cs vs k)) (hvs : Accepts name (vs ++ ws) k) :
    ∃ s', ws.foldlM (takePositional name) s = .ok s' ∧
      s'.Holds (some name) (.ofChoices cs (vs ++ ws) k) := by
  induction ws generalizing s vs with
  | nil => exact ⟨s, rfl, by simpa using hs⟩
  | cons v ws ih =>
    rw [List.append_cons] at hvs ⊢
    obtain ⟨hv, hsingle⟩ := hvs.next
    obtain ⟨s₁, htake, (hs₁ : s₁.Holds (some name) (.ofChoices cs (vs ++ [v]) k))⟩ :=
      takePositional_of_holds hs hv hsingle
    obtain ⟨s', hfold, hs'⟩ := ih hs₁ hvs
    refine ⟨s', ?_, hs'⟩
    rw [List.foldlM_cons, htake]
    exact hfold

/-- What is checked at the end of a side does not fail. -/
theorem finish_of_holds {command : Option CommandName} {cs : List Choice} {vs : List String}
    {k : Nat} (hs : s.Holds command (.ofChoices cs vs k)) (hcs : Compatible cs)
    {env : Environment} (henv : env.Usable) :
    s.finish command env = .ok (.ofChoices cs vs k) := by
  have hconfig : (env.config == some "") = false := by
    simpa using henv.config
  have hcolor : (env.noColor.any fun v => v ≠ "true" && v ≠ "false") = false := by
    rcases henv.noColor with h | h | h <;> rw [h] <;> rfl
  have hexclusive : ((Given.ofChoices cs vs k).quiet && (Given.ofChoices cs vs k).verbose > 0) =
      false := by
    by_cases hquiet : .switch .quiet ∈ cs
    · simp [Given.ofChoices, List.count_eq_zero.2 (hcs.exclusive hquiet)]
    · simp [Given.ofChoices, hquiet]
  simp only [finish, hs.settled, Given.checkEnvironment, Given.checkConflicts, bind, Except.bind,
    hconfig, hcolor, hexclusive, Bool.and_false, Bool.false_eq_true, if_false]

end Side

end Dbml
