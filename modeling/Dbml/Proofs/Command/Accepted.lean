import Dbml.Proofs.Command.Sides

/-!
# Command lines that are accepted

A command line that is accepted was read argument by argument, and none of the checks on the way
failed. So its reading can be taken apart: the first argument belongs to an option, is positional or
names the command, and the rest is accepted from there (`Side.exists_of_ofArguments`,
`Invocation.cases_of_ofArguments`). For every function that takes a part of an argument there is one
lemma that says what it has done when it has not failed; whatever is said of accepted lines goes by
these.
-/

namespace Dbml

/-! ## The shape of an argument -/

namespace Argument

variable {a v : String}

theorem eq_of_ofString_plain (h : ofString a = .plain v) : v = a := by
  unfold ofString at h
  split at h
  case h_1 => cases h
  case h_2 => split at h <;> cases h
  case h_3 => cases h
  case h_4 => cases h; rfl

theorem eq_of_ofString_escape (h : ofString a = .escape) : a = "--" := by
  unfold ofString at h
  split at h
  case h_1 hs => exact String.toList_inj.1 hs
  case h_2 => split at h <;> cases h
  case h_3 => cases h
  case h_4 => cases h

/-- Two dashes and a name without a value are that name and nothing else. -/
theorem eq_of_ofString_long {name : String} (h : ofString a = .long name none) :
    a = "--" ++ name := by
  unfold ofString at h
  split at h
  case h_1 => cases h
  case h_2 cs _ hs =>
    split at h
    case h_1 hrest =>
      cases h
      have hall := List.takeWhile_append_dropWhile (p := fun c : Char => decide (c ≠ '=')) (l := cs)
      rw [hrest, List.append_nil] at hall
      apply String.toList_inj.1
      rw [hs, hall]
      simp
    case h_2 => cases h
  case h_3 => cases h
  case h_4 => cases h

end Argument

/-! ## One function at a time -/

namespace Given

variable {g g' : Given}

/-- Giving a value changes one of two things. -/
theorem cases_of_setValue {v : String} {o : ValueOption} (h : g.setValue v o = .ok g') :
    (o = .config ∧ g' = { g with config := some ⟨v⟩ }) ∨
      ∃ f, o = .format ∧ Format.ofName? v = some f ∧ g' = { g with format := some f } := by
  cases o with
  | config =>
    simp only [setValue] at h
    split at h
    · cases h
    split at h
    · cases h
    · cases h
      exact .inl ⟨rfl, rfl⟩
  | format =>
    simp only [setValue] at h
    split at h
    · cases h
    split at h
    · rename_i f hf
      cases h
      exact .inr ⟨f, rfl, hf, rfl⟩
    · cases h

/-- What is given with one more flag raised. -/
def withFlag (g : Given) : Flag → Given
  | .verbose => { g with verbose := min 255 (g.verbose + 1) }
  | .quiet => { g with quiet := true }
  | .noColor => { g with noColor := true }
  | .print => { g with print := true }
  | .help => g
  | .version => g

/-- Raising a flag changes that flag alone. -/
theorem eq_of_raise {x : Flag} (h : g.raise x = .ok g') : g' = g.withFlag x := by
  cases x with
  | verbose => cases h; rfl
  | quiet =>
    simp only [raise] at h
    split at h <;> cases h
    rfl
  | noColor =>
    simp only [raise] at h
    split at h <;> cases h
    rfl
  | print =>
    simp only [raise] at h
    split at h <;> cases h
    rfl
  | help => cases h
  | version => cases h

end Given

namespace Side

variable {command : Option CommandName} {name : CommandName} {s s' t : Side} {a : String}
  {rest : List String}

/-- A flag that is taken is raised in what was given, once what is pending is looked at. -/
theorem exists_of_takeFlag {f : Flag} (h : s.takeFlag command f = .ok s') :
    ∃ g g', s.settle command = .ok g ∧ g.raise f = .ok g' ∧ s' = { given := g' } := by
  obtain ⟨g, hg, h⟩ := exists_of_bind_ok h
  obtain ⟨g', hg', h⟩ := exists_of_bind_ok h
  cases h
  exact ⟨g, g', hg, hg', rfl⟩

/-- An option that is taken waits for its value, or has it already. -/
theorem exists_of_takeValue {o : ValueOption} {attached : Option String}
    (h : s.takeValue command o attached = .ok s') :
    ∃ g, s.settle command = .ok g ∧
      ((attached = none ∧ s' = ⟨g, .option o⟩) ∨
        ∃ v g', attached = some v ∧ g.setValue v o = .ok g' ∧ s' = { given := g' }) := by
  obtain ⟨g, hg, h⟩ := exists_of_bind_ok h
  refine ⟨g, hg, ?_⟩
  cases attached with
  | none =>
    cases h
    exact .inl ⟨rfl, rfl⟩
  | some v =>
    obtain ⟨g', hg', h⟩ := exists_of_bind_ok h
    cases h
    exact .inr ⟨v, g', rfl, hg', rfl⟩

/-- An option by its name is a flag or takes a value. -/
theorem cases_of_takeLong {n : String} {attached : Option String}
    (h : s.takeLong command n attached = .ok s') :
    (∃ f, OptionName.ofLong? command n = some (.flag f) ∧ attached = none ∧
      s.takeFlag command f = .ok s') ∨
    ∃ o, OptionName.ofLong? command n = some (.withValue o) ∧
      s.takeValue command o attached = .ok s' := by
  unfold takeLong at h
  split at h
  case h_1 => cases h
  case h_2 o ho => exact .inr ⟨o, ho, h⟩
  case h_3 f hf =>
    split at h
    · cases h
    · rename_i hnone
      exact .inl ⟨f, hf, by simpa using hnone, h⟩

theorem ofShort?_eq_withValue {c : Char} {o : ValueOption}
    (h : OptionName.ofShort? c = some (.withValue o)) : c = 'c' := by
  unfold OptionName.ofShort? at h
  split at h <;> simp_all

/-- The value that is attached to the letter of an option. -/
def attached? : List Char → Option String
  | [] => none
  | '=' :: value => some (String.ofList value)
  | value => some (String.ofList value)

/-- The letter of an option that takes a value takes all the rest for it. -/
theorem takeShort_withValue {c : Char} {o : ValueOption}
    (h : OptionName.ofShort? c = some (.withValue o)) (s : Side) (cs : List Char) :
    s.takeShort command (c :: cs) = s.takeValue command o (attached? cs) := by
  cases cs with
  | nil => simp [takeShort, h, attached?]
  | cons d ds =>
    by_cases hd : d = '='
    · simp [takeShort, h, attached?, hd]
    · simp [takeShort, h, attached?, hd]

/-- The first of several letters is a flag, or it is that of an option that takes a value. -/
theorem cases_of_takeShort {c : Char} {cs : List Char}
    (h : s.takeShort command (c :: cs) = .ok s') :
    (∃ f s₁, OptionName.ofShort? c = some (.flag f) ∧ s.takeFlag command f = .ok s₁ ∧
      s₁.takeShort command cs = .ok s') ∨
    ∃ o, OptionName.ofShort? c = some (.withValue o) ∧
      s.takeValue command o (attached? cs) = .ok s' := by
  cases ho : OptionName.ofShort? c with
  | none =>
    rw [takeShort, ho] at h
    cases h
  | some option =>
    cases option with
    | flag f =>
      rw [takeShort, ho] at h
      obtain ⟨s₁, hs₁, h⟩ := exists_of_bind_ok h
      exact .inl ⟨f, s₁, rfl, hs₁, h⟩
    | withValue o =>
      rw [takeShort_withValue ho] at h
      exact .inr ⟨o, rfl, h⟩

/-- A positional argument joins those that are pending, or it is the first after what is settled. -/
theorem cases_of_takePositional {v : String} (h : takePositional name s v = .ok s') :
    (∃ vs, s.pending = .positionals vs ∧ s' = ⟨s.given, .positionals (vs ++ [v])⟩) ∨
      ∃ g, s.settle (some name) = .ok g ∧ s' = ⟨g, .positionals [v]⟩ := by
  have hsettled : ∀ {x : Except UsageError Side}, x = .ok s' →
      (x = do return { given := ← s.settle (some name), pending := .positionals [v] }) →
      ∃ g, s.settle (some name) = .ok g ∧ s' = ⟨g, .positionals [v]⟩ := by
    rintro x h rfl
    obtain ⟨g, hg, h⟩ := exists_of_bind_ok h
    cases h
    exact ⟨g, hg, rfl⟩
  unfold takePositional at h
  split at h
  case h_1 _ vs hpending =>
    cases h
    exact .inl ⟨vs, hpending, rfl⟩
  case h_2 => cases h
  case h_3 => exact .inr (hsettled h rfl)
  case h_4 =>
    split at h
    · exact .inr (hsettled h rfl)
    · cases h

/-! ## One argument at a time -/

/-- An argument is taken on the side after the name of the command: it belongs to an option, or it
is positional. -/
inductive Reads (name : CommandName) : Side → String → Side → Prop
  | takes {s s' : Side} {a : String} (h : Takes (some name) s a s') : Reads name s a s'
  | positional {s s' : Side} {a : String} (ha : Argument.ofString a = .plain a)
    (hpending : ∀ o, s.pending ≠ .option o) (h : takePositional name s a = .ok s') :
    Reads name s a s'

/-- After the name of the command, an argument that is not two dashes alone is taken by itself. -/
theorem exists_of_ofArguments (ha : a ≠ "--") (h : s.ofArguments name (a :: rest) = .ok t) :
    ∃ s₁, Reads name s a s₁ ∧ s₁.ofArguments name rest = .ok t := by
  rw [ofArguments] at h
  split at h
  case h_1 hshape => exact absurd (Argument.eq_of_ofString_escape hshape) ha
  case h_2 hshape =>
    obtain ⟨s₁, hs₁, h⟩ := exists_of_bind_ok h
    exact ⟨s₁, .takes (.long hshape hs₁), h⟩
  case h_3 hshape =>
    obtain ⟨s₁, hs₁, h⟩ := exists_of_bind_ok h
    exact ⟨s₁, .takes (.short hshape hs₁), h⟩
  case h_4 v hshape =>
    obtain rfl := Argument.eq_of_ofString_plain hshape
    split at h
    case h_1 o hpending =>
      obtain ⟨g, pending⟩ := s
      obtain rfl : pending = .option o := hpending
      exact ⟨_, .takes (.value hshape), h⟩
    case h_2 hpending =>
      obtain ⟨s₁, hs₁, h⟩ := exists_of_bind_ok h
      exact ⟨s₁, .positional hshape hpending hs₁, h⟩

/-- What is given on a side that has passed its checks is what is settled, and it does not ask to be
quiet and to be verbose. -/
theorem settle_of_finish {env : Environment} {g : Given} (h : s.finish command env = .ok g) :
    s.settle command = .ok g ∧ ¬ (g.quiet = true ∧ 0 < g.verbose) ∧
      (g.noColor = true ∨ ∀ v, env.noColor = some v → v = "true" ∨ v = "false") := by
  obtain ⟨g₁, hg₁, h⟩ := exists_of_bind_ok h
  obtain ⟨g₂, hg₂, h⟩ := exists_of_bind_ok h
  have hvariable : g₁ = g₂ ∧
      (g₁.noColor = true ∨ ∀ v, env.noColor = some v → v = "true" ∨ v = "false") := by
    unfold Given.checkEnvironment at hg₂
    split at hg₂
    · cases hg₂
    split at hg₂
    · cases hg₂
    · rename_i hcolor
      cases hg₂
      refine ⟨rfl, ?_⟩
      cases hflag : g₁.noColor with
      | true => exact .inl rfl
      | false =>
        refine .inr fun v hv => ?_
        simp only [hflag, hv, Bool.not_false, Bool.true_and, Option.any_some] at hcolor
        by_cases htrue : v = "true"
        · exact .inl htrue
        · exact .inr (by simpa [htrue] using hcolor)
  obtain ⟨rfl, hvariable⟩ := hvariable
  unfold Given.checkConflicts at h
  split at h
  · cases h
  · rename_i hconflict
    cases h
    refine ⟨hg₁, ?_, hvariable⟩
    simpa using hconflict

end Side

namespace Invocation

variable {env : Environment} {s : Side} {i : Invocation} {a : String} {rest : List String}

/-- Arguments without the name of a command are not accepted. -/
theorem ofArguments_nil (env : Environment) (s : Side) (i : Invocation) :
    ofArguments env s [] ≠ .ok i := by
  intro h
  rw [ofArguments, unnamed] at h
  obtain ⟨g, -, h⟩ := exists_of_bind_ok h
  obtain ⟨g', -, h⟩ := exists_of_bind_ok h
  split at h <;> cases h

/-- A command that was named, with what stands on either side of its name: both sides have passed
their checks, and the options are theirs together. -/
structure Named (env : Environment) (s : Side) (name : CommandName) (rest : List String)
    (i : Invocation) (side : Side) (before after : Given) : Prop where
  read : Side.ofArguments name {} rest = .ok side
  finish_after : side.finish (some name) env = .ok after
  finish_before : s.finish none env = .ok before
  command : after.command name = .ok i.command
  options : i.options = before.merge after env

/-- Before the name of the command an argument belongs to an option, or it is that name. -/
theorem cases_of_ofArguments (h : ofArguments env s (a :: rest) = .ok i) :
    (∃ s₁, Side.Takes none s a s₁ ∧ ofArguments env s₁ rest = .ok i) ∨
    ∃ name side before after, Argument.ofString a = .plain a ∧ CommandName.ofName? a = some name ∧
      (∀ o, s.pending ≠ .option o) ∧ Named env s name rest i side before after := by
  rw [ofArguments.eq_def] at h
  cases hshape : Argument.ofString a with
  | escape =>
    simp only [hshape] at h
    split at h
    · exact absurd h (ofArguments_nil env s i)
    · cases h
  | long n v =>
    simp only [hshape] at h
    obtain ⟨s₁, hs₁, h⟩ := exists_of_bind_ok h
    exact .inl ⟨s₁, .long hshape hs₁, h⟩
  | short cs =>
    simp only [hshape] at h
    obtain ⟨s₁, hs₁, h⟩ := exists_of_bind_ok h
    exact .inl ⟨s₁, .short hshape hs₁, h⟩
  | plain v =>
    obtain rfl := Argument.eq_of_ofString_plain hshape
    simp only [hshape] at h
    split at h
    case h_1 => contradiction
    case h_2 => contradiction
    case h_3 => contradiction
    case h_4 o w hpending heq =>
      cases heq
      obtain ⟨g, pending⟩ := s
      obtain rfl : pending = .option o := hpending
      exact .inl ⟨_, .value hshape, h⟩
    case h_5 w heq hpending =>
      cases heq
      split at h
      case h_1 name hname =>
        obtain ⟨side, hside, h⟩ := exists_of_bind_ok h
        obtain ⟨after, hafter, h⟩ := exists_of_bind_ok h
        obtain ⟨command, hcommand, h⟩ := exists_of_bind_ok h
        obtain ⟨before, hbefore, h⟩ := exists_of_bind_ok h
        cases h
        exact .inr ⟨name, side, before, after, rfl, hname, hpending,
          ⟨hside, hafter, hbefore, hcommand, rfl⟩⟩
      case h_2 => cases h

end Invocation

end Dbml
