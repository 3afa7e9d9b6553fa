import Dbml.Proofs.Command.Accepted

/-!
# Command lines that are refused

What is given on a side only grows while its arguments are taken: flags are raised, values and
positional arguments are added, and nothing is taken back (`Given.Grows`). Which flags are raised
can be told from the arguments (`Argument.flags`). So a flag that some argument raises is raised at
the end of its side (`Side.raised_of_flagged`), where to be quiet and to be verbose exclude each
other: a line that asks for both on one side is refused, whatever else it says
(`Invocation.not_parse_of_clash`).

Neither is the variable against color taken as it comes. A line without `--no-color` is refused when
the variable is set to something that is neither `true` nor `false`
(`Invocation.not_parse_of_noColor`).
-/

namespace Dbml

/-! ## Flags that are raised -/

/-- The flag that the letter stands for is raised. -/
def Given.Raised (g : Given) : Letter → Prop
  | .verbose => 0 < g.verbose
  | .quiet => g.quiet = true

/-- An argument that raises a flag: its name after two dashes, or letters after one, of which the
flag's own stands before that of the option with a value. -/
inductive Raises (f : Letter) : String → Prop
  | name : Raises f ("--" ++ f.switch.name)
  | letter {before after : List Char} (hvalue : 'c' ∉ before) (hdash : before.head? ≠ some '-') :
    Raises f (String.ofList ('-' :: (before ++ f.char :: after)))

/-- Among the arguments, and not after two dashes alone, there is one that raises the flag. -/
inductive Flagged (f : Letter) : List String → Prop
  | head {a : String} {rest : List String} (h : Raises f a) : Flagged f (a :: rest)
  | tail {a : String} {rest : List String} (ha : a ≠ "--") (h : Flagged f rest) :
    Flagged f (a :: rest)

theorem Flagged.append_right {f : Letter} {args : List String} (h : Flagged f args)
    (rest : List String) : Flagged f (args ++ rest) := by
  induction h with
  | head h => exact .head h
  | tail ha _ ih => exact .tail ha ih

theorem Flagged.append_left {f : Letter} {args rest : List String} (h : Flagged f rest)
    (hargs : "--" ∉ args) : Flagged f (args ++ rest) := by
  induction args with
  | nil => exact h
  | cons a args ih =>
    have ha : a ≠ "--" := (List.ne_of_not_mem_cons hargs).symm
    exact .tail ha (ih (List.not_mem_of_not_mem_cons hargs))

/-- What is given comes of what was given before by raising the flags of a list, the last one first,
and by giving values and positional arguments. -/
inductive Given.Grows : List Flag → Given → Given → Prop
  | refl (g : Given) : Grows [] g g
  | setValue {xs : List Flag} {g g₁ g' : Given} {v : String} {o : ValueOption}
    (h : Grows xs g g₁) (hset : g₁.setValue v o = .ok g') : Grows xs g g'
  | addPositionals {xs : List Flag} {g g₁ g' : Given} {command : Option CommandName}
    {vs : List String} (h : Grows xs g g₁) (hadd : g₁.addPositionals command vs = .ok g') :
    Grows xs g g'
  | raise {xs : List Flag} {x : Flag} {g g₁ g' : Given} (h : Grows xs g g₁)
    (hraise : g₁.raise x = .ok g') : Grows (x :: xs) g g'

namespace Given

variable {xs ys : List Flag} {g g₁ g' : Given} {f : Letter}

theorem Grows.trans (h : Grows xs g g₁) (h' : Grows ys g₁ g') : Grows (ys ++ xs) g g' := by
  induction h' with
  | refl => exact h
  | setValue _ hset ih => exact (ih h).setValue hset
  | addPositionals _ hadd ih => exact (ih h).addPositionals hadd
  | raise _ hraise ih => exact (ih h).raise hraise

/-- Raising a flag raises it and lowers no other. -/
theorem raised_of_raise {x : Flag} (h : g.raise x = .ok g') (hf : x = f.switch.flag ∨ g.Raised f) :
    g'.Raised f := by
  have hpos : 0 < min 255 (g.verbose + 1) := Nat.lt_min.2 ⟨by decide, Nat.succ_pos _⟩
  rw [eq_of_raise h]
  cases x <;> cases f <;> simp_all [Raised, withFlag, Letter.switch, Switch.flag]

/-- A flag is raised in the end if it is raised on the way, or was raised before. -/
theorem Grows.raised (h : Grows xs g g') (hf : f.switch.flag ∈ xs ∨ g.Raised f) : g'.Raised f := by
  induction h with
  | refl => exact hf.resolve_left (List.not_mem_nil)
  | setValue _ hset ih =>
    obtain ⟨-, rfl⟩ | ⟨_, -, -, rfl⟩ := cases_of_setValue hset <;> cases f <;> exact ih hf
  | addPositionals _ hadd ih =>
    obtain ⟨-, rfl⟩ := Side.addPositionals_eq_ok_iff.1 hadd
    cases f <;> exact ih hf
  | raise _ hraise ih =>
    apply raised_of_raise hraise
    rcases hf with hmem | hg
    · exact (List.mem_cons.1 hmem).imp Eq.symm fun hmem => ih (.inl hmem)
    · exact .inr (ih (.inr hg))

/-- Color is spoken against by one flag only. -/
theorem Grows.noColor (h : Grows xs g g') (hx : .noColor ∉ xs) : g'.noColor = g.noColor := by
  induction h with
  | refl => rfl
  | setValue _ hset ih =>
    obtain ⟨-, rfl⟩ | ⟨_, -, -, rfl⟩ := cases_of_setValue hset <;> exact ih hx
  | addPositionals _ hadd ih =>
    obtain ⟨-, rfl⟩ := Side.addPositionals_eq_ok_iff.1 hadd
    exact ih hx
  | @raise _ x _ _ _ _ hraise ih =>
    have hrest := ih (List.not_mem_of_not_mem_cons hx)
    rw [eq_of_raise hraise]
    cases x with
    | noColor => exact absurd List.mem_cons_self hx
    | _ => exact hrest

end Given

/-! ## The flags of an argument -/

/-- The flags of letters, up to that of the option with a value, the last one first. -/
def letterFlags : List Char → List Flag
  | [] => []
  | c :: cs =>
    match OptionName.ofShort? c with
    | some (.flag x) => letterFlags cs ++ [x]
    | _ => []

/-- The flags that an argument raises. -/
def Argument.flags (command : Option CommandName) : Argument → List Flag
  | long n none =>
    match OptionName.ofLong? command n with
    | some (.flag x) => [x]
    | _ => []
  | short cs => letterFlags cs
  | _ => []

/-- Among letters that are flags, and before that of an option with a value, every flag is raised. -/
theorem mem_letterFlags {f : Letter} {before : List Char} (after : List Char)
    (hflags : ∀ c ∈ before, ∃ x, OptionName.ofShort? c = some (.flag x)) :
    f.switch.flag ∈ letterFlags (before ++ f.char :: after) := by
  induction before with
  | nil => simp [letterFlags, f.ofShort?_char]
  | cons c before ih =>
    obtain ⟨x, hx⟩ := hflags c List.mem_cons_self
    have hmem := ih fun d hd => hflags d (List.mem_cons_of_mem c hd)
    simp only [List.cons_append, letterFlags, hx]
    exact List.mem_append_left _ hmem

/-- There is no letter against color. -/
theorem noColor_not_mem_letterFlags (cs : List Char) : .noColor ∉ letterFlags cs := by
  induction cs with
  | nil => exact List.not_mem_nil
  | cons c cs ih =>
    unfold letterFlags
    split
    case h_1 x hx =>
      intro hmem
      rcases List.mem_append.1 hmem with hmem | hmem
      · exact ih hmem
      · obtain rfl := List.mem_singleton.1 hmem
        unfold OptionName.ofShort? at hx
        split at hx <;> cases hx
    case h_2 => exact List.not_mem_nil

/-- The flag against color has no letter, so only its name raises it. -/
theorem Argument.noColor_not_mem_flags {command : Option CommandName} {a : String}
    (ha : a ≠ "--no-color") : .noColor ∉ (ofString a).flags command := by
  intro hmem
  cases hshape : ofString a with
  | escape => rw [hshape] at hmem; cases hmem
  | plain v => rw [hshape] at hmem; cases hmem
  | short cs =>
    rw [hshape] at hmem
    exact noColor_not_mem_letterFlags cs hmem
  | long n attached =>
    rw [hshape] at hmem
    cases attached with
    | some v => cases hmem
    | none =>
      simp only [flags] at hmem
      split at hmem
      case h_1 x hx =>
        obtain rfl := List.mem_singleton.1 hmem
        unfold OptionName.ofLong? at hx
        split at hx
        case h_5 => exact ha (eq_of_ofString_long hshape)
        case h_6 => split at hx <;> cases hx
        all_goals cases hx
      case h_2 => cases hmem

namespace Side

variable {command : Option CommandName} {name : CommandName} {s s' t : Side} {a : String}
  {args : List String} {f : Letter}

/-- What is pending raises no flag. -/
theorem grows_of_settle {g : Given} (h : s.settle command = .ok g) : Given.Grows [] s.given g := by
  unfold settle at h
  split at h
  · cases h
    exact .refl _
  · cases h
  · exact (Given.Grows.refl _).setValue h
  · exact (Given.Grows.refl _).addPositionals h

theorem grows_of_takeFlag {x : Flag} (h : s.takeFlag command x = .ok s') :
    Given.Grows [x] s.given s'.given := by
  obtain ⟨g, g', hg, hraise, rfl⟩ := exists_of_takeFlag h
  exact (grows_of_settle hg).raise hraise

theorem grows_of_takeValue {o : ValueOption} {attached : Option String}
    (h : s.takeValue command o attached = .ok s') : Given.Grows [] s.given s'.given := by
  obtain ⟨g, hg, ⟨-, rfl⟩ | ⟨v, g', -, hset, rfl⟩⟩ := exists_of_takeValue h
  · exact grows_of_settle hg
  · exact (grows_of_settle hg).setValue hset

/-- Letters raise the flags they stand for, and no others. -/
theorem grows_of_takeShort {cs : List Char} (h : s.takeShort command cs = .ok s') :
    Given.Grows (letterFlags cs) s.given s'.given := by
  induction cs generalizing s with
  | nil =>
    cases h
    exact .refl _
  | cons c cs ih =>
    rcases cases_of_takeShort h with ⟨x, s₁, hx, hflag, h⟩ | ⟨o, ho, hvalue⟩
    · simp only [letterFlags, hx]
      exact (grows_of_takeFlag hflag).trans (ih h)
    · simp only [letterFlags, ho]
      exact grows_of_takeValue hvalue

theorem grows_of_takePositional {v : String} (h : takePositional name s v = .ok s') :
    Given.Grows [] s.given s'.given := by
  obtain ⟨vs, -, rfl⟩ | ⟨g, hg, rfl⟩ := cases_of_takePositional h
  · exact .refl _
  · exact grows_of_settle hg

/-- What an argument adds when it is taken: its flags, and nothing is taken back. -/
theorem Takes.grows (h : Takes command s a s') :
    Given.Grows ((Argument.ofString a).flags command) s.given s'.given := by
  cases h with
  | @long _ _ _ n attached ha h =>
    rw [ha]
    rcases cases_of_takeLong h with ⟨x, hx, rfl, hflag⟩ | ⟨o, ho, hvalue⟩
    · simp only [Argument.flags, hx]
      exact grows_of_takeFlag hflag
    · have hnone : (Argument.long n attached).flags command = [] := by
        cases attached <;> simp [Argument.flags, ho]
      rw [hnone]
      exact grows_of_takeValue hvalue
  | short ha h =>
    rw [ha]
    exact grows_of_takeShort h
  | value ha =>
    rw [ha]
    exact .refl _

/-- After the name of the command, an argument that is taken raises its flags, and no others. -/
theorem Reads.grows (h : Reads name s a s') :
    Given.Grows ((Argument.ofString a).flags (some name)) s.given s'.given := by
  cases h with
  | takes h => exact h.grows
  | positional ha hpending h =>
    rw [ha]
    exact grows_of_takePositional h

/-- Of letters that are taken, those before the letter of the option with a value are flags. -/
theorem flags_of_takeShort {before after : List Char} (hvalue : 'c' ∉ before)
    (h : s.takeShort command (before ++ after) = .ok s') :
    ∀ c ∈ before, ∃ x, OptionName.ofShort? c = some (.flag x) := by
  induction before generalizing s with
  | nil => nofun
  | cons c before ih =>
    rcases cases_of_takeShort h with ⟨x, s₁, hx, -, h⟩ | ⟨o, ho, -⟩
    · intro d hd
      rcases List.mem_cons.1 hd with rfl | hd
      · exact ⟨x, hx⟩
      · exact ih (List.not_mem_of_not_mem_cons hvalue) h d hd
    · exact absurd (ofShort?_eq_withValue ho).symm (List.ne_of_not_mem_cons hvalue)

/-- An argument that raises a flag is its name or letters. -/
theorem cases_of_raises (h : Raises f a) :
    Argument.ofString a = .long f.switch.name none ∨
      ∃ before after, 'c' ∉ before ∧ Argument.ofString a = .short (before ++ f.char :: after) := by
  cases h with
  | name => exact .inl f.switch.ofString_name
  | @letter before after hvalue hdash =>
    refine .inr ⟨before, after, hvalue, ?_⟩
    cases before with
    | nil => exact Argument.ofString_short f.char_ne_dash after
    | cons c before => exact Argument.ofString_short (by simpa using hdash) _

/-- An argument that raises a flag, and is taken, has this flag. -/
theorem Takes.mem_flags (h : Takes command s a s') (ha : Raises f a) :
    f.switch.flag ∈ (Argument.ofString a).flags command := by
  rcases cases_of_raises ha with hshape | ⟨before, after, hvalue, hshape⟩
  · rw [hshape]
    simp [Argument.flags, f.switch.ofLong?_name]
  · rw [hshape]
    cases h with
    | long ha h => cases hshape.symm.trans ha
    | short ha h =>
      cases hshape.symm.trans ha
      exact mem_letterFlags after (flags_of_takeShort hvalue h)
    | value ha => cases hshape.symm.trans ha

theorem Reads.mem_flags (h : Reads name s a s') (ha : Raises f a) :
    f.switch.flag ∈ (Argument.ofString a).flags (some name) := by
  cases h with
  | takes h => exact h.mem_flags ha
  | positional hplain hpending h =>
    rcases cases_of_raises ha with hshape | ⟨before, after, -, hshape⟩
    · cases hshape.symm.trans hplain
    · cases hshape.symm.trans hplain

/-- A flag that is raised stays raised to the end of its side. -/
theorem raised_of_ofArguments (hs : s.given.Raised f) (h : s.ofArguments name args = .ok t) :
    t.given.Raised f := by
  induction args generalizing s with
  | nil =>
    cases h
    exact hs
  | cons a args ih =>
    by_cases ha : a = "--"
    · subst ha
      -- what follows is positional, and there is no way to raise or lower a flag any more
      have hfold : args.foldlM (takePositional name) s = .ok t := h
      clear h ih
      induction args generalizing s with
      | nil =>
        cases hfold
        exact hs
      | cons v args ih =>
        rw [List.foldlM_cons] at hfold
        obtain ⟨s₁, hs₁, hfold⟩ := exists_of_bind_ok hfold
        exact ih ((grows_of_takePositional hs₁).raised (.inr hs)) hfold
    · obtain ⟨s₁, hreads, h⟩ := exists_of_ofArguments ha h
      exact ih (hreads.grows.raised (.inr hs)) h

/-- A flag is raised at the end of a side if one of its arguments raises it. -/
theorem raised_of_flagged (hargs : Flagged f args) (h : s.ofArguments name args = .ok t) :
    t.given.Raised f := by
  induction hargs generalizing s with
  | @head a rest ha =>
    have hescape : a ≠ "--" := by
      rintro rfl
      rcases cases_of_raises ha with hshape | ⟨before, after, -, hshape⟩
      · cases hshape
      · cases hshape
    obtain ⟨s₁, hreads, h⟩ := exists_of_ofArguments hescape h
    exact raised_of_ofArguments (hreads.grows.raised (.inl (hreads.mem_flags ha))) h
  | tail ha _ ih =>
    obtain ⟨s₁, -, h⟩ := exists_of_ofArguments ha h
    exact ih h

end Side

namespace Invocation

variable {env : Environment} {s : Side} {i : Invocation} {args : List String} {f : Letter}

/-- On a side that has passed its checks a flag is raised if it was before them. -/
theorem raised_of_finish {command : Option CommandName} {g : Given} (hs : s.given.Raised f)
    (h : s.finish command env = .ok g) : g.Raised f :=
  (Side.grows_of_settle (Side.settle_of_finish h).1).raised (.inr hs)

/-- To be quiet on either side is to be quiet. -/
theorem Named.quiet {name : CommandName} {rest : List String} {side : Side} {before after : Given}
    (h : Named env s name rest i side before after)
    (hquiet : s.given.Raised .quiet ∨ Flagged .quiet rest) : i.options.quiet = true := by
  rw [h.options]
  rcases hquiet with hs | hrest
  · have hbefore : before.quiet = true := raised_of_finish hs h.finish_before
    simp [Given.merge, hbefore]
  · have hafter : after.quiet = true :=
      raised_of_finish (Side.raised_of_flagged hrest h.read) h.finish_after
    simp [Given.merge, hafter]

/-- A line that is accepted and asks to be quiet, on either side, is read so. -/
theorem quiet_of_ofArguments (hquiet : s.given.Raised .quiet ∨ Flagged .quiet args)
    (h : ofArguments env s args = .ok i) : i.options.quiet = true := by
  induction args generalizing s with
  | nil => exact absurd h (ofArguments_nil env s i)
  | cons a args ih =>
    rcases cases_of_ofArguments h with
      ⟨s₁, htakes, h⟩ | ⟨name, side, before, after, hshape, -, -, hnamed⟩
    · refine ih ?_ h
      rcases hquiet with hs | ha | ⟨-, hrest⟩
      · exact .inl (htakes.grows.raised (.inr hs))
      · exact .inl (htakes.grows.raised (.inl (htakes.mem_flags ha)))
      · exact .inr hrest
    · apply hnamed.quiet
      rcases hquiet with hs | ha | ⟨-, hrest⟩
      · exact .inl hs
      · rcases Side.cases_of_raises ha with hdash | ⟨_, _, -, hdash⟩
        · cases hshape.symm.trans hdash
        · cases hshape.symm.trans hdash
      · exact .inr hrest

/-- To be quiet and to be verbose are asked for on one side of the name of the command: by arguments
among which there is no such name, and which do not stand after two dashes alone. -/
def Clash (args : List String) : Prop :=
  ∃ before side after, args = before ++ side ++ after ∧ "--" ∉ before ++ side ∧
    (∀ a ∈ side, CommandName.ofName? a = none) ∧ Flagged .quiet side ∧ Flagged .verbose side

/-- No side holds both when its checks are passed. -/
theorem not_finish {command : Option CommandName} (hquiet : s.given.Raised .quiet)
    (hverbose : s.given.Raised .verbose) (g : Given) : s.finish command env ≠ .ok g := by
  intro h
  obtain ⟨-, hexclusive, -⟩ := Side.settle_of_finish h
  exact hexclusive ⟨raised_of_finish hquiet h, raised_of_finish hverbose h⟩

/-- Once both are asked for before the name of the command, the line is refused. -/
theorem not_ofArguments (hquiet : s.given.Raised .quiet) (hverbose : s.given.Raised .verbose) :
    ofArguments env s args ≠ .ok i := by
  intro h
  induction args generalizing s with
  | nil => exact ofArguments_nil env s i h
  | cons a args ih =>
    rcases cases_of_ofArguments h with ⟨s₁, htakes, h⟩ | ⟨_, _, _, _, -, -, -, hnamed⟩
    · exact ih (htakes.grows.raised (.inr hquiet)) (htakes.grows.raised (.inr hverbose)) h
    · exact not_finish hquiet hverbose _ hnamed.finish_before

/-- Arguments without the name of a command leave the reading before it. -/
theorem exists_of_append {side after : List String}
    (hside : ∀ a ∈ side, CommandName.ofName? a = none) (h : ofArguments env s (side ++ after) = .ok i) :
    ∃ s₁, ofArguments env s₁ after = .ok i ∧ ∀ f, s.given.Raised f ∨ Flagged f side →
      s₁.given.Raised f := by
  induction side generalizing s with
  | nil =>
    refine ⟨s, h, fun f hf => hf.resolve_right ?_⟩
    nofun
  | cons a side ih =>
    rcases cases_of_ofArguments h with ⟨s₁, htakes, h⟩ | ⟨name, _, _, _, -, hname, -⟩
    · obtain ⟨s₂, h₂, hraised⟩ := ih (fun b hb => hside b (List.mem_cons_of_mem a hb)) h
      refine ⟨s₂, h₂, fun f hf => hraised f ?_⟩
      rcases hf with hs | ha | ⟨-, hrest⟩
      · exact .inl (htakes.grows.raised (.inr hs))
      · exact .inl (htakes.grows.raised (.inl (htakes.mem_flags ha)))
      · exact .inr hrest
    · rw [hside a List.mem_cons_self] at hname
      cases hname

/-- **To be quiet and to be verbose exclude each other**: a line that asks for both on one side of
the name of the command is refused, in whatever words and order and whatever else is on it. -/
theorem not_parse_of_clash (hargs : Clash args) (env : Environment) (i : Invocation) :
    parse env args ≠ .ok i := by
  obtain ⟨before, side, after, rfl, hescape, hnames, hquiet, hverbose⟩ := hargs
  suffices hall : ∀ s, ofArguments env s (before ++ side ++ after) ≠ .ok i from hall {}
  intro s h
  induction before generalizing s with
  | nil =>
    obtain ⟨s₁, h, hraised⟩ := exists_of_append hnames h
    exact not_ofArguments (hraised _ (.inr hquiet)) (hraised _ (.inr hverbose)) h
  | cons a before ih =>
    have hrest : "--" ∉ before ++ side := List.not_mem_of_not_mem_cons hescape
    have hbefore : "--" ∉ before := fun hmem => hrest (List.mem_append_left side hmem)
    rcases cases_of_ofArguments h with ⟨s₁, -, h⟩ | ⟨name, _, _, _, -, -, -, hnamed⟩
    · exact ih hrest s₁ h
    · -- the command is named before the arguments in question, so they stand on the side after it
      have hflagged : ∀ {f}, Flagged f side → Flagged f (before ++ side ++ after) :=
        fun hf => (hf.append_left hbefore).append_right after
      exact not_finish (Side.raised_of_flagged (hflagged hquiet) hnamed.read)
        (Side.raised_of_flagged (hflagged hverbose) hnamed.read) _ hnamed.finish_after

end Invocation

/-! ## The variable against color -/

/-- **The variable against color is checked**: when it is set to something that is neither `true`
nor `false`, a line without `--no-color` is refused. -/
theorem Invocation.not_parse_of_noColor {env : Environment} {v : String} (hv : env.noColor = some v)
    (htrue : v ≠ "true") (hfalse : v ≠ "false") {args : List String} (hargs : "--no-color" ∉ args)
    (i : Invocation) : parse env args ≠ .ok i := by
  suffices hall : ∀ s : Side, s.given.noColor = false → ofArguments env s args ≠ .ok i from
    hall {} rfl
  intro s hs h
  induction args generalizing s with
  | nil => exact ofArguments_nil env s i h
  | cons a args ih =>
    rcases cases_of_ofArguments h with ⟨s₁, htakes, h⟩ | ⟨_, _, _, _, -, -, -, hnamed⟩
    · have ha : a ≠ "--no-color" := (List.ne_of_not_mem_cons hargs).symm
      have hcolor := htakes.grows.noColor (Argument.noColor_not_mem_flags ha)
      exact ih (List.not_mem_of_not_mem_cons hargs) s₁ (hcolor.trans hs) h
    · obtain ⟨hsettle, -, hflag | hvariable⟩ := Side.settle_of_finish hnamed.finish_before
      · rw [(Side.grows_of_settle hsettle).noColor List.not_mem_nil, hs] at hflag
        cases hflag
      · exact (hvariable v hv).elim htrue hfalse

end Dbml
