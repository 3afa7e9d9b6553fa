import Dbml.Proofs.Command.Accepted

/-!
# Command lines that differ in how results are shown

Some options say only how results are shown: the format, whether to be quiet, whether to print the
documents, and the one against color (`Aspect`). Two command lines differ only in these if one is
the other with words for them put in or left out, in as many places as one likes (`DifferIn`). What
stands after two dashes alone is the same on both, for there it is no option.

Two such lines, if both are accepted, are read alike: as the same command on the same paths, with
the same file for settings, and with the same options but those that may differ
(`Invocation.alike_of_parse`). The two readings are followed side by side. They need not be at the
same point in their arguments, nor look at what is pending at the same time; what they agree on is
what is given once that is looked at (`Side.Alike`).
-/

namespace Dbml

/-! ## What may differ -/

/-- What only has to do with how results are shown. -/
inductive Aspect where
  | format
  | quiet
  | print
  | color
deriving DecidableEq, Repr

/-- The arguments that are a word for an aspect. -/
inductive Aspect.Spelled : Aspect → List String → Prop
  | formatApart (f : Format) : Spelled .format ["--format", f.name]
  | formatJoined (f : Format) : Spelled .format ["--format=" ++ f.name]
  | quiet : Spelled .quiet ["--quiet"]
  | quietLetter : Spelled .quiet ["-q"]
  | print : Spelled .print ["--print"]
  | noColor : Spelled .color ["--no-color"]

/-- Two lists of arguments that differ only in words for some aspects. -/
inductive DifferIn (S : List Aspect) : List String → List String → Prop
  | nil : DifferIn S [] []
  /-- What is positional stays. -/
  | escape (rest : List String) : DifferIn S ("--" :: rest) ("--" :: rest)
  | keep {a : String} {args args' : List String} (ha : a ≠ "--") (h : DifferIn S args args') :
    DifferIn S (a :: args) (a :: args')
  | word {x : Aspect} {w args args' : List String} (hx : x ∈ S) (hw : x.Spelled w)
    (h : DifferIn S args args') : DifferIn S (w ++ args) args'
  /-- The letter for being quiet among other letters, before that of the option with a value. -/
  | letter {before after : List Char} {args args' : List String} (hx : .quiet ∈ S)
    (hvalue : 'c' ∉ before) (hletters : (before ++ after).head?.any (· ≠ '-') = true)
    (h : DifferIn S args args') :
    DifferIn S (String.ofList ('-' :: (before ++ 'q' :: after)) :: args)
      (String.ofList ('-' :: (before ++ after)) :: args')
  | symm {args args' : List String} (h : DifferIn S args args') : DifferIn S args' args

/-- Two environments that are the same but for the variable against color, which may differ if color
may. -/
structure Environment.DifferIn (S : List Aspect) (env env' : Environment) : Prop where
  home : env.home = env'.home
  configHome : env.configHome = env'.configHome
  config : env.config = env'.config
  noColor : .color ∉ S → env.noColor = env'.noColor

theorem Environment.DifferIn.symm {S : List Aspect} {env env' : Environment}
    (h : env.DifferIn S env') : env'.DifferIn S env :=
  ⟨h.home.symm, h.configHome.symm, h.config.symm, fun hx => (h.noColor hx).symm⟩

/-! ## What is given alike -/

/-- What is given is the same but for some aspects. -/
structure Given.Alike (S : List Aspect) (g g' : Given) : Prop where
  config : g.config = g'.config
  positionals : g.positionals = g'.positionals
  verbose : g.verbose = g'.verbose
  format : .format ∉ S → g.format = g'.format
  quiet : .quiet ∉ S → g.quiet = g'.quiet
  print : .print ∉ S → g.print = g'.print
  noColor : .color ∉ S → g.noColor = g'.noColor

/-- The aspect of a flag that has to do with one. -/
def Flag.aspect? : Flag → Option Aspect
  | .quiet => some .quiet
  | .noColor => some .color
  | .print => some .print
  | _ => none

namespace Given.Alike

variable {S : List Aspect} {g g' h h' : Given}

theorem refl (g : Given) : Given.Alike S g g :=
  ⟨rfl, rfl, rfl, fun _ => rfl, fun _ => rfl, fun _ => rfl, fun _ => rfl⟩

theorem symm (hg : g.Alike S g') : g'.Alike S g :=
  ⟨hg.config.symm, hg.positionals.symm, hg.verbose.symm, fun hx => (hg.format hx).symm,
    fun hx => (hg.quiet hx).symm, fun hx => (hg.print hx).symm, fun hx => (hg.noColor hx).symm⟩

/-- The same value given to both keeps them alike. -/
theorem setValue {v : String} {o : ValueOption} (hg : g.Alike S g') (hset : g.setValue v o = .ok h)
    (hset' : g'.setValue v o = .ok h') : h.Alike S h' := by
  obtain ⟨rfl, rfl⟩ | ⟨f, rfl, hf, rfl⟩ := cases_of_setValue hset
  · obtain ⟨-, rfl⟩ | ⟨_, ho, -, -⟩ := cases_of_setValue hset'
    · exact { hg with config := rfl }
    · cases ho
  · obtain ⟨ho, -⟩ | ⟨f', -, hf', rfl⟩ := cases_of_setValue hset'
    · cases ho
    · cases hf.symm.trans hf'
      exact { hg with format := fun _ => rfl }

/-- The same flag raised in both keeps them alike. -/
theorem raise {x : Flag} (hg : g.Alike S g') (hraise : g.raise x = .ok h)
    (hraise' : g'.raise x = .ok h') : h.Alike S h' := by
  rw [eq_of_raise hraise, eq_of_raise hraise']
  cases x with
  | verbose => exact { hg with verbose := by rw [withFlag, withFlag, hg.verbose] }
  | quiet => exact { hg with quiet := fun _ => rfl }
  | noColor => exact { hg with noColor := fun _ => rfl }
  | print => exact { hg with print := fun _ => rfl }
  | help => exact hg
  | version => exact hg

/-- The same positional arguments added to both keep them alike. -/
theorem addPositionals {command : Option CommandName} {vs : List String} (hg : g.Alike S g')
    (hadd : g.addPositionals command vs = .ok h) (hadd' : g'.addPositionals command vs = .ok h') :
    h.Alike S h' := by
  obtain ⟨-, rfl⟩ := Side.addPositionals_eq_ok_iff.1 hadd
  obtain ⟨-, rfl⟩ := Side.addPositionals_eq_ok_iff.1 hadd'
  exact { hg with positionals := by rw [hg.positionals] }

/-- A flag raised in one of them makes no difference if its aspect may differ. -/
theorem of_raise {x : Flag} {y : Aspect} (hg : g.Alike S g') (hx : x.aspect? = some y) (hy : y ∈ S)
    (hraise : g.raise x = .ok h) : h.Alike S g' := by
  rw [eq_of_raise hraise]
  cases x with
  | quiet =>
    cases hx
    exact { hg with quiet := fun hn => absurd hy hn }
  | noColor =>
    cases hx
    exact { hg with noColor := fun hn => absurd hy hn }
  | print =>
    cases hx
    exact { hg with print := fun hn => absurd hy hn }
  | _ => cases hx

/-- Nor does a format that is given in one of them if the format may differ. -/
theorem of_format {v : String} (hg : g.Alike S g') (hy : .format ∈ S)
    (hset : g.setValue v .format = .ok h) : h.Alike S g' := by
  obtain ⟨ho, -⟩ | ⟨f, -, -, rfl⟩ := cases_of_setValue hset
  · cases ho
  · exact { hg with format := fun hn => absurd hy hn }

end Given.Alike

/-! ## Sides alike -/

namespace Side

variable {S : List Aspect} {command : Option CommandName} {name : CommandName} {s s' t t' : Side}
  {g g' : Given} {a a' : String} {args args' w : List String}

/-- Two sides on which the same is given but for some aspects: both wait for the value of the same
option, or neither does and what is given is alike once what is pending is looked at. -/
inductive Alike (S : List Aspect) (command : Option CommandName) : Side → Side → Prop
  | waiting {g g' : Given} {o : ValueOption} (h : g.Alike S g') :
    Alike S command ⟨g, .option o⟩ ⟨g', .option o⟩
  | settled {s s' : Side} (hs : ∀ o, s.pending ≠ .option o) (hs' : ∀ o, s'.pending ≠ .option o)
    (h : ∀ {g g'}, s.settle command = .ok g → s'.settle command = .ok g' → g.Alike S g') :
    Alike S command s s'

theorem Alike.symm (h : Alike S command s s') : Alike S command s' s := by
  cases h with
  | waiting h => exact .waiting h.symm
  | settled hs hs' h => exact .settled hs' hs fun hg hg' => (h hg' hg).symm

theorem alike_given (h : g.Alike S g') : Alike S command { given := g } { given := g' } := by
  refine .settled (by simp) (by simp) fun hg hg' => ?_
  cases hg
  cases hg'
  exact h

/-- Where one side can be settled, neither waits for a value. -/
theorem Alike.of_settle (h : Alike S command s s') (hg : s.settle command = .ok g) :
    (∀ o, s'.pending ≠ .option o) ∧ ∀ {g'}, s'.settle command = .ok g' → g.Alike S g' := by
  cases h with
  | waiting => cases hg
  | settled hs hs' h => exact ⟨hs', fun hg' => h hg hg'⟩

/-- A side with nothing pending is like one that comes to the same, once it is settled. -/
theorem alike_of_given (hs' : ∀ o, s'.pending ≠ .option o)
    (h : ∀ {g'}, s'.settle command = .ok g' → g.Alike S g') :
    Alike S command { given := g } s' := by
  refine .settled (by simp) hs' fun hg hg' => ?_
  cases hg
  exact h hg'

/-! ## The same argument on both -/

/-- The same flag on both sides keeps them alike. -/
theorem Alike.takeFlag {x : Flag} (hs : Alike S command s s') (h : s.takeFlag command x = .ok t)
    (h' : s'.takeFlag command x = .ok t') : Alike S command t t' := by
  obtain ⟨g, g₁, hg, hraise, rfl⟩ := exists_of_takeFlag h
  obtain ⟨g', g₁', hg', hraise', rfl⟩ := exists_of_takeFlag h'
  exact alike_given (((hs.of_settle hg).2 hg').raise hraise hraise')

theorem Alike.takeValue {o : ValueOption} {attached : Option String} (hs : Alike S command s s')
    (h : s.takeValue command o attached = .ok t) (h' : s'.takeValue command o attached = .ok t') :
    Alike S command t t' := by
  obtain ⟨g, hg, h⟩ := exists_of_takeValue h
  obtain ⟨g', hg', h'⟩ := exists_of_takeValue h'
  have halike := (hs.of_settle hg).2 hg'
  rcases h with ⟨rfl, rfl⟩ | ⟨v, g₁, rfl, hset, rfl⟩
  · rcases h' with ⟨-, rfl⟩ | ⟨v, g₁', hv, -, -⟩
    · exact .waiting halike
    · cases hv
  · rcases h' with ⟨hv, -⟩ | ⟨v', g₁', hv, hset', rfl⟩
    · cases hv
    · cases hv
      exact alike_given (halike.setValue hset hset')

theorem Alike.takeShort {cs : List Char} (hs : Alike S command s s')
    (h : s.takeShort command cs = .ok t) (h' : s'.takeShort command cs = .ok t') :
    Alike S command t t' := by
  induction cs generalizing s s' with
  | nil =>
    cases h
    cases h'
    exact hs
  | cons c cs ih =>
    rcases cases_of_takeShort h with ⟨x, s₁, hx, hflag, h⟩ | ⟨o, ho, hvalue⟩
    · rcases cases_of_takeShort h' with ⟨x', s₁', hx', hflag', h'⟩ | ⟨o, ho, -⟩
      · cases hx.symm.trans hx'
        exact ih (hs.takeFlag hflag hflag') h h'
      · cases hx.symm.trans ho
    · rw [takeShort_withValue ho] at h'
      exact hs.takeValue hvalue h'

theorem Alike.takeLong {n : String} {attached : Option String} (hs : Alike S command s s')
    (h : s.takeLong command n attached = .ok t) (h' : s'.takeLong command n attached = .ok t') :
    Alike S command t t' := by
  rcases cases_of_takeLong h with ⟨x, hx, -, hflag⟩ | ⟨o, ho, hvalue⟩
  · rcases cases_of_takeLong h' with ⟨x', hx', -, hflag'⟩ | ⟨o, ho, -⟩
    · cases hx.symm.trans hx'
      exact hs.takeFlag hflag hflag'
    · cases hx.symm.trans ho
  · rcases cases_of_takeLong h' with ⟨x', hx', -, -⟩ | ⟨o', ho', hvalue'⟩
    · cases ho.symm.trans hx'
    · cases ho.symm.trans ho'
      exact hs.takeValue hvalue hvalue'

theorem takeLong_of_takes {n : String} {attached : Option String}
    (ha : Argument.ofString a = .long n attached) (h : Takes command s a t) :
    s.takeLong command n attached = .ok t := by
  cases h with
  | long ha' h =>
    cases ha.symm.trans ha'
    exact h
  | short ha' h => cases ha.symm.trans ha'
  | value ha' => cases ha.symm.trans ha'

theorem takeShort_of_takes {cs : List Char} (ha : Argument.ofString a = .short cs)
    (h : Takes command s a t) : s.takeShort command cs = .ok t := by
  cases h with
  | long ha' h => cases ha.symm.trans ha'
  | short ha' h =>
    cases ha.symm.trans ha'
    exact h
  | value ha' => cases ha.symm.trans ha'

/-- An argument of an option is taken on both sides. -/
theorem Alike.takes (hs : Alike S command s s') (h : Takes command s a t)
    (h' : Takes command s' a t') : Alike S command t t' := by
  cases h with
  | long ha h => exact hs.takeLong h (takeLong_of_takes ha h')
  | short ha h => exact hs.takeShort h (takeShort_of_takes ha h')
  | value ha =>
    cases h' with
    | long ha' => cases ha.symm.trans ha'
    | short ha' => cases ha.symm.trans ha'
    | value =>
      cases hs with
      | waiting h => exact .settled (by simp) (by simp) fun hg hg' => h.setValue hg hg'
      | settled hs => exact absurd rfl (hs _)

/-- With one more positional argument, what is given is what was given and that argument. -/
theorem exists_of_settle_takePositional {v : String} (h : takePositional name s v = .ok t) :
    (∀ o, t.pending ≠ .option o) ∧ ∀ {k}, t.settle (some name) = .ok k →
      ∃ g, s.settle (some name) = .ok g ∧ g.addPositionals (some name) [v] = .ok k := by
  obtain ⟨vs, hpending, rfl⟩ | ⟨g, hg, rfl⟩ := cases_of_takePositional h
  · refine ⟨by simp, fun hk => ?_⟩
    obtain ⟨hfits, rfl⟩ := addPositionals_eq_ok_iff.1 hk
    rw [List.all_append, Bool.and_eq_true_iff] at hfits
    refine ⟨{ s.given with positionals := s.given.positionals ++ vs }, ?_, ?_⟩
    · rw [settle, hpending]
      exact addPositionals_eq_ok_iff.2 ⟨hfits.1, rfl⟩
    · exact addPositionals_eq_ok_iff.2 ⟨hfits.2, by simp⟩
  · exact ⟨by simp, fun hk => ⟨g, hg, hk⟩⟩

/-- The same positional argument on both sides keeps them alike, though on one it may join others
that are pending and on the other not. -/
theorem Alike.takePositional {v : String} (hs : Alike S (some name) s s')
    (h : Side.takePositional name s v = .ok t) (h' : Side.takePositional name s' v = .ok t') :
    Alike S (some name) t t' := by
  obtain ⟨hpending, h⟩ := exists_of_settle_takePositional h
  obtain ⟨hpending', h'⟩ := exists_of_settle_takePositional h'
  refine .settled hpending hpending' fun hk hk' => ?_
  obtain ⟨g, hg, hadd⟩ := h hk
  obtain ⟨g', hg', hadd'⟩ := h' hk'
  exact ((hs.of_settle hg).2 hg').addPositionals hadd hadd'

/-- Either both sides wait for a value or neither does. -/
theorem Alike.waiting_iff (hs : Alike S command s s') :
    (∃ o, s.pending = .option o) ↔ ∃ o, s'.pending = .option o := by
  cases hs with
  | waiting => exact ⟨fun _ => ⟨_, rfl⟩, fun _ => ⟨_, rfl⟩⟩
  | settled hs hs' => exact ⟨fun ⟨o, ho⟩ => absurd ho (hs o), fun ⟨o, ho⟩ => absurd ho (hs' o)⟩

/-- An argument without dashes belongs to an option only where one waits for it. -/
theorem Takes.waiting {v : String} (h : Takes command s a t) (ha : Argument.ofString a = .plain v) :
    ∃ o, s.pending = .option o := by
  cases h with
  | long ha' => cases ha.symm.trans ha'
  | short ha' => cases ha.symm.trans ha'
  | value => exact ⟨_, rfl⟩

/-- After the name of the command, the same argument keeps the sides alike: it is a value or
positional on both. -/
theorem Alike.reads (hs : Alike S (some name) s s') (h : Reads name s a t)
    (h' : Reads name s' a t') : Alike S (some name) t t' := by
  cases h with
  | takes h =>
    cases h' with
    | takes h' => exact hs.takes h h'
    | positional ha hpending' =>
      obtain ⟨o, ho⟩ := hs.waiting_iff.1 (h.waiting ha)
      exact absurd ho (hpending' o)
  | positional ha hpending h =>
    cases h' with
    | takes h' =>
      obtain ⟨o, ho⟩ := hs.waiting_iff.2 (h'.waiting ha)
      exact absurd ho (hpending o)
    | positional _ _ h' => exact hs.takePositional h h'

theorem Alike.foldlM_takePositional {vs : List String} (hs : Alike S (some name) s s')
    (h : vs.foldlM (Side.takePositional name) s = .ok t)
    (h' : vs.foldlM (Side.takePositional name) s' = .ok t') : Alike S (some name) t t' := by
  induction vs generalizing s s' with
  | nil =>
    cases h
    cases h'
    exact hs
  | cons v vs ih =>
    rw [List.foldlM_cons] at h h'
    obtain ⟨s₁, hs₁, h⟩ := exists_of_bind_ok h
    obtain ⟨s₁', hs₁', h'⟩ := exists_of_bind_ok h'
    exact ih (hs.takePositional hs₁ hs₁') h h'

/-! ## A word on one of them -/

/-- A flag on one of the sides makes no difference if its aspect may differ. -/
theorem Alike.of_takeFlag {x : Flag} {y : Aspect} (hs : Alike S command s s')
    (hx : x.aspect? = some y) (hy : y ∈ S) (h : s.takeFlag command x = .ok t) :
    Alike S command t s' := by
  obtain ⟨g, g₁, hg, hraise, rfl⟩ := exists_of_takeFlag h
  -- the flag settles what is pending on its side; on the other side that stays for later
  obtain ⟨hs', halike⟩ := hs.of_settle hg
  exact alike_of_given hs' fun hg' => (halike hg').of_raise hx hy hraise

/-- The letter for being quiet, among others on one of the sides. -/
theorem Alike.takeShort_letter {before after : List Char} (hs : Alike S command s s')
    (hy : .quiet ∈ S) (hvalue : 'c' ∉ before)
    (h : s.takeShort command (before ++ 'q' :: after) = .ok t)
    (h' : s'.takeShort command (before ++ after) = .ok t') : Alike S command t t' := by
  induction before generalizing s s' with
  | nil =>
    rcases cases_of_takeShort h with ⟨x, s₁, hx, hflag, h⟩ | ⟨o, ho, -⟩
    · cases hx
      exact (hs.of_takeFlag rfl hy hflag).takeShort h h'
    · cases ho
  | cons c before ih =>
    have hrest := List.not_mem_of_not_mem_cons hvalue
    have hc := (List.ne_of_not_mem_cons hvalue).symm
    rcases cases_of_takeShort h with ⟨x, s₁, hx, hflag, h⟩ | ⟨o, ho, -⟩
    · rcases cases_of_takeShort h' with ⟨x', s₁', hx', hflag', h'⟩ | ⟨o, ho, -⟩
      · cases hx.symm.trans hx'
        exact ih (hs.takeFlag hflag hflag') hrest h h'
      · exact absurd (ofShort?_eq_withValue ho) hc
    · exact absurd (ofShort?_eq_withValue ho) hc

/-- An argument belongs to an option: by its shape, or because an option waits for it. -/
structure Belongs (s : Side) (a : String) : Prop where
  not_escape : Argument.ofString a ≠ .escape
  waiting : ∀ v, Argument.ofString a = .plain v → ∃ o, s.pending = .option o

theorem belongs_of_long {n : String} {attached : Option String}
    (ha : Argument.ofString a = .long n attached) : s.Belongs a := by
  refine ⟨?_, fun v hv => ?_⟩
  · rw [ha]
    simp
  · cases ha.symm.trans hv

theorem belongs_of_short {cs : List Char} (ha : Argument.ofString a = .short cs) : s.Belongs a := by
  refine ⟨?_, fun v hv => ?_⟩
  · rw [ha]
    simp
  · cases ha.symm.trans hv

/-- A flag by its name makes no difference if its aspect may differ. -/
theorem Alike.of_takes_flag {n : String} {x : Flag} {y : Aspect} (hs : Alike S command s s')
    (ha : Argument.ofString a = .long n none)
    (hn : ∀ {o}, OptionName.ofLong? command n = some o → o = .flag x) (hx : x.aspect? = some y)
    (hy : y ∈ S) (h : Takes command s a t) : Alike S command t s' := by
  obtain ⟨x', hx', -, hflag⟩ | ⟨o, ho, -⟩ := cases_of_takeLong (takeLong_of_takes ha h)
  · cases hn hx'
    exact hs.of_takeFlag hx hy hflag
  · cases hn ho

/-- The option for the format by its name takes its value from the same argument or the next. -/
theorem takeValue_of_takes {attached : Option String}
    (ha : Argument.ofString a = .long "format" attached) (h : Takes command s a t) :
    s.takeValue command .format attached = .ok t :=
  takeLong_of_takes ha h

/-- What the option for being printed is, where there is one. -/
theorem eq_of_ofLong?_print {o : OptionName} (h : OptionName.ofLong? command "print" = some o) :
    o = .flag .print := by
  simp only [OptionName.ofLong?] at h
  split at h
  · exact (Option.some.inj h).symm
  · cases h

/-- Words for an aspect on one of the sides make no difference if it may differ. This is so for
every reading `R` that takes the arguments which belong to options. -/
theorem Alike.exists_of_word {R : Side → List String → Prop} {x : Aspect}
    (hs : Alike S command s s') (hx : x ∈ S) (hw : x.Spelled w)
    (hstep : ∀ {s a rest}, s.Belongs a → R s (a :: rest) → ∃ t, Takes command s a t ∧ R t rest)
    (h : R s (w ++ args)) : ∃ t, Alike S command t s' ∧ R t args := by
  have hflag : ∀ {a n f}, w = [a] → Argument.ofString a = .long n none →
      (∀ {o}, OptionName.ofLong? command n = some o → o = .flag f) → f.aspect? = some x →
      ∃ t, Alike S command t s' ∧ R t args := by
    rintro a n f rfl ha hn hf
    obtain ⟨t, htakes, ht⟩ := hstep (belongs_of_long ha) h
    exact ⟨t, hs.of_takes_flag ha hn hf hx htakes, ht⟩
  cases hw with
  | formatApart f =>
    have ha : Argument.ofString "--format" = .long "format" none := by decide
    have hplain : Argument.ofString f.name = .plain f.name := by cases f <;> decide
    obtain ⟨s₁, htakes, h⟩ := hstep (belongs_of_long ha) h
    obtain ⟨g, hg, ⟨-, rfl⟩ | ⟨_, _, hv, -, -⟩⟩ :=
      exists_of_takeValue (takeValue_of_takes ha htakes)
    · obtain ⟨t, htakes, ht⟩ := hstep ⟨by simp [hplain], fun _ _ => ⟨_, rfl⟩⟩ h
      obtain ⟨hs', halike⟩ := hs.of_settle hg
      cases htakes with
      | value =>
        -- the value is not looked at yet, but it can only become the format
        refine ⟨_, ?_, ht⟩
        exact .settled (by simp) hs' fun hset hg' => (halike hg').of_format hx hset
      | long ha => cases hplain.symm.trans ha
      | short ha => cases hplain.symm.trans ha
    · cases hv
  | formatJoined f =>
    have ha : Argument.ofString ("--format=" ++ f.name) = .long "format" (some f.name) := by
      cases f <;> decide
    obtain ⟨t, htakes, ht⟩ := hstep (belongs_of_long ha) h
    obtain ⟨g, hg, ⟨hv, -⟩ | ⟨_, g₁, -, hset, rfl⟩⟩ :=
      exists_of_takeValue (takeValue_of_takes ha htakes)
    · cases hv
    · obtain ⟨hs', halike⟩ := hs.of_settle hg
      exact ⟨_, alike_of_given hs' fun hg' => (halike hg').of_format hx hset, ht⟩
  | quietLetter =>
    have ha : Argument.ofString "-q" = .short ['q'] := by decide
    obtain ⟨t, htakes, ht⟩ := hstep (belongs_of_short ha) h
    rcases cases_of_takeShort (takeShort_of_takes ha htakes) with
      ⟨f, s₁, hf, hflag, hend⟩ | ⟨o, ho, -⟩
    · cases hf
      cases hend
      exact ⟨_, hs.of_takeFlag rfl hx hflag, ht⟩
    · cases ho
  | quiet =>
    exact hflag rfl (show Argument.ofString "--quiet" = .long "quiet" none by decide)
      (fun ho => (Option.some.inj ho).symm) rfl
  | print =>
    exact hflag rfl (show Argument.ofString "--print" = .long "print" none by decide)
      eq_of_ofLong?_print rfl
  | noColor =>
    exact hflag rfl (show Argument.ofString "--no-color" = .long "no-color" none by decide)
      (fun ho => (Option.some.inj ho).symm) rfl

/-- The letter for being quiet among others, as it is taken on both sides. -/
theorem Alike.takes_letter {before after : List Char} (hs : Alike S command s s') (hy : .quiet ∈ S)
    (hvalue : 'c' ∉ before) (ha : Argument.ofString a = .short (before ++ 'q' :: after))
    (ha' : Argument.ofString a' = .short (before ++ after)) (h : Takes command s a t)
    (h' : Takes command s' a' t') : Alike S command t t' :=
  hs.takeShort_letter hy hvalue (takeShort_of_takes ha h) (takeShort_of_takes ha' h')

/-! ## The side after the name of the command -/

theorem Reads.takes_of_belongs (h : Reads name s a t) (ha : s.Belongs a) :
    Takes (some name) s a t := by
  cases h with
  | takes h => exact h
  | positional hplain hpending =>
    obtain ⟨o, ho⟩ := ha.waiting _ hplain
    exact absurd ho (hpending o)

/-- After the name of the command, an argument that belongs to an option is taken for one. -/
theorem exists_takes_of_ofArguments (ha : s.Belongs a)
    (h : s.ofArguments name (a :: args) = .ok t) :
    ∃ s₁, Takes (some name) s a s₁ ∧ s₁.ofArguments name args = .ok t := by
  have hescape : a ≠ "--" := by
    rintro rfl
    exact ha.not_escape (by decide)
  obtain ⟨s₁, hreads, h⟩ := exists_of_ofArguments hescape h
  exact ⟨s₁, hreads.takes_of_belongs ha, h⟩

end Side

/-- Letters after a dash, with that for being quiet among them and without. -/
theorem ofString_letter {before after : List Char}
    (hletters : (before ++ after).head?.any (· ≠ '-') = true) :
    Argument.ofString (String.ofList ('-' :: (before ++ 'q' :: after))) =
        .short (before ++ 'q' :: after) ∧
      Argument.ofString (String.ofList ('-' :: (before ++ after))) = .short (before ++ after) := by
  cases before with
  | nil =>
    refine ⟨Argument.ofString_short (by decide) after, ?_⟩
    cases after with
    | nil => cases hletters
    | cons c cs => exact Argument.ofString_short (by simpa using hletters) cs
  | cons c cs =>
    have hc : c ≠ '-' := by simpa using hletters
    exact ⟨Argument.ofString_short hc _, Argument.ofString_short hc _⟩

namespace Side

variable {S : List Aspect} {command : Option CommandName} {name : CommandName} {s s' t t' : Side}
  {args args' : List String}

/-- **Sides that differ in some aspects only come to the same but for these**, if both can be read. -/
theorem alike_of_ofArguments (hargs : DifferIn S args args') (hs : Alike S (some name) s s')
    (h : s.ofArguments name args = .ok t) (h' : s'.ofArguments name args' = .ok t') :
    Alike S (some name) t t' := by
  induction hargs generalizing s s' t t' with
  | nil =>
    cases h
    cases h'
    exact hs
  | escape rest => exact hs.foldlM_takePositional h h'
  | keep ha _ ih =>
    obtain ⟨s₁, hreads, h⟩ := exists_of_ofArguments ha h
    obtain ⟨s₁', hreads', h'⟩ := exists_of_ofArguments ha h'
    exact ih (hs.reads hreads hreads') h h'
  | word hx hw _ ih =>
    -- only one of the two readings moves on
    obtain ⟨s₁, hs₁, h⟩ := hs.exists_of_word (R := fun s args => s.ofArguments name args = .ok t)
      hx hw exists_takes_of_ofArguments h
    exact ih hs₁ h h'
  | letter hx hvalue hletters _ ih =>
    obtain ⟨ha, ha'⟩ := ofString_letter hletters
    obtain ⟨s₁, htakes, h⟩ := exists_takes_of_ofArguments (belongs_of_short ha) h
    obtain ⟨s₁', htakes', h'⟩ := exists_takes_of_ofArguments (belongs_of_short ha') h'
    exact ih (hs.takes_letter hx hvalue ha ha' htakes htakes') h h'
  | symm _ ih => exact (ih hs.symm h' h).symm

end Side

/-! ## Whole lines -/

/-- Two commands that are the same but for printing, which may differ if it is among the aspects. -/
inductive Command.Alike (S : List Aspect) : Command → Command → Prop
  | parse (paths : List Path) {print print' : Bool} (h : .print ∉ S → print = print') :
    Alike S (.parse paths print) (.parse paths print')
  | tokens (file : Path) : Alike S (.tokens file) (.tokens file)
  | completions (shell : Shell) : Alike S (.completions shell) (.completions shell)

/-- Two commands with options that are the same but for some aspects. -/
structure Invocation.Alike (S : List Aspect) (i i' : Invocation) : Prop where
  command : i.command.Alike S i'.command
  config : i.options.config = i'.options.config
  verbose : i.options.verbose = i'.options.verbose
  format : .format ∉ S → i.options.format = i'.options.format
  quiet : .quiet ∉ S → i.options.quiet = i'.options.quiet
  noColor : .color ∉ S → i.options.noColor = i'.options.noColor

theorem Command.Alike.symm {S : List Aspect} {c c' : Command} (h : c.Alike S c') :
    c'.Alike S c := by
  cases h with
  | parse paths h => exact .parse paths fun hx => (h hx).symm
  | tokens file => exact .tokens file
  | completions shell => exact .completions shell

namespace Invocation

variable {S : List Aspect} {env env' : Environment} {s s' : Side} {i i' : Invocation} {a : String}
  {args args' : List String}

theorem Alike.symm (h : i.Alike S i') : i'.Alike S i :=
  ⟨h.command.symm, h.config.symm, h.verbose.symm, fun hx => (h.format hx).symm,
    fun hx => (h.quiet hx).symm, fun hx => (h.noColor hx).symm⟩

/-- The same is asked for where the same is given. -/
theorem command_alike {name : CommandName} {g g' : Given} {c c' : Command} (hg : g.Alike S g')
    (h : g.command name = .ok c) (h' : g'.command name = .ok c') : c.Alike S c' := by
  cases name with
  | parse =>
    cases h
    cases h'
    rw [hg.positionals]
    exact .parse _ hg.print
  | tokens =>
    simp only [Given.command] at h h'
    rw [hg.positionals] at h
    split at h
    · rename_i file hfile
      rw [hfile] at h'
      cases h
      cases h'
      exact .tokens _
    · cases h
  | completions =>
    simp only [Given.command] at h h'
    rw [hg.positionals] at h
    split at h
    · rename_i shell hshell
      rw [hshell] at h'
      cases h
      cases h'
      exact .completions _
    · cases h

/-- Where the command is named on both lines, what stands before it is alike and what follows is
read alike. -/
theorem Named.alike {name : CommandName} {side side' : Side} {before before' after after' : Given}
    (h : Named env s name args i side before after)
    (h' : Named env' s' name args' i' side' before' after') (hargs : DifferIn S args args')
    (henv : env.DifferIn S env') (hs : Side.Alike S none s s') : i.Alike S i' := by
  have hbefore : before.Alike S before' :=
    (hs.of_settle (Side.settle_of_finish h.finish_before).1).2
      (Side.settle_of_finish h'.finish_before).1
  have hside := Side.alike_of_ofArguments hargs (Side.alike_given (.refl {})) h.read h'.read
  have hafter : after.Alike S after' :=
    (hside.of_settle (Side.settle_of_finish h.finish_after).1).2
      (Side.settle_of_finish h'.finish_after).1
  refine ⟨command_alike hafter h.command h'.command, ?_, ?_, ?_, ?_, ?_⟩
  all_goals rw [h.options, h'.options]
  · simp only [Given.merge, hbefore.config, hafter.config, henv.config]
  · simp only [Given.merge, hbefore.verbose, hafter.verbose]
  · intro hx
    simp only [Given.merge, hbefore.format hx, hafter.format hx]
  · intro hx
    simp only [Given.merge, hbefore.quiet hx, hafter.quiet hx]
  · intro hx
    simp only [Given.merge, hbefore.noColor hx, hafter.noColor hx, henv.noColor hx]

/-- Before the name of the command, an argument that belongs to an option is taken for one. -/
theorem exists_takes_of_ofArguments (ha : s.Belongs a) (h : ofArguments env s (a :: args) = .ok i) :
    ∃ s₁, Side.Takes none s a s₁ ∧ ofArguments env s₁ args = .ok i := by
  obtain hoption | ⟨_, _, _, _, hplain, -, hpending, -⟩ := cases_of_ofArguments h
  · exact hoption
  · obtain ⟨o, ho⟩ := ha.waiting _ hplain
    exact absurd ho (hpending o)

/-- Two dashes alone do not stand before the name of the command. -/
theorem ofArguments_escape : ofArguments env s ("--" :: args) ≠ .ok i := by
  intro h
  obtain ⟨s₁, htakes, -⟩ | ⟨_, _, _, _, hplain, -⟩ := cases_of_ofArguments h
  · cases htakes with
    | long ha => exact absurd ha (by simp [Argument.ofString])
    | short ha => exact absurd ha (by simp [Argument.ofString])
    | value ha => exact absurd ha (by decide)
  · exact absurd hplain (by decide)

/-- The two readings side by side, from before the name of the command on. Where the command is
named on one line it is named on the other, for an argument is a value on both or on neither. -/
theorem alike_of_ofArguments (hargs : DifferIn S args args') (henv : env.DifferIn S env')
    (hs : Side.Alike S none s s') (h : ofArguments env s args = .ok i)
    (h' : ofArguments env' s' args' = .ok i') : i.Alike S i' := by
  induction hargs generalizing s s' i i' env env' with
  | nil => exact absurd h (ofArguments_nil env s i)
  | escape rest => exact absurd h ofArguments_escape
  | keep _ hargs ih =>
    rcases cases_of_ofArguments h with
      ⟨s₁, htakes, h⟩ | ⟨name, _, _, _, ha, hname, hpending, hnamed⟩
    · rcases cases_of_ofArguments h' with ⟨s₁', htakes', h'⟩ | ⟨_, _, _, _, ha, -, hpending', -⟩
      · exact ih henv (hs.takes htakes htakes') h h'
      · obtain ⟨o, ho⟩ := hs.waiting_iff.1 (htakes.waiting ha)
        exact absurd ho (hpending' o)
    · rcases cases_of_ofArguments h' with ⟨s₁', htakes', -⟩ | ⟨_, _, _, _, -, hname', -, hnamed'⟩
      · obtain ⟨o, ho⟩ := hs.waiting_iff.2 (htakes'.waiting ha)
        exact absurd ho (hpending o)
      · cases hname.symm.trans hname'
        exact hnamed.alike hnamed' hargs henv hs
  | word hx hw _ ih =>
    obtain ⟨s₁, hs₁, h⟩ := hs.exists_of_word (R := fun s args => ofArguments env s args = .ok i)
      hx hw exists_takes_of_ofArguments h
    exact ih henv hs₁ h h'
  | letter hx hvalue hletters _ ih =>
    obtain ⟨ha, ha'⟩ := ofString_letter hletters
    obtain ⟨s₁, htakes, h⟩ := exists_takes_of_ofArguments (Side.belongs_of_short ha) h
    obtain ⟨s₁', htakes', h'⟩ := exists_takes_of_ofArguments (Side.belongs_of_short ha') h'
    exact ih henv (hs.takes_letter hx hvalue ha ha' htakes htakes') h h'
  | symm _ ih => exact (ih henv.symm hs.symm h' h).symm

/-- **Lines that differ in some aspects only are read alike**, if both are accepted: as the same
command but for printing, and with the same options but for the aspects in question. -/
theorem alike_of_parse (hargs : DifferIn S args args') (henv : env.DifferIn S env')
    (h : parse env args = .ok i) (h' : parse env' args' = .ok i') : i.Alike S i' :=
  alike_of_ofArguments hargs henv (Side.alike_given (.refl {})) h h'

end Invocation

end Dbml
