import Dbml.Command.Arguments
import Dbml.Proofs.Files.Pattern
import Dbml.Proofs.Text.Cut

/-!
# How options are written

An option can be written by its name or by its letter, letters can be put together, and a value can
stand in the same argument or in the next. `Word` has one constructor for each of these ways and
says which options are meant (`Word.choices`) and which arguments are written (`Word.args`). On
either side of the name of the command, the arguments of a word lead to a side that holds what it
held before with the word's options chosen (`Word.takesAll`): the wording is forgotten.
-/

namespace Dbml

/-! ## Options that are given -/

/-- A value that an option can be given in every wording: it begins with a character that is neither
a dash nor an equals sign. -/
structure OptionValue where
  text : String
  fits : text.toList.head?.any (fun c => c ≠ '-' && c ≠ '=') = true
deriving DecidableEq, Repr

/-- An option with its value. -/
inductive Valued where
  | config (v : OptionValue)
  | format (f : Format)
deriving DecidableEq, Repr

/-- An option without a value that every command has. -/
inductive Switch where
  | verbose
  | quiet
  | noColor
deriving DecidableEq, Repr

/-- An option that is given once. -/
inductive Choice where
  | value (o : Valued)
  | switch (f : Switch)
deriving DecidableEq, Repr

namespace Valued

def option : Valued → ValueOption
  | config _ => .config
  | format _ => .format

def name : Valued → String
  | config _ => "config"
  | format _ => "format"

def text : Valued → String
  | config v => v.text
  | format f => f.name

end Valued

namespace Switch

def flag : Switch → Flag
  | verbose => .verbose
  | quiet => .quiet
  | noColor => .noColor

def name : Switch → String
  | verbose => "verbose"
  | quiet => "quiet"
  | noColor => "no-color"

end Switch

/-- The option that is given. -/
def Choice.option : Choice → OptionName
  | value o => .withValue o.option
  | switch f => .flag f.flag

/-- What is given on a side after one more option. -/
def Given.choose (g : Given) : Choice → Except UsageError Given
  | .value o => g.setValue o.text o.option
  | .switch f => g.raise f.flag

/-! ## Wordings -/

/-- The options without a value that have a letter. -/
inductive Letter where
  | verbose
  | quiet
deriving DecidableEq, Repr

namespace Letter

def char : Letter → Char
  | verbose => 'v'
  | quiet => 'q'

def switch : Letter → Switch
  | verbose => .verbose
  | quiet => .quiet

/-- The option that a letter stands for. -/
def choice (f : Letter) : Choice := .switch f.switch

theorem ofShort?_char (f : Letter) : OptionName.ofShort? f.char = some (.flag f.switch.flag) := by
  cases f <;> rfl

theorem char_ne_dash (f : Letter) : f.char ≠ '-' := by
  cases f <;> decide

end Letter

/-- A way to write down options. -/
inductive Word where
  /-- `--verbose` -/
  | named (f : Switch)
  /-- `--config=VALUE` -/
  | joined (o : Valued)
  /-- `--config VALUE` -/
  | apart (o : Valued)
  /-- `-vv` -/
  | letters (f : Letter) (fs : List Letter)
  /-- `-vvc VALUE` -/
  | lettersApart (fs : List Letter) (v : OptionValue)
  /-- `-vvcVALUE` -/
  | lettersJoined (fs : List Letter) (v : OptionValue)
  /-- `-vvc=VALUE` -/
  | lettersEquals (fs : List Letter) (v : OptionValue)
deriving DecidableEq, Repr

namespace Word

/-- The options that are meant. -/
def choices : Word → List Choice
  | named f => [.switch f]
  | joined o => [.value o]
  | apart o => [.value o]
  | letters f fs => f.choice :: fs.map Letter.choice
  | lettersApart fs v => fs.map Letter.choice ++ [.value (.config v)]
  | lettersJoined fs v => fs.map Letter.choice ++ [.value (.config v)]
  | lettersEquals fs v => fs.map Letter.choice ++ [.value (.config v)]

/-- The arguments that are written. -/
def args : Word → List String
  | named f => ["--" ++ f.name]
  | joined o => ["--" ++ o.name ++ "=" ++ o.text]
  | apart o => ["--" ++ o.name, o.text]
  | letters f fs => [String.ofList ('-' :: f.char :: fs.map Letter.char)]
  | lettersApart fs v => [String.ofList ('-' :: (fs.map Letter.char ++ ['c'])), v.text]
  | lettersJoined fs v => [String.ofList ('-' :: (fs.map Letter.char ++ 'c' :: v.text.toList))]
  | lettersEquals fs v =>
    [String.ofList ('-' :: (fs.map Letter.char ++ 'c' :: '=' :: v.text.toList))]

end Word

/-! ## The shapes of arguments -/

namespace Argument

theorem ofString_plain {s : String} (h : ∀ c cs, s.toList = c :: cs → c ≠ '-') :
    ofString s = .plain s := by
  unfold ofString
  split
  case h_1 hs => exact absurd rfl (h _ _ hs)
  case h_2 hs => exact absurd rfl (h _ _ hs)
  case h_3 hs => exact absurd rfl (h _ _ hs)
  case h_4 => rfl

theorem ofString_short {c : Char} (hc : c ≠ '-') (cs : List Char) :
    ofString (String.ofList ('-' :: c :: cs)) = .short (c :: cs) := by
  unfold ofString
  rw [String.toList_ofList]
  split
  case h_1 hs => cases hs; exact absurd rfl hc
  case h_2 hs => cases hs; exact absurd rfl hc
  case h_3 hs => cases hs; rfl
  case h_4 hs => exact absurd rfl (hs _ _)

/-- Two dashes, a name, and nothing or an equals sign after it. -/
theorem ofString_dashes {a : String} (name rest : List Char)
    (ha : a.toList = '-' :: '-' :: (name ++ rest)) (hne : name ≠ []) (hname : '=' ∉ name)
    (hrest : Clear (· ≠ '=') rest) :
    ofString a = .long (String.ofList name) (rest.tail?.map String.ofList) := by
  have hkeep : ∀ c ∈ name, decide (c ≠ '=') = true := by
    intro c hc
    exact decide_eq_true fun heq => hname (heq ▸ hc)
  unfold ofString
  split
  case h_1 hs =>
    rw [ha] at hs
    simp_all
  case h_2 cs _ hs =>
    rw [ha] at hs
    obtain rfl : name ++ rest = cs := by simpa using hs
    rw [takeWhile_append_of_clear hkeep hrest, dropWhile_append_of_clear hkeep hrest]
    cases rest <;> rfl
  case h_3 hdash hs =>
    rw [ha] at hs
    obtain ⟨rfl, -⟩ : '-' = _ ∧ name ++ rest = _ := by simpa using hs
    exact absurd rfl hdash
  case h_4 hs => exact absurd ha (hs _ _)

theorem ofString_long (name : String) (hne : name ≠ "") (hname : '=' ∉ name.toList) :
    ofString ("--" ++ name) = .long name none := by
  have h := ofString_dashes (a := "--" ++ name) name.toList [] (by simp) (by simpa using hne) hname
    (clear_nil _)
  simpa using h

/-- Two dashes, a name, an equals sign and a text is that name with the text as its value. -/
theorem ofString_long_equals {name : String} (hne : name ≠ "") (hname : '=' ∉ name.toList)
    (value : String) : ofString ("--" ++ name ++ "=" ++ value) = .long name (some value) := by
  have h := ofString_dashes (a := "--" ++ name ++ "=" ++ value) name.toList ('=' :: value.toList)
    (by simp) (by simpa using hne) hname (clear_cons.2 (by simp))
  simpa using h

end Argument

/-! ## What is held on a side -/

namespace Side

variable {command : Option CommandName} {s s' : Side} {g g' : Given}

/-- What is given on the side is `g`, once what is pending is looked at. -/
structure Holds (command : Option CommandName) (s : Side) (g : Given) : Prop where
  settled : s.settle command = .ok g
  filled : s.pending ≠ .positionals []

theorem holds_given (g : Given) : Holds command { given := g } g := ⟨rfl, by simp⟩

/-- An argument that belongs to an option is taken, on either side of the name of the command. -/
inductive Takes (command : Option CommandName) : Side → String → Side → Prop
  | long {s s' : Side} {a name : String} {attached : Option String}
    (ha : Argument.ofString a = .long name attached)
    (h : s.takeLong command name attached = .ok s') : Takes command s a s'
  | short {s s' : Side} {a : String} {letters : List Char}
    (ha : Argument.ofString a = .short letters) (h : s.takeShort command letters = .ok s') :
    Takes command s a s'
  | value {g : Given} {o : ValueOption} {a : String} (ha : Argument.ofString a = .plain a) :
    Takes command ⟨g, .option o⟩ a ⟨g, .value o a⟩

/-- Arguments that belong to options are taken one after another. -/
inductive TakesAll (command : Option CommandName) : Side → List String → Side → Prop
  | nil {s : Side} : TakesAll command s [] s
  | cons {s t u : Side} {a : String} {args : List String} (h : Takes command s a t)
    (hs : TakesAll command t args u) : TakesAll command s (a :: args) u

theorem TakesAll.one {a : String} (h : Takes command s a s') : TakesAll command s [a] s' :=
  .cons h .nil

/-! ## One option -/

theorem takeFlag_of_holds (hs : s.Holds command g) {f : Flag} (hg : g.raise f = .ok g') :
    s.takeFlag command f = .ok { given := g' } := by
  simp only [takeFlag, hs.settled, hg, bind, Except.bind, pure, Except.pure]

theorem takeValue_of_holds (hs : s.Holds command g) {o : ValueOption} {v : String}
    (hg : g.setValue v o = .ok g') : s.takeValue command o (some v) = .ok { given := g' } := by
  simp only [takeValue, hs.settled, hg, bind, Except.bind, pure, Except.pure]

theorem takeValue_none (hs : s.Holds command g) (o : ValueOption) :
    s.takeValue command o none = .ok { given := g, pending := .option o } := by
  simp only [takeValue, hs.settled, bind, Except.bind, pure, Except.pure]

/-- An option that waits for its value gets it. -/
theorem holds_value {o : ValueOption} {v : String} (hg : g.setValue v o = .ok g') :
    Holds command ⟨g, .value o v⟩ g' := ⟨hg, by simp⟩

/-- Letters put together are options one after another. -/
theorem takeShort_letters (hs : s.Holds command g) (fs : List Letter)
    (hg : (fs.map Letter.choice).foldlM Given.choose g = .ok g') (rest : List Char) :
    ∃ s' : Side, s'.Holds command g' ∧
      s.takeShort command (fs.map Letter.char ++ rest) = s'.takeShort command rest := by
  induction fs generalizing s g with
  | nil =>
    cases hg
    exact ⟨s, hs, rfl⟩
  | cons f fs ih =>
    obtain ⟨g₁, hone, hmore⟩ := exists_of_bind_ok hg
    obtain ⟨s', hs', htake⟩ := ih (holds_given g₁) hmore
    refine ⟨s', hs', ?_⟩
    rw [List.map_cons, List.cons_append, takeShort, f.ofShort?_char]
    simp only [takeFlag_of_holds hs hone]
    exact htake

end Side

/-! ## Whole words -/

namespace OptionValue

/-- A value begins with a character that is neither a dash nor an equals sign. -/
theorem exists_cons (v : OptionValue) :
    ∃ c cs, v.text.toList = c :: cs ∧ c ≠ '-' ∧ c ≠ '=' := by
  have hfits := v.fits
  cases htext : v.text.toList with
  | nil => simp [htext] at hfits
  | cons c cs =>
    rw [htext] at hfits
    exact ⟨c, cs, rfl, by simpa using hfits⟩

theorem ofString_text (v : OptionValue) : Argument.ofString v.text = .plain v.text := by
  obtain ⟨c, cs, htext, hdash, -⟩ := v.exists_cons
  apply Argument.ofString_plain
  intro c' cs' h
  cases htext.symm.trans h
  exact hdash

end OptionValue

namespace Valued

theorem ofString_text (o : Valued) : Argument.ofString o.text = .plain o.text := by
  cases o with
  | config v => exact v.ofString_text
  | format f => cases f <;> decide

theorem ofString_name (o : Valued) : Argument.ofString ("--" ++ o.name) = .long o.name none := by
  cases o <;> exact Argument.ofString_long _ (by simp [name]) (by simp [name])

theorem ofString_joined (o : Valued) :
    Argument.ofString ("--" ++ o.name ++ "=" ++ o.text) = .long o.name (some o.text) := by
  cases o <;> exact Argument.ofString_long_equals (by simp [name]) (by simp [name]) _

/-- An option with a value is found by its name, on either side of the name of the command. -/
theorem ofLong?_name (command : Option CommandName) (o : Valued) :
    OptionName.ofLong? command o.name = some (.withValue o.option) := by
  cases o <;> rfl

end Valued

namespace Switch

theorem ofString_name (f : Switch) : Argument.ofString ("--" ++ f.name) = .long f.name none := by
  cases f <;> exact Argument.ofString_long _ (by decide) (by decide)

/-- A flag is found by its name, on either side of the name of the command. -/
theorem ofLong?_name (command : Option CommandName) (f : Switch) :
    OptionName.ofLong? command f.name = some (.flag f.flag) := by
  cases f <;> rfl

end Switch

namespace Word

open Side

variable {command : Option CommandName} {s : Side} {g g' : Given}

theorem ofString_letters (fs : List Letter) (rest : List Char) :
    Argument.ofString (String.ofList ('-' :: (fs.map Letter.char ++ 'c' :: rest))) =
      .short (fs.map Letter.char ++ 'c' :: rest) := by
  cases fs with
  | nil => exact Argument.ofString_short (by decide) rest
  | cons f fs => exact Argument.ofString_short f.char_ne_dash _

theorem choose_of_foldlM_singleton {o : Choice} (h : [o].foldlM Given.choose g = .ok g') :
    g.choose o = .ok g' := by
  simpa using h

/-- Options one after another, and one more. -/
theorem exists_of_foldlM_append {cs : List Choice} {o : Choice}
    (h : (cs ++ [o]).foldlM Given.choose g = .ok g') :
    ∃ g₁, cs.foldlM Given.choose g = .ok g₁ ∧ g₁.choose o = .ok g' := by
  rw [List.foldlM_append] at h
  obtain ⟨g₁, hcs, ho⟩ := exists_of_bind_ok h
  exact ⟨g₁, hcs, choose_of_foldlM_singleton ho⟩

/-- An equals sign before an attached value does not count. -/
theorem takeShort_equals {v : OptionValue} (hs : s.Holds command g)
    (hg : g.choose (.value (.config v)) = .ok g') :
    s.takeShort command ('c' :: '=' :: v.text.toList) = .ok { given := g' } := by
  have htake : s.takeValue command .config (some v.text) = .ok { given := g' } :=
    takeValue_of_holds hs hg
  simpa [takeShort, OptionName.ofShort?] using htake

/-- What follows the letter of an option is its value, if it does not begin with an equals sign. -/
theorem takeShort_joined {v : OptionValue} (hs : s.Holds command g)
    (hg : g.choose (.value (.config v)) = .ok g') :
    s.takeShort command ('c' :: v.text.toList) = .ok { given := g' } := by
  have htake : s.takeValue command .config (some v.text) = .ok { given := g' } :=
    takeValue_of_holds hs hg
  obtain ⟨c, cs, htext, -, hequals⟩ := v.exists_cons
  have hvalue : String.ofList (c :: cs) = v.text := by
    rw [← htext, String.ofList_toList]
  simpa [htext, takeShort, OptionName.ofShort?, hequals, hvalue] using htake

/-- However options are written, the side holds them afterwards. -/
theorem takesAll (hs : s.Holds command g) (w : Word)
    (hg : w.choices.foldlM Given.choose g = .ok g') :
    ∃ s', TakesAll command s w.args s' ∧ s'.Holds command g' := by
  cases w with
  | named f =>
    have hone := choose_of_foldlM_singleton hg
    refine ⟨_, .one (.long f.ofString_name ?_), holds_given g'⟩
    rw [takeLong, f.ofLong?_name]
    exact takeFlag_of_holds hs hone
  | joined o =>
    have hone := choose_of_foldlM_singleton hg
    refine ⟨_, .one (.long o.ofString_joined ?_), holds_given g'⟩
    rw [takeLong, o.ofLong?_name]
    exact takeValue_of_holds hs hone
  | apart o =>
    have hone := choose_of_foldlM_singleton hg
    refine ⟨_, .cons (.long o.ofString_name ?_) (.one (.value o.ofString_text)), holds_value hone⟩
    rw [takeLong, o.ofLong?_name]
    exact takeValue_none hs o.option
  | letters f fs =>
    obtain ⟨s', hs', htake⟩ := takeShort_letters hs (f :: fs) hg []
    rw [List.append_nil] at htake
    exact ⟨s', .one (.short (Argument.ofString_short f.char_ne_dash _) htake), hs'⟩
  | lettersApart fs v =>
    -- the letter of the option is the last one, so that its value is awaited in the next argument
    obtain ⟨g₁, hletters, hone⟩ := exists_of_foldlM_append hg
    obtain ⟨s', hs', htake⟩ := takeShort_letters hs fs hletters ['c']
    refine ⟨_, .cons (.short (ofString_letters fs []) (htake.trans ?_))
      (.one (.value v.ofString_text)), holds_value (o := .config) hone⟩
    exact takeValue_none hs' .config
  | lettersJoined fs v =>
    obtain ⟨g₁, hletters, hone⟩ := exists_of_foldlM_append hg
    obtain ⟨s', hs', htake⟩ := takeShort_letters hs fs hletters ('c' :: v.text.toList)
    refine ⟨_, .one (.short (ofString_letters fs _) (htake.trans ?_)), holds_given g'⟩
    exact takeShort_joined hs' hone
  | lettersEquals fs v =>
    obtain ⟨g₁, hletters, hone⟩ := exists_of_foldlM_append hg
    obtain ⟨s', hs', htake⟩ := takeShort_letters hs fs hletters ('c' :: '=' :: v.text.toList)
    refine ⟨_, .one (.short (ofString_letters fs _) (htake.trans ?_)), holds_given g'⟩
    exact takeShort_equals hs' hone

end Word

end Dbml
