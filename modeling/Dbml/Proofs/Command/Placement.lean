import Dbml.Proofs.Command.Sides

/-!
# Options may stand anywhere

A command line has words for options before the name of the command, and pieces of every sort after
it (`Line`). The command depends on the positional arguments and on whether printing is asked for,
and the options depend on which options are given on the two sides together and on the environment,
but not on how they are worded or where they stand (`Invocation.parse_placed`).
-/

namespace Dbml

/-! ## Lines -/

/-- The word for a command. -/
def CommandName.word : CommandName → String
  | parse => "parse"
  | tokens => "tokens"
  | completions => "completions"

/-- A command line in pieces. -/
structure Line where
  name : CommandName
  before : List Word
  after : List Item
  /-- The positional arguments after two dashes, if these are written. -/
  escaped : Option (List String) := none
deriving DecidableEq, Repr

namespace Line

/-- The arguments that are written. -/
def args (l : Line) : List String :=
  l.before.flatMap Word.args ++ l.name.word ::
    (l.after.flatMap Item.args ++ l.escaped.elim [] ("--" :: ·))

def choicesBefore (l : Line) : List Choice := l.before.flatMap Word.choices

def choicesAfter (l : Line) : List Choice := l.after.flatMap Item.choices

/-- The options that are given, on both sides. -/
def choices (l : Line) : List Choice := l.choicesBefore ++ l.choicesAfter

def positionals (l : Line) : List String := l.after.flatMap Item.positionals ++ l.escaped.getD []

/-- How often printing is asked for. -/
def prints (l : Line) : Nat := l.after.count .print

/-- Verbosity is given on one side only. -/
def VerboseOnOneSide (l : Line) : Prop :=
  .switch .verbose ∉ l.choicesBefore ∨ .switch .verbose ∉ l.choicesAfter

instance (l : Line) : Decidable l.VerboseOnOneSide := inferInstanceAs (Decidable (_ ∨ _))

end Line

/-! ## What a line asks for -/

/-- The command that is asked for by its name, its positional arguments and requests to print. -/
inductive CommandName.Asks : CommandName → List String → Nat → Command → Prop
  | parse {vs : List String} {prints : Nat} (hvs : ∀ v ∈ vs, isPositional v = true)
    (hprints : prints ≤ 1) : Asks .parse vs prints (.parse (vs.map Path.mk) (prints = 1))
  | tokens {v : String} (hv : isPositional v = true) : Asks .tokens [v] 0 (.tokens ⟨v⟩)
  | completions (shell : Shell) : Asks .completions [shell.name] 0 (.completions shell)

/-- The options by what is given and by the environment. -/
def Choice.options (env : Environment) (cs : List Choice) : Options where
  config := (cs.filterMap config?).head? <|> env.config.map Path.mk
  format := (cs.filterMap format?).head?.getD .human
  verbose := min 255 (cs.count (.switch .verbose))
  quiet := .switch .quiet ∈ cs
  noColor := .switch .noColor ∈ cs ∨ env.noColor = some "true"

/-! ## Both sides -/

namespace Choice

variable {cs ds : List Choice} {env : Environment}

theorem eq_of_perm_of_length_le_one {α : Type} {l m : List α} (h : l.Perm m) (hl : l.length ≤ 1) :
    l = m := by
  match l, hl with
  | [], _ => exact (List.nil_perm.1 h).symm
  | [a], _ => exact List.singleton_perm.1 h

/-- Options do not depend on the order in which they are given. -/
theorem options_of_perm (h : Compatible cs) (hperm : cs.Perm ds) :
    options env cs = options env ds := by
  have hconfig := eq_of_perm_of_length_le_one (hperm.filterMap config?) h.length_config
  have hformat := eq_of_perm_of_length_le_one (hperm.filterMap format?) h.length_format
  simp only [options, hconfig, hformat, hperm.count_eq, hperm.mem_iff]

/-- Of two parts that hold one thing at most it makes no difference which is looked at first. -/
theorem head?_or_head? {α : Type} {l m : List α} (h : (l ++ m).length ≤ 1) :
    (m.head? <|> l.head?) = (l ++ m).head? := by
  cases l with
  | nil => cases m <;> rfl
  | cons a l =>
    have hm : m = [] := by
      refine List.eq_nil_of_length_eq_zero ?_
      rw [List.length_append, List.length_cons] at h
      omega
    rw [hm]
    rfl

/-- What is given on both sides comes to the options that are given. -/
theorem merge_ofChoices {vs : List String} {k : Nat} (h : Compatible (cs ++ ds))
    (hside : .switch .verbose ∉ cs ∨ .switch .verbose ∉ ds) :
    (Given.ofChoices cs [] 0).merge (Given.ofChoices ds vs k) env = options env (cs ++ ds) := by
  have hconfig := h.length_config
  have hformat := h.length_format
  rw [List.filterMap_append] at hconfig hformat
  rw [Given.merge, options, Options.mk.injEq, List.filterMap_append, List.filterMap_append,
    List.count_append]
  refine ⟨?_, ?_, ?_, ?_, ?_⟩
  · rw [← head?_or_head? hconfig, Given.ofChoices]
    cases ds.filterMap config? <;> rfl
  · rw [← head?_or_head? hformat]
    rfl
  · show (if min 255 (ds.count (.switch .verbose)) > 0 then
        min 255 (ds.count (.switch .verbose)) else min 255 (cs.count (.switch .verbose))) =
      min 255 (cs.count (.switch .verbose) + ds.count (.switch .verbose))
    -- the count of one side takes the place of the other's, which is why one of them has to be zero
    rcases hside with hnone | hnone
    · rw [List.count_eq_zero.2 hnone]
      split <;> omega
    · rw [List.count_eq_zero.2 hnone]
      rfl
  · simp [Given.ofChoices, Bool.or_comm]
  · simp [Given.ofChoices, Bool.or_comm, Bool.beq_eq_decide_eq]

end Choice

namespace CommandName

theorem ofName?_word (name : CommandName) : ofName? name.word = some name := by
  cases name <;> rfl

theorem ofString_word (name : CommandName) : Argument.ofString name.word = .plain name.word := by
  cases name <;> decide

theorem Asks.accepts {name : CommandName} {vs : List String} {k : Nat} {command : Command}
    (h : name.Asks vs k command) : Side.Accepts name vs k := by
  cases h with
  | parse hvs hprints => exact ⟨fun v hv => ⟨hvs v hv, by simp⟩, .inl rfl, .inr ⟨rfl, hprints⟩⟩
  | tokens hv => exact ⟨by simpa [Side.Fits] using hv, .inr (by simp), .inl rfl⟩
  | completions shell =>
    refine ⟨?_, .inr (by simp), .inl rfl⟩
    intro v hv
    rw [List.mem_singleton.1 hv]
    cases shell <;> exact ⟨by decide, fun _ => by decide⟩

/-- The command is read off its positional arguments and requests, whatever options there are. -/
theorem Asks.command_ofChoices {name : CommandName} {vs : List String} {k : Nat}
    {command : Command} (h : name.Asks vs k command) (cs : List Choice) :
    (Given.ofChoices cs vs k).command name = .ok command := by
  cases h with
  | parse hvs hprints =>
    have hprint : decide (0 < k) = decide (k = 1) := decide_eq_decide.2 (by omega)
    exact congrArg (fun b => Except.ok (Command.parse (vs.map Path.mk) b)) hprint
  | tokens hv => rfl
  | completions shell => cases shell <;> rfl

end CommandName

namespace Invocation

variable {env : Environment} {s s' : Side}

/-- Arguments that belong to options are taken before the rest is read. -/
theorem ofArguments_of_takesAll {args : List String} (h : Side.TakesAll none s args s')
    (rest : List String) : ofArguments env s (args ++ rest) = ofArguments env s' rest := by
  induction h with
  | nil => rfl
  | cons h _ ih =>
    rw [← ih, List.cons_append, ofArguments.eq_def]
    cases h with
    | long ha h => simp only [ha, h]; rfl
    | short ha h => simp only [ha, h]; rfl
    | value ha => simp only [ha]

/-- The words before the name of the command are read one after another. -/
theorem ofArguments_words {cs : List Choice} {ws : List Word}
    (hs : s.Holds none (.ofChoices cs [] 0)) (hcs : Compatible (cs ++ ws.flatMap Word.choices))
    (rest : List String) :
    ∃ s' : Side, s'.Holds none (.ofChoices (cs ++ ws.flatMap Word.choices) [] 0) ∧
      ofArguments env s (ws.flatMap Word.args ++ rest) = ofArguments env s' rest := by
  induction ws generalizing s cs with
  | nil => exact ⟨s, by simpa using hs, rfl⟩
  | cons w ws ih =>
    rw [List.flatMap_cons, ← List.append_assoc] at hcs ⊢
    have hfold := Given.foldlM_choose [] 0 (hcs.sublist (List.sublist_append_left _ _))
    obtain ⟨s₁, htakes, hs₁⟩ := w.takesAll hs hfold
    obtain ⟨s', hs', hread⟩ := ih hs₁ hcs
    refine ⟨s', hs', ?_⟩
    rw [List.flatMap_cons, List.append_assoc, ofArguments_of_takesAll htakes, hread]

/-- After the words before it the name of the command is met, and the rest is read by itself. -/
theorem ofArguments_name {g : Given} (hs : s.Holds none g) (name : CommandName)
    (rest : List String) :
    ofArguments env s (name.word :: rest) = do
      let side ← Side.ofArguments name {} rest
      let after ← side.finish (some name) env
      let command ← after.command name
      let before ← s.finish none env
      return { command, options := before.merge after env } := by
  rw [ofArguments.eq_def]
  simp only [name.ofString_word]
  split
  case h_1 heq => cases heq
  case h_2 heq => cases heq
  case h_3 heq => cases heq
  case h_4 o _ hpending _ => exact absurd hpending (hs.ne_option o)
  case h_5 heq _ =>
    cases heq
    simp only [name.ofName?_word]

/-- The side after the name of the command is read to its end. -/
theorem exists_after (l : Line) {command : Command}
    (hasks : l.name.Asks l.positionals l.prints command) (hcs : Compatible l.choicesAfter) :
    ∃ side, Side.ofArguments l.name {}
        (l.after.flatMap Item.args ++ l.escaped.elim [] ("--" :: ·)) = .ok side ∧
      side.Holds (some l.name) (.ofChoices l.choicesAfter l.positionals l.prints) := by
  have haccepts := hasks.accepts
  have hitems : Side.Accepts l.name ([] ++ l.after.flatMap Item.positionals) (0 + l.prints) := by
    rw [List.nil_append, Nat.zero_add]
    exact Side.Accepts.of_append (k := 0) haccepts
  have hnew : Side.Holds (some l.name) {} (.ofChoices [] [] 0) := Side.holds_given _
  obtain ⟨s', hs', hread⟩ := Side.ofArguments_items hnew hcs hitems
    (l.escaped.elim [] ("--" :: ·))
  rw [List.nil_append, List.nil_append, Nat.zero_add] at hs'
  unfold Line.positionals at haccepts ⊢
  cases hescaped : l.escaped with
  | none =>
    rw [hescaped] at hread
    exact ⟨s', hread, by simpa [Line.choicesAfter, Line.prints] using hs'⟩
  | some ws =>
    rw [hescaped] at hread haccepts
    obtain ⟨side, hfold, hside⟩ := Side.foldlM_takePositional hs' haccepts
    exact ⟨side, hread.trans hfold, hside⟩

/-- A line is accepted if the options on each side of the name go together and the command takes its
positional arguments; the options are then those of the two sides. -/
theorem parse_args (henv : env.Usable) (l : Line) {command : Command}
    (hasks : l.name.Asks l.positionals l.prints command) (hbefore : Compatible l.choicesBefore)
    (hafter : Compatible l.choicesAfter) :
    parse env l.args = .ok ⟨command, (Given.ofChoices l.choicesBefore [] 0).merge
      (Given.ofChoices l.choicesAfter l.positionals l.prints) env⟩ := by
  have hnew : Side.Holds none {} (.ofChoices [] [] 0) := Side.holds_given _
  obtain ⟨s, hs, hread⟩ := ofArguments_words hnew hbefore
    (l.name.word :: (l.after.flatMap Item.args ++ l.escaped.elim [] ("--" :: ·)))
  obtain ⟨side, hargs, hholds⟩ := exists_after l hasks hafter
  refine hread.trans ?_
  rw [ofArguments_name hs, hargs]
  simp only [Side.finish_of_holds hholds hafter henv, hasks.command_ofChoices,
    Side.finish_of_holds hs hbefore henv, bind, Except.bind]
  rfl

/-- **Options may stand anywhere**: however the options `cs` are written and wherever they stand on
a line, before the name of the command or after it and around its positional arguments, the line
asks for the same command with the same options. -/
theorem parse_placed (henv : env.Usable) {cs : List Choice} (hcs : Compatible cs)
    {command : Command} {l : Line} (hchoices : l.choices.Perm cs)
    (hasks : l.name.Asks l.positionals l.prints command) (hside : l.VerboseOnOneSide) :
    parse env l.args = .ok { command, options := Choice.options env cs } := by
  have hl : Compatible l.choices := hcs.perm hchoices
  have hbefore : Compatible l.choicesBefore := hl.sublist (List.sublist_append_left _ _)
  have hafter : Compatible l.choicesAfter := hl.sublist (List.sublist_append_right _ _)
  have hoptions : (Given.ofChoices l.choicesBefore [] 0).merge
      (Given.ofChoices l.choicesAfter l.positionals l.prints) env = Choice.options env cs :=
    (Choice.merge_ofChoices hl hside).trans (Choice.options_of_perm hl hchoices)
  rw [parse_args henv l hasks hbefore hafter, hoptions]

/-- The same options in two wordings and on different sides, with a variable of each sort set. -/
theorem parse_placed_mixed :
    let env : Environment := { config := some "env.toml", noColor := some "true" }
    let invocation : Invocation := ⟨.parse [⟨"a"⟩, ⟨"b"⟩, ⟨"c"⟩] true,
      { config := some ⟨"x"⟩, format := .json, verbose := 2, noColor := true }⟩
    parse env ["-vvc=x", "parse", "a", "--format", "json", "--print", "b", "--", "c"] =
        .ok invocation ∧
      parse env ["--format=json", "parse", "--verbose", "a", "b", "-vc", "x", "c", "--print"] =
        .ok invocation := by
  intro env invocation
  let x : OptionValue := ⟨"x", by decide⟩
  let cs : List Choice :=
    [.switch .verbose, .switch .verbose, .value (.config x), .value (.format .json)]
  have henv : env.Usable := ⟨by decide, by decide⟩
  have hcs : Compatible cs := by
    refine ⟨?_, by decide⟩
    rintro ((_ | _) | (_ | _ | _ | _ | _ | _)) <;> decide
  let l : Line := ⟨.parse, [.lettersEquals [.verbose, .verbose] x],
    [.positional "a", .word (.apart (.format .json)), .print, .positional "b"], some ["c"]⟩
  let m : Line := ⟨.parse, [.joined (.format .json)],
    [.word (.named .verbose), .positional "a", .positional "b", .word (.lettersApart [.verbose] x),
      .positional "c", .print], none⟩
  have hl : parse env l.args = .ok invocation :=
    parse_placed (l := l) henv hcs (by decide) (.parse (by decide) (by decide)) (by decide)
  have hm : parse env m.args = .ok invocation :=
    parse_placed (l := m) henv hcs (by decide) (.parse (by decide) (by decide)) (by decide)
  have hlargs : l.args =
      ["-vvc=x", "parse", "a", "--format", "json", "--print", "b", "--", "c"] := by
    decide
  have hmargs : m.args =
      ["--format=json", "parse", "--verbose", "a", "b", "-vc", "x", "c", "--print"] := by
    decide
  rw [hlargs] at hl
  rw [hmargs] at hm
  exact ⟨hl, hm⟩

end Invocation

end Dbml
