import Dbml.Command.Options

/-!
# Reading the command line

The arguments are read from left to right. The name of the command divides them into two sides;
options may stand on either, and each side is checked by itself: on one side an option stands at
most once, and to be quiet and to be verbose exclude each other. Between the sides the one after the
name of the command counts more, and both count more than the environment (`Given.merge`).

What follows an option that takes a value, or a list of paths, is only looked at when it is complete
(`Side.settle`). So of two faults the one that is come upon first is reported.
-/

namespace Dbml

/-- What can be wrong with a command line, or be asked for instead of a command. -/
inductive UsageError where
  | displayHelp
  | displayVersion
  /-- Nothing is given at all. -/
  | nothingGiven
  | invalidValue
  | unknownArgument
  | invalidSubcommand
  | missingSubcommand
  | argumentConflict
  | tooManyValues
  | missingRequiredArgument
deriving DecidableEq, Repr

namespace UsageError

/-- To be shown the help or the version is no fault. -/
def exitCode : UsageError → Nat
  | displayHelp => 0
  | displayVersion => 0
  | _ => 2

end UsageError

/-! ## Arguments -/

/-- The shape of an argument. -/
inductive Argument where
  /-- Two dashes alone: no options follow. -/
  | escape
  /-- Two dashes and a name, with a value after an equals sign if there is one. -/
  | long (name : String) (value : Option String)
  /-- One dash and letters. -/
  | short (letters : List Char)
  /-- Anything else. -/
  | plain (text : String)
deriving DecidableEq, Repr

/-- The shape of an argument. A dash alone is plain. -/
def Argument.ofString (s : String) : Argument :=
  match s.toList with
  | ['-', '-'] => .escape
  | '-' :: '-' :: cs =>
    let name := String.ofList (cs.takeWhile (· ≠ '='))
    match cs.dropWhile (· ≠ '=') with
    | [] => .long name none
    | _ :: value => .long name (some (String.ofList value))
  | '-' :: c :: cs => .short (c :: cs)
  | _ => .plain s

/-- The names of the commands. -/
inductive CommandName where
  | parse
  | tokens
  | completions
deriving DecidableEq, Repr

/-- The command with the given name. -/
def CommandName.ofName? : String → Option CommandName
  | "parse" => some parse
  | "tokens" => some tokens
  | "completions" => some completions
  | _ => none

/-- Whether a name is that of a command or asks for help. -/
def isCommandWord (s : String) : Bool := (CommandName.ofName? s).isSome || s == "help"

/-- Options that take a value. -/
inductive ValueOption where
  | config
  | format
deriving DecidableEq, Repr

/-- Options that take none. -/
inductive Flag where
  | verbose
  | quiet
  | noColor
  | print
  | help
  | version
deriving DecidableEq, Repr

/-- An option of either sort. -/
inductive OptionName where
  | withValue (o : ValueOption)
  | flag (f : Flag)
deriving DecidableEq, Repr

/-- The option with the given long name. Printing can only be asked for after `parse`. -/
def OptionName.ofLong? (command : Option CommandName) : String → Option OptionName
  | "config" => some (withValue .config)
  | "format" => some (withValue .format)
  | "verbose" => some (flag .verbose)
  | "quiet" => some (flag .quiet)
  | "no-color" => some (flag .noColor)
  | "print" => if command = some .parse then some (flag .print) else none
  | "help" => some (flag .help)
  | "version" => some (flag .version)
  | _ => none

/-- The option with the given letter. -/
def OptionName.ofShort? : Char → Option OptionName
  | 'c' => some (withValue .config)
  | 'v' => some (flag .verbose)
  | 'q' => some (flag .quiet)
  | 'h' => some (flag .help)
  | 'V' => some (flag .version)
  | _ => none

/-! ## One side -/

/-- What is given on one side of the name of the command. -/
structure Given where
  config : Option Path := none
  format : Option Format := none
  verbose : Nat := 0
  quiet : Bool := false
  noColor : Bool := false
  print : Bool := false
  positionals : List String := []
deriving DecidableEq, Repr

/-- What is read but not yet looked at. -/
inductive Pending where
  | nothing
  /-- An option that waits for its value. -/
  | option (o : ValueOption)
  /-- An option and the argument after it. -/
  | value (o : ValueOption) (v : String)
  | positionals (vs : List String)
deriving DecidableEq, Repr

/-- The reading of one side: what is given so far, and what is not yet looked at. -/
structure Side where
  given : Given := {}
  pending : Pending := .nothing
deriving DecidableEq, Repr

namespace Given

/-- Gives an option its value. -/
def setValue (g : Given) (v : String) : ValueOption → Except UsageError Given
  | .config =>
    if g.config.isSome then .error .argumentConflict
    else if v = "" then .error .invalidValue
    else .ok { g with config := some ⟨v⟩ }
  | .format =>
    if g.format.isSome then .error .argumentConflict
    else
      match Format.ofName? v with
      | some f => .ok { g with format := some f }
      | none => .error .invalidValue

/-- Raises a flag. Verbosity adds up, to 255 at most. -/
def raise (g : Given) : Flag → Except UsageError Given
  | .verbose => .ok { g with verbose := min 255 (g.verbose + 1) }
  | .quiet => if g.quiet then .error .argumentConflict else .ok { g with quiet := true }
  | .noColor => if g.noColor then .error .argumentConflict else .ok { g with noColor := true }
  | .print => if g.print then .error .argumentConflict else .ok { g with print := true }
  | .help => .error .displayHelp
  | .version => .error .displayVersion

/-- Adds positional arguments: none is empty, and that of `completions` names a shell. -/
def addPositionals (g : Given) (command : Option CommandName) (vs : List String) :
    Except UsageError Given :=
  let fits (v : String) : Bool :=
    if command = some .completions then (Shell.ofName? v).isSome else v ≠ ""
  if vs.all fits then .ok { g with positionals := g.positionals ++ vs } else .error .invalidValue

/-- Checks the variables that stand in for options that are not given. -/
def checkEnvironment (g : Given) (env : Environment) : Except UsageError Given :=
  if g.config.isNone && env.config == some "" then .error .invalidValue
  else if !g.noColor && env.noColor.any (fun v => v ≠ "true" && v ≠ "false") then
    .error .invalidValue
  else .ok g

/-- Checks that nothing excludes something else. -/
def checkConflicts (g : Given) : Except UsageError Given :=
  if g.quiet && g.verbose > 0 then .error .argumentConflict else .ok g

/-- Whether any option is given, here or by a variable. -/
def isAny (g : Given) (env : Environment) : Bool :=
  g.config.isSome || g.format.isSome || g.verbose > 0 || g.quiet || g.noColor
    || env.config.isSome || env.noColor.isSome

end Given

namespace Side

variable (command : Option CommandName)

/-- Looks at what is pending. -/
def settle (s : Side) : Except UsageError Given :=
  match s.pending with
  | .nothing => .ok s.given
  | .option _ => .error .invalidValue
  | .value o v => s.given.setValue v o
  | .positionals vs => s.given.addPositionals command vs

/-- An option with its value, if that is attached to it. -/
def takeValue (s : Side) (o : ValueOption) (attached : Option String) : Except UsageError Side := do
  let g ← s.settle command
  match attached with
  | some v => return { given := ← g.setValue v o }
  | none => return { given := g, pending := .option o }

/-- A flag. -/
def takeFlag (s : Side) (f : Flag) : Except UsageError Side := do
  let g ← s.settle command
  return { given := ← g.raise f }

/-- An option by its long name. -/
def takeLong (s : Side) (name : String) (attached : Option String) : Except UsageError Side :=
  match OptionName.ofLong? command name with
  | none => .error .unknownArgument
  | some (.withValue o) => s.takeValue command o attached
  | some (.flag f) => if attached.isSome then .error .tooManyValues else s.takeFlag command f

/-- Options by their letters. What follows the letter of an option with a value is that value, from
which an equals sign in front is taken. -/
def takeShort (s : Side) : List Char → Except UsageError Side
  | [] => .ok s
  | c :: cs =>
    match OptionName.ofShort? c with
    | none => .error .unknownArgument
    | some (.flag f) => do (← s.takeFlag command f).takeShort cs
    | some (.withValue o) =>
      match cs with
      | [] => s.takeValue command o none
      | '=' :: value => s.takeValue command o (some (String.ofList value))
      | value => s.takeValue command o (some (String.ofList value))

/-- A positional argument of a command. Only `parse` takes more than one. -/
def takePositional (name : CommandName) (s : Side) (v : String) : Except UsageError Side :=
  match s.pending, name with
  | .positionals vs, .parse => .ok { s with pending := .positionals (vs ++ [v]) }
  | .positionals _, _ => .error .unknownArgument
  | _, .parse => do return { given := ← s.settle (some name), pending := .positionals [v] }
  | _, _ =>
    if s.given.positionals.isEmpty then do
      return { given := ← s.settle (some name), pending := .positionals [v] }
    else .error .unknownArgument

/-- The side after the name of the command. -/
def ofArguments (name : CommandName) (s : Side) : List String → Except UsageError Side
  | [] => .ok s
  | a :: rest =>
    match Argument.ofString a with
    | .escape => rest.foldlM (takePositional name) s
    | .long n v => do (← s.takeLong (some name) n v).ofArguments name rest
    | .short cs => do (← s.takeShort (some name) cs).ofArguments name rest
    | .plain v =>
      match s.pending with
      | .option o => { s with pending := .value o v }.ofArguments name rest
      | _ => do (← s.takePositional name v).ofArguments name rest

/-- What is given on a side, checked by itself. -/
def finish (s : Side) (env : Environment) : Except UsageError Given := do
  let g ← s.settle command
  let g ← g.checkEnvironment env
  g.checkConflicts

end Side

/-! ## Both sides -/

/-- The options by both sides and the environment. -/
def Given.merge (before after : Given) (env : Environment) : Options where
  config := after.config <|> before.config <|> env.config.map Path.mk
  format := (after.format <|> before.format).getD .human
  verbose := if after.verbose > 0 then after.verbose else before.verbose
  quiet := after.quiet || before.quiet
  noColor := after.noColor || before.noColor || env.noColor == some "true"

/-- The command that the side after its name asks for. -/
def Given.command (g : Given) : CommandName → Except UsageError Command
  | .parse => .ok (.parse (g.positionals.map Path.mk) g.print)
  | .tokens =>
    match g.positionals.head? with
    | some file => .ok (.tokens ⟨file⟩)
    | none => .error .missingRequiredArgument
  | .completions =>
    match g.positionals.head?.bind Shell.ofName? with
    | some shell => .ok (.completions shell)
    | none => .error .missingRequiredArgument

namespace Invocation

variable (env : Environment)

/-- The arguments end before a command is named. -/
def unnamed (s : Side) : Except UsageError Invocation := do
  let g ← s.settle none
  let g ← g.checkEnvironment env
  if g.isAny env then .error .missingSubcommand else .error .nothingGiven

/-- Help is asked for by a word: on all commands, or on one. -/
def help : List String → UsageError
  | [] => .displayHelp
  | [a] => if isCommandWord a then .displayHelp else .invalidSubcommand
  | _ => .invalidSubcommand

/-- The arguments from the side before the name of the command on. -/
def ofArguments (s : Side) : List String → Except UsageError Invocation
  | [] => unnamed env s
  | a :: rest =>
    match s.pending, Argument.ofString a with
    | _, .escape =>
      match rest with
      | [] => unnamed env s
      | b :: _ => .error (if isCommandWord b then .unknownArgument else .invalidSubcommand)
    | _, .long n v => do ofArguments (← s.takeLong none n v) rest
    | _, .short cs => do ofArguments (← s.takeShort none cs) rest
    | .option o, .plain v => ofArguments { s with pending := .value o v } rest
    | _, .plain v =>
      match CommandName.ofName? v with
      | some name => do
        let side ← Side.ofArguments name {} rest
        let after ← side.finish (some name) env
        let command ← after.command name
        let before ← s.finish none env
        return { command, options := before.merge after env }
      | none => .error (if v = "help" then help rest else .invalidSubcommand)

/-- The command and the options that arguments ask for. -/
def parse (args : List String) : Except UsageError Invocation := ofArguments env {} args

end Invocation

end Dbml
