import Dbml.Files.Path

/-!
# Commands and options

What the user can ask for. The options are the same for all commands.
-/

namespace Dbml

/-- The form that results are shown in. -/
inductive Format where
  | human
  | json
  | plain
deriving DecidableEq, Repr

namespace Format

/-- The name of a format. -/
def name : Format → String
  | human => "human"
  | json => "json"
  | plain => "plain"

/-- The format with the given name. -/
def ofName? (n : String) : Option Format := [human, json, plain].find? (·.name == n)

end Format

/-- The shells that there are completions for. -/
inductive Shell where
  | bash
  | zsh
  | fish
  | powershell
  | elvish
deriving DecidableEq, Repr

namespace Shell

/-- The name of a shell. -/
def name : Shell → String
  | bash => "bash"
  | zsh => "zsh"
  | fish => "fish"
  | powershell => "powershell"
  | elvish => "elvish"

/-- The shell with the given name. -/
def ofName? (n : String) : Option Shell :=
  [bash, zsh, fish, powershell, elvish].find? (·.name == n)

end Shell

/-- What is to be done. -/
inductive Command where
  /-- Parse the documents that paths stand for, and print them if asked to. -/
  | parse (paths : List Path) (print : Bool)
  /-- Show the tokens of a file. -/
  | tokens (file : Path)
  /-- Write completions for a shell. -/
  | completions (shell : Shell)
deriving DecidableEq, Repr

/-- How it is to be done. -/
structure Options where
  config : Option Path := none
  format : Format := .human
  verbose : Nat := 0
  quiet : Bool := false
  noColor : Bool := false
deriving DecidableEq, Repr

/-- How much is logged. -/
inductive LogLevel where
  | error
  | warn
  | debug
  | trace
deriving DecidableEq, Repr

/-- How much is logged under the options: to be quiet goes before all. -/
def Options.logLevel (o : Options) : LogLevel :=
  if o.quiet then .error
  else
    match o.verbose with
    | 0 => .warn
    | 1 => .debug
    | _ => .trace

/-- The environment variables that count. -/
structure Environment where
  home : Option String := none
  configHome : Option String := none
  config : Option String := none
  noColor : Option String := none
deriving DecidableEq, Repr

/-- A command with its options. -/
structure Invocation where
  command : Command
  options : Options
deriving DecidableEq, Repr

end Dbml
