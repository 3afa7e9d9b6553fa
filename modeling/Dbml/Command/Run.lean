import Dbml.Command.Arguments
import Dbml.Command.Parse
import Dbml.Command.Tokens

/-!
# Running commands

A run is a function of the file system, the environment and the arguments: an exit code and what is
written to the two streams (`run`).
-/

namespace Dbml

/-- What a run comes to. -/
structure Outcome where
  exitCode : Nat
  output : Output
deriving DecidableEq, Repr

/-- The shell with the given name, or the failure to know it. -/
def Shell.named (n : String) : Except Failure Shell :=
  match Shell.ofName? n with
  | some shell => .ok shell
  | none => .error (.other ("unsupported shell: " ++ n))

/-- The completions for a shell; a mark stands in their place. -/
def Shell.script (_ : Shell) : String := "<script>"

/-- Carries out a command: what it writes, and the failure if there is one. -/
def Invocation.carryOut (i : Invocation) (fs : FileSystem) (env : Environment) (color : Bool) :
    Output × Option Failure :=
  let p := i.options.presentation color
  match i.command with
  | .parse paths print =>
    match parseTargets fs env i.options.config paths with
    | .ok files => parseFiles fs p print files
    | .error failure => ({}, some failure)
  | .tokens file => tokensOf fs p file
  | .completions shell => (.out shell.script, none)

/-- Carries out a command and says how it failed, if it did. -/
def Invocation.run (i : Invocation) (fs : FileSystem) (env : Environment) (color : Bool) : Outcome :=
  match i.carryOut fs env color with
  | (output, none) => ⟨0, output⟩
  | (output, some failure) =>
    ⟨failure.exitCode, output ++ (i.options.presentation color).failure failure⟩

/-- Runs the command that arguments ask for. -/
def run (fs : FileSystem) (env : Environment) (args : List String) (color : Bool) :
    Except UsageError Outcome := do
  return (← Invocation.parse env args).run fs env color

end Dbml
