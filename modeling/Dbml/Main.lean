import Dbml.Command.Run

/-!
# The command line

Reads the arguments, the environment and the files that the command is about, runs the command on
them, and writes what it comes to. All that is decided is decided by `Dbml.run`.
-/

namespace Dbml.Main

/-- The lines of the help. -/
def helpLines : List String :=
  ["Lexer, parser and inspector for DBML schema files",
   "",
   "Usage: dbml [OPTIONS] <COMMAND>",
   "",
   "Commands:",
   "  parse [PATHS] [--print]   Parse and validate .dbml files",
   "  tokens <FILE>             Dump the token stream of a .dbml file",
   "  completions <SHELL>       Generate shell completion scripts",
   "  help                      Print this message",
   "",
   "Options:",
   "  -c, --config <CONFIG>     Configuration file path",
   "      --format <FORMAT>     Output format: human, json or plain",
   "  -v, --verbose             Increase log verbosity",
   "  -q, --quiet               Suppress all non-error output",
   "      --no-color            Disable colored output",
   "  -h, --help                Print help",
   "  -V, --version             Print version"]

/-- The text of the help. -/
def helpText : String := String.join (helpLines.map (· ++ "\n"))

/-- What is said of a fault in the arguments. -/
def usageText : UsageError → String
  | .displayHelp => helpText
  | .displayVersion => "dbml 0.1.0\n"
  | .nothingGiven => helpText
  | .invalidValue => "error: a value is missing or not allowed\n"
  | .unknownArgument => "error: unexpected argument\n"
  | .invalidSubcommand => "error: unrecognized subcommand\n"
  | .missingSubcommand => "error: a subcommand is required but was not provided\n"
  | .argumentConflict => "error: an argument cannot be used with another\n"
  | .tooManyValues => "error: unexpected value for a flag\n"
  | .missingRequiredArgument => "error: a required argument was not provided\n"

/-- A location as the system writes it. -/
def systemPath (l : Location) : String := "/" ++ "/".intercalate l

/-- Takes over the entry at a location and, if it is a directory, all that is below it. What cannot
be looked at is taken for missing. -/
partial def survey (fs : FileSystem) (l : Location) : IO FileSystem := do
  let path := (← IO.currentDir) / systemPath l
  try
    if ← path.isDir then
      let mut fs := fs.put l .directory
      for child in ← path.readDir do
        fs ← survey fs (l ++ [child.fileName])
      return fs
    else if ← path.pathExists then return fs.put l (.file (← IO.FS.readBinFile path))
    else return fs
  catch _ => return fs

/-- Takes over the entries that a path goes through and all that is below its end. -/
def surveyPath (fs : FileSystem) (p : Path) : IO FileSystem := do
  let mut fs := fs
  let mut l : Location := if p.isAbsolute then [] else fs.workingDirectory
  for segment in p.segments do
    l := l.go segment
    if ← ((← IO.currentDir) / systemPath l).isDir then fs := fs.put l .directory
  survey fs l

/-- Takes over the entries that several paths go through. -/
def surveyPaths (fs : FileSystem) (ps : List Path) : IO FileSystem := ps.foldlM surveyPath fs

/-- The working directory with nothing in it, and the directories above it. -/
def startSystem : IO FileSystem := do
  let names := Path.names ⟨(← IO.currentDir).toString⟩
  return (FileSystem.mk [] []).makeDirectories [] names |> fun fs => { fs with workingDirectory := names }

/-- The part of the file system that a command is about. -/
def systemFor (i : Invocation) (env : Environment) : IO FileSystem := do
  let fs ← startSystem
  match i.command with
  | .completions _ => return fs
  | .tokens file => surveyPath fs file
  | .parse paths _ =>
    let fs ← surveyPaths fs ((i.options.config.map ([·])).getD (Settings.candidates env))
    match Settings.load fs env i.options.config with
    | .error _ => return fs
    | .ok settings =>
      surveyPaths fs (if paths.isEmpty then [⟨settings.schemaDirectory⟩] else paths)

/-- The environment. -/
def readEnvironment : IO Environment := do
  return { home := ← IO.getEnv "HOME", configHome := ← IO.getEnv "XDG_CONFIG_HOME",
           config := ← IO.getEnv "DBML_CONFIG", noColor := ← IO.getEnv "NO_COLOR" }

/-- Whether to write in color: to a terminal that can, unless the user does not want it. -/
def useColor (options : Options) : IO Bool := do
  let terminal ← (← IO.getStderr).isTty
  return !options.noColor && (← IO.getEnv "TERM") != some "dumb" && terminal

end Dbml.Main

open Dbml Dbml.Main in
/-- The program. -/
def main (args : List String) : IO UInt32 := do
  let env ← readEnvironment
  match Invocation.parse env args with
  | .error e =>
    if e.exitCode = 0 then IO.print (usageText e) else IO.eprint (usageText e)
    return e.exitCode.toUInt32
  | .ok i =>
    let outcome := i.run (← systemFor i env) env (← useColor i.options)
    IO.print outcome.output.stdout
    IO.eprint outcome.output.stderr
    return outcome.exitCode.toUInt32
