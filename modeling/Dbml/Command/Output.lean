import Dbml.Command.Failure
import Dbml.Command.Options

/-!
# Output

A command writes to two streams: results to the standard output, and what is said about them to the
standard error. How it is said depends on the presentation alone.
-/

namespace Dbml

open Json (Value)

/-- What is written to the two streams. -/
structure Output where
  stdout : String := ""
  stderr : String := ""
deriving DecidableEq, Repr

namespace Output

/-- One output after another. -/
instance : Append Output where
  append a b := ⟨a.stdout ++ b.stdout, a.stderr ++ b.stderr⟩

/-- Outputs one after another. -/
def concat (os : List Output) : Output := os.foldl (· ++ ·) {}

/-- A text on the standard output. -/
def out (text : String) : Output := { stdout := text }

/-- A line on the standard output. -/
def outLine (line : String) : Output := { stdout := line ++ "\n" }

/-- A line on the standard error. -/
def errLine (line : String) : Output := { stderr := line ++ "\n" }

end Output

/-- How results are presented. -/
structure Presentation where
  format : Format
  quiet : Bool
  color : Bool
deriving DecidableEq, Repr

/-- The presentation that options ask for. -/
def Options.presentation (o : Options) (color : Bool) : Presentation := ⟨o.format, o.quiet, color⟩

/-- The marks that begin a message. -/
inductive Tag where
  | ok
  | warning
  | error
deriving DecidableEq, Repr

namespace Tag

/-- The word of a mark. -/
def word : Tag → String
  | ok => "ok"
  | warning => "warning:"
  | error => "error:"

/-- The terminal code of the color of a mark. -/
def colorCode : Tag → String
  | ok => "\x1b[32m"
  | warning => "\x1b[33m"
  | error => "\x1b[31m"

/-- A mark, in bold and in its color if there is color. -/
def text (t : Tag) (color : Bool) : String :=
  if color then t.colorCode ++ "\x1b[1m" ++ t.word ++ "\x1b[0m" else t.word

end Tag

namespace Presentation

variable (p : Presentation)

/-- A line for human readers who want to know how things go. -/
def status (line : String) : Output :=
  if p.quiet || p.format ≠ .human then {} else .errLine line

/-- The line at the end of a run for human readers. -/
def summary (ok : Bool) (line : String) : Output :=
  p.status ((if ok then Tag.ok else Tag.warning).text p.color ++ " " ++ line)

/-- The diagnostic of a problem in a file. -/
def diagnostic (problem : Problem) (file : Path) : Output :=
  .errLine (problem.diagnostic file.text).toJson.compact

/-- What is said of a failure. -/
def failure (f : Failure) : Output :=
  match p.format, f with
  | .human, .problem file problem => diagnostic problem file
  | .human, f => .errLine (Tag.error.text p.color ++ " " ++ f.message)
  | .json, f => .errLine f.toJson.compact
  | .plain, f => .errLine ("error\t" ++ f.message)

end Presentation

end Dbml
