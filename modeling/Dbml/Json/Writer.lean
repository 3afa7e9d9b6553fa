import Dbml.Json.Value
import Dbml.Text.Hex

/-!
# Writing JSON

Two layouts of one value: `compact`, without any blank, and `pretty`, with one member or item to a
line and two blanks of indentation to a level. In a string only the quote, the backslash and the
control characters are escaped.
-/

namespace Dbml.Json

/-! ## Strings -/

/-- A character as it stands between the quotes of a string. -/
def escape (c : Char) : List Char :=
  if c = '"' then ['\\', '"']
  else if c = '\\' then ['\\', '\\']
  else if c = '\x08' then ['\\', 'b']
  else if c = '\t' then ['\\', 't']
  else if c = '\n' then ['\\', 'n']
  else if c = '\x0c' then ['\\', 'f']
  else if c = '\r' then ['\\', 'r']
  else if c.toNat < 32 then ['\\', 'u', '0', '0', hexDigit (c.toNat / 16), hexDigit (c.toNat % 16)]
  else [c]

/-- A string between quotes; one that no `String` holds is written as half of a surrogate pair. -/
def quote : Option String → String
  | some s => "\"" ++ String.ofList (s.toList.flatMap escape) ++ "\""
  | none => "\"\\ud800\""

/-! ## Values -/

mutual

/-- A value without blanks. -/
def Value.compact : Value → String
  | .null => "null"
  | .bool b => if b then "true" else "false"
  | .number text => text
  | .string s => quote s
  | .array items => "[" ++ compactItems items ++ "]"
  | .object members => "\x7b" ++ compactMembers members ++ "\x7d"

/-- Items with commas between them. -/
def compactItems : List Value → String
  | [] => ""
  | [v] => v.compact
  | v :: vs => v.compact ++ "," ++ compactItems vs

/-- Members with commas between them. -/
def compactMembers : List (Option String × Value) → String
  | [] => ""
  | [(k, v)] => quote k ++ ":" ++ v.compact
  | (k, v) :: ms => quote k ++ ":" ++ v.compact ++ "," ++ compactMembers ms

end

/-- The beginning of a line at the given level. -/
def indent (level : Nat) : String := "\n" ++ String.ofList (List.replicate (2 * level) ' ')

mutual

/-- A value laid out over lines; `level` is that of the line it begins on. -/
def Value.layout (level : Nat) : Value → String
  | .null => "null"
  | .bool b => if b then "true" else "false"
  | .number text => text
  | .string s => quote s
  | .array [] => "[]"
  | .array (v :: vs) => "[" ++ layoutItems (level + 1) (v :: vs) ++ indent level ++ "]"
  | .object [] => "\x7b\x7d"
  | .object (m :: ms) => "\x7b" ++ layoutMembers (level + 1) (m :: ms) ++ indent level ++ "\x7d"

/-- Items, each on a line of its own. -/
def layoutItems (level : Nat) : List Value → String
  | [] => ""
  | [v] => indent level ++ v.layout level
  | v :: vs => indent level ++ v.layout level ++ "," ++ layoutItems level vs

/-- Members, each on a line of its own. -/
def layoutMembers (level : Nat) : List (Option String × Value) → String
  | [] => ""
  | [(k, v)] => indent level ++ quote k ++ ": " ++ v.layout level
  | (k, v) :: ms => indent level ++ quote k ++ ": " ++ v.layout level ++ "," ++ layoutMembers level ms

end

/-- A value laid out over lines. -/
def Value.pretty (v : Value) : String := v.layout 0

end Dbml.Json
