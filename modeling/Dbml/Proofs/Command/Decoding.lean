import Dbml.Proofs.Command.Dump
import Dbml.Proofs.Document.WellFormed
import Dbml.Proofs.Schema.Spelling

/-!
# Decoding a JSON dump of tokens

In JSON a token is an object with its kind, value, position and span. Kinds are named by their
spellings, and no two kinds share one (`Kind.ofSpelling?_spelling`), so a token can be decoded from
its object (`Token.ofJson?_toJson`). Whatever a value holds is escaped, so unlike the plain dump the
JSON dump of every file can be decoded, and what is decoded parses as the file does
(`Invocation.tokens_decoded`).
-/

namespace Dbml

open Json (Value)

/-! ## Numbers and kinds -/

/-- The number that is written in digits alone. -/
def Json.Value.nat? : Value → Option Nat
  | .number text =>
    if text.toList.all Char.isDigit then some (Nat.ofDigitChars 10 text.toList 0) else none
  | _ => none

theorem Json.Value.nat?_nat (n : Nat) : (Value.nat n).nat? = some n := by
  have htext : (toString n).toList = Nat.toDigits 10 n := by
    rw [Nat.toString_eq_repr, Nat.toList_repr]
  have hdigits : (Nat.toDigits 10 n).all Char.isDigit = true := by
    rw [List.all_eq_true, ← htext]
    intro c hc
    exact isDigit_of_mem_toString hc
  rw [nat, nat?, htext, if_pos hdigits, Nat.ofDigitChars_ten_toDigits]

namespace Kind

/-- The kinds of tokens. -/
def all : List Kind :=
  [illegal, eof] ++
    [Literal.ident, .int, .float, .doubleQuoted, .singleQuoted, .funcExpr, .multiline].map literal ++
    [Relation.manyToOne, .oneToOne, .oneToMany].map relation ++
    [Delimiter.lParen, .rParen, .lBrack, .rBrack, .lBrace, .rBrace, .colon, .semicolon, .period,
      .comma].map delimiter ++
    Keyword.all.map keyword

/-- The kind with the given spelling. -/
def ofSpelling? (s : String) : Option Kind := all.find? (·.spelling == s)

/-- No two kinds share a spelling. -/
theorem ofSpelling?_spelling (k : Kind) : ofSpelling? k.spelling = some k := by
  cases k with
  | illegal => rfl
  | eof => rfl
  | literal l => cases l <;> rfl
  | relation r => cases r <;> rfl
  | delimiter d => cases d <;> rfl
  | keyword k => cases k <;> rfl

end Kind

/-! ## Tokens -/

namespace Token

/-- A token from JSON. -/
def ofJson? (v : Value) : Option Token := do
  let kind ← Kind.ofSpelling? (← (← v.member? "kind").text?)
  let value ← (← v.member? "value").text?
  let line ← (← v.member? "line").nat?
  let column ← (← v.member? "column").nat?
  let start ← (← v.member? "start").nat?
  let stop ← (← v.member? "end").nat?
  return ⟨kind, value, ⟨line, column⟩, ⟨start, stop⟩⟩

theorem ofJson?_toJson (t : Token) : ofJson? t.toJson = some t := by
  have htext (s : String) : (Value.str s).text? = some s := rfl
  simp [ofJson?, toJson, List.lookup_cons, htext, Value.nat?_nat, Kind.ofSpelling?_spelling]

theorem plain_toJson (t : Token) : t.toJson.Plain :=
  .record (by simp [Value.Plain.nat, Value.Plain.str])

end Token

/-! ## Dumps -/

/-- The tokens that a JSON text lists. -/
def decodeTokens? (text : String) : Option (List Token) :=
  (Json.parse? text).bind (list? Token.ofJson?)

/-- The text of a JSON dump, with the line feed after it, is decoded to the tokens. -/
theorem decodeTokens?_pretty (ts : List Token) :
    decodeTokens? ((Value.array (ts.map Token.toJson)).pretty ++ "\n") = some ts := by
  have hparse := Value.parse?_pretty (.items Token.plain_toJson ts)
    (show ∀ c ∈ "\n".toList, Json.isBlank c = true by simp [Json.isBlank])
  have hitems : (ts.map Token.toJson).mapM Token.ofJson? = some ts := by
    rw [mapM_eq_some_iff, List.forall₂_map_right_iff, List.forall₂_same]
    intro t _
    exact t.ofJson?_toJson
  rw [decodeTokens?, hparse]
  exact hitems

theorem showTokens_json (quiet color : Bool) (ts : List Token) :
    (showTokens ⟨.json, quiet, color⟩ ts).stdout =
      (Value.array (ts.map Token.toJson)).pretty ++ "\n" := rfl

/-- The JSON dump of a file loses nothing: it is decoded to the tokens of the file, and these make
the document that the file is, or the problem that it has. -/
theorem Invocation.tokens_decoded {fs : FileSystem} {env : Environment} {o : Options} {file : Path}
    {text : String} {ts : List Token} (hread : fs.read file = .ok text)
    (hts : tokenize text = .ok ts) (hformat : o.format = .json) (color : Bool) :
    let decoded := decodeTokens? ((mk (.tokens file) o).run fs env color).output.stdout
    decoded = some ts ∧ decoded.map Document.ofTokens = some (Document.parse text) := by
  intro decoded
  have hdecoded : decoded = some ts := by
    simp only [decoded, stdout_run_tokens hread hts, Options.presentation_of_format hformat,
      showTokens_json, decodeTokens?_pretty]
  rw [hdecoded, Document.parse_of_tokenize hts]
  exact ⟨rfl, rfl⟩

/-- An escaped quote, a tab and a line feed in a value are decoded, and what follows stands where it
stood. -/
theorem Invocation.tokens_decoded_escapes :
    let source := "Enum e \x7b \"a\\\"\t\nb\" \x7d"
    let fs := FileSystem.empty.addFile ⟨"e.dbml"⟩ source.toUTF8
    let decoded :=
      decodeTokens? ((mk (.tokens ⟨"e.dbml"⟩) { format := .json }).run fs {} false).output.stdout
    decoded = some
      [⟨.keyword .enum, "Enum", ⟨1, 1⟩, ⟨0, 4⟩⟩, ⟨.literal .ident, "e", ⟨1, 6⟩, ⟨5, 6⟩⟩,
        ⟨.delimiter .lBrace, "\x7b", ⟨1, 8⟩, ⟨7, 8⟩⟩,
        ⟨.literal .doubleQuoted, "a\\\"\t\nb", ⟨1, 10⟩, ⟨9, 17⟩⟩,
        ⟨.delimiter .rBrace, "\x7d", ⟨2, 4⟩, ⟨18, 19⟩⟩, ⟨.eof, "", ⟨2, 5⟩, ⟨19, 19⟩⟩] ∧
      decoded.map Document.ofTokens = some (Document.parse source) := by
  intro source fs decoded
  have hread : fs.read ⟨"e.dbml"⟩ = .ok source := by
    decide +kernel
  refine tokens_decoded hread ?_ rfl false
  decide +kernel

end Dbml
