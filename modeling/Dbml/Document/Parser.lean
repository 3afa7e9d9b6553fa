import Dbml.Document.Basic
import Dbml.Token.Stream

/-!
# Parsing documents

A document is read from its tokens up to the first that stands for the end of the input; a list
without one ends after its last token (`TokenList`). One token decides how to go on, so each phrase
of the grammar is one function from the tokens left to what it declares and the tokens after it:

* document: declarations
* project: `Project` name `{` settings `}`, a setting being `database_type` `:` string
* table: `Table` name, an alias after `as` if there is one, `{` columns `}`
* column: name type
* enumeration: `Enum` name `{` values `}`, a value being a word or a double-quoted string

A token that does not fit is reported where it stands, with what would have fitted (`Expected`).
-/

namespace Dbml

/-! ## What would have fitted -/

/-- What the grammar allows at some place. -/
inductive Expected where
  | declaration
  | openBrace
  | colon
  | projectName
  | projectSetting
  | databaseType
  | tableName
  | tableAlias
  | columnName
  | columnType
  | enumName
  | enumValue
deriving DecidableEq, Repr

/-- The words for what the grammar allows. -/
def Expected.text : Expected → String
  | declaration => "one of Project, Table, Ref, or Enum"
  | openBrace => "'\x7b'"
  | colon => "':'"
  | projectName => "project name"
  | projectSetting => "'database_type' or '\x7d'"
  | databaseType => "database type string"
  | tableName => "table name"
  | tableAlias => "table alias"
  | columnName => "column name or '\x7d'"
  | columnType => "column type"
  | enumName => "enum name"
  | enumValue => "enum value (identifier or double-quoted string) or '\x7d'"

/-- The problem of a token that stands where something else is expected. -/
def Problem.atToken (expected : Expected) (found : Token) : Problem :=
  .unexpected expected.text found.describe found.position found.span

/-! ## Lists of tokens -/

/-- The tokens of a document and the token at which it ends. -/
structure TokenList where
  body : List Token
  stop : Token
deriving DecidableEq, Repr

/-- The place where a list of tokens without an end ends. -/
def endOfTokens (ts : List Token) : Place :=
  match ts.getLast? with
  | some t => t.endPlace
  | none => .start

/-- The tokens before the first end of the input, and that end. -/
def TokenList.ofTokens (ts : List Token) : TokenList where
  body := ts.takeWhile (!·.isEof)
  stop := (ts.find? (·.isEof)).getD (Token.eof (endOfTokens ts))

/-! ## Phrases -/

namespace Phrase

variable (stop : Token)

/-- The problem at the front of the tokens left; when none is left it is at their end. -/
def misfit {α : Type} (expected : Expected) (ts : List Token) : Except Problem (α × List Token) :=
  .error (.atToken expected (ts.head?.getD stop))

/-- A token of the given kind. -/
def expect (kind : Kind) (expected : Expected) : List Token → Except Problem (Token × List Token)
  | t :: ts => if t.kind = kind then .ok (t, ts) else misfit stop expected (t :: ts)
  | [] => misfit stop expected []

/-- A name. -/
def name (expected : Expected) (ts : List Token) : Except Problem (Token × List Token) :=
  expect stop (.literal .ident) expected ts

/-- The brace that opens a body. -/
def openBrace (ts : List Token) : Except Problem (Token × List Token) :=
  expect stop (.delimiter .lBrace) .openBrace ts

/-- Whether a token is a string that may name a database type. -/
def isTypeString (t : Token) : Bool :=
  t.kind == .literal .doubleQuoted || t.kind == .literal .singleQuoted

/-- The settings of a project up to the closing brace. The last database type counts; `last` is the
one before these settings. -/
def settings (last : Option String) : List Token → Except Problem (Option String × List Token)
  | [] => misfit stop .projectSetting []
  | t :: ts =>
    if t.kind = .delimiter .rBrace then .ok (last, ts)
    else if t.kind = .keyword .databaseType then
      match ts with
      | [] => misfit stop .colon []
      | c :: ts =>
        if c.kind = .delimiter .colon then
          match ts with
          | [] => misfit stop .databaseType []
          | v :: ts =>
            if isTypeString v then settings (some v.value) ts
            else misfit stop .databaseType (v :: ts)
        else misfit stop .colon (c :: ts)
    else misfit stop .projectSetting (t :: ts)

/-- The columns of a table up to the closing brace. -/
def columns : List Token → Except Problem (List Decl.Column × List Token)
  | [] => misfit stop .columnName []
  | t :: ts =>
    if t.kind = .delimiter .rBrace then .ok ([], ts)
    else if t.kind = .literal .ident then
      match ts with
      | [] => misfit stop .columnType []
      | u :: ts =>
        if u.kind = .literal .ident then
          (columns ts).map fun (cs, rest) => (⟨t.value, u.value, t.position⟩ :: cs, rest)
        else misfit stop .columnType (u :: ts)
    else misfit stop .columnName (t :: ts)

/-- The values of an enumeration up to the closing brace; quoted ones get their quotes back. -/
def values : List Token → Except Problem (List String × List Token)
  | [] => misfit stop .enumValue []
  | t :: ts =>
    if t.kind = .delimiter .rBrace then .ok ([], ts)
    else if t.kind = .literal .ident then
      (values ts).map fun (vs, rest) => (t.value :: vs, rest)
    else if t.kind = .literal .doubleQuoted then
      (values ts).map fun (vs, rest) => (("\"" ++ t.value ++ "\"") :: vs, rest)
    else misfit stop .enumValue (t :: ts)

/-- The alias of a table, if there is one. -/
def tableAlias (ts : List Token) : Except Problem (Option String × List Token) :=
  match ts with
  | [] => .ok (none, [])
  | t :: rest =>
    if t.kind = .keyword .aliased then
      (name stop .tableAlias rest).map fun (a, rest) => (some a.value, rest)
    else .ok (none, ts)

/-- A project after its keyword, which stands at `p`. -/
def project (p : Position) (ts : List Token) : Except Problem (Decl × List Token) := do
  let (n, ts) ← name stop .projectName ts
  let (_, ts) ← openBrace stop ts
  let (databaseType, ts) ← settings stop none ts
  return (.project n.value databaseType p, ts)

/-- A table after its keyword, which stands at `p`. -/
def table (p : Position) (ts : List Token) : Except Problem (Decl × List Token) := do
  let (n, ts) ← name stop .tableName ts
  let (aliasName, ts) ← tableAlias stop ts
  let (_, ts) ← openBrace stop ts
  let (cs, ts) ← columns stop ts
  return (.table n.value aliasName cs p, ts)

/-- An enumeration after its keyword, which stands at `p`. -/
def enum (p : Position) (ts : List Token) : Except Problem (Decl × List Token) := do
  let (n, ts) ← name stop .enumName ts
  let (_, ts) ← openBrace stop ts
  let (vs, ts) ← values stop ts
  return (.enum n.value vs p, ts)

/-- A declaration that begins with the token `t`. -/
def declaration (t : Token) (ts : List Token) : Except Problem (Decl × List Token) :=
  match t.kind with
  | .keyword .project => project stop t.position ts
  | .keyword .table => table stop t.position ts
  | .keyword .enum => enum stop t.position ts
  | _ => misfit stop .declaration (t :: ts)

/-! ## Phrases take tokens -/

theorem ok_of_map {α β : Type} {f : α → β} {x : Except Problem α} {b : β}
    (h : x.map f = .ok b) : ∃ a, x = .ok a ∧ f a = b := by
  cases x with
  | error e => cases h
  | ok a => exact ⟨a, rfl, Except.ok.inj h⟩

theorem ok_of_bind {α β : Type} {f : α → Except Problem β} {x : Except Problem α} {b : β}
    (h : (x >>= f) = .ok b) : ∃ a, x = .ok a ∧ f a = .ok b := by
  cases x with
  | error e => cases h
  | ok a => exact ⟨a, rfl, h⟩

theorem length_expect {kind : Kind} {expected : Expected} {ts rest : List Token} {t : Token}
    (h : expect stop kind expected ts = .ok (t, rest)) : rest.length < ts.length := by
  unfold expect at h
  split at h
  · split at h
    · cases h; simp
    · simp [misfit] at h
  · simp [misfit] at h

theorem length_settings {last d : Option String} {ts rest : List Token}
    (h : settings stop last ts = .ok (d, rest)) : rest.length < ts.length := by
  fun_induction settings stop last ts <;> simp_all [misfit]
  omega

theorem length_columns {cs : List Decl.Column} {ts rest : List Token}
    (h : columns stop ts = .ok (cs, rest)) : rest.length < ts.length := by
  fun_induction columns stop ts generalizing cs <;> simp_all [misfit]
  obtain ⟨⟨cs', r⟩, hc, he⟩ := ok_of_map h
  cases he
  rename_i ih
  have := ih hc
  omega

theorem length_values {vs : List String} {ts rest : List Token}
    (h : values stop ts = .ok (vs, rest)) : rest.length < ts.length := by
  fun_induction values stop ts generalizing vs <;> simp_all [misfit]
  all_goals
    obtain ⟨⟨vs', r⟩, hv, he⟩ := ok_of_map h
    cases he
    rename_i ih
    have := ih hv
    omega

theorem length_tableAlias {a : Option String} {ts rest : List Token}
    (h : tableAlias stop ts = .ok (a, rest)) : rest.length ≤ ts.length := by
  unfold tableAlias at h
  split at h
  · cases h; simp
  · split at h
    · obtain ⟨⟨t, r⟩, ht, he⟩ := ok_of_map h
      cases he
      have := length_expect stop ht
      simp; omega
    · cases h; simp

/-- A declaration takes at least the tokens after its keyword up to its name. -/
theorem length_declaration {t : Token} {ts rest : List Token} {d : Decl}
    (h : declaration stop t ts = .ok (d, rest)) : rest.length < ts.length := by
  unfold declaration at h
  split at h
  · obtain ⟨⟨n, r₁⟩, h₁, h⟩ := ok_of_bind h
    obtain ⟨⟨b, r₂⟩, h₂, h⟩ := ok_of_bind h
    obtain ⟨⟨s, r₃⟩, h₃, h⟩ := ok_of_bind h
    cases h
    have := length_expect stop h₁
    have := length_expect stop h₂
    have := length_settings stop h₃
    omega
  · obtain ⟨⟨n, r₁⟩, h₁, h⟩ := ok_of_bind h
    obtain ⟨⟨a, r₂⟩, h₂, h⟩ := ok_of_bind h
    obtain ⟨⟨b, r₃⟩, h₃, h⟩ := ok_of_bind h
    obtain ⟨⟨c, r₄⟩, h₄, h⟩ := ok_of_bind h
    cases h
    have := length_expect stop h₁
    have := length_tableAlias stop h₂
    have := length_expect stop h₃
    have := length_columns stop h₄
    omega
  · obtain ⟨⟨n, r₁⟩, h₁, h⟩ := ok_of_bind h
    obtain ⟨⟨b, r₂⟩, h₂, h⟩ := ok_of_bind h
    obtain ⟨⟨v, r₃⟩, h₃, h⟩ := ok_of_bind h
    cases h
    have := length_expect stop h₁
    have := length_expect stop h₂
    have := length_values stop h₃
    omega
  · simp [misfit] at h

/-- The declarations that make up all the tokens. -/
def declarations (ts : List Token) : Except Problem (List Decl) :=
  match ts with
  | [] => .ok []
  | t :: ts =>
    match _h : declaration stop t ts with
    | .ok (d, rest) => (declarations rest).map (d :: ·)
    | .error problem => .error problem
termination_by ts.length
decreasing_by
  have := length_declaration stop (by assumption)
  simp only [List.length_cons]
  omega

end Phrase

/-! ## Documents -/

/-- The document that a list of tokens spells. -/
def Document.ofTokens (ts : List Token) : Except Problem Document :=
  let ts := TokenList.ofTokens ts
  (Phrase.declarations ts.stop ts.body).map Document.mk

/-- The document that a text spells. -/
def Document.parse (source : String) : Except Problem Document := do
  Document.ofTokens (← tokenize source)

end Dbml
