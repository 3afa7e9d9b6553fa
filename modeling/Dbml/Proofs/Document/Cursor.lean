import Dbml.Document.Parser

/-!
# Reading with a cursor

The phrases of the parser hand on the tokens that are left. Here the same grammar is read from one
list that stays whole, by a cursor that is an index into it, so that what cannot be said of the
phrases can go wrong: the cursor may look where the list has no token, and a loop may go round
without moving it. A walk tells every index that it looked at, and how it ended (`Walk.Run`).

A loop is given as many turns as the list has tokens. That nothing goes wrong, and that the walk
reads what the phrases read, is shown in `Dbml.Proofs.Document.Progress`.
-/

namespace Dbml

/-- The problem of a token that stands where these words are expected. -/
def Problem.insteadOf (words : String) (found : Token) : Problem :=
  .unexpected words found.describe found.position found.span

namespace Walk

/-- How a walk ends. -/
inductive Ending (α : Type) where
  /-- With what was read, and the index where the cursor then stands. -/
  | answer (a : α) (pos : Nat)
  | problem (e : Problem)
  /-- The cursor looked at an index that the list does not have. -/
  | outOfBounds
  /-- A loop was not over when it had used up its turns. -/
  | outOfTurns
deriving DecidableEq, Repr

/-- What comes of a walk: the indices that the cursor looked at, in order, and the end. -/
structure Run (α : Type) where
  looks : List Nat
  ending : Ending α
deriving DecidableEq, Repr

/-- Goes on after an answer, from the index where the cursor stands; any other end stays. -/
def Run.andThen {α β : Type} (run : Run α) (next : α → Nat → Run β) : Run β :=
  match run.ending with
  | .answer a pos => ⟨run.looks ++ (next a pos).looks, (next a pos).ending⟩
  | .problem e => ⟨run.looks, .problem e⟩
  | .outOfBounds => ⟨run.looks, .outOfBounds⟩
  | .outOfTurns => ⟨run.looks, .outOfTurns⟩

end Walk

/-- A way to read a list of tokens from the index of a cursor. -/
structure Walk (α : Type) where
  run : List Token → Nat → Walk.Run α

namespace Walk

variable {α σ : Type}

instance : Monad Walk where
  pure a := ⟨fun _ i => ⟨[], .answer a i⟩⟩
  bind x f := ⟨fun all i => (x.run all i).andThen fun a j => (f a).run all j⟩

/-! ## The cursor -/

/-- The token under the cursor. -/
def peek : Walk Token where
  run all i :=
    match all[i]? with
    | some t => ⟨[i], .answer t i⟩
    | none => ⟨[i], .outOfBounds⟩

/-- Moves the cursor past the token under it. It does not move past an end of the input. -/
def advance : Walk Token where
  run all i :=
    match all[i]? with
    | some t => ⟨[i], .answer t (if t.isEof then i else i + 1)⟩
    | none => ⟨[i], .outOfBounds⟩

/-- Ends with a problem. -/
def fail (e : Problem) : Walk α := ⟨fun _ _ => ⟨[], .problem e⟩⟩

/-- Ends with the token under the cursor as the problem. -/
def unexpected (words : String) : Walk α := do
  let t ← peek
  fail (.insteadOf words t)

/-- Takes a token of the given kind, if one stands under the cursor. -/
def eat (kind : Kind) : Walk (Option Token) := do
  let t ← peek
  if t.kind = kind then
    let t ← advance
    return some t
  else return none

/-- Takes a token of the given kind. -/
def expect (kind : Kind) (words : String) : Walk Token := do
  match ← eat kind with
  | some t => return t
  | none => unexpected words

/-! ## Loops -/

/-- Goes round at most `n` times. A turn ends with what the next one begins with, or with the answer
of the loop. -/
def turns (turn : σ → Walk (σ ⊕ α)) : Nat → σ → Walk α
  | 0, _ => ⟨fun _ _ => ⟨[], .outOfTurns⟩⟩
  | n + 1, s => do
    match ← turn s with
    | .inl s => turns turn n s
    | .inr a => return a

/-- Goes round as long as there are tokens in the list to spend a turn on. -/
def loop (turn : σ → Walk (σ ⊕ α)) (s : σ) : Walk α where
  run all i := (turns turn all.length s).run all i

/-! ## Phrases -/

/-- A string that may name a database type. -/
def typeString : Walk Token := do
  let t ← peek
  if Phrase.isTypeString t then advance else unexpected Expected.databaseType.text

/-- One turn in the body of a project; `last` is the database type so far. -/
def settingTurn (last : Option String) : Walk (Option String ⊕ Option String) := do
  let t ← peek
  if t.kind = .delimiter .rBrace then
    let _ ← advance
    return .inr last
  else if t.kind = .keyword .databaseType then
    let _ ← advance
    let _ ← expect (.delimiter .colon) Expected.colon.text
    let v ← typeString
    return .inl (some v.value)
  else unexpected Expected.projectSetting.text

/-- A project. -/
def project : Walk Decl := do
  let keyword ← expect (.keyword .project) (Kind.keyword .project).description
  let name ← expect (.literal .ident) Expected.projectName.text
  let _ ← expect (.delimiter .lBrace) Expected.openBrace.text
  let databaseType ← loop settingTurn none
  return .project name.value databaseType keyword.position

/-- A column. -/
def column : Walk Decl.Column := do
  let name ← expect (.literal .ident) Expected.columnName.text
  let type ← expect (.literal .ident) Expected.columnType.text
  return ⟨name.value, type.value, name.position⟩

/-- One turn in the body of a table; `cs` are the columns so far. -/
def columnTurn (cs : List Decl.Column) : Walk (List Decl.Column ⊕ List Decl.Column) := do
  match ← eat (.delimiter .rBrace) with
  | some _ => return .inr cs
  | none =>
    let c ← column
    return .inl (cs ++ [c])

/-- The alias of a table, if there is one. -/
def tableAlias : Walk (Option String) := do
  match ← eat (.keyword .aliased) with
  | some _ =>
    let a ← expect (.literal .ident) Expected.tableAlias.text
    return some a.value
  | none => return none

/-- A table. -/
def table : Walk Decl := do
  let keyword ← expect (.keyword .table) (Kind.keyword .table).description
  let name ← expect (.literal .ident) Expected.tableName.text
  let aliasName ← tableAlias
  let _ ← expect (.delimiter .lBrace) Expected.openBrace.text
  let cs ← loop columnTurn []
  return .table name.value aliasName cs keyword.position

/-- One turn in the body of an enumeration; `vs` are the values so far. -/
def valueTurn (vs : List String) : Walk (List String ⊕ List String) := do
  let t ← peek
  if t.kind = .delimiter .rBrace then
    let _ ← advance
    return .inr vs
  else if t.kind = .literal .ident then
    let v ← advance
    return .inl (vs ++ [v.value])
  else if t.kind = .literal .doubleQuoted then
    let v ← advance
    return .inl (vs ++ ["\"" ++ v.value ++ "\""])
  else unexpected Expected.enumValue.text

/-- An enumeration. -/
def enum : Walk Decl := do
  let keyword ← expect (.keyword .enum) (Kind.keyword .enum).description
  let name ← expect (.literal .ident) Expected.enumName.text
  let _ ← expect (.delimiter .lBrace) Expected.openBrace.text
  let vs ← loop valueTurn []
  return .enum name.value vs keyword.position

/-- One turn of the document; `ds` are the declarations so far. It is over at an end of the input. -/
def documentTurn (ds : List Decl) : Walk (List Decl ⊕ Document) := do
  let t ← peek
  match t.kind with
  | .keyword .project =>
    let d ← project
    return .inl (ds ++ [d])
  | .keyword .table =>
    let d ← table
    return .inl (ds ++ [d])
  | .keyword .enum =>
    let d ← enum
    return .inl (ds ++ [d])
  | .eof => return .inr ⟨ds⟩
  | _ => unexpected Expected.declaration.text

/-- A document. -/
def document : Walk Document := loop documentTurn []

end Walk

end Dbml
