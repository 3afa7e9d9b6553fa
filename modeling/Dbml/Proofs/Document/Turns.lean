import Dbml.Proofs.Document.Tracking

/-!
# Phrases turn by turn

The phrases that read a body or a document are recursions. Here each is cut after its first turn:
what one turn reads, and what it leaves to the same phrase (`settings_eq_turn`, `columns_eq_turn`,
`values_eq_turn`, `declarations_eq_turn`). A phrase that collects items puts each before those still
to come, while a loop puts it after those it has; so the phrase is followed with the items so far
(`columnsFrom`, `valuesFrom`, `declarationsFrom`).

An end of the input is of a kind that no phrase asks for, so where none of the tokens is left it is
looked at like any other (`front`).
-/

namespace Dbml

namespace Phrase

variable (stop : Token)

/-- A token of the given kind, asked for in these words. -/
def ask (kind : Kind) (words : String) (ts : List Token) : Except Problem (Token × List Token) :=
  if (front stop ts).kind = kind then .ok (front stop ts, ts.tail)
  else .error (.insteadOf words (front stop ts))

/-- A declaration with its keyword. -/
def begun (k : Keyword) (phrase : Position → List Token → Except Problem (Decl × List Token))
    (ts : List Token) : Except Problem (Decl × List Token) := do
  let (t, ts) ← ask stop (.keyword k) (Kind.keyword k).description ts
  phrase t.position ts

/-- A string that may name a database type. -/
def typeString (ts : List Token) : Except Problem (Token × List Token) :=
  if isTypeString (front stop ts) then .ok (front stop ts, ts.tail)
  else misfit stop .databaseType ts

def settingTurn (last : Option String) (ts : List Token) :
    Except Problem ((Option String ⊕ Option String) × List Token) :=
  if (front stop ts).kind = .delimiter .rBrace then .ok (.inr last, ts.tail)
  else if (front stop ts).kind = .keyword .databaseType then do
    let (_, ts) ← expect stop (.delimiter .colon) .colon ts.tail
    let (v, ts) ← typeString stop ts
    return (.inl (some v.value), ts)
  else misfit stop .projectSetting ts

/-- A column. -/
def column (ts : List Token) : Except Problem (Decl.Column × List Token) := do
  let (n, ts) ← expect stop (.literal .ident) .columnName ts
  let (y, ts) ← expect stop (.literal .ident) .columnType ts
  return (⟨n.value, y.value, n.position⟩, ts)

def columnTurn (cs : List Decl.Column) (ts : List Token) :
    Except Problem ((List Decl.Column ⊕ List Decl.Column) × List Token) :=
  if (front stop ts).kind = .delimiter .rBrace then .ok (.inr cs, ts.tail)
  else do
    let (c, ts) ← column stop ts
    return (.inl (cs ++ [c]), ts)

def valueTurn (vs : List String) (ts : List Token) :
    Except Problem ((List String ⊕ List String) × List Token) :=
  if (front stop ts).kind = .delimiter .rBrace then .ok (.inr vs, ts.tail)
  else if (front stop ts).kind = .literal .ident then
    .ok (.inl (vs ++ [(front stop ts).value]), ts.tail)
  else if (front stop ts).kind = .literal .doubleQuoted then
    .ok (.inl (vs ++ ["\"" ++ (front stop ts).value ++ "\""]), ts.tail)
  else misfit stop .enumValue ts

/-- A declaration that begins with the token `t`, as a turn of the document. -/
def declarationTurn (ds : List Decl) (t : Token) (ts : List Token) :
    Except Problem ((List Decl ⊕ Document) × List Token) := do
  let (d, ts) ← declaration stop t ts
  return (.inl (ds ++ [d]), ts)

/-- The columns after `cs`. -/
def columnsFrom (cs : List Decl.Column) (ts : List Token) :
    Except Problem (List Decl.Column × List Token) :=
  (columns stop ts).map fun (cs', rest) => (cs ++ cs', rest)

/-- The values after `vs`. -/
def valuesFrom (vs : List String) (ts : List Token) : Except Problem (List String × List Token) :=
  (values stop ts).map fun (vs', rest) => (vs ++ vs', rest)

/-- The declarations after `ds`; they leave nothing. -/
def declarationsFrom (ds : List Decl) (ts : List Token) : Except Problem (Document × List Token) :=
  (declarations stop ts).map fun ds' => (⟨ds ++ ds'⟩, [])

variable {stop} (hstop : stop.kind = .eof)

include hstop in
/-- To expect a kind is to ask for it in the words of the expectation. -/
theorem expect_eq_ask {kind : Kind} (hkind : kind ≠ .eof) (expected : Expected) (ts : List Token) :
    expect stop kind expected ts = ask stop kind expected.text ts := by
  cases ts with
  | nil =>
    have hne : stop.kind ≠ kind := by
      rw [hstop]
      exact hkind.symm
    exact (if_neg hne).symm
  | cons t ts => rfl

theorem begun_of_kind {k : Keyword} {t : Token} (ht : t.kind = .keyword k)
    (phrase : Position → List Token → Except Problem (Decl × List Token)) (ts : List Token) :
    begun stop k phrase (t :: ts) = phrase t.position ts := by
  have hask : ask stop (.keyword k) (Kind.keyword k).description (t :: ts) = .ok (t, ts) := if_pos ht
  rw [begun, hask]
  rfl

include hstop in
theorem settings_eq_turn (last : Option String) (ts : List Token) :
    settings stop last ts = settingTurn stop last ts >>= Walk.resume (settings stop) := by
  fun_cases settings stop last ts with
  | case1 => simp [settingTurn, front, hstop, misfit, bind, Except.bind]
  | case2 t ts hclose => simp [settingTurn, front, hclose, Walk.resume, bind, Except.bind]
  | case3 t hclose hkey => simp [settingTurn, front, hkey, expect, misfit, bind, Except.bind]
  | case4 t hclose hkey c hcolon =>
    simp [settingTurn, front, hkey, expect, hcolon, typeString, isTypeString, hstop, misfit, bind,
      Except.bind]
  | case5 t hclose hkey c hcolon v ts hvalue =>
    simp [settingTurn, front, hkey, expect, hcolon, typeString, hvalue, Walk.resume, bind,
      Except.bind, pure, Except.pure]
  | case6 t hclose hkey c hcolon v ts hvalue =>
    simp [settingTurn, front, hkey, expect, hcolon, typeString, hvalue, misfit, bind, Except.bind]
  | case7 t hclose hkey c ts hcolon =>
    simp [settingTurn, front, hkey, expect, hcolon, misfit, bind, Except.bind]
  | case8 t ts hclose hkey => simp [settingTurn, front, hclose, hkey, misfit, bind, Except.bind]

/-- What is put before the items still to come is put after those so far. -/
theorem map_cons_append {β : Type} (b : β) (bs : List β) (x : Except Problem (List β × List Token)) :
    ((x.map fun (items, rest) => (b :: items, rest)).map fun (items, rest) => (bs ++ items, rest)) =
      x.map fun (items, rest) => (bs ++ [b] ++ items, rest) := by
  cases x <;> simp [Except.map]

include hstop in
/-- The columns of a table, unrolled by one turn; those read so far are carried along. -/
theorem columns_eq_turn (cs : List Decl.Column) (ts : List Token) :
    columnsFrom stop cs ts = columnTurn stop cs ts >>= Walk.resume (columnsFrom stop) := by
  unfold columnsFrom
  fun_cases columns stop ts with
  | case1 => simp [columnTurn, front, hstop, column, expect, misfit, bind, Except.bind, Except.map]
  | case2 t ts hclose =>
    simp [columnTurn, front, hclose, Walk.resume, bind, Except.bind, Except.map]
  | case3 t hclose hname =>
    simp [columnTurn, front, hname, column, expect, misfit, bind, Except.bind, Except.map]
  | case4 t hclose hname u ts htype =>
    have hturn : columnTurn stop cs (t :: u :: ts) =
        .ok (.inl (cs ++ [⟨t.value, u.value, t.position⟩]), ts) := by
      simp [columnTurn, front, hname, column, expect, htype, bind, Except.bind, pure, Except.pure]
    rw [hturn, map_cons_append]
    rfl
  | case5 t hclose hname u ts htype =>
    simp [columnTurn, front, hname, column, expect, htype, misfit, bind, Except.bind, Except.map]
  | case6 t ts hclose hname =>
    simp [columnTurn, front, hclose, column, expect, hname, misfit, bind, Except.bind, Except.map]

include hstop in
theorem values_eq_turn (vs : List String) (ts : List Token) :
    valuesFrom stop vs ts = valueTurn stop vs ts >>= Walk.resume (valuesFrom stop) := by
  unfold valuesFrom
  fun_cases values stop ts with
  | case1 => simp [valueTurn, front, hstop, misfit, bind, Except.bind, Except.map]
  | case2 t ts hclose =>
    simp [valueTurn, front, hclose, Walk.resume, bind, Except.bind, Except.map]
  | case3 t ts hclose hident =>
    have hturn : valueTurn stop vs (t :: ts) = .ok (.inl (vs ++ [t.value]), ts) := by
      simp [valueTurn, front, hident]
    rw [hturn, map_cons_append]
    rfl
  | case4 t ts hclose hident hquoted =>
    have hturn : valueTurn stop vs (t :: ts) =
        .ok (.inl (vs ++ ["\"" ++ t.value ++ "\""]), ts) := by
      simp [valueTurn, front, hquoted]
    rw [hturn, map_cons_append]
    rfl
  | case5 t ts hclose hident hquoted =>
    simp [valueTurn, front, hclose, hident, hquoted, misfit, bind, Except.bind, Except.map]

theorem columnsFrom_nil (ts : List Token) : columnsFrom stop [] ts = columns stop ts := by
  unfold columnsFrom
  cases columns stop ts <;> rfl

theorem valuesFrom_nil (ts : List Token) : valuesFrom stop [] ts = values stop ts := by
  unfold valuesFrom
  cases values stop ts <;> rfl

include hstop in
/-- An alias by the token at the front: there is one if this is its keyword. -/
theorem tableAlias_eq (ts : List Token) :
    tableAlias stop ts =
      if (front stop ts).kind = .keyword .aliased then do
        let (a, ts) ← expect stop (.literal .ident) .tableAlias ts.tail
        return (some a.value, ts)
      else .ok (none, ts) := by
  cases ts with
  | nil => simp [tableAlias, front, hstop]
  | cons t ts =>
    change (if t.kind = .keyword .aliased then _ else _) = if t.kind = .keyword .aliased then _ else _
    refine if_congr Iff.rfl ?_ rfl
    change (expect stop (.literal .ident) .tableAlias ts).map _ = expect stop _ _ ts >>= _
    cases expect stop (.literal .ident) .tableAlias ts <;> rfl

theorem declarations_eq_turn (ds : List Decl) (t : Token) (ts : List Token) :
    declarationsFrom stop ds (t :: ts) =
      declarationTurn stop ds t ts >>= Walk.resume (declarationsFrom stop) := by
  rw [declarationsFrom, declarations, declarationTurn]
  split
  · rename_i d rest hd
    rw [hd]
    change ((declarations stop rest).map (d :: ·)).map _ = declarationsFrom stop (ds ++ [d]) rest
    unfold declarationsFrom
    cases declarations stop rest <;> simp [Except.map]
  · rename_i e hd
    rw [hd]
    rfl

end Phrase

end Dbml
