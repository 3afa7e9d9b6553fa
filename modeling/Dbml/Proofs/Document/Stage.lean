import Dbml.Document.Parser

/-!
# The stages of a document

The phrases of the parser call one another, but what they may meet next is settled by one of a few
stages: between declarations, after a column's name, and so on. `Stage.moves` lists for each stage
the kinds that may come next, and the whole grammar is in this table. The parser follows it: a
phrase that answers has moved from its first stage to its last, and a phrase that fails has moved to
a stage that refuses what stands there, and says so (`Follows`). One lemma carries this over a
sequence of phrases (`Follows.bind`).

So a list of tokens is a document if it leads back to the first stage
(`Document.accepts_iff_after`), and from every stage there is a way back (`Stage.exists_way_back`).
-/

namespace Dbml

/-- How far a document has been read, as far as it matters for what may come next. -/
inductive Stage where
  | document
  | projectName
  | projectBrace
  | settings
  | settingColon
  | settingValue
  | tableName
  | aliasOrBrace
  | aliasName
  | tableBrace
  | columns
  | columnType
  | enumName
  | enumBrace
  | values
deriving DecidableEq, Repr

namespace Stage

/-- The kinds that may come next, each with the stage after it. -/
def moves : Stage → List (Kind × Stage)
  | document =>
    [(.keyword .project, projectName), (.keyword .table, tableName), (.keyword .enum, enumName)]
  | projectName => [(.literal .ident, projectBrace)]
  | projectBrace => [(.delimiter .lBrace, settings)]
  | settings => [(.delimiter .rBrace, document), (.keyword .databaseType, settingColon)]
  | settingColon => [(.delimiter .colon, settingValue)]
  | settingValue => [(.literal .doubleQuoted, settings), (.literal .singleQuoted, settings)]
  | tableName => [(.literal .ident, aliasOrBrace)]
  | aliasOrBrace => [(.keyword .aliased, aliasName), (.delimiter .lBrace, columns)]
  | aliasName => [(.literal .ident, tableBrace)]
  | tableBrace => [(.delimiter .lBrace, columns)]
  | columns => [(.delimiter .rBrace, document), (.literal .ident, columnType)]
  | columnType => [(.literal .ident, columns)]
  | enumName => [(.literal .ident, enumBrace)]
  | enumBrace => [(.delimiter .lBrace, values)]
  | values =>
    [(.delimiter .rBrace, document), (.literal .ident, values), (.literal .doubleQuoted, values)]

/-- What the parser asks for at a stage. -/
def expected : Stage → Expected
  | document => .declaration
  | projectName => .projectName
  | projectBrace => .openBrace
  | settings => .projectSetting
  | settingColon => .colon
  | settingValue => .databaseType
  | tableName => .tableName
  | aliasOrBrace => .openBrace
  | aliasName => .tableAlias
  | tableBrace => .openBrace
  | columns => .columnName
  | columnType => .columnType
  | enumName => .enumName
  | enumBrace => .openBrace
  | values => .enumValue

/-- The stage after a token of the kind `k`, if one may come. -/
def next (q : Stage) (k : Kind) : Option Stage := q.moves.lookup k

/-- The stage after some tokens, if they may come one after another. -/
def after (q : Stage) : List Token → Option Stage
  | [] => some q
  | t :: ts => (q.next t.kind).bind fun q' => q'.after ts

@[simp] theorem after_nil (q : Stage) : q.after [] = some q := rfl

theorem after_cons {q q' : Stage} {t : Token} (h : q.next t.kind = some q') (ts : List Token) :
    q.after (t :: ts) = q'.after ts := by
  rw [after, h, Option.bind_some]

/-- The stages of two parts one after the other are gone through one after the other. -/
theorem after_append {q q' : Stage} {ts : List Token} (h : q.after ts = some q')
    (us : List Token) : q.after (ts ++ us) = q'.after us := by
  induction ts generalizing q with
  | nil =>
    cases h
    rfl
  | cons t ts ih =>
    obtain ⟨q₁, hnext, hts⟩ := Option.bind_eq_some_iff.1 h
    rw [List.cons_append, after_cons hnext, ih hts]

/-- There is no way on by a kind that no move is labelled with. -/
theorem next_eq_none {q : Stage} {k : Kind} (h : ∀ m ∈ q.moves, k ≠ m.1) : q.next k = none := by
  apply List.lookup_eq_none_iff.2
  intro m hm
  exact bne_iff_ne.2 (h m hm)

/-- Whether the stage does not allow what the tokens begin with; no tokens are a document's end. -/
def Refuses (q : Stage) : List Token → Prop
  | [] => q ≠ document
  | t :: _ => q.next t.kind = none

/-- Tokens that a stage refuses are no way to the end of a document. -/
theorem not_after_of_refuses {q : Stage} {ts : List Token} (h : q.Refuses ts) :
    q.after ts ≠ some document := by
  cases ts with
  | nil =>
    intro hdoc
    exact h (Option.some.inj hdoc)
  | cons t ts =>
    rw [after, show q.next t.kind = none from h]
    simp

/-- The kinds of a shortest way back to the first stage. -/
def wayBack : Stage → List Kind
  | document => []
  | projectName => [.literal .ident, .delimiter .lBrace, .delimiter .rBrace]
  | projectBrace => [.delimiter .lBrace, .delimiter .rBrace]
  | settings => [.delimiter .rBrace]
  | settingColon => [.delimiter .colon, .literal .doubleQuoted, .delimiter .rBrace]
  | settingValue => [.literal .doubleQuoted, .delimiter .rBrace]
  | tableName => [.literal .ident, .delimiter .lBrace, .delimiter .rBrace]
  | aliasOrBrace => [.delimiter .lBrace, .delimiter .rBrace]
  | aliasName => [.literal .ident, .delimiter .lBrace, .delimiter .rBrace]
  | tableBrace => [.delimiter .lBrace, .delimiter .rBrace]
  | columns => [.delimiter .rBrace]
  | columnType => [.literal .ident, .delimiter .rBrace]
  | enumName => [.literal .ident, .delimiter .lBrace, .delimiter .rBrace]
  | enumBrace => [.delimiter .lBrace, .delimiter .rBrace]
  | values => [.delimiter .rBrace]

/-- Whatever has been read, a document can still come of it. -/
theorem exists_way_back (q : Stage) :
    ∃ us : List Token, (∀ u ∈ us, u.kind ≠ .eof) ∧ q.after us = some document := by
  refine ⟨q.wayBack.map fun k => ⟨k, "", .start, ⟨0, 0⟩⟩, ?_, ?_⟩
  · cases q <;> decide
  · cases q <;> decide

end Stage

/-! ## Following the stages -/

/-- The tokens lead from the stage `q` to one that refuses what comes then, and the problem is that. -/
def Stuck (stop : Token) (q : Stage) (ts : List Token) (e : Problem) : Prop :=
  ∃ before left q', ts = before ++ left ∧ q.after before = some q' ∧ q'.Refuses left ∧
    e = .atToken q'.expected (left.head?.getD stop)

/-- What a phrase answers that begins at the stage `q`: it has come to the stage `q'` of what it
read, or it is stuck. -/
def Follows {α : Type} (stop : Token) (q : Stage) (q' : α → Stage) (ts : List Token) :
    Except Problem (α × List Token) → Prop
  | .ok (a, rest) => ∃ us, ts = us ++ rest ∧ q.after us = some (q' a)
  | .error e => Stuck stop q ts e

/-- Where a reading gets stuck does not depend on how its stage was reached. -/
theorem Stuck.append {stop : Token} {q q' : Stage} {us ts : List Token} {e : Problem}
    (hus : q.after us = some q') (h : Stuck stop q' ts e) : Stuck stop q (us ++ ts) e := by
  obtain ⟨before, left, q₁, rfl, hbefore, hleft, he⟩ := h
  refine ⟨us ++ before, left, q₁, by simp, ?_, hleft, he⟩
  rw [Stage.after_append hus, hbefore]

namespace Follows

variable {α β : Type} {stop : Token} {q : Stage} {q' : α → Stage} {ts : List Token}

/-- To follow the stages from where some tokens lead is to follow them from where these start. -/
theorem append {q₁ : Stage} {us : List Token} {x : Except Problem (α × List Token)}
    (hus : q.after us = some q₁) (h : Follows stop q₁ q' ts x) : Follows stop q q' (us ++ ts) x := by
  cases x with
  | error e => exact Stuck.append hus h
  | ok r =>
    obtain ⟨vs, rfl, hvs⟩ := h
    refine ⟨us ++ vs, by simp, ?_⟩
    rw [Stage.after_append hus, hvs]

/-- One token by one of the moves, and the stages are followed from where it leads. -/
theorem cons {q₁ : Stage} {t : Token} {k : Kind} {x : Except Problem (α × List Token)}
    (hk : t.kind = k) (hnext : q.next k = some q₁) (h : Follows stop q₁ q' ts x) :
    Follows stop q q' (t :: ts) x := by
  subst hk
  have ht : q.after [t] = some q₁ := Stage.after_cons hnext []
  exact append ht h

/-- An answer that takes nothing stays where it is. -/
theorem stay {a : α} (hq : q' a = q) : Follows stop q q' ts (.ok (a, ts)) := by
  subst hq
  exact ⟨[], rfl, rfl⟩

/-- At the end of the tokens the parser says what the stage expects, unless a document may end
there. -/
theorem ended (hq : q ≠ .document) : Follows stop q q' [] (Phrase.misfit stop q.expected []) :=
  ⟨[], [], q, rfl, rfl, hq, rfl⟩

/-- At a token that the stage has no move for, the parser says what the stage expects. -/
theorem refused {t : Token} (h : ∀ m ∈ q.moves, t.kind ≠ m.1) :
    Follows stop q q' (t :: ts) (Phrase.misfit stop q.expected (t :: ts)) :=
  ⟨[], t :: ts, q, rfl, rfl, Stage.next_eq_none h, rfl⟩

/-- What is made of an answer does not change which stages were followed. -/
theorem map {q'' : β → Stage} {f : α → β} {x : Except Problem (α × List Token)}
    (h : Follows stop q q' ts x) (hf : ∀ a, q'' (f a) = q' a) :
    Follows stop q q'' ts (x.map fun (a, rest) => (f a, rest)) := by
  cases x with
  | error e => exact h
  | ok r =>
    obtain ⟨us, hus, hq⟩ := h
    refine ⟨us, hus, ?_⟩
    rw [hq, hf]

/-- **Phrases compose**: if the first follows the stages to some point and the second follows them
from there, the two together do. -/
theorem bind {q'' : β → Stage} {x : Except Problem (α × List Token)}
    {f : α × List Token → Except Problem (β × List Token)} (h : Follows stop q q' ts x)
    (hf : ∀ a rest, x = .ok (a, rest) → Follows stop (q' a) q'' rest (f (a, rest))) :
    Follows stop q q'' ts (x >>= f) := by
  cases x with
  | error e => exact h
  | ok r =>
    obtain ⟨us, rfl, hus⟩ := h
    exact (hf r.1 r.2 rfl).append hus

end Follows

/-! ## Phrases follow the stages -/

namespace Phrase

variable {stop : Token}

theorem error_of_map {α β : Type} {f : α → β} {x : Except Problem α} {e : Problem}
    (h : x.map f = .error e) : x = .error e := by
  cases x with
  | error e' =>
    cases h
    rfl
  | ok a => cases h

/-- A sequence fails in its first part, or in what comes after it. -/
theorem error_of_bind {α β : Type} {f : α → Except Problem β} {x : Except Problem α} {e : Problem}
    (h : (x >>= f) = .error e) : x = .error e ∨ ∃ a, x = .ok a ∧ f a = .error e := by
  cases x with
  | error e' =>
    cases h
    exact .inl rfl
  | ok a => exact .inr ⟨a, rfl, h⟩

/-- A token is asked for where no other kind may come, or none but this one does. -/
theorem follows_expect {q q' : Stage} {kind : Kind} {ts : List Token} (hq : q ≠ .document)
    (hnext : q.next kind = some q')
    (honly : ∀ t ∈ ts.head?, t.kind ≠ kind → ∀ m ∈ q.moves, t.kind ≠ m.1) :
    Follows stop q (fun _ => q') ts (expect stop kind q.expected ts) := by
  cases ts with
  | nil => exact .ended hq
  | cons t ts =>
    rw [expect]
    by_cases hk : t.kind = kind
    · rw [if_pos hk]
      exact .cons hk hnext (.stay rfl)
    · rw [if_neg hk]
      exact .refused (honly t rfl hk)

/-- To ask for the one kind that a stage has a move for is to follow it. -/
theorem follows_expect_only {q q' : Stage} {kind : Kind} {ts : List Token}
    (hq : q.moves = [(kind, q')]) :
    Follows stop q (fun _ => q') ts (expect stop kind q.expected ts) := by
  refine follows_expect ?_ ?_ ?_
  · rintro rfl
    simp [Stage.moves] at hq
  · rw [Stage.next, hq, List.lookup_cons_self]
  · intro t _ hk
    simpa [hq] using hk

/-- The settings of a project follow the stages from the first setting to the closing brace. -/
theorem follows_settings (last : Option String) (ts : List Token) :
    Follows stop .settings (fun _ => .document) ts (settings stop last ts) := by
  fun_induction settings stop last ts with
  | case1 => exact .ended (q := .settings) (by decide)
  | case2 last t ts hclose => exact .cons hclose rfl (.stay rfl)
  | case3 last t hclose hkey => exact .cons hkey rfl (.ended (q := .settingColon) (by decide))
  | case4 last t hclose hkey c hcolon =>
    exact .cons hkey rfl (.cons hcolon rfl (.ended (q := .settingValue) (by decide)))
  | case5 last t hclose hkey c hcolon v ts hvalue ih =>
    simp only [isTypeString, Bool.or_eq_true, beq_iff_eq] at hvalue
    refine .cons hkey rfl (.cons hcolon rfl ?_)
    rcases hvalue with hv | hv
    · exact .cons hv rfl ih
    · exact .cons hv rfl ih
  | case6 last t hclose hkey c hcolon v ts hvalue =>
    refine .cons hkey rfl (.cons hcolon rfl (.refused (q := .settingValue) ?_))
    simpa [Stage.moves, isTypeString] using hvalue
  | case7 last t hclose hkey c ts hcolon =>
    refine .cons hkey rfl (.refused (q := .settingColon) ?_)
    simpa [Stage.moves] using hcolon
  | case8 last t ts hclose hkey =>
    refine .refused (q := .settings) ?_
    simpa [Stage.moves] using ⟨hclose, hkey⟩

/-- The columns of a table follow the stages to the closing brace. -/
theorem follows_columns (ts : List Token) :
    Follows stop .columns (fun _ => .document) ts (columns stop ts) := by
  fun_induction columns stop ts with
  | case1 => exact .ended (q := .columns) (by decide)
  | case2 t ts hclose => exact .cons hclose rfl (.stay rfl)
  | case3 t hclose hname => exact .cons hname rfl (.ended (q := .columnType) (by decide))
  | case4 t hclose hname u ts htype ih =>
    exact .cons hname rfl (.cons htype rfl (ih.map fun _ => rfl))
  | case5 t hclose hname u ts htype =>
    refine .cons hname rfl (.refused (q := .columnType) ?_)
    simpa [Stage.moves] using htype
  | case6 t ts hclose hname =>
    refine .refused (q := .columns) ?_
    simpa [Stage.moves] using ⟨hclose, hname⟩

/-- The values of an enum follow the stages to the closing brace. -/
theorem follows_values (ts : List Token) :
    Follows stop .values (fun _ => .document) ts (values stop ts) := by
  fun_induction values stop ts with
  | case1 => exact .ended (q := .values) (by decide)
  | case2 t ts hclose => exact .cons hclose rfl (.stay rfl)
  | case3 t ts hclose hident ih => exact .cons hident rfl (ih.map fun _ => rfl)
  | case4 t ts hclose hident hquoted ih => exact .cons hquoted rfl (ih.map fun _ => rfl)
  | case5 t ts hclose hident hquoted =>
    refine .refused (q := .values) ?_
    simpa [Stage.moves] using ⟨hclose, hident, hquoted⟩

/-- The stage after a table's name, past its alias if it has one. -/
def stagePastAlias : Option String → Stage
  | some _ => .tableBrace
  | none => .aliasOrBrace

/-- An alias follows the stages to the brace that it must be followed by; without one the brace may
come at once. -/
theorem follows_tableAlias (ts : List Token) :
    Follows stop .aliasOrBrace stagePastAlias ts (tableAlias stop ts) := by
  unfold tableAlias
  split
  · exact .stay rfl
  · rename_i t ts
    by_cases hk : t.kind = .keyword .aliased
    · rw [if_pos hk]
      refine .cons hk rfl ?_
      refine Follows.map (f := fun n : Token => some n.value)
        (follows_expect_only (q := .aliasName) rfl) ?_
      exact fun _ => rfl
    · rw [if_neg hk]
      exact .stay rfl

theorem follows_tableBrace {a : Option String} {ts rest : List Token}
    (h : tableAlias stop ts = .ok (a, rest)) :
    Follows stop (stagePastAlias a) (fun _ => .columns) rest (openBrace stop rest) := by
  cases a with
  | some a => exact follows_expect_only (q := .tableBrace) rfl
  | none =>
    -- no alias was found, so of the two moves only the brace is left
    refine follows_expect (q := .aliasOrBrace) nofun rfl ?_
    intro t ht hk
    have halias : t.kind ≠ .keyword .aliased := by
      unfold tableAlias at h
      split at h
      · cases h
        cases ht
      · split at h
        · obtain ⟨_, -, he⟩ := ok_of_map h
          cases he
        · rename_i hne
          cases h
          cases ht
          exact hne
    simpa [Stage.moves] using ⟨halias, hk⟩

/-- Every declaration follows the stages from the document back to it. -/
theorem follows_declaration (stop t : Token) (ts : List Token) :
    Follows stop .document (fun _ => .document) (t :: ts) (declaration stop t ts) := by
  unfold declaration
  split
  · rename_i hk
    refine .cons hk rfl (.bind (follows_expect_only (q := .projectName) rfl) fun n ts _ => ?_)
    refine .bind (follows_expect_only (q := .projectBrace) rfl) fun b ts _ => ?_
    exact .bind (follows_settings none ts) fun d ts _ => .stay rfl
  · rename_i hk
    refine .cons hk rfl (.bind (follows_expect_only (q := .tableName) rfl) fun n ts _ => ?_)
    refine .bind (follows_tableAlias ts) fun a ts ha => ?_
    refine .bind (follows_tableBrace ha) fun b ts _ => ?_
    exact .bind (follows_columns ts) fun cs ts _ => .stay rfl
  · rename_i hk
    refine .cons hk rfl (.bind (follows_expect_only (q := .enumName) rfl) fun n ts _ => ?_)
    refine .bind (follows_expect_only (q := .enumBrace) rfl) fun b ts _ => ?_
    exact .bind (follows_values ts) fun vs ts _ => .stay rfl
  · rename_i hproject htable henum
    refine .refused (q := .document) ?_
    simpa [Stage.moves] using ⟨hproject, htable, henum⟩

/-- The whole parser: the declarations lead back to the first stage, or the parser is stuck. -/
theorem follows_declarations (stop : Token) (ts : List Token) :
    (∀ ds, declarations stop ts = .ok ds → Stage.document.after ts = some .document) ∧
      ∀ e, declarations stop ts = .error e → Stuck stop .document ts e := by
  fun_induction declarations stop ts with
  | case1 => exact ⟨fun _ _ => rfl, nofun⟩
  | case2 t ts d rest hd ih =>
    have hfollows := follows_declaration stop t ts
    rw [hd] at hfollows
    obtain ⟨us, hus, hdoc⟩ := hfollows
    rw [hus]
    constructor
    · intro ds h
      obtain ⟨ds', hds, -⟩ := ok_of_map h
      rw [Stage.after_append hdoc, ih.1 ds' hds]
    · intro e h
      exact (ih.2 e (error_of_map h)).append hdoc
  | case3 t ts e' hd =>
    have hfollows := follows_declaration stop t ts
    rw [hd] at hfollows
    refine ⟨nofun, fun e h => ?_⟩
    cases h
    exact hfollows

end Phrase

/-! ## Documents -/

namespace Document

/-- Every error is one of getting stuck: after some tokens, at a stage that has no way on, with the
expectation of that stage. -/
theorem stuck_of_ofTokens {ts : List Token} {e : Problem} (h : Document.ofTokens ts = .error e) :
    Stuck (TokenList.ofTokens ts).stop .document (TokenList.ofTokens ts).body e := by
  apply (Phrase.follows_declarations _ _).2
  exact Phrase.error_of_map h

/-- The documents are the lists of tokens that lead from the first stage back to it. -/
theorem accepts_iff_after {ts : List Token} :
    (∃ d, Document.ofTokens ts = .ok d) ↔
      Stage.document.after (ts.takeWhile (!·.isEof)) = some .document := by
  constructor
  · rintro ⟨d, h⟩
    obtain ⟨ds, hds, -⟩ := Phrase.ok_of_map h
    exact (Phrase.follows_declarations _ _).1 ds hds
  · intro h
    cases hts : Document.ofTokens ts with
    | ok d => exact ⟨d, rfl⟩
    | error e =>
      obtain ⟨before, left, q, hbody, hbefore, hleft, -⟩ := stuck_of_ofTokens hts
      have hbody' : ts.takeWhile (!·.isEof) = before ++ left := hbody
      rw [hbody', Stage.after_append hbefore] at h
      exact absurd h (Stage.not_after_of_refuses hleft)

end Document

end Dbml
