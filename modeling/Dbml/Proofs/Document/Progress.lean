import Dbml.Proofs.Document.Turns

/-!
# The cursor stays within the tokens and moves on

Each part of the cursor's reading is set beside the phrase that reads the same (`Walk.Tracks`), a
loop by one of its turns. What follows is said of the list alone: the cursor never looks past the
first end of the input; every phrase that answers has taken a token (`Walk.Progresses`), and so has
every turn of a loop but the last (`Walk.MovesOn`). A whole document ends where its tokens end, and
is the one that the parser gives (`Document.ReadWithin`); it alone can be read without taking a
token, when there is none.
-/

namespace Dbml

open Phrase (front)

/-! ## The walk beside the phrases -/

namespace Walk

variable {all body : List Token} {stop : Token} {i : Nat}

/-- To ask for a kind in some words is tracked, and it takes a token if it succeeds. -/
theorem tracks_ask (h : EndsAt all body stop) (hi : i ≤ body.length) {kind : Kind}
    (hkind : kind ≠ .eof) (words : String) :
    Tracks body i 1 ((expect kind words).run all i) (Phrase.ask stop kind words (body.drop i)) := by
  unfold Phrase.ask
  refine tracks_eat h hi hkind (Nat.le_refl 1) ?_ ?_
  · intro hfront hlt
    rw [if_pos hfront, List.tail_drop]
    exact .answer _ hlt
  · intro hfront
    rw [if_neg hfront]
    exact tracks_unexpected h hi words

theorem tracks_expect (h : EndsAt all body stop) (hi : i ≤ body.length) {kind : Kind}
    (hkind : kind ≠ .eof) (expected : Expected) :
    Tracks body i 1 ((expect kind expected.text).run all i)
      (Phrase.expect stop kind expected (body.drop i)) := by
  rw [Phrase.expect_eq_ask h.kind_stop hkind]
  exact tracks_ask h hi hkind expected.text

theorem tracks_typeString (h : EndsAt all body stop) (hi : i ≤ body.length) :
    Tracks body i 1 (typeString.run all i) (Phrase.typeString stop (body.drop i)) := by
  unfold Phrase.typeString
  refine tracks_peek h hi ?_
  by_cases hv : Phrase.isTypeString (front stop (body.drop i)) = true
  · have hne : (front stop (body.drop i)).kind ≠ .eof := by
      intro heof
      simp [Phrase.isTypeString, heof] at hv
    have hlt := h.lt_of_front hne
    rw [if_pos hv, if_pos hv, List.tail_drop, run_advance h hne]
    exact ⟨looksFrom_cons hi looksFrom_nil, .answer (Nat.le_refl _) hlt⟩
  · rw [if_neg hv, if_neg hv]
    exact tracks_unexpected h hi _

/-- One turn of the loop over the settings of a project. -/
theorem turn_setting (h : EndsAt all body stop) (last : Option String) (hi : i ≤ body.length) :
    Turn body (Phrase.settings stop) last i ((settingTurn last).run all i) := by
  refine Tracks.turn ?_ (Phrase.settings_eq_turn h.kind_stop last (body.drop i))
  unfold Phrase.settingTurn
  refine tracks_peek h hi ?_
  by_cases hclose : (front stop (body.drop i)).kind = .delimiter .rBrace
  · rw [if_pos hclose, if_pos hclose, List.tail_drop]
    exact tracks_advance h (by nofun) hclose fun hlt => .answer _ hlt
  rw [if_neg hclose, if_neg hclose]
  by_cases hkey : (front stop (body.drop i)).kind = .keyword .databaseType
  · rw [if_pos hkey, if_pos hkey, List.tail_drop]
    refine tracks_advance h (by nofun) hkey fun hlt => ?_
    refine .andThen (tracks_expect h hlt (by nofun) .colon) fun _ j _ hj => ?_
    exact .andThen (tracks_typeString h hj) fun v j _ hj => .answer _ hj
  · rw [if_neg hkey, if_neg hkey]
    exact tracks_unexpected h hi _

theorem tracks_project (h : EndsAt all body stop) (hi : i ≤ body.length) :
    Tracks body i 1 (project.run all i)
      (Phrase.begun stop .project (Phrase.project stop) (body.drop i)) := by
  refine .bind (tracks_ask h hi (by nofun) _) fun t j _ hj => ?_
  refine .andThen (tracks_expect h hj (by nofun) .projectName) fun n j _ hj => ?_
  refine .andThen (tracks_expect h hj (by nofun) .openBrace) fun _ j _ hj => ?_
  refine .andThen (tracks_loop h (fun last _ hi => turn_setting h last hi) none hj) fun d j _ hj => ?_
  exact .answer _ hj

theorem tracks_column (h : EndsAt all body stop) (hi : i ≤ body.length) :
    Tracks body i 1 (column.run all i) (Phrase.column stop (body.drop i)) := by
  refine .bind (tracks_expect h hi (by nofun) .columnName) fun n j _ hj => ?_
  exact .andThen (tracks_expect h hj (by nofun) .columnType) fun y j _ hj => .answer _ hj

theorem turn_column (h : EndsAt all body stop) (cs : List Decl.Column) (hi : i ≤ body.length) :
    Turn body (Phrase.columnsFrom stop) cs i ((columnTurn cs).run all i) := by
  refine Tracks.turn ?_ (Phrase.columns_eq_turn h.kind_stop cs (body.drop i))
  unfold Phrase.columnTurn
  refine tracks_eat h hi (by nofun) (Nat.le_refl 1) ?_ ?_
  · intro hclose hlt
    rw [if_pos hclose, List.tail_drop]
    exact .answer _ hlt
  · intro hclose
    rw [if_neg hclose]
    exact .bind (tracks_column h hi) fun c j _ hj => .answer _ hj

/-- An alias is tracked; it may take nothing. -/
theorem tracks_tableAlias (h : EndsAt all body stop) (hi : i ≤ body.length) :
    Tracks body i 0 (tableAlias.run all i) (Phrase.tableAlias stop (body.drop i)) := by
  rw [Phrase.tableAlias_eq h.kind_stop]
  refine tracks_eat h hi (by nofun) (Nat.zero_le 1) ?_ ?_
  · intro hkey hlt
    rw [if_pos hkey, List.tail_drop]
    exact .andThen (tracks_expect h hlt (by nofun) .tableAlias) fun a j _ hj => .answer _ hj
  · intro hkey
    rw [if_neg hkey]
    exact .answer none hi

theorem tracks_table (h : EndsAt all body stop) (hi : i ≤ body.length) :
    Tracks body i 1 (table.run all i)
      (Phrase.begun stop .table (Phrase.table stop) (body.drop i)) := by
  refine .bind (tracks_ask h hi (by nofun) _) fun t j _ hj => ?_
  refine .andThen (tracks_expect h hj (by nofun) .tableName) fun n j _ hj => ?_
  refine .andThen (tracks_tableAlias h hj) fun a j _ hj => ?_
  refine .andThen (tracks_expect h hj (by nofun) .openBrace) fun _ j _ hj => ?_
  have hcolumns := tracks_loop h (fun cs _ hi => turn_column h cs hi) [] hj
  rw [Phrase.columnsFrom_nil] at hcolumns
  exact .andThen hcolumns fun cs j _ hj => .answer _ hj

theorem turn_value (h : EndsAt all body stop) (vs : List String) (hi : i ≤ body.length) :
    Turn body (Phrase.valuesFrom stop) vs i ((valueTurn vs).run all i) := by
  refine Tracks.turn ?_ (Phrase.values_eq_turn h.kind_stop vs (body.drop i))
  unfold Phrase.valueTurn
  refine tracks_peek h hi ?_
  by_cases hclose : (front stop (body.drop i)).kind = .delimiter .rBrace
  · rw [if_pos hclose, if_pos hclose, List.tail_drop]
    exact tracks_advance h (by nofun) hclose fun hlt => .answer _ hlt
  rw [if_neg hclose, if_neg hclose]
  by_cases hident : (front stop (body.drop i)).kind = .literal .ident
  · rw [if_pos hident, if_pos hident, List.tail_drop]
    exact tracks_advance h (by nofun) hident fun hlt => .answer _ hlt
  rw [if_neg hident, if_neg hident]
  by_cases hquoted : (front stop (body.drop i)).kind = .literal .doubleQuoted
  · rw [if_pos hquoted, if_pos hquoted, List.tail_drop]
    exact tracks_advance h (by nofun) hquoted fun hlt => .answer _ hlt
  · rw [if_neg hquoted, if_neg hquoted]
    exact tracks_unexpected h hi _

theorem tracks_enum (h : EndsAt all body stop) (hi : i ≤ body.length) :
    Tracks body i 1 (enum.run all i)
      (Phrase.begun stop .enum (Phrase.enum stop) (body.drop i)) := by
  refine .bind (tracks_ask h hi (by nofun) _) fun t j _ hj => ?_
  refine .andThen (tracks_expect h hj (by nofun) .enumName) fun n j _ hj => ?_
  refine .andThen (tracks_expect h hj (by nofun) .openBrace) fun _ j _ hj => ?_
  have hvalues := tracks_loop h (fun vs _ hi => turn_value h vs hi) [] hj
  rw [Phrase.valuesFrom_nil] at hvalues
  exact .andThen hvalues fun vs j _ hj => .answer _ hj

/-- A declaration is tracked once its keyword has been seen, if the walk of its sort is. -/
theorem tracks_begun {k : Keyword} {w : Walk Decl}
    {phrase : Position → List Token → Except Problem (Decl × List Token)} {t : Token}
    {left : List Token} (ds : List Decl) (hleft : body.drop i = t :: left) (hk : t.kind = .keyword k)
    (hdecl : Phrase.declaration stop t left = phrase t.position left)
    (hw : Tracks body i 1 (w.run all i) (Phrase.begun stop k phrase (body.drop i))) :
    Tracks body i 1 ((w >>= fun d => pure (.inl (ds ++ [d]))).run all i)
      (Phrase.declarationTurn stop ds t left) := by
  rw [hleft, Phrase.begun_of_kind hk, ← hdecl] at hw
  exact .bind hw fun d j _ hj => .answer _ hj

theorem tracks_documentTurn (h : EndsAt all body stop) (hi : i ≤ body.length) {t : Token}
    {left : List Token} (ds : List Decl) (hleft : body.drop i = t :: left) :
    Tracks body i 1 ((documentTurn ds).run all i) (Phrase.declarationTurn stop ds t left) := by
  have hfront : front stop (body.drop i) = t := by
    rw [hleft]
    rfl
  refine tracks_peek h hi ?_
  rw [hfront]
  split
  · rename_i hk
    exact tracks_begun ds hleft hk (by rw [Phrase.declaration, hk]) (tracks_project h hi)
  · rename_i hk
    exact tracks_begun ds hleft hk (by rw [Phrase.declaration, hk]) (tracks_table h hi)
  · rename_i hk
    exact tracks_begun ds hleft hk (by rw [Phrase.declaration, hk]) (tracks_enum h hi)
  · rename_i hk
    have ht : t ∈ body := by
      apply List.mem_of_mem_drop
      rw [hleft]
      exact List.mem_cons_self
    exact absurd hk (h.kind_ne_eof ht)
  · rename_i hproject htable henum heof
    have hdecl : Phrase.declaration stop t left = Phrase.misfit stop .declaration (t :: left) := by
      unfold Phrase.declaration
      split
      · exact absurd ‹_› hproject
      · exact absurd ‹_› htable
      · exact absurd ‹_› henum
      · rfl
    rw [Phrase.declarationTurn, hdecl, Phrase.misfit, ← hleft]
    exact tracks_unexpected h hi Expected.declaration.text

theorem turn_document (h : EndsAt all body stop) (ds : List Decl) (hi : i ≤ body.length) :
    Turn body (Phrase.declarationsFrom stop) ds i ((documentTurn ds).run all i) := by
  cases hleft : body.drop i with
  | cons t left =>
    refine (tracks_documentTurn h hi ds hleft).turn ?_
    rw [hleft]
    exact Phrase.declarations_eq_turn ds t left
  | nil =>
    have hfront : (front stop (body.drop i)).kind = .eof := by
      rw [hleft]
      exact h.kind_stop
    have hnone : Phrase.declarationsFrom stop ds (body.drop i) = .ok (⟨ds⟩, body.drop i) := by
      rw [hleft, Phrase.declarationsFrom, Phrase.declarations]
      simp [Except.map]
    rw [documentTurn, run_bind_of_answer (run_peek h hi), hfront]
    exact ⟨looksFrom_cons hi looksFrom_nil, .exits (Nat.le_refl i) hi hnone⟩

/-- The whole parser is tracked from the first token on. -/
theorem tracks_document (h : EndsAt all body stop) :
    Tracks body 0 0 (document.run all 0) (Phrase.declarationsFrom stop [] body) :=
  tracks_loop h (fun ds _ hi => turn_document h ds hi) [] (Nat.zero_le _)

/-! ## What the cursor keeps to -/

/-- The index of the first end of the input. -/
def endIndex (all : List Token) : Nat := all.findIdx Token.isEof

/-- The tokens from an index up to the first end of the input. -/
def tokensFrom (all : List Token) (i : Nat) : List Token := (all.take (endIndex all)).drop i

/-- From every index up to the first end of the input, the walk looks at none past it and comes to
what the phrase makes of the tokens there: its problem, or its answer, and then the cursor has moved
past one token at least and past no end of the input. -/
structure Progresses {α : Type} (all : List Token) (w : Walk α)
    (phrase : List Token → Except Problem (α × List Token)) : Prop where
  looks : ∀ i ≤ endIndex all, ∀ l ∈ (w.run all i).looks, l ≤ endIndex all
  ending : ∀ i ≤ endIndex all,
    (∃ e, (w.run all i).ending = .problem e ∧ phrase (tokensFrom all i) = .error e) ∨
    ∃ a j, (w.run all i).ending = .answer a j ∧
      phrase (tokensFrom all i) = .ok (a, tokensFrom all j) ∧
      i < j ∧ j ≤ endIndex all ∧ ∀ t ∈ (all.take j).drop i, t.kind ≠ .eof

/-- From every index up to the first end of the input, and whatever the loop has read so far, a turn
looks at none past it. It leaves the loop with the answer of the phrase, it fails with its problem,
or it moves the cursor past one token at least and leaves the phrase the same to read. -/
structure MovesOn {α σ : Type} (all : List Token) (turn : σ → Walk (σ ⊕ α))
    (phrase : σ → List Token → Except Problem (α × List Token)) : Prop where
  looks : ∀ s, ∀ i ≤ endIndex all, ∀ l ∈ ((turn s).run all i).looks, l ≤ endIndex all
  ending : ∀ s, ∀ i ≤ endIndex all,
    (∃ a j, ((turn s).run all i).ending = .answer (.inr a) j ∧
      phrase s (tokensFrom all i) = .ok (a, tokensFrom all j) ∧ i ≤ j ∧ j ≤ endIndex all) ∨
    (∃ e, ((turn s).run all i).ending = .problem e ∧ phrase s (tokensFrom all i) = .error e) ∨
    ∃ s' j, ((turn s).run all i).ending = .answer (.inl s') j ∧
      phrase s (tokensFrom all i) = phrase s' (tokensFrom all j) ∧ i < j ∧ j ≤ endIndex all

theorem endIndex_eq (h : EndsAt all body stop) : endIndex all = body.length := h.findIdx_eq

theorem tokensFrom_eq (h : EndsAt all body stop) (i : Nat) : tokensFrom all i = body.drop i := by
  rw [tokensFrom, endIndex_eq h, h.take_eq (Nat.le_refl _), List.take_length]

/-- What is tracked with a step of progress moves on with each answer, and looks at nothing behind
the end. -/
theorem progresses_of_tracks {α : Type} {w : Walk α}
    {phrase : List Token → Except Problem (α × List Token)} (h : EndsAt all body stop)
    (hw : ∀ i, i ≤ body.length → Tracks body i 1 (w.run all i) (phrase (body.drop i))) :
    Progresses all w phrase := by
  constructor
  case looks =>
    intro i hi l hl
    rw [endIndex_eq h] at hi ⊢
    exact ((hw i hi).looks l hl).2
  case ending =>
    intro i hi
    simp only [tokensFrom_eq h, endIndex_eq h] at hi ⊢
    rcases (hw i hi).ending.inv with ⟨a, j, hresult, hending, hij, hj⟩ | ⟨e, hresult, hending⟩
    · refine .inr ⟨a, j, hending, hresult, hij, hj, fun t ht => h.kind_ne_eof ?_⟩
      rw [h.take_eq hj] at ht
      exact List.mem_of_mem_take (List.mem_of_mem_drop ht)
    · exact .inl ⟨e, hending, hresult⟩

/-- A loop whose turns are those of a phrase moves on with each turn. -/
theorem movesOn_of_turn {α σ : Type} {turn : σ → Walk (σ ⊕ α)}
    {phrase : σ → List Token → Except Problem (α × List Token)} (h : EndsAt all body stop)
    (hturn : ∀ s i, i ≤ body.length → Turn body phrase s i ((turn s).run all i)) :
    MovesOn all turn phrase := by
  constructor
  case looks =>
    intro s i hi l hl
    rw [endIndex_eq h] at hi ⊢
    exact ((hturn s i hi).looks l hl).2
  case ending =>
    intro s i hi
    simp only [tokensFrom_eq h, endIndex_eq h] at hi ⊢
    have hending := (hturn s i hi).ending
    generalize ((turn s).run all i).ending = ending at hending
    cases hending with
    | exits hij hj hphrase => exact .inl ⟨_, _, rfl, hphrase, hij, hj⟩
    | fails hphrase => exact .inr (.inl ⟨_, rfl, hphrase⟩)
    | goesOn hij hj hphrase => exact .inr (.inr ⟨_, _, rfl, hphrase, hij, hj⟩)

end Walk

/-! ## Documents -/

/-- The tokens `ts`, with an end supplied where the last is none, are read by a cursor that stays
within them, moves on in every phrase and in every turn of a loop, and comes to what the parser
makes of them. The parser asks the phrases of `stop`, the first end of the input, for what they make
of the tokens before it. -/
structure Document.ReadWithin (ts : List Token) (stop : Token) : Prop where
  /-- There is an end of the input for the cursor to stop at. -/
  bounded : Walk.endIndex (withEnd ts) < (withEnd ts).length
  looks : ∀ l ∈ (Walk.document.run (withEnd ts) 0).looks, l ≤ Walk.endIndex (withEnd ts)
  answer : ∀ d, Document.ofTokens ts = .ok d →
    (Walk.document.run (withEnd ts) 0).ending = .answer d (Walk.endIndex (withEnd ts))
  problem : ∀ e, Document.ofTokens ts = .error e →
    (Walk.document.run (withEnd ts) 0).ending = .problem e
  project : Walk.Progresses (withEnd ts) Walk.project
    (Phrase.begun stop .project (Phrase.project stop))
  table : Walk.Progresses (withEnd ts) Walk.table (Phrase.begun stop .table (Phrase.table stop))
  column : Walk.Progresses (withEnd ts) Walk.column (Phrase.column stop)
  enum : Walk.Progresses (withEnd ts) Walk.enum (Phrase.begun stop .enum (Phrase.enum stop))
  typeString : Walk.Progresses (withEnd ts) Walk.typeString (Phrase.typeString stop)
  documentTurn : Walk.MovesOn (withEnd ts) Walk.documentTurn (Phrase.declarationsFrom stop)
  settingTurn : Walk.MovesOn (withEnd ts) Walk.settingTurn (Phrase.settings stop)
  columnTurn : Walk.MovesOn (withEnd ts) Walk.columnTurn (Phrase.columnsFrom stop)
  valueTurn : Walk.MovesOn (withEnd ts) Walk.valueTurn (Phrase.valuesFrom stop)

/-- The declarations that the cursor reads make up the document of the parser. -/
theorem Document.map_ofTokens (ts : List Token) :
    (Document.ofTokens ts).map (fun d => (d, ([] : List Token))) =
      Phrase.declarationsFrom (TokenList.ofTokens ts).stop [] (TokenList.ofTokens ts).body := by
  change ((Phrase.declarations (TokenList.ofTokens ts).stop (TokenList.ofTokens ts).body).map
    Document.mk).map _ = Except.map _ _
  cases Phrase.declarations (TokenList.ofTokens ts).stop (TokenList.ofTokens ts).body <;> rfl

/-- The parser never leaves the list of tokens, takes a token in every phrase and in every turn of a
loop but the last, and so comes to an end on every list, wherever ends of the input stand in it. -/
theorem Document.readWithin (ts : List Token) :
    Document.ReadWithin ts (TokenList.ofTokens ts).stop := by
  have h := endsAt_withEnd ts
  have htracks := Walk.tracks_document h
  rw [← Document.map_ofTokens] at htracks
  constructor
  case bounded =>
    rw [Walk.endIndex_eq h]
    exact h.length_lt
  case looks =>
    intro l hl
    rw [Walk.endIndex_eq h]
    exact (htracks.looks l hl).2
  case answer =>
    intro d hd
    rw [hd] at htracks
    rcases htracks.ending.inv with ⟨a, j, hresult, hending, -, hj⟩ | ⟨e, hresult, -⟩
    · obtain ⟨rfl, hnil⟩ := Prod.mk.inj (Except.ok.inj hresult)
      -- nothing is left of the document, so the cursor stands at its end
      have hle := List.drop_eq_nil_iff.1 hnil.symm
      rw [hending, Walk.endIndex_eq h, Nat.le_antisymm hj hle]
    · cases hresult
  case problem =>
    intro e he
    rw [he] at htracks
    rcases htracks.ending.inv with ⟨a, j, hresult, -⟩ | ⟨e', hresult, hending⟩
    · cases hresult
    · cases hresult
      exact hending
  case project => exact Walk.progresses_of_tracks h fun _ hi => Walk.tracks_project h hi
  case table => exact Walk.progresses_of_tracks h fun _ hi => Walk.tracks_table h hi
  case column => exact Walk.progresses_of_tracks h fun _ hi => Walk.tracks_column h hi
  case enum => exact Walk.progresses_of_tracks h fun _ hi => Walk.tracks_enum h hi
  case typeString => exact Walk.progresses_of_tracks h fun _ hi => Walk.tracks_typeString h hi
  case documentTurn => exact Walk.movesOn_of_turn h fun ds _ hi => Walk.turn_document h ds hi
  case settingTurn => exact Walk.movesOn_of_turn h fun last _ hi => Walk.turn_setting h last hi
  case columnTurn => exact Walk.movesOn_of_turn h fun cs _ hi => Walk.turn_column h cs hi
  case valueTurn => exact Walk.movesOn_of_turn h fun vs _ hi => Walk.turn_value h vs hi

/-- A list without an end would let the cursor leave it. -/
example : (Walk.document.run [⟨.keyword .table, "Table", ⟨1, 1⟩, ⟨0, 5⟩⟩] 0).ending = .outOfBounds := by
  rfl

end Dbml
