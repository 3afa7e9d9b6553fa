import Dbml.Document.Parser
import Dbml.Proofs.Document.Grammar

/-!
# Parsing and derivations

Both directions go phrase by phrase: a phrase that answers has read a part of a tree (`…_sound`),
and it answers on the tokens of every such part, whatever follows (`…_complete`). The parser
therefore accepts the tokens of a derivation, gives what is read off it, and accepts nothing else
(`Document.ofTokens_eq_ok_iff`).
-/

namespace Dbml

/-! ## Phrases read derivations -/

namespace Phrase

variable {stop : Token}

/-- A kind that is expected is met if it is that of the first token. -/
theorem expect_eq_ok_iff {kind : Kind} {expected : Expected} {ts rest : List Token} {t : Token} :
    expect stop kind expected ts = .ok (t, rest) ↔ t.kind = kind ∧ ts = t :: rest := by
  cases ts with
  | nil => simp [expect, misfit]
  | cons u us =>
    rw [expect]
    split
    · rename_i hu
      simp only [Except.ok.injEq, Prod.mk.injEq, List.cons.injEq]
      constructor
      · rintro ⟨rfl, rfl⟩
        exact ⟨hu, rfl, rfl⟩
      · rintro ⟨-, rfl, rfl⟩
        exact ⟨rfl, rfl⟩
    · rename_i hu
      simp only [misfit, reduceCtorEq, List.cons.injEq, false_iff]
      rintro ⟨ht, rfl, -⟩
      exact hu ht

theorem isTypeString_iff {t : Token} : isTypeString t = true ↔
    t.kind = .literal .doubleQuoted ∨ t.kind = .literal .singleQuoted := by
  simp [isTypeString]

/-- Settings that are read are the tokens of settings and a brace. -/
theorem settings_sound {last d : Option String} {ts rest : List Token}
    (h : settings stop last ts = .ok (d, rest)) :
    ∃ (ss : List Tree.Setting) (c : Terminal (.delimiter .rBrace)),
      ts = ss.flatMap Tree.Setting.tokens ++ c.token :: rest ∧ d = (Tree.databaseType ss).or last := by
  fun_induction settings stop last ts with
  | case2 last t ts hclose =>
    cases h
    exact ⟨[], ⟨t, hclose⟩, rfl, rfl⟩
  | case5 last t hclose hkeyword c hcolon v ts hvalue ih =>
    obtain ⟨ss, e, rfl, rfl⟩ := ih h
    refine ⟨⟨⟨t, hkeyword⟩, ⟨c, hcolon⟩, ⟨v, isTypeString_iff.1 hvalue⟩⟩ :: ss, e, rfl, ?_⟩
    rw [Tree.databaseType_cons]
  | _ => cases h

/-- The tokens of settings and a brace are read as these settings, whatever follows. -/
theorem settings_complete (stop : Token) (ss : List Tree.Setting)
    (c : Terminal (.delimiter .rBrace)) (last : Option String) (rest : List Token) :
    settings stop last (ss.flatMap Tree.Setting.tokens ++ c.token :: rest) =
      .ok ((Tree.databaseType ss).or last, rest) := by
  induction ss generalizing last with
  | nil =>
    show settings stop last (c.token :: rest) = .ok (last, rest)
    rw [settings.eq_def]
    exact if_pos c.kind_token
  | cons s ss ih =>
    have hv := isTypeString_iff.2 s.value.2
    rw [Tree.databaseType_cons, ← ih]
    simp [Tree.Setting.tokens, settings, s.keyword.kind_token, s.colon.kind_token, hv]

theorem columns_sound {cs : List Decl.Column} {ts rest : List Token}
    (h : columns stop ts = .ok (cs, rest)) :
    ∃ (us : List Tree.Column) (c : Terminal (.delimiter .rBrace)),
      ts = us.flatMap Tree.Column.tokens ++ c.token :: rest ∧ cs = us.map Tree.Column.decl := by
  fun_induction columns stop ts generalizing cs with
  | case2 t ts hclose =>
    cases h
    exact ⟨[], ⟨t, hclose⟩, rfl, rfl⟩
  | case4 t hclose hname u ts htype ih =>
    obtain ⟨⟨cs', r⟩, hcs, he⟩ := ok_of_map h
    cases he
    obtain ⟨us, c, rfl, rfl⟩ := ih hcs
    exact ⟨⟨⟨t, hname⟩, ⟨u, htype⟩⟩ :: us, c, rfl, rfl⟩
  | _ => cases h

/-- The tokens of columns and a brace are read as these columns, whatever follows. -/
theorem columns_complete (stop : Token) (us : List Tree.Column)
    (c : Terminal (.delimiter .rBrace)) (rest : List Token) :
    columns stop (us.flatMap Tree.Column.tokens ++ c.token :: rest) =
      .ok (us.map Tree.Column.decl, rest) := by
  induction us with
  | nil =>
    show columns stop (c.token :: rest) = .ok ([], rest)
    rw [columns.eq_def]
    exact if_pos c.kind_token
  | cons u us ih =>
    simp only [List.flatMap_cons, Tree.Column.tokens, List.cons_append, List.nil_append]
    rw [columns, if_neg (by simp [u.name.kind_token]), if_pos u.name.kind_token]
    simp only [u.type.kind_token, if_true]
    rw [ih]
    rfl

theorem values_sound {vs : List String} {ts rest : List Token}
    (h : values stop ts = .ok (vs, rest)) :
    ∃ (us : List ValueTerminal) (c : Terminal (.delimiter .rBrace)),
      ts = us.map Subtype.val ++ c.token :: rest ∧ vs = us.map Tree.valueText := by
  fun_induction values stop ts generalizing vs with
  | case2 t ts hclose =>
    cases h
    exact ⟨[], ⟨t, hclose⟩, rfl, rfl⟩
  | case3 t ts hclose hident ih =>
    obtain ⟨⟨vs', r⟩, hvs, he⟩ := ok_of_map h
    cases he
    obtain ⟨us, c, rfl, rfl⟩ := ih hvs
    refine ⟨⟨t, .inl hident⟩ :: us, c, rfl, ?_⟩
    simp [Tree.valueText, hident]
  | case4 t ts hclose hident hquoted ih =>
    obtain ⟨⟨vs', r⟩, hvs, he⟩ := ok_of_map h
    cases he
    obtain ⟨us, c, rfl, rfl⟩ := ih hvs
    refine ⟨⟨t, .inr hquoted⟩ :: us, c, rfl, ?_⟩
    simp [Tree.valueText, hquoted]
  | _ => cases h

/-- The tokens of values and a brace are read as these values, whatever follows. -/
theorem values_complete (stop : Token) (us : List ValueTerminal)
    (c : Terminal (.delimiter .rBrace)) (rest : List Token) :
    values stop (us.map Subtype.val ++ c.token :: rest) = .ok (us.map Tree.valueText, rest) := by
  induction us with
  | nil =>
    show values stop (c.token :: rest) = .ok ([], rest)
    rw [values, if_pos c.kind_token]
  | cons u us ih =>
    obtain ⟨t, hident | hquoted⟩ := u
    · simp only [List.map_cons, List.cons_append]
      rw [values, if_neg (by simp [hident]), if_pos hident, ih]
      simp [Except.map, Tree.valueText, hident]
    · simp only [List.map_cons, List.cons_append]
      rw [values, if_neg (by simp [hquoted]), if_neg (by simp [hquoted]), if_pos hquoted, ih]
      simp [Except.map, Tree.valueText, hquoted]

theorem tableAlias_sound {a : Option String} {ts rest : List Token}
    (h : tableAlias stop ts = .ok (a, rest)) :
    ∃ al : Option Tree.Alias,
      ts = al.elim [] Tree.Alias.tokens ++ rest ∧ a = al.map fun al => al.name.token.value := by
  unfold tableAlias at h
  split at h
  · cases h
    exact ⟨none, rfl, rfl⟩
  · split at h
    · rename_i t ts hkeyword
      obtain ⟨⟨n, r⟩, hname, he⟩ := ok_of_map h
      cases he
      obtain ⟨hkind, rfl⟩ := expect_eq_ok_iff.1 hname
      exact ⟨some ⟨⟨t, hkeyword⟩, ⟨n, hkind⟩⟩, rfl, rfl⟩
    · cases h
      exact ⟨none, rfl, rfl⟩

/-- An alias is there or not; the brace after it tells which. -/
theorem tableAlias_complete (stop : Token) (al : Option Tree.Alias)
    (o : Terminal (.delimiter .lBrace)) (rest : List Token) :
    tableAlias stop (al.elim [] Tree.Alias.tokens ++ o.token :: rest) =
      .ok (al.map fun al => al.name.token.value, o.token :: rest) := by
  cases al with
  | none =>
    show tableAlias stop (o.token :: rest) = _
    rw [tableAlias, if_neg (by simp [o.kind_token])]
    rfl
  | some al =>
    show tableAlias stop (al.keyword.token :: al.name.token :: o.token :: rest) = _
    rw [tableAlias, if_pos al.keyword.kind_token, name, expect_eq_ok_iff.2 ⟨al.name.kind_token, rfl⟩]
    rfl

/-- A declaration that is read is that of a tree whose tokens stand at the front. -/
theorem declaration_sound {t : Token} {ts rest : List Token} {d : Decl}
    (h : declaration stop t ts = .ok (d, rest)) :
    ∃ tree : Tree, t :: ts = tree.tokens ++ rest ∧ d = tree.decl := by
  unfold declaration at h
  split at h
  · rename_i hk
    obtain ⟨⟨n, r₁⟩, hn, h⟩ := ok_of_bind h
    obtain ⟨⟨b, r₂⟩, hb, h⟩ := ok_of_bind h
    obtain ⟨⟨s, r₃⟩, hs, h⟩ := ok_of_bind h
    cases h
    obtain ⟨kn, rfl⟩ := expect_eq_ok_iff.1 hn
    obtain ⟨kb, rfl⟩ := expect_eq_ok_iff.1 hb
    obtain ⟨ss, c, rfl, rfl⟩ := settings_sound hs
    refine ⟨.project ⟨t, hk⟩ ⟨n, kn⟩ ⟨b, kb⟩ ss c, ?_, ?_⟩
    · simp [Tree.tokens, Terminal.token]
    · simp [Tree.decl, Terminal.token]
  · rename_i hk
    obtain ⟨⟨n, r₁⟩, hn, h⟩ := ok_of_bind h
    obtain ⟨⟨a, r₂⟩, ha, h⟩ := ok_of_bind h
    obtain ⟨⟨b, r₃⟩, hb, h⟩ := ok_of_bind h
    obtain ⟨⟨s, r₄⟩, hs, h⟩ := ok_of_bind h
    cases h
    obtain ⟨kn, rfl⟩ := expect_eq_ok_iff.1 hn
    obtain ⟨al, rfl, rfl⟩ := tableAlias_sound ha
    obtain ⟨kb, rfl⟩ := expect_eq_ok_iff.1 hb
    obtain ⟨us, c, rfl, rfl⟩ := columns_sound hs
    refine ⟨.table ⟨t, hk⟩ ⟨n, kn⟩ al ⟨b, kb⟩ us c, ?_, rfl⟩
    simp [Tree.tokens, Terminal.token]
  · rename_i hk
    obtain ⟨⟨n, r₁⟩, hn, h⟩ := ok_of_bind h
    obtain ⟨⟨b, r₂⟩, hb, h⟩ := ok_of_bind h
    obtain ⟨⟨s, r₃⟩, hs, h⟩ := ok_of_bind h
    cases h
    obtain ⟨kn, rfl⟩ := expect_eq_ok_iff.1 hn
    obtain ⟨kb, rfl⟩ := expect_eq_ok_iff.1 hb
    obtain ⟨us, c, rfl, rfl⟩ := values_sound hs
    refine ⟨.enum ⟨t, hk⟩ ⟨n, kn⟩ ⟨b, kb⟩ us c, ?_, rfl⟩
    simp [Tree.tokens, Terminal.token]
  · cases h

/-- The tokens of a tree are read as its declaration, whatever follows. -/
theorem declaration_complete (stop : Token) (tree : Tree) (rest : List Token) :
    ∃ t ts, tree.tokens ++ rest = t :: ts ∧ declaration stop t ts = .ok (tree.decl, rest) := by
  cases tree with
  | project k n o ss c =>
    refine ⟨k.token, n.token :: o.token :: (ss.flatMap Tree.Setting.tokens ++ c.token :: rest),
      by simp [Tree.tokens], ?_⟩
    have hs := settings_complete stop ss c none rest
    simp only [declaration, k.kind_token, project, name, openBrace]
    rw [expect_eq_ok_iff.2 ⟨n.kind_token, rfl⟩]
    simp only [bind, Except.bind]
    rw [expect_eq_ok_iff.2 ⟨o.kind_token, rfl⟩]
    simp only [hs]
    simp [pure, Except.pure, Tree.decl]
  | table k n al o us c =>
    refine ⟨k.token, n.token :: (al.elim [] Tree.Alias.tokens ++ o.token ::
      (us.flatMap Tree.Column.tokens ++ c.token :: rest)), by simp [Tree.tokens], ?_⟩
    have ha := tableAlias_complete stop al o
      (us.flatMap Tree.Column.tokens ++ c.token :: rest)
    have hs := columns_complete stop us c rest
    simp only [declaration, k.kind_token, table, name, openBrace]
    rw [expect_eq_ok_iff.2 ⟨n.kind_token, rfl⟩]
    simp only [bind, Except.bind, ha]
    rw [expect_eq_ok_iff.2 ⟨o.kind_token, rfl⟩]
    simp only [hs]
    rfl
  | enum k n o vs c =>
    refine ⟨k.token, n.token :: o.token :: (vs.map Subtype.val ++ c.token :: rest),
      by simp [Tree.tokens], ?_⟩
    have hs := values_complete stop vs c rest
    simp only [declaration, k.kind_token, enum, name, openBrace]
    rw [expect_eq_ok_iff.2 ⟨n.kind_token, rfl⟩]
    simp only [bind, Except.bind]
    rw [expect_eq_ok_iff.2 ⟨o.kind_token, rfl⟩]
    simp only [hs]
    rfl

/-- The declarations of a document are the first one and those of the rest. -/
theorem declarations_of_declaration {t : Token} {ts rest : List Token} {d : Decl}
    (h : declaration stop t ts = .ok (d, rest)) :
    declarations stop (t :: ts) = (declarations stop rest).map (d :: ·) := by
  rw [declarations]
  split <;> simp_all

/-- The parser answers on the tokens of a derivation with what is read off it, and on no others. -/
theorem declarations_eq_ok_iff {ts : List Token} {ds : List Decl} :
    declarations stop ts = .ok ds ↔
      ∃ trees : List Tree, trees.flatMap Tree.tokens = ts ∧ trees.map Tree.decl = ds := by
  constructor
  · intro h
    fun_induction declarations stop ts generalizing ds with
    | case1 =>
      cases h
      exact ⟨[], rfl, rfl⟩
    | case2 t ts d rest hd ih =>
      obtain ⟨ds', hds, rfl⟩ := ok_of_map h
      obtain ⟨trees, rfl, rfl⟩ := ih hds
      obtain ⟨tree, htree, rfl⟩ := declaration_sound hd
      exact ⟨tree :: trees, htree.symm, rfl⟩
    | case3 => cases h
  · rintro ⟨trees, rfl, rfl⟩
    induction trees with
    | nil => rw [List.flatMap_nil, declarations]; rfl
    | cons tree trees ih =>
      obtain ⟨t, ts, heq, hd⟩ := declaration_complete stop tree (trees.flatMap Tree.tokens)
      rw [List.flatMap_cons, heq, declarations_of_declaration hd, ih]
      rfl

end Phrase

/-! ## Documents -/

namespace Document

/-- Tokens are a document if those before the end are the tokens of trees, and the document is read
off these. -/
theorem ofTokens_eq_ok_iff {ts : List Token} {d : Document} :
    Document.ofTokens ts = .ok d ↔
      ∃ trees : List Tree, trees.flatMap Tree.tokens = ts.takeWhile (!·.isEof) ∧
        d = ⟨trees.map Tree.decl⟩ := by
  unfold Document.ofTokens
  constructor
  · intro h
    obtain ⟨ds, hds, rfl⟩ := Phrase.ok_of_map h
    obtain ⟨trees, htrees, rfl⟩ := Phrase.declarations_eq_ok_iff.1 hds
    exact ⟨trees, htrees, rfl⟩
  · rintro ⟨trees, htrees, rfl⟩
    have hds : Phrase.declarations (TokenList.ofTokens ts).stop (TokenList.ofTokens ts).body =
        .ok (trees.map Tree.decl) :=
      Phrase.declarations_eq_ok_iff.2 ⟨trees, htrees, rfl⟩
    simp only [hds]
    rfl

/-- The parser accepts exactly its grammar. The tokens before the first end of the input are a
document if and only if their kinds derive; they then have one derivation, and the document is what
is read off it. -/
theorem ofTokens_iff_derivation (ts : List Token) :
    let body := ts.takeWhile fun t => t.kind ≠ .eof
    ((∃ d, Document.ofTokens ts = .ok d) ↔ body.map Token.kind ∈ Grammar.document.matches') ∧
    (body.map Token.kind ∈ Grammar.document.matches' ↔
      ∃! trees : List Tree, trees.flatMap Tree.tokens = body) ∧
    ∀ d, Document.ofTokens ts = .ok d ↔
      ∃ trees : List Tree, trees.flatMap Tree.tokens = body ∧ d.decls = trees.map Tree.decl := by
  intro body
  have hbody : body = ts.takeWhile (!·.isEof) := by
    simp only [body, Token.isEof]
    congr 1
    funext t
    by_cases h : t.kind = .eof <;> simp [h]
  have hderives : body.map Token.kind ∈ Grammar.document.matches' ↔
      ∃ trees : List Tree, body = trees.flatMap Tree.tokens := Grammar.derives_document
  refine ⟨?_, ?_, ?_⟩
  · refine Iff.trans ?_ hderives.symm
    constructor
    · rintro ⟨d, h⟩
      obtain ⟨trees, htrees, -⟩ := ofTokens_eq_ok_iff.1 h
      exact ⟨trees, by rw [hbody, htrees]⟩
    · rintro ⟨trees, htrees⟩
      exact ⟨_, ofTokens_eq_ok_iff.2 ⟨trees, by rw [← htrees, hbody], rfl⟩⟩
  · constructor
    · intro h
      obtain ⟨trees, htrees⟩ := hderives.1 h
      refine ⟨trees, htrees.symm, fun trees' h' => ?_⟩
      exact Tree.flatMap_tokens_inj (h'.trans htrees)
    · rintro ⟨trees, htrees, -⟩
      exact hderives.2 ⟨trees, htrees.symm⟩
  · intro d
    rw [ofTokens_eq_ok_iff, hbody]
    constructor
    · rintro ⟨trees, htrees, rfl⟩
      exact ⟨trees, htrees, rfl⟩
    · rintro ⟨trees, htrees, hd⟩
      refine ⟨trees, htrees, ?_⟩
      rw [← hd]

end Document

end Dbml
