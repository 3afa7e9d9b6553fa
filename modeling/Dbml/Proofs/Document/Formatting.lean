import Dbml.Proofs.Document.RoundTrip

/-!
# What formatting does to the tokens

To format a text is to print what it spells. On the tokens this does two things and no more
(`settled`): of the settings of a project only the last stays, and the string in it gets double
quotes if they can stand around it. `Document.tokenize_print` says so for every text that is a
document.

What is printed is a layout of the derivations that the declarations have of their own
(`Decl.tree`). Such a derivation is the one that the declaration was read off, without places,
except for the settings of a project (`Tree.tree_decl_project`); so all there is to show is what
`settled` makes of the tokens of one derivation (`settled_tokens`).
-/

namespace Dbml

open Front

/-! ## The two changes -/

/-- What a token is, wherever it stands. -/
def Token.content (t : Token) : Kind × String := (t.kind, t.value)

/-- A string in single quotes gets double quotes, unless it holds an unescaped double quote. -/
def requoted : Kind × String → Kind × String
  | (.literal .singleQuoted, v) =>
    if '"' ∈ unescaped v.toList then (.literal .singleQuoted, v) else (.literal .doubleQuoted, v)
  | t => t

/-- A setting, three tokens that begin with `database_type`, is left out if another follows it. In
the body of a project settings follow one another up to the brace, so it is the last of each body
that stays; its string is requoted. -/
def settled : List (Kind × String) → List (Kind × String)
  | k :: c :: v :: rest =>
    if k.1 = .keyword .databaseType then
      if rest.head?.map Prod.fst = some (.keyword .databaseType) then settled rest
      else k :: c :: requoted v :: settled rest
    else k :: settled (c :: v :: rest)
  | ts => ts

/-- Everything but the settings of a project stays as it is. -/
theorem settled_cons {t : Kind × String} (ht : t.1 ≠ .keyword .databaseType)
    (ts : List (Kind × String)) : settled (t :: ts) = t :: settled ts := by
  rcases ts with _ | ⟨c, _ | ⟨v, rest⟩⟩
  · rfl
  · rfl
  · rw [settled, if_neg ht]

theorem settled_append {ts : List (Kind × String)} (h : ∀ t ∈ ts, t.1 ≠ .keyword .databaseType)
    (rest : List (Kind × String)) : settled (ts ++ rest) = ts ++ settled rest := by
  induction ts with
  | nil => rfl
  | cons t ts ih =>
    rw [List.cons_append, settled_cons (h t List.mem_cons_self),
      ih fun u hu => h u (List.mem_cons_of_mem t hu), List.cons_append]

@[simp] theorem Token.content_unplaced (t : Token) : t.unplaced.content = t.content := rfl

theorem Terminal.content_fst {k : Kind} (t : Terminal k) : t.token.content.1 = k := t.kind_token

/-- Of several settings the last one stays, in the quotes that the printer gives it. -/
theorem settled_settings (ss : List Tree.Setting) {c : Kind × String}
    (hc : c.1 ≠ .keyword .databaseType) (rest : List (Kind × String)) :
    settled ((ss.flatMap Tree.Setting.tokens).map Token.content ++ c :: rest) =
      ss.getLast?.toList.flatMap (fun s =>
        [s.keyword.token.content, s.colon.token.content, requoted s.value.1.content]) ++
      c :: settled rest := by
  induction ss with
  | nil => exact settled_cons hc rest
  | cons s ss ih =>
    cases ss with
    | nil =>
      -- no setting begins with `c`, so this is the last one
      have hhead : (c :: rest).head?.map Prod.fst ≠ some (.keyword .databaseType) := by
        simpa using hc
      simp only [List.flatMap_cons, List.flatMap_nil, List.append_nil, Tree.Setting.tokens,
        List.map_cons, List.map_nil, List.cons_append, List.nil_append, List.getLast?_singleton,
        Option.toList_some]
      rw [settled, if_pos s.keyword.content_fst, if_neg hhead, settled_cons hc]
    | cons s' ss =>
      rw [List.getLast?_cons_cons, ← ih]
      simp only [List.flatMap_cons, Tree.Setting.tokens, List.map_cons, List.cons_append,
        List.nil_append]
      rw [settled, if_pos s.keyword.content_fst, if_pos (by simp [s'.keyword.content_fst])]

/-! ## The derivation of what was read off a derivation -/

namespace Terminal

theorem unplaced_of_value {k : Kind} {t : Terminal k} {w : String} (h : t.token.value = w) :
    t.unplaced = .of k w := by
  apply Terminal.ext
  show Token.mk t.token.kind t.token.value .start ⟨0, 0⟩ = ⟨k, w, .start, ⟨0, 0⟩⟩
  rw [t.kind_token, h]

theorem unplaced_keyword {k : Keyword} {t : Terminal (.keyword k)} (h : t.token.Lexical) :
    t.unplaced = .of _ k.word := by
  rw [Token.Lexical, t.kind_token] at h
  exact unplaced_of_value (String.toList_inj.1 (valid_lexeme_iff.1 h))

theorem unplaced_delimiter {d : Delimiter} {t : Terminal (.delimiter d)} (h : t.token.Lexical) :
    t.unplaced = .of _ (String.ofList [d.char]) := by
  rw [Token.Lexical, t.kind_token] at h
  apply unplaced_of_value
  rw [← show t.token.value.toList = [d.char] from valid_lexeme_iff.1 h, String.ofList_toList]

theorem unplaced_name (t : Terminal (.literal .ident)) : t.unplaced = .of _ t.token.value :=
  unplaced_of_value rfl

end Terminal

/-- The quotes that a database type is printed with are those that requoting gives it. -/
theorem content_typeTerminal {v : StringTerminal} (h : v.1.Lexical) :
    (typeTerminal v.1.value).1.content = requoted v.1.content := by
  rw [Token.Lexical] at h
  unfold typeTerminal
  rcases v.2 with hk | hk
  · rw [hk] at h
    have hbody : IsQuotedBody '"' v.1.value.toList := valid_lexeme_iff.1 h
    rw [if_neg (by simp [hbody.2]), Token.content, Token.content, hk]
    rfl
  · rw [Token.content, Token.content, hk, requoted]
    by_cases hq : '"' ∈ unescaped v.1.value.toList
    · rw [if_pos (hasUnescaped_iff.2 hq), if_pos hq]
    · rw [if_neg fun hun => hq (hasUnescaped_iff.1 hun), if_neg hq]

/-- A value of an enum that was read is written by the same token. -/
theorem valueTerminal_valueText {v : ValueTerminal} (h : v.1.Lexical) :
    valueTerminal (Tree.valueText v) = Tree.unplacedValue v := by
  apply Subtype.ext
  show _ = Token.mk v.1.kind v.1.value .start ⟨0, 0⟩
  unfold Tree.valueText
  rcases v.2 with hk | hk
  · rw [if_neg (by simp [hk]), valueTerminal_name (isName_of_lexical h hk), hk]
  · rw [if_pos hk, valueTerminal_quoted, hk]

namespace Tree

variable {n : Terminal (.literal .ident)} {o : Terminal (.delimiter .lBrace)}
  {c : Terminal (.delimiter .rBrace)}

/-- A project is printed with the last of its settings alone, and otherwise as it was. -/
theorem tree_decl_project {k : Terminal (.keyword .project)} {ss : List Setting}
    (h : ∀ t ∈ (project k n o ss c).tokens, t.Lexical) :
    (project k n o ss c).decl.tree =
      .project k.unplaced n.unplaced o.unplaced
        (ss.getLast?.toList.map fun s =>
          ⟨s.keyword.unplaced, s.colon.unplaced, typeTerminal s.value.1.value⟩) c.unplaced := by
  simp only [tokens, List.forall_mem_cons, List.forall_mem_append, List.forall_mem_flatMap] at h
  obtain ⟨hk, -, ho, hss, hc, -⟩ := h
  rw [Terminal.unplaced_keyword hk, Terminal.unplaced_name, Terminal.unplaced_delimiter ho,
    Terminal.unplaced_delimiter hc]
  simp only [decl, databaseType]
  cases hlast : ss.getLast? with
  | none => rfl
  | some s =>
    have hs := hss s (List.mem_of_getLast? hlast)
    simp only [Setting.tokens, List.forall_mem_cons] at hs
    obtain ⟨hkey, hcolon, -⟩ := hs
    simp only [Option.toList_some, List.map_cons, List.map_nil]
    rw [Terminal.unplaced_keyword hkey, Terminal.unplaced_delimiter hcolon]
    rfl

theorem tree_decl_table {k : Terminal (.keyword .table)} {a : Option Alias} {cs : List Column}
    (h : ∀ t ∈ (table k n a o cs c).tokens, t.Lexical) :
    (table k n a o cs c).decl.tree = (table k n a o cs c).unplaced := by
  simp only [tokens, List.forall_mem_cons, List.forall_mem_append] at h
  obtain ⟨hk, -, ha, ho, -, hc, -⟩ := h
  have hcs : cs.map Column.unplaced =
      (cs.map Column.decl).map fun u => ⟨.of _ u.name, .of _ u.type⟩ := by
    rw [List.map_map]
    refine List.map_congr_left fun u _ => ?_
    rw [Column.unplaced, Terminal.unplaced_name, Terminal.unplaced_name]
    rfl
  rw [unplaced, Terminal.unplaced_keyword hk, Terminal.unplaced_name,
    Terminal.unplaced_delimiter ho, Terminal.unplaced_delimiter hc, hcs]
  cases a with
  | none => rfl
  | some al =>
    simp only [Option.elim_some, Alias.tokens, List.forall_mem_cons] at ha
    rw [Option.map_some, Alias.unplaced, Terminal.unplaced_keyword ha.1, Terminal.unplaced_name]
    rfl

theorem tree_decl_enum {k : Terminal (.keyword .enum)} {vs : List ValueTerminal}
    (h : ∀ t ∈ (enum k n o vs c).tokens, t.Lexical) :
    (enum k n o vs c).decl.tree = (enum k n o vs c).unplaced := by
  simp only [tokens, List.forall_mem_cons, List.forall_mem_append, List.forall_mem_map] at h
  obtain ⟨hk, -, ho, hvs, hc, -⟩ := h
  have hvalues : vs.map unplacedValue = (vs.map valueText).map valueTerminal := by
    rw [List.map_map]
    refine List.map_congr_left fun v hv => ?_
    exact (valueTerminal_valueText (hvs v hv)).symm
  rw [unplaced, Terminal.unplaced_keyword hk, Terminal.unplaced_name,
    Terminal.unplaced_delimiter ho, Terminal.unplaced_delimiter hc, hvalues]
  rfl

theorem content_tokens_unplaced (tree : Tree) :
    tree.unplaced.tokens.map Token.content = tree.tokens.map Token.content := by
  rw [tokens_unplaced, List.map_map]
  rfl

end Tree

/-! ## Derivations and documents -/

theorem Terminal.kind_ne {k k' : Kind} (t : Terminal k) (hk : k ≠ k') : t.token.kind ≠ k' := by
  rw [t.kind_token]
  exact hk

/-- To settle the tokens of a tree is to take the tokens that its declaration is printed by. -/
theorem settled_tokens {tree : Tree} (h : ∀ t ∈ tree.tokens, t.Lexical)
    (rest : List (Kind × String)) :
    settled (tree.tokens.map Token.content ++ rest) =
      tree.decl.tree.tokens.map Token.content ++ settled rest := by
  cases tree with
  | project k n o ss c =>
    rw [Tree.tree_decl_project h]
    simp only [Tree.tokens, List.map_cons, List.map_append, List.map_nil, List.cons_append,
      List.append_assoc, List.nil_append, Terminal.token_unplaced, Token.content_unplaced]
    rw [settled_cons (k.kind_ne (by decide)), settled_cons (n.kind_ne (by decide)),
      settled_cons (o.kind_ne (by decide)), settled_settings ss (c.kind_ne (by decide))]
    cases hlast : ss.getLast? with
    | none => rfl
    | some s =>
      have hv : s.value.1.Lexical := by
        apply h
        simp only [Tree.tokens, List.mem_cons, List.mem_append, List.mem_flatMap]
        have hs : s.value.1 ∈ s.tokens := by
          simp [Tree.Setting.tokens]
        exact .inr (.inr (.inr (.inl ⟨s, List.mem_of_getLast? hlast, hs⟩)))
      simp [Tree.Setting.tokens, content_typeTerminal hv]
  | table k n a o cs c =>
    rw [Tree.tree_decl_table h, Tree.content_tokens_unplaced]
    apply settled_append
    rw [List.forall_mem_map]
    simp only [Tree.tokens, List.forall_mem_cons, List.forall_mem_append, List.forall_mem_flatMap,
      Tree.Column.tokens]
    refine ⟨k.kind_ne (by decide), n.kind_ne (by decide), ?_, o.kind_ne (by decide),
      fun u _ => ⟨u.name.kind_ne (by decide), u.type.kind_ne (by decide), by simp⟩,
      c.kind_ne (by decide), by simp⟩
    cases a with
    | none => simp
    | some al =>
      simp only [Option.elim_some, Tree.Alias.tokens, List.forall_mem_cons]
      exact ⟨al.keyword.kind_ne (by decide), al.name.kind_ne (by decide), by simp⟩
  | enum k n o vs c =>
    rw [Tree.tree_decl_enum h, Tree.content_tokens_unplaced]
    apply settled_append
    rw [List.forall_mem_map]
    simp only [Tree.tokens, List.forall_mem_cons, List.forall_mem_append, List.forall_mem_map]
    refine ⟨k.kind_ne (by decide), n.kind_ne (by decide), o.kind_ne (by decide), fun v _ => ?_,
      c.kind_ne (by decide), by simp⟩
    rcases v.2 with hv | hv
    · simp [Token.content, hv]
    · simp [Token.content, hv]

/-- To settle the tokens of a document is to take those that it is printed by. -/
theorem settled_flatMap_tokens {trees : List Tree}
    (h : ∀ tree ∈ trees, ∀ t ∈ tree.tokens, t.Lexical) (rest : List (Kind × String)) :
    settled ((trees.flatMap Tree.tokens).map Token.content ++ rest) =
      (trees.flatMap fun tree => tree.decl.tree.tokens).map Token.content ++ settled rest := by
  induction trees with
  | nil => rfl
  | cons tree trees ih =>
    simp only [List.flatMap_cons, List.map_append, List.append_assoc]
    rw [settled_tokens (h tree List.mem_cons_self), ih fun u hu => h u (List.mem_cons_of_mem _ hu)]

/-- The canonical text is read into the tokens of the derivations that it is a layout of. -/
theorem Document.tokenize_print_of_wellFormed {d : Document} (h : ∀ x ∈ d.decls, x.WellFormed) :
    ∃ ts, tokenize d.print = .ok ts ∧
      ts.map Token.content =
        (d.decls.flatMap fun x => x.tree.tokens).map Token.content ++ [(.eof, "")] := by
  have hread : Readable (layoutAll (d.decls.map Decl.tree)) [] := standing_trees h []
  refine ⟨_, tokenizeAt_eq_ok_iff.2 ⟨_, (texts_layout h).symm, hread, rfl⟩, ?_⟩
  have hplace := map_unplaced_tokens .start (layoutAll (d.decls.map Decl.tree))
  rw [filterMap_layoutAll, List.flatMap_map] at hplace
  have hcontent := congrArg (List.map Token.content) hplace
  rw [List.map_map, List.map_map] at hcontent
  rw [List.map_append]
  exact congrArg (· ++ _) hcontent

/-- Formatting leaves all the tokens of a document as they are and in their order, except for the
settings of its projects: of those in one body the last alone is kept, its string between double
quotes wherever they can stand. -/
theorem Document.tokenize_print {source : String} {d : Document}
    (h : Document.parse source = .ok d) :
    ∃ ts ts', tokenize source = .ok ts ∧ tokenize d.print = .ok ts' ∧
      ts'.map Token.content = settled (ts.map Token.content) := by
  obtain ⟨ts', hts', hcontent⟩ := tokenize_print_of_wellFormed (wellFormed_of_parse h)
  obtain ⟨fs, trees, htext, hfs, htrees, rfl⟩ := parse_eq_ok_iff.1 h
  refine ⟨_, ts', tokenizeAt_eq_ok_iff.2 ⟨fs, htext, hfs, rfl⟩, hts', ?_⟩
  have hlex : ∀ tree ∈ trees, ∀ t ∈ tree.tokens, t.Lexical := by
    intro tree htree t ht
    apply lexical_of_mem_tokens hfs
    rw [← htrees]
    exact List.mem_flatMap.2 ⟨tree, htree, ht⟩
  rw [hcontent, List.flatMap_map, List.map_append, ← htrees, settled_flatMap_tokens hlex]
  rfl

/-- Of two settings the last stays, and the escaped quote in it does not keep double quotes away. -/
theorem Document.tokenize_print_settings :
    ∃ d ts', Document.parse "Project p\x7bdatabase_type:\"x\"database_type:'a\\\"b'\x7d" = .ok d ∧
      tokenize d.print = .ok ts' ∧
      ts'.map Token.content =
        [(.keyword .project, "Project"), (.literal .ident, "p"), (.delimiter .lBrace, "\x7b"),
          (.keyword .databaseType, "database_type"), (.delimiter .colon, ":"),
          (.literal .doubleQuoted, "a\\\"b"), (.delimiter .rBrace, "\x7d"), (.eof, "")] := by
  have h : Document.parse "Project p\x7bdatabase_type:\"x\"database_type:'a\\\"b'\x7d" =
      .ok ⟨[.project "p" (some "a\\\"b") ⟨1, 1⟩]⟩ := by
    decide +kernel
  obtain ⟨ts, ts', hts, hts', hsame⟩ := tokenize_print h
  have hsettled : (tokenize "Project p\x7bdatabase_type:\"x\"database_type:'a\\\"b'\x7d").map
      (fun ts => settled (ts.map Token.content)) = .ok
        [(.keyword .project, "Project"), (.literal .ident, "p"), (.delimiter .lBrace, "\x7b"),
          (.keyword .databaseType, "database_type"), (.delimiter .colon, ":"),
          (.literal .doubleQuoted, "a\\\"b"), (.delimiter .rBrace, "\x7d"), (.eof, "")] := by
    decide +kernel
  rw [hts] at hsettled
  exact ⟨_, ts', h, hts', hsame.trans (Except.ok.inj hsettled)⟩

end Dbml
