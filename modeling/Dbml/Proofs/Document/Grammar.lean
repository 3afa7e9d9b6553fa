import Dbml.Document.Basic
import Dbml.Token.Basic
import Mathlib.Computability.RegularExpressions

/-!
# The grammar of documents

The grammar is a regular expression over the kinds of tokens (`Grammar.document`). A derivation is a
list of trees (`Tree`): a tree holds the tokens of one declaration, each of the kind that its place
asks for, so there is no tree that does not derive. What a tree declares is read off its tokens
(`Tree.decl`).

The tokens of trees are exactly those whose kinds match the expression (`Grammar.derives_document`),
and no tokens have two derivations (`Tree.flatMap_tokens_inj`), since each phrase is settled by its
first tokens.
-/

namespace Dbml

/-! ## The grammar as an expression -/

namespace Grammar

open RegularExpression

/-- A setting of a project: `database_type` `:` string. -/
def setting : RegularExpression Kind :=
  char (.keyword .databaseType) * (char (.delimiter .colon) *
    (char (.literal .doubleQuoted) + char (.literal .singleQuoted)))

/-- `Project` name `{` settings `}` -/
def project : RegularExpression Kind :=
  char (.keyword .project) * (char (.literal .ident) * (char (.delimiter .lBrace) *
    (star setting * char (.delimiter .rBrace))))

/-- A column of a table: name type. -/
def column : RegularExpression Kind := char (.literal .ident) * char (.literal .ident)

/-- The alias of a table: `as` name, or nothing. -/
def tableAlias : RegularExpression Kind := 1 + char (.keyword .aliased) * char (.literal .ident)

/-- `Table` name alias `{` columns `}` -/
def table : RegularExpression Kind :=
  char (.keyword .table) * (char (.literal .ident) * (tableAlias * (char (.delimiter .lBrace) *
    (star column * char (.delimiter .rBrace)))))

/-- A value of an enumeration: a word or a double-quoted string. -/
def value : RegularExpression Kind := char (.literal .ident) + char (.literal .doubleQuoted)

/-- `Enum` name `{` values `}` -/
def enum : RegularExpression Kind :=
  char (.keyword .enum) * (char (.literal .ident) * (char (.delimiter .lBrace) *
    (star value * char (.delimiter .rBrace))))

/-- Declarations one after another. -/
def document : RegularExpression Kind := star (project + (table + enum))

end Grammar

/-! ## Derivations -/

/-- A token of the kind `k`. -/
def Terminal (k : Kind) : Type := { t : Token // t.kind = k }

/-- The token of a terminal. -/
def Terminal.token {k : Kind} (t : Terminal k) : Token := t.1

theorem Terminal.kind_token {k : Kind} (t : Terminal k) : t.token.kind = k := t.2

theorem Terminal.ext {k : Kind} {t u : Terminal k} (h : t.token = u.token) : t = u := Subtype.ext h

/-- A token that the grammar allows as a database type. -/
abbrev StringTerminal : Type :=
  { t : Token // t.kind = .literal .doubleQuoted ∨ t.kind = .literal .singleQuoted }

/-- A token that the grammar allows as a value of an enumeration. -/
abbrev ValueTerminal : Type :=
  { t : Token // t.kind = .literal .ident ∨ t.kind = .literal .doubleQuoted }

namespace Tree

/-- A setting of a project as derived. -/
structure Setting where
  keyword : Terminal (.keyword .databaseType)
  colon : Terminal (.delimiter .colon)
  value : StringTerminal

/-- A column of a table as derived. -/
structure Column where
  name : Terminal (.literal .ident)
  type : Terminal (.literal .ident)

/-- An alias of a table as derived. -/
structure Alias where
  keyword : Terminal (.keyword .aliased)
  name : Terminal (.literal .ident)

def Setting.tokens (s : Setting) : List Token := [s.keyword.token, s.colon.token, s.value.1]

def Column.tokens (c : Column) : List Token := [c.name.token, c.type.token]

def Alias.tokens (a : Alias) : List Token := [a.keyword.token, a.name.token]

/-- The value of the last database type, if there is one. -/
def databaseType (ss : List Setting) : Option String := ss.getLast?.map fun s => s.value.1.value

/-- The last of several settings counts. -/
theorem databaseType_cons (s : Setting) (ss : List Setting) (last : Option String) :
    (databaseType (s :: ss)).or last = (databaseType ss).or (some s.value.1.value) := by
  unfold databaseType
  rw [List.getLast?_cons]
  cases ss.getLast? <;> rfl

/-- A column stands at its name. -/
def Column.decl (c : Column) : Decl.Column :=
  ⟨c.name.token.value, c.type.token.value, c.name.token.position⟩

/-- A value of an enumeration; a quoted one is kept between its quotes. -/
def valueText (v : ValueTerminal) : String :=
  if v.1.kind = .literal .doubleQuoted then "\"" ++ v.1.value ++ "\"" else v.1.value

end Tree

/-- The derivation of one declaration. -/
inductive Tree where
  | project (keyword : Terminal (.keyword .project)) (name : Terminal (.literal .ident))
    (opening : Terminal (.delimiter .lBrace)) (settings : List Tree.Setting)
    (closing : Terminal (.delimiter .rBrace))
  | table (keyword : Terminal (.keyword .table)) (name : Terminal (.literal .ident))
    (aliased : Option Tree.Alias) (opening : Terminal (.delimiter .lBrace))
    (columns : List Tree.Column) (closing : Terminal (.delimiter .rBrace))
  | enum (keyword : Terminal (.keyword .enum)) (name : Terminal (.literal .ident))
    (opening : Terminal (.delimiter .lBrace)) (values : List ValueTerminal)
    (closing : Terminal (.delimiter .rBrace))

namespace Tree

/-- The tokens derived, in order. -/
def tokens : Tree → List Token
  | project k n o ss c =>
    k.token :: n.token :: o.token :: (ss.flatMap Setting.tokens ++ [c.token])
  | table k n a o cs c =>
    k.token :: n.token :: (a.elim [] Alias.tokens ++ o.token ::
      (cs.flatMap Column.tokens ++ [c.token]))
  | enum k n o vs c => k.token :: n.token :: o.token :: (vs.map Subtype.val ++ [c.token])

/-- The declaration read off a derivation; it stands at its keyword. -/
def decl : Tree → Decl
  | project k n _ ss _ => .project n.token.value (databaseType ss) k.token.position
  | table k n a _ cs _ =>
    .table n.token.value (a.map fun a => a.name.token.value) (cs.map Column.decl) k.token.position
  | enum k n _ vs _ => .enum n.token.value (vs.map valueText) k.token.position

end Tree

/-! ## No tokens have two derivations -/

/-- Items that are settled by their tokens, before a token that begins none of them, are settled by
all the tokens. -/
theorem flatMap_append_inj {α : Type} {f : α → List Token} {k : Kind}
    (hinj : ∀ {a b : α} {r r' : List Token}, f a ++ r = f b ++ r' → a = b ∧ r = r')
    (hclose : ∀ {a : α} {r r' : List Token} {c : Terminal k}, f a ++ r ≠ c.token :: r')
    {l l' : List α} {c c' : Terminal k} {r r' : List Token}
    (h : l.flatMap f ++ c.token :: r = l'.flatMap f ++ c'.token :: r') :
    l = l' ∧ c = c' ∧ r = r' := by
  induction l generalizing l' with
  | nil =>
    cases l' with
    | nil =>
      obtain ⟨hc, hr⟩ := List.cons.inj h
      exact ⟨rfl, Terminal.ext hc, hr⟩
    | cons b l' =>
      rw [List.flatMap_cons, List.append_assoc] at h
      exact absurd h.symm hclose
  | cons a l ih =>
    rw [List.flatMap_cons, List.append_assoc] at h
    cases l' with
    | nil => exact absurd h hclose
    | cons b l' =>
      rw [List.flatMap_cons, List.append_assoc] at h
      obtain ⟨rfl, hrest⟩ := hinj h
      obtain ⟨rfl, hc, hr⟩ := ih hrest
      exact ⟨rfl, hc, hr⟩

theorem Terminal.token_ne {k k' : Kind} (hk : k ≠ k') (t : Terminal k) (u : Terminal k') :
    t.token ≠ u.token := by
  intro h
  apply hk
  rw [← t.kind_token, ← u.kind_token, h]

namespace Tree

/-- Settings up to a brace can be told from their tokens: a setting does not begin with a brace. -/
theorem settings_inj {ss ss' : List Setting} {c c' : Terminal (.delimiter .rBrace)}
    {r r' : List Token}
    (h : ss.flatMap Setting.tokens ++ c.token :: r = ss'.flatMap Setting.tokens ++ c'.token :: r') :
    ss = ss' ∧ c = c' ∧ r = r' := by
  refine flatMap_append_inj ?_ ?_ h
  · rintro ⟨k, o, v⟩ ⟨k', o', v'⟩ r r' h
    simp only [Setting.tokens, List.cons_append, List.nil_append, List.cons.injEq] at h
    obtain ⟨hk, ho, hv, hr⟩ := h
    rw [Terminal.ext hk, Terminal.ext ho, Subtype.ext hv]
    exact ⟨rfl, hr⟩
  · intro s r r' c h
    exact Terminal.token_ne (by decide) s.keyword c (List.cons.inj h).1

theorem columns_inj {cs cs' : List Column} {c c' : Terminal (.delimiter .rBrace)}
    {r r' : List Token}
    (h : cs.flatMap Column.tokens ++ c.token :: r = cs'.flatMap Column.tokens ++ c'.token :: r') :
    cs = cs' ∧ c = c' ∧ r = r' := by
  refine flatMap_append_inj ?_ ?_ h
  · rintro ⟨n, y⟩ ⟨n', y'⟩ r r' h
    simp only [Column.tokens, List.cons_append, List.nil_append, List.cons.injEq] at h
    obtain ⟨hn, hy, hr⟩ := h
    rw [Terminal.ext hn, Terminal.ext hy]
    exact ⟨rfl, hr⟩
  · intro s r r' c h
    exact Terminal.token_ne (by decide) s.name c (List.cons.inj h).1

theorem values_inj {vs vs' : List ValueTerminal} {c c' : Terminal (.delimiter .rBrace)}
    {r r' : List Token}
    (h : vs.map Subtype.val ++ c.token :: r = vs'.map Subtype.val ++ c'.token :: r') :
    vs = vs' ∧ c = c' ∧ r = r' := by
  rw [List.map_eq_flatMap, List.map_eq_flatMap] at h
  refine flatMap_append_inj ?_ ?_ h
  · intro v v' r r' h
    obtain ⟨hv, hr⟩ := List.cons.inj h
    exact ⟨Subtype.ext hv, hr⟩
  · intro v r r' c h
    have hkind := c.kind_token
    rw [← (List.cons.inj h).1] at hkind
    rcases v.2 with hv | hv
    · rw [hv] at hkind
      cases hkind
    · rw [hv] at hkind
      cases hkind

/-- Whether there is an alias before a brace can be told from the tokens. -/
theorem alias_inj {a a' : Option Alias} {o o' : Terminal (.delimiter .lBrace)} {r r' : List Token}
    (h : a.elim [] Alias.tokens ++ o.token :: r = a'.elim [] Alias.tokens ++ o'.token :: r') :
    a = a' ∧ o = o' ∧ r = r' := by
  have hne (al : Alias) (o : Terminal (.delimiter .lBrace)) : al.keyword.token ≠ o.token :=
    Terminal.token_ne (by decide) al.keyword o
  rcases a with _ | al <;> rcases a' with _ | al'
  · obtain ⟨ho, hr⟩ := List.cons.inj h
    exact ⟨rfl, Terminal.ext ho, hr⟩
  · exact absurd (List.cons.inj h).1.symm (hne al' o)
  · exact absurd (List.cons.inj h).1 (hne al o')
  · obtain ⟨k, n⟩ := al
    obtain ⟨k', n'⟩ := al'
    simp only [Option.elim_some, Alias.tokens, List.cons_append, List.nil_append,
      List.cons.injEq] at h
    obtain ⟨hk, hn, ho, hr⟩ := h
    rw [Terminal.ext hk, Terminal.ext hn]
    exact ⟨rfl, Terminal.ext ho, hr⟩

/-- The kind of the keyword decides between the declarations, and each is settled by its tokens. -/
theorem tokens_append_inj {tree tree' : Tree} {r r' : List Token}
    (h : tree.tokens ++ r = tree'.tokens ++ r') : tree = tree' ∧ r = r' := by
  cases tree with
  | project k n o ss c =>
    cases tree' with
    | project k' n' o' ss' c' =>
      simp only [tokens, List.cons_append, List.append_assoc, List.nil_append,
        List.cons.injEq] at h
      obtain ⟨hk, hn, ho, hss⟩ := h
      obtain ⟨rfl, rfl, hr⟩ := settings_inj hss
      rw [Terminal.ext hk, Terminal.ext hn, Terminal.ext ho]
      exact ⟨rfl, hr⟩
    | table k' => exact absurd (List.cons.inj h).1 (Terminal.token_ne (by decide) k k')
    | enum k' => exact absurd (List.cons.inj h).1 (Terminal.token_ne (by decide) k k')
  | table k n a o cs c =>
    cases tree' with
    | project k' => exact absurd (List.cons.inj h).1 (Terminal.token_ne (by decide) k k')
    | table k' n' a' o' cs' c' =>
      simp only [tokens, List.cons_append, List.append_assoc, List.nil_append,
        List.cons.injEq] at h
      obtain ⟨hk, hn, ha⟩ := h
      obtain ⟨rfl, rfl, hcs⟩ := alias_inj ha
      obtain ⟨rfl, rfl, hr⟩ := columns_inj hcs
      rw [Terminal.ext hk, Terminal.ext hn]
      exact ⟨rfl, hr⟩
    | enum k' => exact absurd (List.cons.inj h).1 (Terminal.token_ne (by decide) k k')
  | enum k n o vs c =>
    cases tree' with
    | project k' => exact absurd (List.cons.inj h).1 (Terminal.token_ne (by decide) k k')
    | table k' => exact absurd (List.cons.inj h).1 (Terminal.token_ne (by decide) k k')
    | enum k' n' o' vs' c' =>
      simp only [tokens, List.cons_append, List.append_assoc, List.nil_append,
        List.cons.injEq] at h
      obtain ⟨hk, hn, ho, hvs⟩ := h
      obtain ⟨rfl, rfl, hr⟩ := values_inj hvs
      rw [Terminal.ext hk, Terminal.ext hn, Terminal.ext ho]
      exact ⟨rfl, hr⟩

theorem tokens_ne_nil (tree : Tree) : tree.tokens ≠ [] := by
  cases tree <;> simp [tokens]

/-- The grammar is unambiguous. -/
theorem flatMap_tokens_inj {trees trees' : List Tree}
    (h : trees.flatMap tokens = trees'.flatMap tokens) : trees = trees' := by
  induction trees generalizing trees' with
  | nil =>
    cases trees' with
    | nil => rfl
    | cons tree' trees' => simp [tokens_ne_nil] at h
  | cons tree trees ih =>
    cases trees' with
    | nil => simp [tokens_ne_nil] at h
    | cons tree' trees' =>
      obtain ⟨rfl, hrest⟩ := tokens_append_inj h
      rw [ih hrest]

/-- The tokens of one derivation stand side by side among those of all. -/
theorem exists_flatMap_eq {tree : Tree} {trees : List Tree} (h : tree ∈ trees) :
    ∃ before after, trees.flatMap tokens = before ++ (tree.tokens ++ after) := by
  obtain ⟨l, l', rfl⟩ := List.append_of_mem h
  exact ⟨l.flatMap tokens, l'.flatMap tokens, by simp⟩

end Tree

/-! ## Derivations and the expression -/

namespace Grammar

open RegularExpression

/-- The tokens derive from the expression by their kinds. -/
def Derives (P : RegularExpression Kind) (ts : List Token) : Prop :=
  ts.map Token.kind ∈ P.matches'

theorem derives_char {k : Kind} {ts : List Token} :
    Derives (char k) ts ↔ ∃ t : Terminal k, ts = [t.token] := by
  change ts.map Token.kind = [k] ↔ _
  rw [List.map_eq_singleton_iff]
  constructor
  · rintro ⟨t, rfl, ht⟩
    exact ⟨⟨t, ht⟩, rfl⟩
  · rintro ⟨t, rfl⟩
    exact ⟨t.token, rfl, t.kind_token⟩

theorem derives_one {ts : List Token} : Derives 1 ts ↔ ts = [] := by
  unfold Derives
  rw [matches'_epsilon, Language.mem_one, List.map_eq_nil_iff]

theorem derives_add {P Q : RegularExpression Kind} {ts : List Token} :
    Derives (P + Q) ts ↔ Derives P ts ∨ Derives Q ts := by
  unfold Derives
  rw [matches'_add, Language.mem_add]

/-- A sequence derives tokens that can be cut into a part for each of its two sides. -/
theorem derives_mul {P Q : RegularExpression Kind} {ts : List Token} :
    Derives (P * Q) ts ↔ ∃ us vs, Derives P us ∧ Derives Q vs ∧ ts = us ++ vs := by
  unfold Derives
  rw [matches'_mul, Language.mem_mul]
  constructor
  · rintro ⟨a, ha, b, hb, h⟩
    obtain ⟨us, vs, rfl, rfl, rfl⟩ := List.map_eq_append_iff.1 h.symm
    exact ⟨us, vs, ha, hb, rfl⟩
  · rintro ⟨us, vs, hu, hv, rfl⟩
    exact ⟨_, hu, _, hv, List.map_append.symm⟩

/-- What is repeated derives from a list of what is derived once. -/
theorem derives_star {α : Type} {f : α → List Token} {P : RegularExpression Kind}
    (h : ∀ ts, Derives P ts ↔ ∃ a, ts = f a) {ts : List Token} :
    Derives (star P) ts ↔ ∃ l : List α, ts = l.flatMap f := by
  unfold Derives at h ⊢
  rw [matches'_star, Language.mem_kstar]
  constructor
  · rintro ⟨L, hL, hmem⟩
    induction L generalizing ts with
    | nil => exact ⟨[], List.map_eq_nil_iff.1 hL⟩
    | cons x L ih =>
      obtain ⟨us, vs, rfl, rfl, hvs⟩ := List.map_eq_append_iff.1 hL
      obtain ⟨l, rfl⟩ := ih hvs fun y hy => hmem y (List.mem_cons_of_mem _ hy)
      obtain ⟨a, rfl⟩ := (h us).1 (hmem _ List.mem_cons_self)
      exact ⟨a :: l, rfl⟩
  · rintro ⟨l, rfl⟩
    refine ⟨l.map fun a => (f a).map Token.kind, ?_, ?_⟩
    · rw [List.map_flatMap, List.flatMap_def]
    · intro y hy
      obtain ⟨a, -, rfl⟩ := List.mem_map.1 hy
      exact (h (f a)).2 ⟨a, rfl⟩

/-- The expression of a setting derives the tokens of the trees of settings. -/
theorem derives_setting {ts : List Token} :
    Derives setting ts ↔ ∃ s : Tree.Setting, ts = s.tokens := by
  simp only [setting, derives_mul, derives_add, derives_char]
  constructor
  · rintro ⟨_, _, ⟨k, rfl⟩, ⟨_, _, ⟨c, rfl⟩, ⟨v, rfl⟩ | ⟨v, rfl⟩, rfl⟩, rfl⟩
    · exact ⟨⟨k, c, v.token, .inl v.kind_token⟩, rfl⟩
    · exact ⟨⟨k, c, v.token, .inr v.kind_token⟩, rfl⟩
  · rintro ⟨⟨k, c, v, hv | hv⟩, rfl⟩
    · exact ⟨_, _, ⟨k, rfl⟩, ⟨_, _, ⟨c, rfl⟩, .inl ⟨⟨v, hv⟩, rfl⟩, rfl⟩, rfl⟩
    · exact ⟨_, _, ⟨k, rfl⟩, ⟨_, _, ⟨c, rfl⟩, .inr ⟨⟨v, hv⟩, rfl⟩, rfl⟩, rfl⟩

/-- The expression of a column derives the tokens of the trees of columns. -/
theorem derives_column {ts : List Token} :
    Derives column ts ↔ ∃ c : Tree.Column, ts = c.tokens := by
  simp only [column, derives_mul, derives_char]
  constructor
  · rintro ⟨_, _, ⟨n, rfl⟩, ⟨y, rfl⟩, rfl⟩
    exact ⟨⟨n, y⟩, rfl⟩
  · rintro ⟨⟨n, y⟩, rfl⟩
    exact ⟨_, _, ⟨n, rfl⟩, ⟨y, rfl⟩, rfl⟩

/-- The expression of an alias derives nothing, or the tokens of one. -/
theorem derives_tableAlias {ts : List Token} :
    Derives tableAlias ts ↔ ∃ a : Option Tree.Alias, ts = a.elim [] Tree.Alias.tokens := by
  simp only [tableAlias, derives_add, derives_one, derives_mul, derives_char]
  constructor
  · rintro (rfl | ⟨_, _, ⟨k, rfl⟩, ⟨n, rfl⟩, rfl⟩)
    · exact ⟨none, rfl⟩
    · exact ⟨some ⟨k, n⟩, rfl⟩
  · rintro ⟨_ | ⟨k, n⟩, rfl⟩
    · exact .inl rfl
    · exact .inr ⟨_, _, ⟨k, rfl⟩, ⟨n, rfl⟩, rfl⟩

theorem derives_value {ts : List Token} :
    Derives value ts ↔ ∃ v : ValueTerminal, ts = [v.1] := by
  simp only [value, derives_add, derives_char]
  constructor
  · rintro (⟨v, rfl⟩ | ⟨v, rfl⟩)
    · exact ⟨⟨v.token, .inl v.kind_token⟩, rfl⟩
    · exact ⟨⟨v.token, .inr v.kind_token⟩, rfl⟩
  · rintro ⟨⟨v, hv | hv⟩, rfl⟩
    · exact .inl ⟨⟨v, hv⟩, rfl⟩
    · exact .inr ⟨⟨v, hv⟩, rfl⟩

/-- The expression of a project derives the tokens of the trees of projects. -/
theorem derives_project {ts : List Token} :
    Derives project ts ↔ ∃ k n o ss c, ts = (Tree.project k n o ss c).tokens := by
  simp only [project, derives_mul, derives_char, derives_star fun _ => derives_setting]
  constructor
  · rintro ⟨_, _, ⟨k, rfl⟩, ⟨_, _, ⟨n, rfl⟩, ⟨_, _, ⟨o, rfl⟩, ⟨_, _, ⟨ss, rfl⟩, ⟨c, rfl⟩, rfl⟩, rfl⟩,
      rfl⟩, rfl⟩
    exact ⟨k, n, o, ss, c, rfl⟩
  · rintro ⟨k, n, o, ss, c, rfl⟩
    exact ⟨_, _, ⟨k, rfl⟩, ⟨_, _, ⟨n, rfl⟩, ⟨_, _, ⟨o, rfl⟩, ⟨_, _, ⟨ss, rfl⟩, ⟨c, rfl⟩, rfl⟩, rfl⟩,
      rfl⟩, rfl⟩

/-- The expression of a table derives the tokens of the trees of tables. -/
theorem derives_table {ts : List Token} :
    Derives table ts ↔ ∃ k n a o cs c, ts = (Tree.table k n a o cs c).tokens := by
  simp only [table, derives_mul, derives_char, derives_tableAlias,
    derives_star fun _ => derives_column]
  constructor
  · rintro ⟨_, _, ⟨k, rfl⟩, ⟨_, _, ⟨n, rfl⟩, ⟨_, _, ⟨a, rfl⟩, ⟨_, _, ⟨o, rfl⟩, ⟨_, _, ⟨cs, rfl⟩,
      ⟨c, rfl⟩, rfl⟩, rfl⟩, rfl⟩, rfl⟩, rfl⟩
    exact ⟨k, n, a, o, cs, c, rfl⟩
  · rintro ⟨k, n, a, o, cs, c, rfl⟩
    exact ⟨_, _, ⟨k, rfl⟩, ⟨_, _, ⟨n, rfl⟩, ⟨_, _, ⟨a, rfl⟩, ⟨_, _, ⟨o, rfl⟩, ⟨_, _, ⟨cs, rfl⟩,
      ⟨c, rfl⟩, rfl⟩, rfl⟩, rfl⟩, rfl⟩, rfl⟩

/-- The expression of an enum derives the tokens of the trees of enums. -/
theorem derives_enum {ts : List Token} :
    Derives enum ts ↔ ∃ k n o vs c, ts = (Tree.enum k n o vs c).tokens := by
  simp only [enum, derives_mul, derives_char, derives_star fun _ => derives_value]
  constructor
  · rintro ⟨_, _, ⟨k, rfl⟩, ⟨_, _, ⟨n, rfl⟩, ⟨_, _, ⟨o, rfl⟩, ⟨_, _, ⟨vs, rfl⟩, ⟨c, rfl⟩, rfl⟩, rfl⟩,
      rfl⟩, rfl⟩
    refine ⟨k, n, o, vs, c, ?_⟩
    rw [Tree.tokens, List.map_eq_flatMap]
    rfl
  · rintro ⟨k, n, o, vs, c, rfl⟩
    refine ⟨_, _, ⟨k, rfl⟩, ⟨_, _, ⟨n, rfl⟩, ⟨_, _, ⟨o, rfl⟩, ⟨_, _, ⟨vs, rfl⟩, ⟨c, rfl⟩, rfl⟩, rfl⟩,
      rfl⟩, ?_⟩
    rw [Tree.tokens, List.map_eq_flatMap]
    rfl

/-- The tokens of trees are the tokens that derive by their kinds. -/
theorem derives_document {ts : List Token} :
    Derives document ts ↔ ∃ trees : List Tree, ts = trees.flatMap Tree.tokens := by
  refine derives_star fun ts => ?_
  rw [derives_add, derives_add, derives_project, derives_table, derives_enum]
  constructor
  · rintro (⟨k, n, o, ss, c, rfl⟩ | ⟨k, n, a, o, cs, c, rfl⟩ | ⟨k, n, o, vs, c, rfl⟩)
    · exact ⟨_, rfl⟩
    · exact ⟨_, rfl⟩
    · exact ⟨_, rfl⟩
  · rintro ⟨tree, rfl⟩
    cases tree with
    | project k n o ss c => exact .inl ⟨k, n, o, ss, c, rfl⟩
    | table k n a o cs c => exact .inr (.inl ⟨k, n, a, o, cs, c, rfl⟩)
    | enum k n o vs c => exact .inr (.inr ⟨k, n, o, vs, c, rfl⟩)

end Grammar

end Dbml
