import Dbml.Proofs.Document.Derivation
import Dbml.Proofs.Token.Reading

/-!
# What a document can hold

A document comes from a text in two steps, and both have a description by now: the text is a
readable sequence of fronts, and the tokens among them are those of a list of trees
(`Document.parse_eq_ok_iff`). Every token is a well-formed lexeme, so what is read off a tree is
restricted to names, quoted bodies and values (`Decl.WellFormed`).
-/

namespace Dbml

open Front

/-! ## Texts that are documents -/

theorem not_isEof_of_mem_tokens {fs : List Front} {r : List Char} (h : Readable fs r) {p : Place}
    {t : Token} (ht : t ∈ tokens p fs) : t.isEof = false := by
  obtain ⟨before, value, after, -, -, hv, -⟩ := h.exists_lexeme ht
  simpa [Token.isEof] using kind_ne_eof hv

/-- The tokens that are read from a text, up to the end, are all of them. -/
theorem takeWhile_tokens {fs : List Front} {r : List Char} (h : Readable fs r) (p q : Place) :
    (tokens p fs ++ [Token.eof q]).takeWhile (!·.isEof) = tokens p fs := by
  rw [List.takeWhile_append_of_pos]
  · simp [Token.isEof, Token.eof]
  · intro t ht
    simp [not_isEof_of_mem_tokens h ht]

theorem isEof_of_tokenize {source : String} {ts : List Token} (h : tokenize source = .ok ts) :
    ∃ t ∈ ts, t.isEof = true := by
  obtain ⟨fs, -, -, rfl⟩ := tokenizeAt_eq_ok_iff.1 h
  exact ⟨_, List.mem_append_right _ List.mem_cons_self, rfl⟩

theorem Document.parse_of_tokenize {source : String} {ts : List Token}
    (h : tokenize source = .ok ts) : Document.parse source = Document.ofTokens ts := by
  rw [Document.parse, h]
  rfl

/-- A text is parsed if it is made of fronts that can be read, and their tokens are those of trees. -/
theorem Document.parse_eq_ok_iff {source : String} {d : Document} :
    Document.parse source = .ok d ↔
      ∃ (fs : List Front) (trees : List Tree), source.toList = texts fs ∧ Readable fs [] ∧
        trees.flatMap Tree.tokens = tokens .start fs ∧ d = ⟨trees.map Tree.decl⟩ := by
  constructor
  · intro h
    obtain ⟨ts, hts, h⟩ := Phrase.ok_of_bind h
    obtain ⟨fs, htext, hfs, rfl⟩ := tokenizeAt_eq_ok_iff.1 hts
    obtain ⟨trees, htrees, rfl⟩ := Document.ofTokens_eq_ok_iff.1 h
    rw [takeWhile_tokens hfs] at htrees
    exact ⟨fs, trees, htext, hfs, htrees, rfl⟩
  · rintro ⟨fs, trees, htext, hfs, htrees, rfl⟩
    have hts : tokenize source =
        .ok (tokens .start fs ++ [Token.eof (Place.start.after source.toList)]) :=
      tokenizeAt_eq_ok_iff.2 ⟨fs, htext, hfs, rfl⟩
    have hd := Document.ofTokens_eq_ok_iff.2
      ⟨trees, htrees.trans (takeWhile_tokens hfs .start (Place.start.after source.toList)).symm, rfl⟩
    exact (Document.parse_of_tokenize hts).trans hd

/-! ## Names, types and values -/

/-- The names that can be declared: words that are not reserved. -/
def IsName (w : String) : Prop :=
  w.toList ≠ [] ∧ (∀ c ∈ w.toList, isWordChar c = true) ∧ Keyword.ofWord? w = none

/-- The database types: what can stand between double or between single quotes. -/
def IsTypeText (v : String) : Prop := IsQuotedBody '"' v.toList ∨ IsQuotedBody '\'' v.toList

/-- The values of enumerations: names, and double-quoted bodies with their quotes. -/
def IsEnumValue (v : String) : Prop :=
  IsName v ∨ ∃ body : String, IsQuotedBody '"' body.toList ∧ v = "\"" ++ body ++ "\""

/-- The declarations that can be written. -/
def Decl.WellFormed : Decl → Prop
  | project n d _ => IsName n ∧ ∀ v ∈ d, IsTypeText v
  | table n a cs _ => IsName n ∧ (∀ v ∈ a, IsName v) ∧ ∀ c ∈ cs, IsName c.name ∧ IsName c.type
  | enum n vs _ => IsName n ∧ ∀ v ∈ vs, IsEnumValue v

/-- The kind and the value of the token are those of a well-formed lexeme. -/
def Token.Lexical (t : Token) : Prop := (lexeme t.kind t.value.toList).Valid

theorem lexical_of_mem_tokens {fs : List Front} {r : List Char} (h : Readable fs r) {p : Place}
    {t : Token} (ht : t ∈ tokens p fs) : t.Lexical := by
  obtain ⟨before, value, after, -, heq, hv, -⟩ := h.exists_lexeme ht
  have hvalue : t.value.toList = value := by
    rw [heq]
    simp [Token.read]
  rw [Token.Lexical, hvalue]
  exact hv

theorem isName_of_lexical {t : Token} (h : t.Lexical) (hk : t.kind = .literal .ident) :
    IsName t.value := by
  rw [Token.Lexical, hk] at h
  simpa [IsName, Spells] using valid_lexeme_iff.1 h

theorem isTypeText_of_lexical {v : StringTerminal} (h : v.1.Lexical) : IsTypeText v.1.value := by
  rw [Token.Lexical] at h
  rcases v.2 with hk | hk
  · rw [hk] at h
    exact .inl (valid_lexeme_iff.1 h)
  · rw [hk] at h
    exact .inr (valid_lexeme_iff.1 h)

/-- What is kept of a name or a string in an enum is a value that an enum may have. -/
theorem isEnumValue_of_lexical {v : ValueTerminal} (h : v.1.Lexical) :
    IsEnumValue (Tree.valueText v) := by
  unfold Tree.valueText
  rcases v.2 with hk | hk
  · rw [if_neg (by simp [hk])]
    exact .inl (isName_of_lexical h hk)
  · rw [if_pos hk]
    rw [Token.Lexical, hk] at h
    exact .inr ⟨v.1.value, valid_lexeme_iff.1 h, rfl⟩

/-! ## What is read off a tree -/

/-- The declaration of a tree whose tokens can be read is well-formed. -/
theorem Tree.wellFormed_decl {tree : Tree} (h : ∀ t ∈ tree.tokens, t.Lexical) :
    tree.decl.WellFormed := by
  cases tree with
  | project k n o ss c =>
    simp only [tokens, List.forall_mem_cons, List.forall_mem_append] at h
    obtain ⟨-, hn, -, hss, -⟩ := h
    refine ⟨isName_of_lexical hn n.kind_token, ?_⟩
    intro v hv
    obtain ⟨s, hs, rfl⟩ := Option.map_eq_some_iff.1 hv
    apply isTypeText_of_lexical
    apply hss
    exact List.mem_flatMap.2 ⟨s, List.mem_of_getLast? hs, by simp [Setting.tokens]⟩
  | table k n a o cs c =>
    simp only [tokens, List.forall_mem_cons, List.forall_mem_append] at h
    obtain ⟨-, hn, ha, -, hcs, -⟩ := h
    refine ⟨isName_of_lexical hn n.kind_token, ?_, ?_⟩
    · intro v hv
      obtain ⟨al, rfl, rfl⟩ := Option.map_eq_some_iff.1 hv
      exact isName_of_lexical (ha al.name.token (by simp [Alias.tokens])) al.name.kind_token
    · intro col hcol
      obtain ⟨u, hu, rfl⟩ := List.mem_map.1 hcol
      have hmem : ∀ t ∈ u.tokens, t.Lexical := by
        intro t ht
        exact hcs t (List.mem_flatMap.2 ⟨u, hu, ht⟩)
      exact ⟨isName_of_lexical (hmem u.name.token (by simp [Column.tokens])) u.name.kind_token,
        isName_of_lexical (hmem u.type.token (by simp [Column.tokens])) u.type.kind_token⟩
  | enum k n o vs c =>
    simp only [tokens, List.forall_mem_cons, List.forall_mem_append] at h
    obtain ⟨-, hn, -, hvs, -⟩ := h
    refine ⟨isName_of_lexical hn n.kind_token, ?_⟩
    intro v hv
    obtain ⟨u, hu, rfl⟩ := List.mem_map.1 hv
    exact isEnumValue_of_lexical (hvs u.1 (List.mem_map_of_mem hu))

/-- A parsed document holds nothing that could not be written. -/
theorem Document.wellFormed_of_parse {source : String} {d : Document}
    (h : Document.parse source = .ok d) : ∀ x ∈ d.decls, x.WellFormed := by
  obtain ⟨fs, trees, -, hfs, htrees, rfl⟩ := Document.parse_eq_ok_iff.1 h
  intro x hx
  obtain ⟨tree, htree, rfl⟩ := List.mem_map.1 hx
  apply Tree.wellFormed_decl
  intro t ht
  apply lexical_of_mem_tokens hfs
  rw [← htrees]
  exact List.mem_flatMap.2 ⟨tree, htree, ht⟩

end Dbml
