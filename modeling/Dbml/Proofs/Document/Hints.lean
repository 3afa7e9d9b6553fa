import Dbml.Diagnostic
import Dbml.Proofs.Document.Nodes

/-!
# Hints go by kinds

The suggestion that goes with a syntax problem is found by looking at the words for the token that
did not fit, and these words hold the token's value, which the author of the document chose. The
value has no say in it all the same. What is looked for, a keyword between apostrophes, holds no
blank, and in the words for a token a blank comes before the value; and the words for the end of the
input hold no bracket, which the words for any other token do. So the suggestion is a function of
the token's kind and of what was expected (`Hint.of?`).
-/

namespace Dbml

open Front

/-! ## Suggestions by kind -/

/-- The suggestions that go with a syntax problem. -/
inductive Hint where
  | reservedRef
  | reservedNote
  | unclosed
  | quoteType
  | columnPair
  | topLevel
deriving DecidableEq, Repr

namespace Hint

/-- The words of a suggestion. -/
def text : Hint → String
  | reservedRef => "Ref declarations are reserved but not supported yet."
  | reservedNote => "Note settings are not supported yet; remove the Note line."
  | unclosed => "The file ended inside a declaration; close it with '\x7d'."
  | quoteType => "Quote the database type, e.g. database_type: \"PostgreSQL\""
  | columnPair => "Each column needs a name and a type, e.g. id integer"
  | topLevel => "Top-level declarations start with Project, Table or Enum."

/-- The suggestion by what was expected. -/
def ofExpected? (expected : String) : Option Hint :=
  if expected = Expected.databaseType.text then some quoteType
  else if expected = Expected.columnType.text then some columnPair
  else if expected = Expected.declaration.text then some topLevel
  else none

/-- The suggestion by the kind of the token that does not fit and by what was expected there. -/
def of? (kind : Kind) (expected : String) : Option Hint :=
  match kind with
  | .keyword .ref => some reservedRef
  | .keyword .note => some reservedNote
  | .eof => some unclosed
  | _ => ofExpected? expected

/-- For all other kinds the hint depends on what was expected. -/
theorem of?_of_ne {kind : Kind} (href : kind ≠ .keyword .ref) (hnote : kind ≠ .keyword .note)
    (heof : kind ≠ .eof) (expected : String) : of? kind expected = ofExpected? expected := by
  unfold of?
  split
  · exact absurd rfl href
  · exact absurd rfl hnote
  · exact absurd rfl heof
  · rfl

/-- No two hints have the same text. -/
theorem text_injective : Function.Injective text := by
  intro a b h
  revert h
  cases a <;> cases b <;> decide

theorem map_text_eq_some_iff {o : Option Hint} {hint : Hint} :
    o.map text = some hint.text ↔ o = some hint := by
  rw [← Option.map_some, (Option.map_injective text_injective).eq_iff]

/-- What was expected brings up none of the suggestions that the kind of a token brings up. -/
theorem ofExpected?_ne (expected : String) :
    ofExpected? expected ≠ some reservedRef ∧ ofExpected? expected ≠ some reservedNote ∧
      ofExpected? expected ≠ some unclosed := by
  unfold ofExpected?
  split
  · simp
  split
  · simp
  split <;> simp

theorem of?_eq_reservedRef_iff {kind : Kind} {expected : String} :
    of? kind expected = some reservedRef ↔ kind = .keyword .ref := by
  unfold of?
  split <;> simp_all [ofExpected?_ne]

theorem of?_eq_reservedNote_iff {kind : Kind} {expected : String} :
    of? kind expected = some reservedNote ↔ kind = .keyword .note := by
  unfold of?
  split <;> simp_all [ofExpected?_ne]

theorem of?_eq_unclosed_iff {kind : Kind} {expected : String} :
    of? kind expected = some unclosed ↔ kind = .eof := by
  unfold of?
  split <;> simp_all [ofExpected?_ne]

end Hint

/-! ## The words for a token -/

/-- A text without the character `c` that begins a longer text stands before the first `c` there. -/
theorem prefix_of_prefix_append_cons {a d rest : List Char} {c : Char} (hc : c ∉ a)
    (h : a <+: d ++ c :: rest) : a <+: d := by
  have hd : d ++ [c] <+: d ++ c :: rest := (List.prefix_append_right_inj d).2 ⟨rest, rfl⟩
  rcases List.prefix_or_prefix_of_prefix h hd with h | h
  · rcases List.prefix_concat_iff.1 h with rfl | h
    · exact absurd (by simp) hc
    · exact h
  · exact absurd (h.subset (by simp)) hc

/-- The words for one keyword begin the words for no other kind. -/
theorem Kind.eq_of_prefix_description {w : Keyword} {kind : Kind}
    (h : (Kind.keyword w).description.toList <+: kind.description.toList) : kind = .keyword w := by
  revert h
  cases kind with
  | illegal => cases w <;> decide
  | eof => cases w <;> decide
  | literal l => cases w <;> cases l <;> decide
  | relation r => cases w <;> cases r <;> decide
  | delimiter d => cases w <;> cases d <;> decide
  | keyword k => cases w <;> cases k <;> decide

namespace Token

theorem describe_of_eof {t : Token} (h : t.kind = .eof) : t.describe = Kind.eof.description := by
  simp [describe, isEof, h]

/-- Every other token is described by its kind and, in brackets, its value. -/
theorem toList_describe {t : Token} (h : t.kind ≠ .eof) :
    t.describe.toList =
      t.kind.description.toList ++ ' ' :: ('(' :: '\'' :: (t.value.toList ++ ['\'', ')'])) := by
  simp [describe, isEof, h]

/-- The words for a token begin with those for a keyword just if it is that keyword. -/
theorem isPrefixOf_describe_iff (w : Keyword) (t : Token) :
    (Kind.keyword w).description.toList.isPrefixOf t.describe.toList = true ↔
      t.kind = .keyword w := by
  rw [List.isPrefixOf_iff_prefix]
  constructor
  · intro h
    apply Kind.eq_of_prefix_description
    by_cases heof : t.kind = .eof
    · rw [heof]
      rwa [describe_of_eof heof] at h
    · rw [toList_describe heof] at h
      have hblank : ' ' ∉ (Kind.keyword w).description.toList := by
        cases w <;> decide
      exact prefix_of_prefix_append_cons hblank h
  · intro h
    rw [toList_describe (by simp [h]), h]
    exact List.prefix_append _ _

/-- The words for a token are those for the end of the input just if it is the end of the input. -/
theorem describe_eq_iff (t : Token) : t.describe = Kind.eof.description ↔ t.kind = .eof := by
  refine ⟨fun h => ?_, describe_of_eof⟩
  by_contra heof
  have hbracket : '(' ∈ t.describe.toList := by
    rw [toList_describe heof]
    simp
  rw [h] at hbracket
  revert hbracket
  decide

end Token

/-! ## The words that are looked for -/

/-- The words that suggestions go by are those for three kinds of tokens and for three things that
the grammar expects, spelled out once more; were one of them spelled otherwise, no suggestion would
be found where it belongs. -/
theorem suggestion?_words (expected found : String) :
    suggestion? expected found =
      if (Kind.keyword .ref).description.toList.isPrefixOf found.toList then
        some Hint.reservedRef.text
      else if (Kind.keyword .note).description.toList.isPrefixOf found.toList then
        some Hint.reservedNote.text
      else if found = Kind.eof.description then some Hint.unclosed.text
      else (Hint.ofExpected? expected).map Hint.text := by
  have href : (Kind.keyword .ref).description = "'Ref'" := by decide
  have hnote : (Kind.keyword .note).description = "'Note'" := by decide
  have heof : Kind.eof.description = "end of input" := rfl
  rw [suggestion?, href, hnote, heof, Hint.ofExpected?]
  simp only [apply_ite (Option.map Hint.text)]
  rfl

/-- The suggestion for a token goes by its kind and by what was expected. -/
theorem suggestion?_describe (expected : String) (t : Token) :
    suggestion? expected t.describe = (Hint.of? t.kind expected).map Hint.text := by
  rw [suggestion?_words]
  simp only [Token.isPrefixOf_describe_iff, Token.describe_eq_iff]
  split
  case isTrue hk => rw [hk]; rfl
  case isFalse href =>
    split
    case isTrue hk => rw [hk]; rfl
    case isFalse hnote =>
      split
      case isTrue hk => rw [hk]; rfl
      case isFalse heof =>
        rw [Hint.of?_of_ne href hnote heof]

/-! ## One token at each position -/

theorem pairwise_position_tokenize {source : String} {ts : List Token}
    (h : tokenize source = .ok ts) :
    ts.Pairwise fun t u => compare t.position u.position = .lt := by
  obtain ⟨fs, htext, hfs, rfl⟩ := tokenizeAt_eq_ok_iff.1 h
  refine List.pairwise_append.2
    ⟨pairwise_position_tokens hfs .start, List.pairwise_singleton _ _, ?_⟩
  intro t ht u hu
  rw [List.mem_singleton.1 hu, htext]
  obtain ⟨before, kind, value, after, rfl, rfl⟩ := mem_tokens ht
  -- between the token and the end lies at least the text of the token
  have hvalid : (lexeme kind value).Valid := hfs.valid _ (by simp)
  have hne : (lexeme kind value).text ++ texts after ≠ [] := by
    simp [hvalid.text_ne_nil]
  rw [texts_append, texts_cons, Place.after_append]
  exact Position.compare_after _ hne

theorem eq_of_position_eq {source : String} {ts : List Token} (h : tokenize source = .ok ts)
    {t u : Token} (ht : t ∈ ts) (hu : u ∈ ts) (hp : t.position = u.position) : t = u := by
  have hnodup : (ts.map Token.position).Nodup := by
    refine List.pairwise_map.2 ((pairwise_position_tokenize h).imp ?_)
    intro a b hab heq
    rw [heq, Position.compare_eq_lt_iff] at hab
    omega
  exact List.inj_on_of_nodup_map hnodup ht hu hp

/-! ## Whole documents -/

/-- The reading of a text never finds a token that does not fit. -/
theorem tokenizeAt_ne_unexpected (p : Place) (s : List Char) (expected found : String)
    (position : Position) (span : Span) :
    tokenizeAt p s ≠ .error (.unexpected expected found position span) := by
  intro h
  fun_induction tokenizeAt p s with
  | case1 => cases h
  | case2 p c cs kind value rest hread ih => exact ih (Phrase.error_of_map h)
  | case3 p c cs text rest hread ih => exact ih h
  | case4 => cases h
  | case5 => cases h

/-- **Hints go by kinds**: the text that a syntax problem is about is one token, the only one at its
position, and the suggestion depends on that token's kind and on what was expected there, whatever
the token's value is. -/
theorem Document.help_of_parse {source : String} {expected found : String} {position : Position}
    {span : Span} (h : Document.parse source = .error (.unexpected expected found position span))
    (file : String) :
    ∃ ts t, tokenize source = .ok ts ∧ t ∈ ts ∧ t.position = position ∧ t.span = span ∧
      t.describe = found ∧ (∀ u ∈ ts, u.position = position → u = t) ∧
      let help := (Problem.diagnostic (.unexpected expected found position span) file).help
      help = (Hint.of? t.kind expected).map Hint.text ∧
      (help = some Hint.reservedRef.text ↔ t.kind = .keyword .ref) ∧
      (help = some Hint.reservedNote.text ↔ t.kind = .keyword .note) ∧
      (help = some Hint.unclosed.text ↔ t.kind = .eof) ∧
      (t.kind ≠ .keyword .ref → t.kind ≠ .keyword .note → t.kind ≠ .eof →
        help = (Hint.ofExpected? expected).map Hint.text) := by
  rcases Phrase.error_of_bind h with hlex | ⟨ts, hts, hparse⟩
  · exact absurd hlex (tokenizeAt_ne_unexpected _ _ _ _ _ _)
  obtain ⟨expected', t, ht, he⟩ := exists_token_of_ofTokens hts hparse
  cases he
  have hhelp : (Problem.diagnostic (.atToken expected' t) file).help =
      (Hint.of? t.kind expected'.text).map Hint.text := suggestion?_describe expected'.text t
  refine ⟨ts, t, hts, ht, rfl, rfl, rfl, ?_, hhelp, ?_, ?_, ?_, ?_⟩
  · intro u hu hp
    exact eq_of_position_eq hts hu ht hp
  · exact hhelp ▸ Hint.map_text_eq_some_iff.trans Hint.of?_eq_reservedRef_iff
  · exact hhelp ▸ Hint.map_text_eq_some_iff.trans Hint.of?_eq_reservedNote_iff
  · exact hhelp ▸ Hint.map_text_eq_some_iff.trans Hint.of?_eq_unclosed_iff
  · intro href hnote heof
    exact hhelp.trans (by rw [Hint.of?_of_ne href hnote heof])

/-- A literal that says `Ref` where a database type belongs: the hint is about the type. -/
theorem Document.help_of_parse_literal :
    let source := "Project p \x7b database_type: '''Ref''' \x7d"
    let problem :=
      Problem.unexpected "database type string" "multiline string ('Ref')" ⟨1, 28⟩ ⟨27, 36⟩
    Document.parse source = .error problem ∧
      ∃ ts t, tokenize source = .ok ts ∧ t ∈ ts ∧ t.span = ⟨27, 36⟩ ∧
        (problem.diagnostic "p.dbml").help =
          (Hint.of? t.kind "database type string").map Hint.text := by
  intro source problem
  have h : Document.parse source = .error problem := by
    decide +kernel
  obtain ⟨ts, t, hts, ht, -, hspan, -, -, hhelp, -⟩ := Document.help_of_parse h "p.dbml"
  exact ⟨h, ts, t, hts, ht, hspan, hhelp⟩

end Dbml
