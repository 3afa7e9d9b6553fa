import Dbml.Proofs.Document.Relocation
import Dbml.Proofs.Document.WellFormed
import Dbml.Proofs.Text.Place
import Dbml.Proofs.Token.Splice

/-!
# One text below another

A line end stops every front, so nothing that a text ends with reaches into the next line. Below a
text that is read to its end, another text is therefore read as it is alone, only further down
(`Relocation.below`), and the same holds of parsing: `Document.parse_append_newline`.
-/

namespace Dbml

open Front

/-! ## Moving down -/

/-- Down by some lines and on by some bytes; columns stay as they are. -/
def Relocation.below (lines bytes : Nat) : Relocation where
  position p := ⟨p.line + lines, p.column⟩
  span s := ⟨s.start + bytes, s.stop + bytes⟩

/-- The place that many lines and bytes further. -/
def Place.below (p : Place) (lines bytes : Nat) : Place :=
  ⟨⟨p.position.line + lines, p.position.column⟩, p.offset + bytes⟩

section Below

variable (lines bytes : Nat)

/-- To move down by some lines and to walk along a text commute. -/
theorem Position.after_below (p : Position) (s : List Char) :
    (⟨p.line + lines, p.column⟩ : Position).after s =
      ⟨(p.after s).line + lines, (p.after s).column⟩ := by
  rw [after_eq, after_eq]
  by_cases hn : '\n' ∈ s
  · rw [if_pos hn, if_pos hn]
    simp only [mk.injEq, and_true]
    omega
  · rw [if_neg hn, if_neg hn]

theorem Place.after_below (p : Place) (s : List Char) :
    (p.below lines bytes).after s = (p.after s).below lines bytes := by
  unfold Place.after Place.below
  simp only [Position.after_below, mk.injEq, true_and]
  omega

theorem Place.span_below (p : Place) (s : List Char) :
    (p.below lines bytes).span s = (Relocation.below lines bytes).span (p.span s) := by
  unfold Place.span
  rw [Place.after_below]
  rfl

theorem Token.read_below (p : Place) (kind : Kind) (value : List Char) :
    Token.read (p.below lines bytes) kind value =
      (Relocation.below lines bytes).token (Token.read p kind value) := by
  unfold Token.read
  rw [Place.span_below]
  rfl

theorem tokens_below (p : Place) (fs : List Front) :
    tokens (p.below lines bytes) fs =
      (tokens p fs).map (Relocation.below lines bytes).token := by
  induction fs generalizing p with
  | nil => rfl
  | cons f fs ih =>
    cases f with
    | lexeme kind value =>
      rw [tokens, tokens, List.map_cons, Token.read_below, Place.after_below, ih]
    | _ =>
      rw [tokens_cons, tokens_cons, Place.after_below, ih]
      rfl

/-- A text is read further down as it is read here. -/
theorem tokenizeAt_below (p : Place) (s : List Char) :
    tokenizeAt (p.below lines bytes) s =
      (Relocation.below lines bytes).answer (List.map (Relocation.below lines bytes).token)
        (tokenizeAt p s) := by
  obtain ⟨fs, r, rfl, hfs, hr⟩ := exists_readable s
  rw [tokenizeAt_texts hfs, tokenizeAt_texts hfs, tokens_below, Place.after_below]
  rcases hr with rfl | hr
  · rw [tokenizeAt_nil, tokenizeAt_nil]
    simp only [Except.map, Relocation.answer, List.map_append, List.map_cons, List.map_nil]
    rfl
  · rcases hr.exists_problem with ⟨literal, hp⟩ | hp
    · rw [(hp _).1, (hp _).1]
      simp only [Except.map, Relocation.answer, Problem.openLiteral, Place.span_below]
      rfl
    · rw [(hp _).1, (hp _).1]
      simp only [Except.map, Relocation.answer, Problem.openComment, Place.span_below]
      rfl

end Below

/-! ## The line end between two texts -/

/-- A line end stops everything. -/
theorem Front.stops_newline (f : Front) : f.Stops ['\n'] := by
  unfold Stops
  split
  · rfl
  · rfl
  · exact ⟨rfl, nofun⟩
  · rfl
  · rfl
  · exact ⟨rfl, rfl⟩
  · rfl
  · trivial

/-- Behind a text and a line end one is at the beginning of a line, so many lines and bytes further
down. -/
theorem Place.after_newline (s : List Char) :
    (Place.start.after s).after ['\n'] =
      Place.start.below (s.count '\n' + 1) (byteLength s + 1) := by
  unfold Place.after
  rw [show Place.start.position = .start from rfl, Position.after_start]
  simp [Position.step, Place.below, Place.start, Position.start, Char.utf8Size]
  omega

/-- What follows a line end is read from there on, as if nothing stood before it. -/
theorem tokenizeAt_append_newline {fs : List Front} (hfs : Readable fs []) (s : List Char) :
    tokenizeAt .start (texts fs ++ '\n' :: s) =
      (tokenizeAt (Place.start.below ((texts fs).count '\n' + 1) (byteLength (texts fs) + 1)) s).map
        (tokens .start fs ++ ·) := by
  have hread : Readable fs ('\n' :: s) :=
    hfs.before_cons (by decide) (by decide) fun f _ => f.stops_newline
  rw [tokenizeAt_texts hread, tokenizeAt_of_trivia (read_stray (by decide) s), Place.after_newline]

/-! ## Declarations after a document -/

/-- The tokens of trees are read first, whatever follows them. -/
theorem Phrase.declarations_append (stop : Token) (trees : List Tree) (ts : List Token) :
    declarations stop (trees.flatMap Tree.tokens ++ ts) =
      (declarations stop ts).map (trees.map Tree.decl ++ ·) := by
  induction trees with
  | nil =>
    cases h : declarations stop ts <;> simp [h, Except.map]
  | cons tree trees ih =>
    obtain ⟨t, us, heq, hd⟩ := declaration_complete stop tree (trees.flatMap Tree.tokens ++ ts)
    rw [List.flatMap_cons, List.append_assoc, heq, declarations_of_declaration hd, ih]
    cases declarations stop ts <;> rfl

/-- Declarations may come before a document, which then is parsed as it is alone. -/
theorem Document.ofTokens_append {trees : List Tree} {ts : List Token}
    (htrees : ∀ t ∈ trees.flatMap Tree.tokens, t.isEof = false) (h : ∃ t ∈ ts, t.isEof = true) :
    Document.ofTokens (trees.flatMap Tree.tokens ++ ts) =
      (Document.ofTokens ts).map fun d => ⟨trees.map Tree.decl ++ d.decls⟩ := by
  obtain ⟨us, e, vs, rfl, hus, he⟩ := TokenList.exists_append h
  have hall : ∀ t ∈ trees.flatMap Tree.tokens ++ us, t.isEof = false :=
    List.forall_mem_append.2 ⟨htrees, hus⟩
  -- both lists end at the end that stands in `ts`
  unfold Document.ofTokens
  rw [← List.append_assoc, TokenList.ofTokens_append hall he, TokenList.ofTokens_append hus he]
  simp only
  rw [Phrase.declarations_append]
  cases Phrase.declarations e us <;> rfl

/-! ## Both texts -/

/-- Without the end, the tokens of a text are those of its fronts. -/
theorem filter_tokens {fs : List Front} {r : List Char} (h : Readable fs r) (p q : Place) :
    (tokens p fs ++ [Token.eof q]).filter (fun t => t.kind ≠ .eof) = tokens p fs := by
  rw [List.filter_append]
  have hall : (tokens p fs).filter (fun t => t.kind ≠ .eof) = tokens p fs := by
    apply List.filter_eq_self.2
    intro t ht
    simpa [Token.isEof] using not_isEof_of_mem_tokens h ht
  rw [hall]
  simp [Token.eof]

section Newline

variable {s₁ s₂ : String} {fs : List Front} (htext : s₁.toList = texts fs) (hfs : Readable fs [])
include htext hfs

/-- The tokens of two texts with a line end between them: those of the first, and those of the
second relocated. -/
theorem tokenize_append_newline :
    let m := Relocation.below (s₁.toList.count '\n' + 1) (byteLength s₁.toList + 1)
    tokenize (s₁ ++ "\n" ++ s₂) =
      m.answer (fun ts₂ => tokens .start fs ++ ts₂.map m.token) (tokenize s₂) := by
  have hchars : (s₁ ++ "\n" ++ s₂).toList = texts fs ++ '\n' :: s₂.toList := by
    simp [htext]
  rw [tokenize, hchars, tokenizeAt_append_newline hfs, tokenizeAt_below, tokenize, htext]
  cases tokenizeAt .start s₂.toList <;> rfl

/-- The document of two texts with a line end between them: the declarations of the first, and what
the second comes to, relocated. -/
theorem Document.parse_append_newline_of_trees {trees : List Tree}
    (htrees : trees.flatMap Tree.tokens = tokens .start fs) :
    let m := Relocation.below (s₁.toList.count '\n' + 1) (byteLength s₁.toList + 1)
    Document.parse (s₁ ++ "\n" ++ s₂) =
      m.answer (fun d₂ => ⟨trees.map Tree.decl ++ d₂.decls.map m.decl⟩) (Document.parse s₂) := by
  intro m
  have heof : ∀ t ∈ trees.flatMap Tree.tokens, t.isEof = false := by
    intro t ht
    rw [htrees] at ht
    exact not_isEof_of_mem_tokens hfs ht
  rw [Document.parse, tokenize_append_newline htext hfs, Document.parse, ← htrees]
  cases hs₂ : tokenize s₂ with
  | error e => rfl
  | ok ts₂ =>
    have hend := isEof_of_tokenize hs₂
    have hmoved : ∃ t ∈ ts₂.map m.token, t.isEof = true := by
      obtain ⟨t, ht, heof⟩ := hend
      exact ⟨m.token t, List.mem_map_of_mem ht, heof⟩
    calc Document.ofTokens (trees.flatMap Tree.tokens ++ ts₂.map m.token)
      _ = (Document.ofTokens (ts₂.map m.token)).map fun d => ⟨trees.map Tree.decl ++ d.decls⟩ :=
        Document.ofTokens_append heof hmoved
      _ = (m.answer m.document (Document.ofTokens ts₂)).map
          fun d => ⟨trees.map Tree.decl ++ d.decls⟩ := by
        rw [Document.ofTokens_relocate m hend]
      _ = m.answer (fun d => ⟨trees.map Tree.decl ++ d.decls.map m.decl⟩)
          (Document.ofTokens ts₂) := by
        cases Document.ofTokens ts₂ <;> rfl

end Newline

/-- Below a text that is read to its end, another is read as it is alone, and below a document it is
parsed so; both are moved down by the lines of the first text and on by its bytes. -/
theorem Document.parse_append_newline {s₁ s₂ : String} {ts₁ : List Token}
    (h : tokenize s₁ = .ok ts₁) :
    let m := Relocation.below (s₁.toList.count '\n' + 1) (byteLength s₁.toList + 1)
    tokenize (s₁ ++ "\n" ++ s₂) =
        m.answer (fun ts₂ => ts₁.filter (fun t => t.kind ≠ .eof) ++ ts₂.map m.token)
          (tokenize s₂) ∧
      ∀ d₁, Document.parse s₁ = .ok d₁ →
        Document.parse (s₁ ++ "\n" ++ s₂) =
          m.answer (fun d₂ => ⟨d₁.decls ++ d₂.decls.map m.decl⟩) (Document.parse s₂) := by
  obtain ⟨fs, htext, hfs, rfl⟩ := tokenizeAt_eq_ok_iff.1 h
  refine ⟨?_, fun d₁ hd₁ => ?_⟩
  · rw [filter_tokens hfs]
    exact tokenize_append_newline htext hfs
  · obtain ⟨ts, hts, hdoc⟩ := Phrase.ok_of_bind hd₁
    rw [h] at hts
    cases hts
    obtain ⟨trees, htrees, rfl⟩ := Document.ofTokens_eq_ok_iff.1 hdoc
    rw [takeWhile_tokens hfs] at htrees
    exact parse_append_newline_of_trees htext hfs htrees

/-- The first text ends in a comment, the second does not parse. -/
theorem Document.parse_append_newline_comment :
    Document.parse ("Table t\x7b\x7d//é" ++ "\n" ++ "Enum e\x7b7") =
      .error (.unexpected Expected.enumValue.text "integer literal ('7')" ⟨2, 8⟩ ⟨21, 22⟩) := by
  have h : tokenize "Table t\x7b\x7d//é" = .ok
      [⟨.keyword .table, "Table", ⟨1, 1⟩, ⟨0, 5⟩⟩, ⟨.literal .ident, "t", ⟨1, 7⟩, ⟨6, 7⟩⟩,
        ⟨.delimiter .lBrace, "\x7b", ⟨1, 8⟩, ⟨7, 8⟩⟩, ⟨.delimiter .rBrace, "\x7d", ⟨1, 9⟩, ⟨8, 9⟩⟩,
        ⟨.eof, "", ⟨1, 13⟩, ⟨13, 13⟩⟩] := by
    decide +kernel
  have hd : Document.parse "Table t\x7b\x7d//é" = .ok ⟨[.table "t" none [] ⟨1, 1⟩]⟩ := by
    decide +kernel
  have he : Document.parse "Enum e\x7b7" =
      .error (.unexpected Expected.enumValue.text "integer literal ('7')" ⟨1, 8⟩ ⟨7, 8⟩) := by
    decide +kernel
  rw [(Document.parse_append_newline h).2 _ hd, he]
  decide

end Dbml
