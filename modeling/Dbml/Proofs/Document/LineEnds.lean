import Dbml.Proofs.Document.Relocation
import Dbml.Proofs.Document.WellFormed
import Dbml.Proofs.Token.LineEnds

/-!
# Documents with line ends of two characters

A document and its text with a carriage return before every line feed parse alike. The tokens are of
the same kinds at the same positions, so they have the same derivations; and a derivation declares
the same names, since no name has a line feed in it. What changes are the strings: database types,
and the quoted values of enumerations (`Document.withCrlf`, `Document.parse_withCrlf`).
-/

namespace Dbml

open Front

/-! ## Derivations of changed tokens -/

section Map

variable (f : Token → Token) (hf : ∀ t, (f t).kind = t.kind)

/-- The terminal with its token changed. -/
def Terminal.map {k : Kind} (t : Terminal k) : Terminal k := ⟨f t.token, (hf t.token).trans t.kind_token⟩

@[simp] theorem Terminal.token_map {k : Kind} (t : Terminal k) : (t.map f hf).token = f t.token := rfl

namespace Tree

def Setting.map (s : Setting) : Setting :=
  ⟨s.keyword.map f hf, s.colon.map f hf, ⟨f s.value.1, by rw [hf]; exact s.value.2⟩⟩

def Column.map (c : Column) : Column := ⟨c.name.map f hf, c.type.map f hf⟩

def Alias.map (a : Alias) : Alias := ⟨a.keyword.map f hf, a.name.map f hf⟩

def mapValue (v : ValueTerminal) : ValueTerminal := ⟨f v.1, by rw [hf]; exact v.2⟩

/-- The derivation with its tokens changed in all but their kinds. -/
def map : Tree → Tree
  | project k n o ss c =>
    .project (k.map f hf) (n.map f hf) (o.map f hf) (ss.map (Setting.map f hf)) (c.map f hf)
  | table k n a o cs c =>
    .table (k.map f hf) (n.map f hf) (a.map (Alias.map f hf)) (o.map f hf)
      (cs.map (Column.map f hf)) (c.map f hf)
  | enum k n o vs c =>
    .enum (k.map f hf) (n.map f hf) (o.map f hf) (vs.map (mapValue f hf)) (c.map f hf)

@[simp] theorem Setting.tokens_map (s : Setting) : (s.map f hf).tokens = s.tokens.map f := rfl

@[simp] theorem Column.tokens_map (c : Column) : (c.map f hf).tokens = c.tokens.map f := rfl

@[simp] theorem Alias.tokens_map (a : Alias) : (a.map f hf).tokens = a.tokens.map f := rfl

theorem val_comp_mapValue : Subtype.val ∘ mapValue f hf = f ∘ Subtype.val := rfl

theorem tokens_map (tree : Tree) : (tree.map f hf).tokens = tree.tokens.map f := by
  cases tree with
  | project k n o ss c => simp [map, tokens, List.flatMap_map, List.map_flatMap]
  | table k n a o cs c =>
    cases a with
    | none => simp [map, tokens, List.flatMap_map, List.map_flatMap]
    | some a => simp [map, tokens, List.flatMap_map, List.map_flatMap]
  | enum k n o vs c =>
    simp only [map, tokens, List.map_map, val_comp_mapValue, List.map_cons, List.map_append,
      Terminal.token_map, List.map_nil]

end Tree

end Map

/-! ## What is declared -/

/-- The declaration with a carriage return before every line feed in its strings. -/
def Decl.withCrlf : Decl → Decl
  | project n d p => .project n (d.map Dbml.withCrlf) p
  | table n a cs p => .table n a cs p
  | enum n vs p => .enum n (vs.map Dbml.withCrlf) p

def Document.withCrlf (d : Document) : Document := ⟨d.decls.map Decl.withCrlf⟩

/-- The token with a carriage return before every line feed in its value, wherever it is from. -/
def Token.withCrlf (t : Token) : Token := ⟨t.kind, Dbml.withCrlf t.value, t.position, ⟨0, 0⟩⟩

theorem Token.kind_withCrlf (t : Token) : t.withCrlf.kind = t.kind := rfl

theorem withCrlf_of_isName {w : String} (h : IsName w) : withCrlf w = w := by
  refine withCrlf_of_not_mem fun hn => ?_
  exact absurd (h.2.1 _ hn) (by decide)

namespace Tree

/-- The derivation with a carriage return before every line feed in its tokens. -/
def withCrlf (tree : Tree) : Tree := tree.map Token.withCrlf Token.kind_withCrlf

theorem tokens_withCrlf (tree : Tree) : tree.withCrlf.tokens = tree.tokens.map Token.withCrlf :=
  tree.tokens_map Token.withCrlf Token.kind_withCrlf

theorem withCrlf_name {n : Terminal (.literal .ident)} (h : n.token.Lexical) :
    Dbml.withCrlf n.token.value = n.token.value :=
  withCrlf_of_isName (isName_of_lexical h n.kind_token)

/-- Columns are made of names, so they stay as they are. -/
theorem Column.decl_withCrlf {c : Column} (h : ∀ t ∈ c.tokens, t.Lexical) :
    (c.map Token.withCrlf Token.kind_withCrlf).decl = c.decl := by
  have hname := withCrlf_name (h c.name.token (by simp [Column.tokens]))
  have htype := withCrlf_name (h c.type.token (by simp [Column.tokens]))
  show Decl.Column.mk (Dbml.withCrlf c.name.token.value) (Dbml.withCrlf c.type.token.value) _ = _
  rw [hname, htype]
  rfl

/-- What is kept of a value has the line ends of the value. -/
theorem valueText_withCrlf (v : ValueTerminal) :
    valueText (mapValue Token.withCrlf Token.kind_withCrlf v) = Dbml.withCrlf (valueText v) := by
  have hquote : Dbml.withCrlf "\"" = "\"" := withCrlf_of_not_mem (by decide)
  unfold valueText mapValue
  by_cases h : v.1.kind = .literal .doubleQuoted
  · have h' : v.1.withCrlf.kind = .literal .doubleQuoted := h
    rw [if_pos h, if_pos h', withCrlf_append, withCrlf_append, hquote]
    rfl
  · have h' : ¬ v.1.withCrlf.kind = .literal .doubleQuoted := h
    rw [if_neg h, if_neg h']
    rfl

/-- Names have no line feed in them, so only strings change. -/
theorem decl_withCrlf {tree : Tree} (h : ∀ t ∈ tree.tokens, t.Lexical) :
    tree.withCrlf.decl = tree.decl.withCrlf := by
  cases tree with
  | project k n o ss c =>
    simp only [tokens, List.forall_mem_cons] at h
    have hss : databaseType (ss.map (Setting.map Token.withCrlf Token.kind_withCrlf)) =
        (databaseType ss).map Dbml.withCrlf := by
      rw [databaseType, databaseType, List.getLast?_map, Option.map_map, Option.map_map]
      rfl
    show Decl.project (Dbml.withCrlf n.token.value) (databaseType (ss.map _)) _ = _
    rw [withCrlf_name h.2.1, hss]
    rfl
  | table k n a o cs c =>
    simp only [tokens, List.forall_mem_cons, List.forall_mem_append] at h
    obtain ⟨-, hn, ha, -, hcs, -⟩ := h
    have hcolumns : (cs.map (Column.map Token.withCrlf Token.kind_withCrlf)).map Column.decl =
        cs.map Column.decl := by
      rw [List.map_map]
      refine List.map_congr_left fun c hc => Column.decl_withCrlf fun t ht => ?_
      exact hcs t (List.mem_flatMap.2 ⟨c, hc, ht⟩)
    have halias : (a.map (Alias.map Token.withCrlf Token.kind_withCrlf)).map
        (fun a => a.name.token.value) = a.map fun a => a.name.token.value := by
      cases a with
      | none => rfl
      | some a => exact congrArg some (withCrlf_name (ha a.name.token (by simp [Alias.tokens])))
    show Decl.table (Dbml.withCrlf n.token.value) _ ((cs.map _).map Column.decl) _ = _
    rw [withCrlf_name hn, hcolumns, halias]
    rfl
  | enum k n o vs c =>
    simp only [tokens, List.forall_mem_cons] at h
    have hvs : (vs.map (mapValue Token.withCrlf Token.kind_withCrlf)).map valueText =
        (vs.map valueText).map Dbml.withCrlf := by
      simp only [List.map_map, Function.comp_def, valueText_withCrlf]
    show Decl.enum (Dbml.withCrlf n.token.value) ((vs.map _).map valueText) _ = _
    rw [withCrlf_name h.2.1, hvs]
    rfl

end Tree

/-! ## Documents -/

/-- Nothing is left of the spans. -/
def Relocation.unspanned : Relocation := ⟨id, fun _ => ⟨0, 0⟩⟩

theorem Relocation.document_unspanned (d : Document) : unspanned.document d = d := by
  have hcolumn : unspanned.column = id := rfl
  have hdecl : unspanned.decl = id := by
    funext x
    cases x with
    | table n a cs p =>
      show Decl.table n a (cs.map unspanned.column) p = _
      rw [hcolumn, List.map_id]
      rfl
    | project n d p => rfl
    | enum n vs p => rfl
  rw [document, hdecl, List.map_id]

/-- Tokens that are alike are the same but for spans and line ends. -/
theorem map_unspanned_of_alike {ts ts' : List Token} (h : List.Forall₂ Token.Alike ts ts') :
    ts'.map Relocation.unspanned.token = ts.map Token.withCrlf := by
  induction h with
  | nil => rfl
  | cons ht _ ih =>
    rw [List.map_cons, List.map_cons, ih, Relocation.token, ht.kind, ht.value, ht.position]
    rfl

theorem kinds_of_alike {ts ts' : List Token} (h : List.Forall₂ Token.Alike ts ts') :
    ts'.map Token.kind = ts.map Token.kind := by
  induction h with
  | nil => rfl
  | cons ht _ ih => rw [List.map_cons, List.map_cons, ih, ht.kind]

namespace Document

/-- Tokens of the same kinds are documents or are not. -/
theorem exists_ofTokens_of_kinds {ts ts' : List Token}
    (hkinds : ts'.map Token.kind = ts.map Token.kind) {d' : Document}
    (h : Document.ofTokens ts' = .ok d') : ∃ d, Document.ofTokens ts = .ok d := by
  have hbody (us : List Token) : (us.takeWhile (!·.isEof)).map Token.kind =
      (us.map Token.kind).takeWhile fun k => !(k == .eof) := by
    rw [List.takeWhile_map]
    rfl
  obtain ⟨trees, htrees, -⟩ := ofTokens_eq_ok_iff.1 h
  have hderives : Grammar.Derives Grammar.document (ts.takeWhile (!·.isEof)) := by
    rw [Grammar.Derives, hbody, ← hkinds, ← hbody, ← htrees]
    exact Grammar.derives_document.2 ⟨trees, rfl⟩
  obtain ⟨trees', htrees'⟩ := Grammar.derives_document.1 hderives
  exact ⟨_, ofTokens_eq_ok_iff.2 ⟨trees', htrees'.symm, rfl⟩⟩

/-- Tokens that are alike are parsed to the same document, with its line ends rewritten. -/
theorem ofTokens_of_alike {ts ts' : List Token} (halike : List.Forall₂ Token.Alike ts ts')
    (hlexical : ∀ t ∈ ts.takeWhile (!·.isEof), t.Lexical) (hend : ∃ t ∈ ts', t.isEof = true)
    {d : Document} (h : Document.ofTokens ts = .ok d) : Document.ofTokens ts' = .ok d.withCrlf := by
  obtain ⟨trees, htrees, rfl⟩ := ofTokens_eq_ok_iff.1 h
  have hchanged : Document.ofTokens (ts.map Token.withCrlf) =
      .ok ⟨(trees.map Tree.withCrlf).map Tree.decl⟩ := by
    refine ofTokens_eq_ok_iff.2 ⟨trees.map Tree.withCrlf, ?_, rfl⟩
    simp only [List.flatMap_map, List.takeWhile_map, Tree.tokens_withCrlf]
    rw [← List.map_flatMap, htrees]
    rfl
  have hdecls : (trees.map Tree.withCrlf).map Tree.decl = (trees.map Tree.decl).map Decl.withCrlf := by
    rw [List.map_map, List.map_map]
    refine List.map_congr_left fun tree htree => Tree.decl_withCrlf fun t ht => hlexical t ?_
    rw [← htrees]
    exact List.mem_flatMap.2 ⟨tree, htree, ht⟩
  rw [← map_unspanned_of_alike halike, ofTokens_relocate _ hend, hdecls] at hchanged
  cases hd : Document.ofTokens ts' with
  | error e =>
    rw [hd] at hchanged
    cases hchanged
  | ok d' =>
    rw [hd] at hchanged
    have hd' := Except.ok.inj hchanged
    rw [Relocation.document_unspanned] at hd'
    exact congrArg Except.ok hd'

/-- Whichever line ends a text has, it is read into the same kinds of tokens at the same positions,
or has the same problem at the same position; it is a document with the one if and only if it is
with the other, and the two documents differ in the line ends of their strings only. -/
theorem parse_withCrlf (source : String) :
    ReadAlike (tokenize source) (tokenize (Dbml.withCrlf source)) ∧
      ∀ d', Document.parse (Dbml.withCrlf source) = .ok d' ↔
        ∃ d, Document.parse source = .ok d ∧ d' = d.withCrlf := by
  have halike := readAlike_crlf source
  refine ⟨halike, ?_⟩
  unfold Document.parse
  cases hts : tokenize source with
  | error e =>
    rw [hts] at halike
    cases hts' : tokenize (Dbml.withCrlf source) with
    | error e' =>
      intro d'
      constructor
      · intro h
        cases h
      · rintro ⟨d, h, -⟩
        cases h
    | ok ts' =>
      rw [hts'] at halike
      cases halike
  | ok ts =>
    rw [hts] at halike
    cases hts' : tokenize (Dbml.withCrlf source) with
    | error e' =>
      rw [hts'] at halike
      cases halike
    | ok ts' =>
      rw [hts'] at halike
      have hlexical : ∀ t ∈ ts.takeWhile (!·.isEof), t.Lexical := by
        obtain ⟨fs, -, hfs, rfl⟩ := tokenizeAt_eq_ok_iff.1 hts
        rw [takeWhile_tokens hfs]
        exact fun t ht => lexical_of_mem_tokens hfs ht
      have hforward {d : Document} (hd : Document.ofTokens ts = .ok d) :
          Document.ofTokens ts' = .ok d.withCrlf :=
        ofTokens_of_alike halike hlexical (isEof_of_tokenize hts') hd
      intro d'
      constructor
      · intro h
        obtain ⟨d, hd⟩ := exists_ofTokens_of_kinds (kinds_of_alike halike) h
        exact ⟨d, hd, Except.ok.inj (h.symm.trans (hforward hd))⟩
      · rintro ⟨d, hd, rfl⟩
        exact hforward hd

-- the comment takes its carriage return with it, the backslash escapes the one after it
example : Document.parse (Dbml.withCrlf "Enum e\x7b//a\n\"x\\\ny\"\x7d") =
    .ok ⟨[.enum "e" ["\"x\\\r\ny\""] ⟨1, 1⟩]⟩ := by
  decide +kernel

end Document

end Dbml
