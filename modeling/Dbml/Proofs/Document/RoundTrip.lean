import Dbml.Proofs.Document.Layout

/-!
# Printing and parsing again

A parsed document is printed into a text that spells the same declarations, at other places
(`Document.parse_print`). The proof does not follow the parser over the printed text: that text is a
layout, so its tokens are those of the derivations that were laid out, up to their places. They
derive by their kinds, and since tokens have one derivation at most, what they derive is what was
printed. So it is for several printed texts one after another (`Document.parse_join_print`).
-/

namespace Dbml

open Front

/-! ## Forgetting places -/

/-- The column without its position. -/
def Decl.Column.unplaced (c : Decl.Column) : Decl.Column := { c with position := .start }

/-- The declaration without its position and those of its columns. -/
def Decl.unplaced : Decl → Decl
  | project n d _ => .project n d .start
  | table n a cs _ => .table n a (cs.map Column.unplaced) .start
  | enum n vs _ => .enum n vs .start

/-- The document with no position in it. -/
def Document.unplaced (d : Document) : Document := ⟨d.decls.map Decl.unplaced⟩

/-- Places are not printed. -/
theorem Decl.print_unplaced (d : Decl) : d.unplaced.print = d.print := by
  cases d with
  | project n d p =>
    cases d with
    | none => rfl
    | some v => rfl
  | table n a cs p =>
    have hlines : (table n a cs p).unplaced.bodyLines = (table n a cs p).bodyLines := by
      simp [unplaced, bodyLines, Column.unplaced]
    rw [print, hlines]
    cases a with
    | none => rfl
    | some a => rfl
  | enum n vs p => rfl

/-- Positions are not printed. -/
theorem Document.print_unplaced (d : Document) : d.unplaced.print = d.print := by
  simp [print, unplaced, Function.comp_def, Decl.print_unplaced]

/-- The terminal without its place. -/
def Terminal.unplaced {k : Kind} (t : Terminal k) : Terminal k := ⟨t.token.unplaced, t.kind_token⟩

@[simp] theorem Terminal.token_unplaced {k : Kind} (t : Terminal k) :
    t.unplaced.token = t.token.unplaced := rfl

@[simp] theorem Token.kind_unplaced (t : Token) : t.unplaced.kind = t.kind := rfl

@[simp] theorem Token.value_unplaced (t : Token) : t.unplaced.value = t.value := rfl

@[simp] theorem Token.position_unplaced (t : Token) : t.unplaced.position = .start := rfl

namespace Tree

def Setting.unplaced (s : Setting) : Setting :=
  ⟨s.keyword.unplaced, s.colon.unplaced, ⟨s.value.1.unplaced, s.value.2⟩⟩

def Column.unplaced (c : Column) : Column := ⟨c.name.unplaced, c.type.unplaced⟩

def Alias.unplaced (a : Alias) : Alias := ⟨a.keyword.unplaced, a.name.unplaced⟩

def unplacedValue (v : ValueTerminal) : ValueTerminal := ⟨v.1.unplaced, v.2⟩

/-- The derivation with no place in it. -/
def unplaced : Tree → Tree
  | project k n o ss c =>
    .project k.unplaced n.unplaced o.unplaced (ss.map Setting.unplaced) c.unplaced
  | table k n a o cs c =>
    .table k.unplaced n.unplaced (a.map Alias.unplaced) o.unplaced (cs.map Column.unplaced)
      c.unplaced
  | enum k n o vs c => .enum k.unplaced n.unplaced o.unplaced (vs.map unplacedValue) c.unplaced

@[simp] theorem Setting.tokens_unplaced (s : Setting) :
    s.unplaced.tokens = s.tokens.map Token.unplaced := rfl

@[simp] theorem Column.tokens_unplaced (c : Column) :
    c.unplaced.tokens = c.tokens.map Token.unplaced := rfl

@[simp] theorem Alias.tokens_unplaced (a : Alias) :
    a.unplaced.tokens = a.tokens.map Token.unplaced := rfl

theorem val_comp_unplacedValue : Subtype.val ∘ unplacedValue = Token.unplaced ∘ Subtype.val := rfl

@[simp] theorem Column.decl_unplaced (c : Column) : c.unplaced.decl = c.decl.unplaced := rfl

theorem valueText_comp_unplacedValue : valueText ∘ unplacedValue = valueText := rfl

theorem tokens_unplaced (tree : Tree) : tree.unplaced.tokens = tree.tokens.map Token.unplaced := by
  cases tree with
  | project k n o ss c => simp [unplaced, tokens, List.flatMap_map, List.map_flatMap]
  | table k n a o cs c =>
    cases a with
    | none => simp [unplaced, tokens, List.flatMap_map, List.map_flatMap]
    | some a => simp [unplaced, tokens, List.flatMap_map, List.map_flatMap]
  | enum k n o vs c =>
    simp only [unplaced, tokens, List.map_map, val_comp_unplacedValue, List.map_cons,
      List.map_append, Terminal.token_unplaced, List.map_nil]

theorem decl_unplaced (tree : Tree) : tree.unplaced.decl = tree.decl.unplaced := by
  cases tree with
  | project k n o ss c =>
    have hss : databaseType (ss.map Setting.unplaced) = databaseType ss := by
      rw [databaseType, List.getLast?_map, Option.map_map]
      rfl
    simp [unplaced, decl, Decl.unplaced, hss]
  | table k n a o cs c =>
    cases a with
    | none => simp [unplaced, decl, Decl.unplaced]
    | some a => simp [unplaced, decl, Decl.unplaced, Alias.unplaced]
  | enum k n o vs c =>
    simp only [unplaced, decl, Decl.unplaced, List.map_map, valueText_comp_unplacedValue,
      Terminal.token_unplaced, Token.value_unplaced, Token.position_unplaced]

/-- Derivations of the same tokens, up to their places, are the same up to their places. -/
theorem map_unplaced_inj {trees trees' : List Tree}
    (h : (trees.flatMap tokens).map Token.unplaced = (trees'.flatMap tokens).map Token.unplaced) :
    trees.map unplaced = trees'.map unplaced := by
  apply flatMap_tokens_inj
  simpa only [List.flatMap_map, tokens_unplaced, List.map_flatMap] using h

end Tree

/-! ## What is printed is what is read -/

/-- The token that is written for a type has the type as its value. -/
theorem value_typeTerminal (v : String) : (typeTerminal v).1.value = v := by
  unfold typeTerminal
  split <;> rfl

/-- The token that is written for a value of an enum is read back as this value. -/
theorem valueText_valueTerminal {v : String} (h : IsEnumValue v) :
    Tree.valueText (valueTerminal v) = v := by
  rcases h with h | ⟨body, -, rfl⟩
  · rw [valueTerminal_name h]
    rfl
  · rw [valueTerminal_quoted]
    rfl

/-- The derivation that is printed declares what it was made from. -/
theorem Decl.decl_tree {d : Decl} (h : d.WellFormed) : d.tree.decl = d.unplaced := by
  cases d with
  | project n d p =>
    cases d with
    | none => rfl
    | some v =>
      show Decl.project n (some (typeTerminal v).1.value) .start = _
      rw [value_typeTerminal]
      rfl
  | table n a cs p =>
    cases a with
    | none => simp only [tree, Tree.decl, List.map_map]; rfl
    | some a => simp only [tree, Tree.decl, List.map_map]; rfl
  | enum n vs p =>
    have hvs : (vs.map valueTerminal).map Tree.valueText = vs := by
      rw [List.map_map]
      refine (List.map_congr_left fun v hv => ?_).trans (List.map_id vs)
      exact valueText_valueTerminal (h.2 v hv)
    show Decl.enum n ((vs.map valueTerminal).map Tree.valueText) .start = _
    rw [hvs]
    rfl

theorem Decl.unplaced_unplaced (d : Decl) : d.unplaced.unplaced = d.unplaced := by
  cases d with
  | table n a cs p => simp [unplaced, Column.unplaced]
  | project n d p => rfl
  | enum n vs p => rfl

namespace Document

/-- A text whose tokens are those of derivations, up to their places, spells what these declare. -/
theorem parse_of_fronts {source : String} {fs : List Front} {trees : List Tree}
    (htext : source.toList = texts fs) (hread : Readable fs [])
    (hfs : fs.filterMap Front.unplaced? = (trees.flatMap Tree.tokens).map Token.unplaced) :
    ∃ d, Document.parse source = .ok d ∧
      d.unplaced = (Document.mk (trees.map Tree.decl)).unplaced := by
  have hplace : (tokens .start fs).map Token.unplaced =
      (trees.flatMap Tree.tokens).map Token.unplaced := by
    rw [map_unplaced_tokens, hfs]
  -- The tokens of the text derive since the others do and a place has no part in it.
  have hkinds : (tokens .start fs).map Token.kind = (trees.flatMap Tree.tokens).map Token.kind := by
    have := congrArg (List.map Token.kind) hplace
    simpa only [List.map_map, Function.comp_def, Token.kind_unplaced] using this
  have hderives : Grammar.Derives Grammar.document (tokens .start fs) := by
    rw [Grammar.Derives, hkinds]
    exact Grammar.derives_document.2 ⟨trees, rfl⟩
  obtain ⟨trees', htrees⟩ := Grammar.derives_document.1 hderives
  refine ⟨⟨trees'.map Tree.decl⟩,
    parse_eq_ok_iff.2 ⟨fs, trees', htext, hread, htrees.symm, rfl⟩, ?_⟩
  rw [htrees] at hplace
  have hsame := congrArg (List.map Tree.decl) (Tree.map_unplaced_inj hplace)
  simp only [List.map_map, Function.comp_def, Tree.decl_unplaced] at hsame
  simpa only [unplaced, List.map_map, Function.comp_def, mk.injEq] using hsame

/-- The derivations that declarations are printed from declare them. -/
theorem unplaced_trees {d : Document} (h : ∀ x ∈ d.decls, x.WellFormed) :
    (Document.mk ((d.decls.map Decl.tree).map Tree.decl)).unplaced = d.unplaced := by
  unfold unplaced
  rw [List.map_map, List.map_map]
  refine congrArg Document.mk (List.map_congr_left fun x hx => ?_)
  rw [Function.comp_apply, Function.comp_apply, Decl.decl_tree (h x hx), Decl.unplaced_unplaced]

theorem standing_trees {d : Document} (h : ∀ x ∈ d.decls, x.WellFormed) :
    Standing (layoutAll (d.decls.map Decl.tree)) := by
  apply standing_layoutAll
  intro tree htree
  obtain ⟨x, hx, rfl⟩ := List.mem_map.1 htree
  exact Decl.lexical_tree (h x hx)

/-- The canonical texts of documents that can be written, one after another with nothing between
them, spell the declarations of all of them. -/
theorem parse_join_print {docs : List Document} (h : ∀ d ∈ docs, ∀ x ∈ d.decls, x.WellFormed) :
    ∃ d, Document.parse (String.join (docs.map print)) = .ok d ∧
      d.unplaced = (Document.mk (docs.flatMap decls)).unplaced := by
  let trees (d : Document) := d.decls.map Decl.tree
  have htext : (String.join (docs.map print)).toList = texts (docs.flatMap (layoutAll ∘ trees)) :=
    (texts_flatMap fun d hd => texts_layout (h d hd)).symm
  have hstanding : Standing (docs.flatMap (layoutAll ∘ trees)) :=
    Standing.flatMap fun d hd => standing_trees (h d hd)
  have hfronts : (docs.flatMap (layoutAll ∘ trees)).filterMap Front.unplaced? =
      ((docs.flatMap trees).flatMap Tree.tokens).map Token.unplaced := by
    simp only [List.filterMap_flatMap, Function.comp_apply, filterMap_layoutAll, List.map_flatMap,
      List.flatMap_assoc]
  obtain ⟨d, hparse, hsame⟩ := parse_of_fronts htext (hstanding []) hfronts
  refine ⟨d, hparse, hsame.trans ?_⟩
  simp only [unplaced, List.map_flatMap, mk.injEq]
  exact List.flatMap_congr fun d hd => congrArg decls (unplaced_trees (h d hd))

/-- The canonical text of declarations that can be written spells them. -/
theorem parse_print_of_wellFormed {d : Document} (h : ∀ x ∈ d.decls, x.WellFormed) :
    ∃ d₂, Document.parse d.print = .ok d₂ ∧ d₂.unplaced = d.unplaced := by
  have hall : ∀ d₁ ∈ [d], ∀ x ∈ d₁.decls, x.WellFormed := by
    simpa using h
  simpa using parse_join_print hall

/-- Parsing the canonical text of a parsed document gives its declarations again, all but their
positions, and then printing gives the same text again. -/
theorem parse_print {source : String} {d : Document} (h : Document.parse source = .ok d) :
    ∃ d₂, Document.parse d.print = .ok d₂ ∧ d₂.unplaced = d.unplaced ∧ d₂.print = d.print := by
  obtain ⟨d₂, hparse, hsame⟩ := parse_print_of_wellFormed (wellFormed_of_parse h)
  refine ⟨d₂, hparse, hsame, ?_⟩
  calc d₂.print
    _ = d₂.unplaced.print := d₂.print_unplaced.symm
    _ = d.unplaced.print := by rw [hsame]
    _ = d.print := d.print_unplaced

/-- Double quotes cannot stand around this database type, and only one of the values needs them. -/
theorem parse_print_quotes :
    ∃ d, Document.parse
        "Project p\x7bdatabase_type:'a\"b'\x7d Table t as u\x7bi int\x7d Enum e\x7b\"x y\" z\x7d" =
        .ok d ∧
      ∃ d₂, Document.parse d.print = .ok d₂ ∧ d₂.unplaced = d.unplaced ∧ d₂.print = d.print := by
  have h : Document.parse
      "Project p\x7bdatabase_type:'a\"b'\x7d Table t as u\x7bi int\x7d Enum e\x7b\"x y\" z\x7d" =
      .ok ⟨[.project "p" (some "a\"b") ⟨1, 1⟩, .table "t" (some "u") [⟨"i", "int", ⟨1, 45⟩⟩] ⟨1, 32⟩,
        .enum "e" ["\"x y\"", "z"] ⟨1, 52⟩]⟩ := by
    decide +kernel
  exact ⟨_, h, parse_print h⟩

end Document

end Dbml
