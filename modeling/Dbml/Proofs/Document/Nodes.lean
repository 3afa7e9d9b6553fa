import Dbml.Proofs.Document.Position
import Dbml.Proofs.Document.WellFormed
import Dbml.Proofs.Token.Partition
import Mathlib.Data.List.Flatten

/-!
# Nodes in the text

The nodes of a document are listed in the order in which a reader meets them: their positions
increase, and at each of them stands the word that introduces the node, with the name that is
declared right after it (`WrittenAt`).

The nodes are read off derivations, and each of them stands at a token of its own: so their
positions are some of the positions of the tokens, which increase with the text. Only the first
token of a derivation is a keyword that begins a declaration, so there are as many of these as
declarations.
-/

namespace Dbml

open Front

/-! ## The order of positions -/

namespace Position

theorem compare_eq_lt_iff {p q : Position} :
    compare p q = .lt ↔ p.line < q.line ∨ p.line = q.line ∧ p.column < q.column := by
  change (compare p.line q.line).then (compare p.column q.column) = .lt ↔ _
  rw [Ordering.then_eq_lt, Nat.compare_eq_lt, Nat.compare_eq_eq, Nat.compare_eq_lt]

theorem compare_trans {p q r : Position} (hpq : compare p q = .lt) (hqr : compare q r = .lt) :
    compare p r = .lt := by
  rw [compare_eq_lt_iff] at *
  omega

theorem compare_step (p : Position) (c : Char) : compare p (p.step c) = .lt := by
  rw [compare_eq_lt_iff, step]
  split
  · exact .inl (Nat.lt_succ_self _)
  · exact .inr ⟨rfl, Nat.lt_succ_self _⟩

/-- A text leads on, unless it is empty. -/
theorem compare_after (p : Position) {s : List Char} (h : s ≠ []) :
    compare p (p.after s) = .lt := by
  induction s generalizing p with
  | nil => exact absurd rfl h
  | cons c cs ih =>
    cases cs with
    | nil => exact compare_step p c
    | cons d ds => exact compare_trans (compare_step p c) (ih (p.step c) (by simp))

end Position

/-- Since every token has some text, the positions of tokens go up. -/
theorem pairwise_position_tokens {fs : List Front} {r : List Char} (h : Readable fs r) (p : Place) :
    (tokens p fs).Pairwise fun t u => compare t.position u.position = .lt := by
  induction fs generalizing p with
  | nil => exact List.Pairwise.nil
  | cons f fs ih =>
    obtain ⟨hv, -, hfs⟩ := h
    cases f with
    | lexeme kind value =>
      refine List.Pairwise.cons ?_ (ih hfs _)
      intro u hu
      obtain ⟨gs, kind', value', hs, -, rfl⟩ := mem_tokens hu
      -- between the two tokens lies at least the text of the first
      have hne : (lexeme kind value).text ++ texts gs ≠ [] := by
        simp [hv.text_ne_nil]
      rw [← Place.after_append]
      exact Position.compare_after p.position hne
    | trivia text => exact ih hfs _
    | openLiteral l => cases hv
    | openComment => cases hv

/-! ## What a node is made from -/

namespace Decl

/-- The label of the node that a declaration is. -/
def label : Decl → Node.Label
  | project .. => .project
  | table .. => .table
  | enum .. => .enum

/-- The declaration as a node. -/
def node (d : Decl) : Node := ⟨d.label, d.name, d.position⟩

/-- The columns declared inside the declaration; only a table has any. -/
def columns : Decl → List Decl.Column
  | table _ _ cs _ => cs
  | _ => []

/-- The column as a node. -/
def Column.node (c : Decl.Column) : Node := ⟨.column, c.name, c.position⟩

theorem nodes_eq (d : Decl) : d.nodes = d.node :: d.columns.map Column.node := by
  cases d <;> rfl

theorem label_node_ne (d : Decl) : d.node.label ≠ .column := by
  cases d <;> simp [node, label]

end Decl

namespace Document

/-- The nodes of a document: each declaration and then its columns. -/
theorem nodes_eq (d : Document) :
    d.nodes = d.decls.flatMap fun decl => decl.node :: decl.columns.map Decl.Column.node := by
  rw [nodes]
  congr 1
  funext decl
  exact decl.nodes_eq

/-- Without the columns, there is one node for each declaration. -/
theorem filter_nodes (d : Document) :
    d.nodes.filter (fun n => n.label ≠ .column) = d.decls.map Decl.node := by
  rw [nodes_eq, List.filter_flatMap, List.map_eq_flatMap]
  congr 1
  funext decl
  have hcolumns : (decl.columns.map Decl.Column.node).filter (fun n => n.label ≠ .column) = [] := by
    rw [List.filter_eq_nil_iff]
    intro n hn
    obtain ⟨c, -, rfl⟩ := List.mem_map.1 hn
    simp [Decl.Column.node]
  rw [List.filter_cons_of_pos (by simpa using decl.label_node_ne), hcolumns]

end Document

/-! ## Where a node is written -/

/-- The token at `p` is the word `word` of the text, of the given kind, and the name `next` is the
token after it. -/
def WrittenAt (s : List Char) (ts : List Token) (p : Position) (kind : Kind) (word next : String) :
    Prop :=
  ∃ before t u after, ts = before ++ t :: u :: after ∧ t.kind = kind ∧ t.position = p ∧
    p.offsetIn s = some t.span.start ∧ t.span.cut s = some word.toList ∧
    u.kind = .literal .ident ∧ u.value = next

/-- Two tokens of a text that stand side by side, the first of them without marks around it. -/
theorem writtenAt_of_tokens {fs : List Front} (h : Readable fs []) {before after : List Token}
    {t u : Token} (hts : tokens .start fs = before ++ t :: u :: after) (ht : t.kind.markWidth = 0)
    (hu : u.kind = .literal .ident) (stop : Token) :
    WrittenAt (texts fs) (tokens .start fs ++ [stop]) t.position t.kind t.value u.value := by
  have hmem : t ∈ tokens .start fs := by
    rw [hts]
    simp
  have hlocated := located_of_mem_tokens h hmem
  rw [List.append_nil] at hlocated
  obtain ⟨-, -, -, -, hoffset⟩ := hlocated
  have hcut := (partition_tokens h).value t hmem
  rw [ht, Nat.add_zero, Nat.sub_zero] at hcut
  exact ⟨before, t, u, after ++ [stop], by simp [hts], rfl, rfl, hoffset, hcut, hu, rfl⟩

namespace Tree

/-- A declaration stands where its keyword does, and its name comes next. -/
theorem exists_keyword (tree : Tree) : ∃ t u rest, tree.tokens = t :: u :: rest ∧
    t.kind = .keyword tree.decl.keyword ∧ t.position = tree.decl.position ∧
    u.kind = .literal .ident ∧ u.value = tree.decl.name := by
  cases tree with
  | project k n o ss c => exact ⟨_, _, _, rfl, k.kind_token, rfl, n.kind_token, rfl⟩
  | table k n a o cs c => exact ⟨_, _, _, rfl, k.kind_token, rfl, n.kind_token, rfl⟩
  | enum k n o vs c => exact ⟨_, _, _, rfl, k.kind_token, rfl, n.kind_token, rfl⟩

/-- A column stands where its name does, and its type comes next. -/
theorem exists_column {tree : Tree} {c : Decl.Column} (h : c ∈ tree.decl.columns) :
    ∃ before t u after, tree.tokens = before ++ t :: u :: after ∧ t.kind = .literal .ident ∧
      t.position = c.position ∧ t.value = c.name ∧ u.kind = .literal .ident ∧ u.value = c.type := by
  cases tree with
  | project k n o ss close => cases h
  | table k n a o cs close =>
    obtain ⟨col, hcol, rfl⟩ := List.mem_map.1 h
    obtain ⟨l, l', rfl⟩ := List.append_of_mem hcol
    refine ⟨k.token :: n.token :: (a.elim [] Alias.tokens ++ o.token :: l.flatMap Column.tokens),
      col.name.token, col.type.token, l'.flatMap Column.tokens ++ [close.token], ?_,
      col.name.kind_token, rfl, rfl, col.type.kind_token, rfl⟩
    simp [tokens, Column.tokens]
  | enum k n o vs close => cases h

/-- Each node that is read off a derivation stands at a token of its own. -/
theorem positions_sublist (tree : Tree) :
    (tree.decl.nodes.map Node.position).Sublist (tree.tokens.map Token.position) := by
  cases tree with
  | project k n o ss c => exact List.Sublist.cons_cons _ (List.nil_sublist _)
  | table k n a o cs c =>
    have hcolumns : (cs.map fun col => col.name.token.position).Sublist
        ((cs.flatMap Column.tokens).map Token.position) := by
      rw [List.map_flatMap, List.map_eq_flatMap]
      apply List.Sublist.flatMap_right
      intro col _
      exact List.Sublist.cons_cons _ (List.nil_sublist _)
    simp only [decl, Decl.nodes, tokens, List.map_cons, List.map_map, List.map_append]
    refine List.Sublist.cons_cons _ (List.Sublist.cons _ ?_)
    refine List.Sublist.trans ?_ (List.sublist_append_right _ _)
    exact List.Sublist.cons _ (hcolumns.trans (List.sublist_append_left _ _))
  | enum k n o vs c => exact List.Sublist.cons_cons _ (List.nil_sublist _)

end Tree

/-- A declaration and its columns are written where its derivation has their tokens. -/
theorem writtenAt_of_tree {fs : List Front} (hfs : Readable fs []) {tree : Tree}
    {before after : List Token} (hbody : tokens .start fs = before ++ (tree.tokens ++ after))
    (stop : Token) :
    WrittenAt (texts fs) (tokens .start fs ++ [stop]) tree.decl.position
        (.keyword tree.decl.keyword) tree.decl.keyword.word tree.decl.name ∧
      ∀ c ∈ tree.decl.columns,
        WrittenAt (texts fs) (tokens .start fs ++ [stop]) c.position (.literal .ident) c.name
          c.type := by
  constructor
  · obtain ⟨t, u, rest, htokens, hkind, hpos, hu, hname⟩ := tree.exists_keyword
    rw [htokens] at hbody
    have hword : t.value = tree.decl.keyword.word := by
      have hlexical := lexical_of_mem_tokens hfs (p := .start) (t := t) (by rw [hbody]; simp)
      rw [Token.Lexical, hkind] at hlexical
      exact String.toList_inj.1 (valid_lexeme_iff.1 hlexical)
    rw [← hpos, ← hkind, ← hword, ← hname]
    exact writtenAt_of_tokens hfs hbody (by rw [hkind]; rfl) hu stop
  · intro c hc
    obtain ⟨pre, t, u, post, htokens, hkind, hpos, hvalue, hu, htype⟩ := tree.exists_column hc
    have hbody' : tokens .start fs = (before ++ pre) ++ t :: u :: (post ++ after) := by
      rw [hbody, htokens]
      simp
    rw [← hpos, ← hkind, ← hvalue, ← htype]
    exact writtenAt_of_tokens hfs hbody' (by rw [hkind]; rfl) hu stop

/-- Whether the kind is one of the keywords that begin a declaration. -/
def Kind.declares : Kind → Bool
  | keyword .project => true
  | keyword .table => true
  | keyword .enum => true
  | _ => false

/-- Of the tokens of a derivation only the first begins a declaration. -/
theorem Tree.countP_tokens (tree : Tree) : tree.tokens.countP (fun t => t.kind.declares) = 1 := by
  cases tree with
  | project k n o ss c =>
    have hsettings : (ss.flatMap Setting.tokens).countP (fun t => t.kind.declares) = 0 := by
      rw [List.countP_eq_zero]
      intro t ht
      obtain ⟨s, -, ht⟩ := List.mem_flatMap.1 ht
      simp only [Setting.tokens, List.mem_cons, List.not_mem_nil, or_false] at ht
      rcases ht with rfl | rfl | rfl
      · simp [Terminal.kind_token, Kind.declares]
      · simp [Terminal.kind_token, Kind.declares]
      · rcases s.value.2 with hk | hk <;> simp [hk, Kind.declares]
    simp only [tokens, List.countP_cons, List.countP_append, List.countP_nil, Terminal.kind_token,
      hsettings]
    rfl
  | table k n a o cs c =>
    have halias : (a.elim [] Alias.tokens).countP (fun t => t.kind.declares) = 0 := by
      cases a with
      | none => rfl
      | some a => simp [Alias.tokens, Terminal.kind_token, Kind.declares]
    have hcolumns : (cs.flatMap Column.tokens).countP (fun t => t.kind.declares) = 0 := by
      rw [List.countP_eq_zero]
      intro t ht
      obtain ⟨col, -, ht⟩ := List.mem_flatMap.1 ht
      simp only [Column.tokens, List.mem_cons, List.not_mem_nil, or_false] at ht
      rcases ht with rfl | rfl <;> simp [Terminal.kind_token, Kind.declares]
    simp only [tokens, List.countP_cons, List.countP_append, List.countP_nil, Terminal.kind_token,
      halias, hcolumns]
    rfl
  | enum k n o vs c =>
    have hvalues : (vs.map Subtype.val).countP (fun t => t.kind.declares) = 0 := by
      rw [List.countP_eq_zero]
      intro t ht
      obtain ⟨v, -, rfl⟩ := List.mem_map.1 ht
      rcases v.2 with hk | hk <;> simp [hk, Kind.declares]
    simp only [tokens, List.countP_cons, List.countP_append, List.countP_nil, Terminal.kind_token,
      hvalues]
    rfl

/-! ## Whole documents -/

/-- **The nodes follow the text**: their positions increase; at each of them stands the keyword with
the name declared after it, or the name of a column with its type after it; there are as many
declarations as keywords that begin one; and the nodes are the declarations in order, each followed
at once by all its columns. -/
theorem Document.nodes_follow_text {source : String} {d : Document}
    (h : Document.parse source = .ok d) :
    ∃ ts, tokenize source = .ok ts ∧
      (d.nodes.map Node.position).Pairwise (fun p q => compare p q = .lt) ∧
      (∀ decl ∈ d.decls,
        WrittenAt source.toList ts decl.position (.keyword decl.keyword) decl.keyword.word decl.name ∧
        ∀ c ∈ decl.columns,
          WrittenAt source.toList ts c.position (.literal .ident) c.name c.type) ∧
      d.size = ts.countP (fun t => t.kind.declares) ∧
      d.nodes.filter (fun n => n.label ≠ .column) = d.decls.map Decl.node ∧
      d.nodes = d.decls.flatMap fun decl => decl.node :: decl.columns.map Decl.Column.node := by
  obtain ⟨fs, trees, htext, hfs, htrees, rfl⟩ := Document.parse_eq_ok_iff.1 h
  let stop := Token.eof (Place.start.after source.toList)
  have hts : tokenize source = .ok (tokens .start fs ++ [stop]) :=
    tokenizeAt_eq_ok_iff.2 ⟨fs, htext, hfs, rfl⟩
  refine ⟨_, hts, ?_, ?_, ?_, filter_nodes _, nodes_eq _⟩
  · have hsub : (((trees.map Tree.decl).flatMap Decl.nodes).map Node.position).Sublist
        ((tokens .start fs).map Token.position) := by
      rw [← htrees, List.map_flatMap, List.map_flatMap, List.flatMap_map]
      exact List.Sublist.flatMap_right trees fun tree _ => tree.positions_sublist
    exact (List.pairwise_map.2 (pairwise_position_tokens hfs .start)).sublist hsub
  · intro decl hdecl
    obtain ⟨tree, htree, rfl⟩ := List.mem_map.1 hdecl
    obtain ⟨before, after, hbody⟩ := Tree.exists_flatMap_eq htree
    rw [htrees] at hbody
    rw [htext]
    exact writtenAt_of_tree hfs hbody stop
  · have hcount : (trees.map (List.countP (fun t => t.kind.declares) ∘ Tree.tokens)) =
        trees.map fun _ => 1 := List.map_congr_left fun tree _ => tree.countP_tokens
    rw [← htrees, List.countP_append, List.countP_flatMap, hcount]
    simp [size, stop, Token.eof, Kind.declares]

/-- The word of a keyword in a comment and in a quoted value begins no declaration. -/
theorem Document.nodes_follow_text_columns :
    let source := "// Table\nTable t \x7b\n  a int b text\n\x7d Enum e \x7b \"Table\" \x7d"
    ∃ d ts, Document.parse source = .ok d ∧ tokenize source = .ok ts ∧
      d.nodes.map Node.position = [⟨2, 1⟩, ⟨3, 3⟩, ⟨3, 9⟩, ⟨4, 3⟩] ∧
      WrittenAt source.toList ts ⟨2, 1⟩ (.keyword .table) "Table" "t" ∧
      WrittenAt source.toList ts ⟨3, 9⟩ (.literal .ident) "b" "text" ∧
      ts.countP (fun t => t.kind.declares) = 2 := by
  intro source
  have h : Document.parse source = .ok
      ⟨[.table "t" none [⟨"a", "int", ⟨3, 3⟩⟩, ⟨"b", "text", ⟨3, 9⟩⟩] ⟨2, 1⟩,
        .enum "e" ["\"Table\""] ⟨4, 3⟩]⟩ := by
    decide +kernel
  obtain ⟨ts, hts, -, hwritten, hsize, -⟩ := Document.nodes_follow_text h
  obtain ⟨htable, hcolumns⟩ := hwritten _ List.mem_cons_self
  have hcolumn := hcolumns ⟨"b", "text", ⟨3, 9⟩⟩ (by simp [Decl.columns])
  exact ⟨_, ts, h, hts, rfl, htable, hcolumn, hsize.symm⟩

end Dbml
