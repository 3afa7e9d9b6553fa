import Dbml.Document.Printer
import Dbml.Proofs.Document.WellFormed

/-!
# The canonical text as a sequence of fronts

A derivation is laid out by writing its tokens with blanks and line ends between them
(`Tree.layout`). Every token is followed by a blank, a line end or a colon, and none of these lets a
lexeme go on, so a layout is read back front by front whatever follows it (`Tree.standing_layout`).

A declaration that can be written has a derivation of its own (`Decl.tree`), and the canonical text
is the layout of that (`Document.texts_layout`).
-/

namespace Dbml

open Front

/-! ## Sequences that stand before anything -/

/-- The fronts are read back whatever follows them. -/
def Standing (fs : List Front) : Prop := ∀ r, Readable fs r

/-- Layouts that stand by themselves can be put one after the other. -/
theorem Standing.append {fs gs : List Front} (hf : Standing fs) (hg : Standing gs) :
    Standing (fs ++ gs) := fun r => readable_append.2 ⟨hf _, hg r⟩

theorem Standing.flatMap {α : Type} {f : α → List Front} {l : List α}
    (h : ∀ a ∈ l, Standing (f a)) : Standing (l.flatMap f) := by
  induction l with
  | nil => intro r; trivial
  | cons a l ih =>
    rw [List.flatMap_cons]
    exact (h a List.mem_cons_self).append (ih fun b hb => h b (List.mem_cons_of_mem a hb))

/-- A blank between two tokens of a line. -/
def blank : Front := .trivia [' ']

/-- The end of a line. -/
def newline : Front := .trivia ['\n']

/-- The blanks at the beginning of a line in a body. -/
def indent : List Front := [blank, blank, blank, blank]

/-- A token as the front that it is read from. -/
def Token.front (t : Token) : Front := .lexeme t.kind t.value.toList

@[simp] theorem readable_blank {fs : List Front} {r : List Char} :
    Readable (blank :: fs) r ↔ Readable fs r :=
  ⟨fun h => h.2.2, fun h => ⟨.stray (by decide), trivial, h⟩⟩

@[simp] theorem readable_newline {fs : List Front} {r : List Char} :
    Readable (newline :: fs) r ↔ Readable fs r :=
  ⟨fun h => h.2.2, fun h => ⟨.stray (by decide), trivial, h⟩⟩

/-- No lexeme goes on over a blank, a line end or a colon. -/
theorem stops_of_separator {kind : Kind} {value s : List Char} {c : Char}
    (hc : c = ' ' ∨ c = '\n' ∨ c = ':') : (lexeme kind value).Stops (c :: s) := by
  have hclass : isWordChar c = false ∧ c.isDigit = false ∧ c ≠ '.' ∧ c ≠ '\'' := by
    rcases hc with rfl | rfl | rfl <;> decide
  obtain ⟨hword, hdigit, hpoint, hquote⟩ := hclass
  exact stops_lexeme hword hdigit hpoint hquote

/-- A token before a blank can be read back if it is one that is ever read: the blank ends it. -/
theorem readable_front_blank {t : Token} {fs : List Front} {r : List Char} :
    Readable (t.front :: blank :: fs) r ↔ t.Lexical ∧ Readable fs r := by
  constructor
  · rintro ⟨hv, -, h⟩
    exact ⟨hv, readable_blank.1 h⟩
  · rintro ⟨hv, h⟩
    exact ⟨hv, stops_of_separator (.inl rfl), readable_blank.2 h⟩

theorem readable_front_newline {t : Token} {fs : List Front} {r : List Char} :
    Readable (t.front :: newline :: fs) r ↔ t.Lexical ∧ Readable fs r := by
  constructor
  · rintro ⟨hv, -, h⟩
    exact ⟨hv, readable_newline.1 h⟩
  · rintro ⟨hv, h⟩
    exact ⟨hv, stops_of_separator (.inr (.inl rfl)), readable_newline.2 h⟩

/-- A colon ends a token, too, so a name needs no blank before it. -/
theorem readable_front_colon {t : Token} {c : Terminal (.delimiter .colon)} {fs : List Front}
    {r : List Char} (ht : t.Lexical) (h : Readable (c.token.front :: fs) r) :
    Readable (t.front :: c.token.front :: fs) r := by
  have hv : c.token.front.Valid := h.1
  rw [Token.front, c.kind_token] at hv
  refine ⟨ht, ?_, h⟩
  have htext : c.token.front.text = [':'] := by
    rw [Token.front, c.kind_token, show c.token.value.toList = [':'] from valid_lexeme_iff.1 hv]
    rfl
  rw [texts_cons, htext]
  exact stops_of_separator (.inr (.inr rfl))

/-! ## Laying out derivations -/

namespace Tree

def Setting.layout (s : Setting) : List Front :=
  indent ++ [s.keyword.token.front, s.colon.token.front, blank, s.value.1.front, newline]

def Column.layout (c : Column) : List Front :=
  indent ++ [c.name.token.front, blank, c.type.token.front, newline]

def Alias.layout (a : Alias) : List Front :=
  [a.keyword.token.front, blank, a.name.token.front, blank]

def valueLayout (v : ValueTerminal) : List Front := indent ++ [v.1.front, newline]

/-- The fronts of a declaration written over lines, one for each part of the body. -/
def layout : Tree → List Front
  | project k n o ss c =>
    [k.token.front, blank, n.token.front, blank, o.token.front, newline] ++
      ss.flatMap Setting.layout ++ [c.token.front, newline]
  | table k n a o cs c =>
    [k.token.front, blank, n.token.front, blank] ++ a.elim [] Alias.layout ++
      [o.token.front, newline] ++ cs.flatMap Column.layout ++ [c.token.front, newline]
  | enum k n o vs c =>
    [k.token.front, blank, n.token.front, blank, o.token.front, newline] ++
      vs.flatMap valueLayout ++ [c.token.front, newline]

theorem Setting.standing_layout {s : Setting} (h : ∀ t ∈ s.tokens, t.Lexical) :
    Standing s.layout := by
  intro r
  simp only [Setting.tokens, List.mem_cons, forall_eq_or_imp] at h
  obtain ⟨hk, hc, hv, -⟩ := h
  simp only [Setting.layout, indent, List.cons_append, List.nil_append, readable_blank]
  apply readable_front_colon hk
  rw [readable_front_blank, readable_front_newline]
  exact ⟨hc, hv, trivial⟩

theorem Column.standing_layout {c : Column} (h : ∀ t ∈ c.tokens, t.Lexical) :
    Standing c.layout := by
  intro r
  simp only [Column.tokens, List.mem_cons, forall_eq_or_imp] at h
  obtain ⟨hn, hy, -⟩ := h
  simp only [Column.layout, indent, List.cons_append, List.nil_append, readable_blank,
    readable_front_blank, readable_front_newline]
  exact ⟨hn, hy, trivial⟩

theorem standing_valueLayout {v : ValueTerminal} (h : v.1.Lexical) : Standing (valueLayout v) := by
  intro r
  simp only [valueLayout, indent, List.cons_append, List.nil_append, readable_blank,
    readable_front_newline]
  exact ⟨h, trivial⟩

theorem standing_close {t : Token} (h : t.Lexical) : Standing [t.front, newline] :=
  fun _ => readable_front_newline.2 ⟨h, trivial⟩

theorem standing_open {k n o : Token} (hk : k.Lexical) (hn : n.Lexical) (ho : o.Lexical) :
    Standing [k.front, blank, n.front, blank, o.front, newline] := by
  intro r
  rw [readable_front_blank, readable_front_blank, readable_front_newline]
  exact ⟨hk, hn, ho, trivial⟩

/-- A layout is read back whatever follows it, since it ends with its line. -/
theorem standing_layout {tree : Tree} (h : ∀ t ∈ tree.tokens, t.Lexical) :
    Standing tree.layout := by
  cases tree with
  | project k n o ss c =>
    simp only [tokens, List.forall_mem_cons, List.forall_mem_append] at h
    obtain ⟨hk, hn, ho, hss, hc, -⟩ := h
    refine Standing.append (Standing.append (standing_open hk hn ho) ?_) (standing_close hc)
    refine Standing.flatMap fun s hs => Setting.standing_layout fun t ht => ?_
    exact hss t (List.mem_flatMap.2 ⟨s, hs, ht⟩)
  | table k n a o cs c =>
    simp only [tokens, List.forall_mem_cons, List.forall_mem_append] at h
    obtain ⟨hk, hn, ha, ho, hcs, hc, -⟩ := h
    refine Standing.append (Standing.append ?_ ?_) (standing_close hc)
    · cases a with
      | none => exact standing_open hk hn ho
      | some al =>
        simp only [Option.elim_some, Alias.tokens, List.forall_mem_cons] at ha
        obtain ⟨ha, hm, -⟩ := ha
        intro r
        simp only [Option.elim_some, Alias.layout, List.cons_append, List.nil_append,
          readable_front_blank, readable_front_newline]
        exact ⟨hk, hn, ha, hm, ho, trivial⟩
    · refine Standing.flatMap fun u hu => Column.standing_layout fun t ht => ?_
      exact hcs t (List.mem_flatMap.2 ⟨u, hu, ht⟩)
  | enum k n o vs c =>
    simp only [tokens, List.forall_mem_cons, List.forall_mem_append] at h
    obtain ⟨hk, hn, ho, hvs, hc, -⟩ := h
    refine Standing.append (Standing.append (standing_open hk hn ho) ?_) (standing_close hc)
    refine Standing.flatMap fun v hv => standing_valueLayout ?_
    exact hvs _ (List.mem_map_of_mem hv)

end Tree

/-- Declarations with an empty line between them. -/
def layoutAll : List Tree → List Front
  | [] => []
  | [tree] => tree.layout
  | tree :: next :: trees => tree.layout ++ newline :: layoutAll (next :: trees)

/-- All declarations with the lines between them stand by themselves. -/
theorem standing_layoutAll {trees : List Tree}
    (h : ∀ tree ∈ trees, ∀ t ∈ tree.tokens, t.Lexical) : Standing (layoutAll trees) := by
  fun_induction layoutAll trees with
  | case1 => intro r; trivial
  | case2 tree => exact Tree.standing_layout (h tree List.mem_cons_self)
  | case3 tree next trees ih =>
    refine (Tree.standing_layout (h tree List.mem_cons_self)).append fun r => ?_
    exact readable_newline.2 (ih (fun u hu => h u (List.mem_cons_of_mem _ hu)) r)

/-! ## The tokens of a layout -/

/-- The token without its place. -/
def Token.unplaced (t : Token) : Token := ⟨t.kind, t.value, .start, ⟨0, 0⟩⟩

/-- The token that a front is, without a place. -/
def Front.unplaced? : Front → Option Token
  | lexeme kind value => some ⟨kind, String.ofList value, .start, ⟨0, 0⟩⟩
  | _ => none

/-- Which tokens are read from a layout does not depend on where it begins, but for their places. -/
theorem map_unplaced_tokens (p : Place) (fs : List Front) :
    (tokens p fs).map Token.unplaced = fs.filterMap Front.unplaced? := by
  induction fs generalizing p with
  | nil => rfl
  | cons f fs ih =>
    cases f with
    | lexeme kind value => exact congrArg (_ :: ·) (ih _)
    | _ => exact ih _

@[simp] theorem filterMap_front (t : Token) (fs : List Front) :
    (t.front :: fs).filterMap Front.unplaced? =
      t.unplaced :: fs.filterMap Front.unplaced? := by
  simp [Token.front, Front.unplaced?, Token.unplaced]

@[simp] theorem filterMap_blank (fs : List Front) :
    (blank :: fs).filterMap Front.unplaced? = fs.filterMap Front.unplaced? := rfl

@[simp] theorem filterMap_newline (fs : List Front) :
    (newline :: fs).filterMap Front.unplaced? = fs.filterMap Front.unplaced? := rfl

namespace Tree

/-- If the parts of a layout hold the tokens they should, the whole does. -/
theorem filterMap_flatMap_layout {α : Type} {f : α → List Front} {g : α → List Token}
    (h : ∀ a, (f a).filterMap Front.unplaced? = (g a).map Token.unplaced) (l : List α) :
    (l.flatMap f).filterMap Front.unplaced? = (l.flatMap g).map Token.unplaced := by
  induction l with
  | nil => rfl
  | cons a l ih => simp [h, ih]

/-- Only the tokens of a layout are tokens, in their order. -/
theorem filterMap_layout (tree : Tree) :
    tree.layout.filterMap Front.unplaced? = tree.tokens.map Token.unplaced := by
  cases tree with
  | project k n o ss c =>
    have hss := filterMap_flatMap_layout (f := Setting.layout) (g := Setting.tokens)
      (by intro s; simp [Setting.layout, Setting.tokens, indent]) ss
    simp [layout, tokens, hss]
  | table k n a o cs c =>
    have hcs := filterMap_flatMap_layout (f := Column.layout) (g := Column.tokens)
      (by intro u; simp [Column.layout, Column.tokens, indent]) cs
    cases a with
    | none => simp [layout, tokens, hcs]
    | some al => simp [layout, tokens, Alias.layout, Alias.tokens, hcs]
  | enum k n o vs c =>
    have hvs := filterMap_flatMap_layout (f := valueLayout) (g := fun v => [v.1])
      (by intro v; simp [valueLayout, indent]) vs
    rw [← List.map_eq_flatMap] at hvs
    simp only [layout, tokens, List.cons_append, List.nil_append, filterMap_front, filterMap_blank,
      filterMap_newline, List.filterMap_append, hvs, List.map_cons, List.map_append]
    rfl

end Tree

/-- The layout of trees holds the tokens of the trees, and nothing else that is not passed over. -/
theorem filterMap_layoutAll (trees : List Tree) :
    (layoutAll trees).filterMap Front.unplaced? =
      (trees.flatMap Tree.tokens).map Token.unplaced := by
  fun_induction layoutAll trees with
  | case1 => rfl
  | case2 tree => simp [Tree.filterMap_layout]
  | case3 tree next trees ih =>
    simp only [List.filterMap_append, filterMap_newline,
      Tree.filterMap_layout, ih, List.flatMap_cons, List.map_append]

/-! ## The derivation of a declaration -/

/-- The token of a kind and a value, without a place. -/
def Terminal.of (k : Kind) (v : String) : Terminal k := ⟨⟨k, v, .start, ⟨0, 0⟩⟩, rfl⟩

/-- A database type between the quotes that can stand around it. -/
def typeTerminal (v : String) : StringTerminal :=
  if hasUnescaped '"' v.toList then ⟨⟨.literal .singleQuoted, v, .start, ⟨0, 0⟩⟩, .inr rfl⟩
  else ⟨⟨.literal .doubleQuoted, v, .start, ⟨0, 0⟩⟩, .inl rfl⟩

/-- A value of an enumeration, quoted or not according to its first character. -/
def valueTerminal (v : String) : ValueTerminal :=
  match v.toList with
  | '"' :: cs => ⟨⟨.literal .doubleQuoted, String.ofList cs.dropLast, .start, ⟨0, 0⟩⟩, .inr rfl⟩
  | _ => ⟨⟨.literal .ident, v, .start, ⟨0, 0⟩⟩, .inl rfl⟩

/-- The derivation that a declaration is printed from. -/
def Decl.tree : Decl → Tree
  | project n d _ =>
    .project (.of _ "Project") (.of _ n) (.of _ "\x7b")
      (d.toList.map fun v => ⟨.of _ "database_type", .of _ ":", typeTerminal v⟩) (.of _ "\x7d")
  | table n a cs _ =>
    .table (.of _ "Table") (.of _ n) (a.map fun v => ⟨.of _ "as", .of _ v⟩) (.of _ "\x7b")
      (cs.map fun c => ⟨.of _ c.name, .of _ c.type⟩) (.of _ "\x7d")
  | enum n vs _ =>
    .enum (.of _ "Enum") (.of _ n) (.of _ "\x7b") (vs.map valueTerminal) (.of _ "\x7d")

theorem lexical_name {w : String} (h : IsName w) :
    (Terminal.of (.literal .ident) w).token.Lexical := by
  refine valid_lexeme_iff.2 ⟨h.1, h.2.1, ?_⟩
  rw [String.ofList_toList]
  exact h.2.2

theorem lexical_keyword (k : Keyword) : (Terminal.of (.keyword k) k.word).token.Lexical :=
  valid_keyword k

theorem lexical_delimiter (d : Delimiter) :
    (Terminal.of (.delimiter d) (String.ofList [d.char])).token.Lexical :=
  valid_lexeme_iff.2 String.toList_ofList

/-- The text of a type can be read back between the quotes that are chosen for it. -/
theorem lexical_type {v : String} (h : IsTypeText v) : (typeTerminal v).1.Lexical := by
  have hcomplete : escapeComplete v.toList = true := by
    rcases h with h | h
    · exact h.1
    · exact h.1
  unfold typeTerminal
  split
  · rename_i hun
    rcases h with h | h
    · rw [h.2] at hun
      cases hun
    · exact .singleQuoted h
  · rename_i hun
    exact .doubleQuoted ⟨hcomplete, Bool.eq_false_iff.2 hun⟩

theorem valueTerminal_name {v : String} (h : IsName v) :
    valueTerminal v = ⟨⟨.literal .ident, v, .start, ⟨0, 0⟩⟩, .inl rfl⟩ := by
  unfold valueTerminal
  split
  · rename_i cs hv
    exact absurd (h.2.1 '"' (by simp [hv])) (by decide)
  · rfl

/-- A value in double quotes is written as the string between them. -/
theorem valueTerminal_quoted (body : String) :
    valueTerminal ("\"" ++ body ++ "\"") =
      ⟨⟨.literal .doubleQuoted, body, .start, ⟨0, 0⟩⟩, .inr rfl⟩ := by
  have hv : ("\"" ++ body ++ "\"").toList = '"' :: (body.toList ++ ['"']) := by
    simp
  unfold valueTerminal
  split
  · rename_i cs hcs
    obtain ⟨-, rfl⟩ := List.cons.inj (hcs.symm.trans hv)
    simp
  · rename_i hcs
    exact absurd hv (hcs _)

/-- The value of an enum can be read back, as a name or as a string. -/
theorem lexical_value {v : String} (h : IsEnumValue v) : (valueTerminal v).1.Lexical := by
  rcases h with h | ⟨body, hbody, rfl⟩
  · rw [valueTerminal_name h]
    exact lexical_name h
  · rw [valueTerminal_quoted]
    exact .doubleQuoted hbody

namespace Decl

/-- A declaration that can be written is derived from well-formed lexemes. -/
theorem lexical_tree {d : Decl} (h : d.WellFormed) : ∀ t ∈ d.tree.tokens, t.Lexical := by
  have hopen := lexical_delimiter .lBrace
  have hclose := lexical_delimiter .rBrace
  cases d with
  | project n d p =>
    obtain ⟨hn, hd⟩ := h
    simp only [tree, Tree.tokens, List.forall_mem_cons, List.forall_mem_append]
    refine ⟨lexical_keyword .project, lexical_name hn, hopen, ?_, hclose, by simp⟩
    rw [List.forall_mem_flatMap, List.forall_mem_map]
    intro v hv
    simp only [Tree.Setting.tokens, List.forall_mem_cons]
    exact ⟨lexical_keyword .databaseType, lexical_delimiter .colon,
      lexical_type (hd v (Option.mem_toList.1 hv)), by simp⟩
  | table n a cs p =>
    obtain ⟨hn, ha, hcs⟩ := h
    simp only [tree, Tree.tokens, List.forall_mem_cons, List.forall_mem_append]
    refine ⟨lexical_keyword .table, lexical_name hn, ?_, hopen, ?_, hclose, by simp⟩
    · cases a with
      | none => simp
      | some a =>
        simp only [Option.map_some, Option.elim_some, Tree.Alias.tokens, List.forall_mem_cons]
        exact ⟨lexical_keyword .aliased, lexical_name (ha a rfl), by simp⟩
    · rw [List.forall_mem_flatMap, List.forall_mem_map]
      intro c hc
      simp only [Tree.Column.tokens, List.forall_mem_cons]
      exact ⟨lexical_name (hcs c hc).1, lexical_name (hcs c hc).2, by simp⟩
  | enum n vs p =>
    obtain ⟨hn, hvs⟩ := h
    simp only [tree, Tree.tokens, List.forall_mem_cons, List.forall_mem_append]
    refine ⟨lexical_keyword .enum, lexical_name hn, hopen, ?_, hclose, by simp⟩
    rw [List.forall_mem_map, List.forall_mem_map]
    intro v hv
    exact lexical_value (hvs v hv)

end Decl

/-! ## The canonical text -/

@[simp] theorem text_blank : blank.text = [' '] := rfl

@[simp] theorem text_newline : newline.text = ['\n'] := rfl

@[simp] theorem text_of (k : Kind) (v : String) :
    (Terminal.of k v).token.front.text = k.fence ++ v.toList ++ k.fence := rfl

theorem text_type (v : String) : (typeTerminal v).1.front.text = (quoteType v).toList := by
  unfold typeTerminal quoteType
  split <;> simp [Token.front, text, Kind.fence]

/-- What is written for a value is the value, quotes included. -/
theorem text_value {v : String} (h : IsEnumValue v) :
    (valueTerminal v).1.front.text = v.toList := by
  rcases h with h | ⟨body, -, rfl⟩
  · rw [valueTerminal_name h]
    simp [Token.front, text, Kind.fence]
  · rw [valueTerminal_quoted]
    simp [Token.front, text, Kind.fence]

/-- Lines that are written one by one are written together. -/
theorem texts_flatMap {α : Type} {f : α → List Front} {g : α → String} {l : List α}
    (h : ∀ a ∈ l, texts (f a) = (g a).toList) :
    texts (l.flatMap f) = (String.join (l.map g)).toList := by
  rw [String.toList_join, List.flatMap_map]
  induction l with
  | nil => rfl
  | cons a l ih =>
    rw [List.flatMap_cons, List.flatMap_cons, texts_append, h a List.mem_cons_self,
      ih fun b hb => h b (List.mem_cons_of_mem a hb)]

/-- What is laid out is the canonical text. -/
theorem Decl.texts_layout {d : Decl} (h : d.WellFormed) :
    texts d.tree.layout = d.print.toList := by
  cases d with
  | project n d p =>
    cases d with
    | none => simp [tree, Tree.layout, Kind.fence, print, header, bodyLines]
    | some v =>
      simp [tree, Tree.layout, Tree.Setting.layout, Kind.fence, text_type, print, header,
        bodyLines, bodyLine, indent]
  | table n a cs p =>
    have hcs : texts ((cs.map fun c => (⟨.of _ c.name, .of _ c.type⟩ : Tree.Column)).flatMap
        Tree.Column.layout) =
        (String.join (cs.map fun c => bodyLine (c.name ++ " " ++ c.type))).toList := by
      rw [List.flatMap_map]
      refine texts_flatMap fun c _ => ?_
      simp [Tree.Column.layout, Kind.fence, bodyLine, indent]
    cases a with
    | none => simp [tree, Tree.layout, Kind.fence, hcs, print, header, bodyLines]
    | some a =>
      simp [tree, Tree.layout, Tree.Alias.layout, Kind.fence, hcs, print, header, bodyLines]
  | enum n vs p =>
    have hvs : texts ((vs.map valueTerminal).flatMap Tree.valueLayout) =
        (String.join (vs.map bodyLine)).toList := by
      rw [List.flatMap_map]
      refine texts_flatMap fun v hv => ?_
      simp [Tree.valueLayout, text_value (h.2 v hv), bodyLine, indent]
    simp [tree, Tree.layout, Kind.fence, hvs, print, header, bodyLines]

/-- **The printer writes the layout**: the text of the layout of a document is its printed form. -/
theorem Document.texts_layout {decls : List Decl} (h : ∀ d ∈ decls, d.WellFormed) :
    texts (layoutAll (decls.map Decl.tree)) = (Document.mk decls).print.toList := by
  unfold Document.print
  induction decls with
  | nil => rfl
  | cons d decls ih =>
    have hd := Decl.texts_layout (h d List.mem_cons_self)
    cases decls with
    | nil => simp [layoutAll, hd]
    | cons e decls =>
      have hrest := ih fun x hx => h x (List.mem_cons_of_mem d hx)
      simp only [List.map_cons] at hrest
      simp [layoutAll, hd, hrest]

end Dbml
