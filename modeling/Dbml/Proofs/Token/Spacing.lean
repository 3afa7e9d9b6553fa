import Dbml.Proofs.Document.Insertion

/-!
# Lexemes with space between them

Any list of lexemes can be written down and read back, whatever their bodies hold, as long as
something stands between each two of them. `Lexeme` says what a lexeme looks like as a text, with
the marks around its value; `Spaced` is a lexeme with the filler that follows it. A filler begins
with a character that no lexeme goes on over and is read back whatever follows, so each lexeme is a
front of its own, and `tokenize_spaced` gives the tokens one by one, each where its lexeme stands.
-/

namespace Dbml

open Front

/-! ## Lexemes as texts -/

/-- The text is a lexeme of the given kind, with the given value between its marks. -/
inductive Lexeme : List Char → Kind → List Char → Prop
  | word {w : List Char} (hne : w ≠ []) (hw : ∀ c ∈ w, isWordChar c = true) :
    Lexeme w (Kind.ofWord (String.ofList w)) w
  | int {ds : List Char} (hne : ds ≠ []) (hds : ∀ d ∈ ds, d.isDigit = true) :
    Lexeme ds (.literal .int) ds
  | float {ds es : List Char} (hne : ds ≠ []) (hds : ∀ d ∈ ds, d.isDigit = true) (hne' : es ≠ [])
    (hes : ∀ e ∈ es, e.isDigit = true) :
    Lexeme (ds ++ '.' :: es) (.literal .float) (ds ++ '.' :: es)
  | doubleQuoted {v : List Char} (hv : escapeComplete v = true) (hclose : '"' ∉ unescaped v) :
    Lexeme ('"' :: v ++ ['"']) (.literal .doubleQuoted) v
  | singleQuoted {v : List Char} (hv : escapeComplete v = true) (hclose : '\'' ∉ unescaped v) :
    Lexeme ('\'' :: v ++ ['\'']) (.literal .singleQuoted) v
  | funcExpr {v : List Char} (hclose : '\x60' ∉ v) :
    Lexeme ('\x60' :: v ++ ['\x60']) (.literal .funcExpr) v
  | multiline {v : List Char} (hclose : FirstAt ['\'', '\'', '\''] v) :
    Lexeme ('\'' :: '\'' :: '\'' :: v ++ ['\'', '\'', '\'']) (.literal .multiline) v
  | relation (r : Relation) : Lexeme [r.char] (.relation r) [r.char]
  | delimiter (d : Delimiter) : Lexeme [d.char] (.delimiter d) [d.char]

namespace Lexeme

variable {text value : List Char} {kind : Kind}

theorem valid (h : Lexeme text kind value) : (lexeme kind value).Valid := by
  cases h with
  | word hne hw => exact .word hne hw
  | int hne hds => exact .int hne hds
  | float hne hds hne' hes => exact .float hne hds hne' hes
  | doubleQuoted hv hclose => exact .doubleQuoted (isQuotedBody_iff.2 ⟨hv, hclose⟩)
  | singleQuoted hv hclose => exact .singleQuoted (isQuotedBody_iff.2 ⟨hv, hclose⟩)
  | funcExpr hclose => exact .funcExpr hclose
  | multiline hclose => exact .multiline hclose
  | relation r => exact valid_lexeme_iff.2 rfl
  | delimiter d => exact valid_lexeme_iff.2 rfl

theorem text_eq (h : Lexeme text kind value) : (lexeme kind value).text = text := by
  cases h with
  | word hne hw => simp [Front.text, fence_ofWord]
  | _ => simp [Front.text, Kind.fence]

end Lexeme

/-! ## Lexemes and what follows them -/

/-- A lexeme and the filler after it. -/
structure Spaced where
  text : List Char
  kind : Kind
  value : List Char
  gap : List Char
  isLexeme : Lexeme text kind value
  isFiller : Filler gap

namespace Spaced

/-- The lexemes and the fillers as they are written. -/
def layout (xs : List Spaced) : List Char := xs.flatMap fun x => x.text ++ x.gap

@[simp] theorem layout_nil : layout [] = [] := rfl

@[simp] theorem layout_cons (x : Spaced) (xs : List Spaced) :
    layout (x :: xs) = x.text ++ (x.gap ++ layout xs) := by
  simp [layout]

/-- The tokens of the lexemes, written from `p` on. -/
def tokens (p : Place) : List Spaced → List Token
  | [] => []
  | x :: xs => Token.read p x.kind x.value :: tokens (p.after (x.text ++ x.gap)) xs

/-- There is one token for each lexeme, whatever stands between them. -/
theorem length_tokens (p : Place) (xs : List Spaced) : (tokens p xs).length = xs.length := by
  induction xs generalizing p with
  | nil => rfl
  | cons x xs ih => exact congrArg (· + 1) (ih _)

/-- The token of a lexeme: its kind and value, at the place behind all that stands before it. -/
theorem getElem?_tokens (p : Place) (before : List Spaced) (x : Spaced) (after : List Spaced) :
    (tokens p (before ++ x :: after))[before.length]? =
      some (Token.read (p.after (layout before)) x.kind x.value) := by
  induction before generalizing p with
  | nil => rfl
  | cons y before ih =>
    have hrest := ih (p.after (y.text ++ y.gap))
    simpa [tokens] using hrest

/-- The lexeme is stopped by its filler, or by the end of the text. -/
theorem stops (x : Spaced) (s : List Char) (h : x.gap ≠ [] ∨ s = []) :
    (lexeme x.kind x.value).Stops (x.gap ++ s) := by
  have hfiller := x.isFiller
  cases hgap : x.gap with
  | nil =>
    rcases h with h | rfl
    · exact absurd hgap h
    · exact stops_nil _
  | cons c w =>
    rw [hgap] at hfiller
    obtain ⟨hword, hdigit, hpoint, hquote⟩ := hfiller.begins_nothing
    exact stops_lexeme hword hdigit hpoint hquote

/-- Lexemes with space between them are fronts that are read off one by one. -/
theorem exists_fronts {xs : List Spaced} (h : ∀ x ∈ xs.dropLast, x.gap ≠ []) :
    ∃ fs, texts fs = layout xs ∧ Readable fs [] ∧ ∀ p, Front.tokens p fs = tokens p xs := by
  induction xs with
  | nil => exact ⟨[], rfl, trivial, fun _ => rfl⟩
  | cons x xs ih =>
    have htail : ∀ y ∈ xs.dropLast, y.gap ≠ [] := by
      intro y hy
      cases xs with
      | nil => cases hy
      | cons z xs => exact h y (List.mem_cons_of_mem x hy)
    have hgap : x.gap ≠ [] ∨ layout xs = [] := by
      cases xs with
      | nil => exact .inr rfl
      | cons z xs => exact .inl (h x List.mem_cons_self)
    obtain ⟨fs, htext, hfs, htokens⟩ := ih htail
    obtain ⟨ws, hws, htrivia, hstanding⟩ := x.isFiller.isSkipped
    refine ⟨lexeme x.kind x.value :: (ws ++ fs), ?_, ⟨x.isLexeme.valid, ?_, ?_⟩, fun p => ?_⟩
    · simp [x.isLexeme.text_eq, hws, htext]
    · simpa [hws, htext] using x.stops (layout xs) hgap
    · exact readable_append.2 ⟨hstanding _, hfs⟩
    · show Token.read p x.kind x.value :: _ = Token.read p x.kind x.value :: _
      rw [tokens_append, tokens_of_trivia htrivia, htokens, x.isLexeme.text_eq, hws,
        ← Place.after_append]
      rfl

end Spaced

/-- Lexemes with a filler before them, between each two of them, and after them, are read back: each
is one token, of its kind and with its value, where it stands. -/
theorem tokenize_spaced {w : List Char} (hw : Filler w) {xs : List Spaced}
    (h : ∀ x ∈ xs.dropLast, x.gap ≠ []) :
    ∃ ts, tokenize (String.ofList (w ++ Spaced.layout xs)) =
        .ok (ts ++ [Token.eof (Place.start.after (w ++ Spaced.layout xs))]) ∧
      ts.length = xs.length ∧
      ∀ before x after, xs = before ++ x :: after →
        ∃ t, ts[before.length]? = some t ∧ t.kind = x.kind ∧ t.value = String.ofList x.value ∧
          t.span = ⟨byteLength (w ++ Spaced.layout before),
            byteLength (w ++ Spaced.layout before ++ x.text)⟩ := by
  obtain ⟨ws, rfl, htrivia, hstanding⟩ := hw.isSkipped
  obtain ⟨fs, htext, hfs, htokens⟩ := Spaced.exists_fronts h
  have hread : Readable (ws ++ fs) [] := readable_append.2 ⟨hstanding _, hfs⟩
  let p := Place.start.after (texts ws)
  refine ⟨Spaced.tokens p xs, ?_, Spaced.length_tokens p xs, ?_⟩
  · have htok := tokenize_texts hread
    rw [tokens_append, tokens_of_trivia htrivia, htokens, texts_append, htext] at htok
    exact htok
  · rintro before x after rfl
    refine ⟨_, Spaced.getElem?_tokens p before x after, rfl, rfl, ?_⟩
    rw [← x.isLexeme.text_eq]
    simp [p, Token.read, Place.span, Place.after, Place.start, Front.text, Nat.add_assoc]

/-- An empty literal, a literal with marks of its own kind in it and a keyword, with an apostrophe
in the comment after the first and a quotation mark in the one after the second. -/
def Spaced.quotes : List Spaced :=
  [⟨'\'' :: [] ++ ['\''], .literal .singleQuoted, [], '/' :: '*' :: ['\''] ++ ['*', '/'] ++ [],
      .singleQuoted rfl (by decide), .blockComment (by decide) .nil⟩,
    ⟨'\'' :: '\'' :: '\'' :: ['a', '\'', '\'', 'b'] ++ ['\'', '\'', '\''], .literal .multiline,
      ['a', '\'', '\'', 'b'], '/' :: '/' :: ['"'] ++ '\n' :: [],
      .multiline (by decide), .lineComment (by decide) .nil⟩,
    ⟨['a', 's'], Kind.ofWord "as", ['a', 's'], [],
      .word (by decide) (List.all_eq_true.1 rfl), .nil⟩]

/-- The second lexeme is one token, and the third a keyword. -/
theorem tokenize_spaced_quotes :
    (∀ x ∈ Spaced.quotes.dropLast, x.gap ≠ []) ∧
      ∃ ts, tokenize " ''/*'*/'''a''b'''//\"\nas" = .ok (ts ++ [⟨.eof, "", ⟨2, 3⟩, ⟨24, 24⟩⟩]) ∧
        ts.length = 3 ∧
        (∃ t, ts[1]? = some t ∧ t.kind = .literal .multiline ∧ t.value = "a''b" ∧
          t.span = ⟨8, 18⟩) ∧
        ∃ t, ts[2]? = some t ∧ t.kind = .keyword .aliased ∧ t.value = "as" ∧ t.span = ⟨22, 24⟩ := by
  have h : ∀ x ∈ Spaced.quotes.dropLast, x.gap ≠ [] := by
    simp [Spaced.quotes]
  obtain ⟨ts, htok, hlength, hts⟩ :=
    tokenize_spaced (.blank (c := ' ') (by decide) .nil) h
  exact ⟨h, ts, htok, hlength, hts [_] _ [_] rfl, hts [_, _] _ [] rfl⟩

end Dbml
