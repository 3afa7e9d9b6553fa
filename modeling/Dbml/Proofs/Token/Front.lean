import Dbml.Proofs.Text.Cut
import Dbml.Token.Lexeme

/-!
# What the front of a text is

A front is read off a text for two reasons only: it is well formed (`Front.Valid`), and what follows
does not let it go on (`Front.Stops`). `Front.read_eq_iff` says that these two together with the
equation of the texts are all there is to know about a step of the reading, so nothing after this
file looks into `Front.read`.

A front that was stopped by a text is stopped by every beginning of that text, the empty one
included (`Front.Stops.of_append`): a text cut between two fronts is read as before. Which values a
lexeme can have is settled by its kind (`Front.valid_lexeme_iff`).
-/

namespace Dbml

/-! ## Classes of characters -/

/-- The characters that begin nothing: blanks, and those the language has no use for. -/
def isStray (c : Char) : Bool :=
  !isWordChar c && !c.isDigit && c != '"' && c != '\'' && c != '\x60' && c != '/' &&
    (Kind.ofSymbol? c).isNone

/-- No digit begins a word. -/
theorem isWordChar_of_isDigit {c : Char} (h : c.isDigit = true) : isWordChar c = false := by
  have hne : c ≠ '_' := by
    rintro rfl
    exact absurd h (by decide)
  simp only [Char.isDigit, ge_iff_le, Bool.and_eq_true, decide_eq_true_eq, UInt32.le_iff_toNat_le]
    at h
  have h9 : '9'.val.toNat = 57 := rfl
  have hA : 'A'.val.toNat = 65 := rfl
  have ha : 'a'.val.toNat = 97 := rfl
  have hupper : c.isUpper = false := by
    apply decide_eq_false
    simp only [ge_iff_le, UInt32.le_iff_toNat_le]
    omega
  have hlower : c.isLower = false := by
    apply Bool.and_eq_false_imp.2
    intro h'
    simp only [ge_iff_le, decide_eq_true_eq, UInt32.le_iff_toNat_le] at h'
    omega
  show (c.isUpper || c.isLower || c == '_') = false
  rw [hupper, hlower]
  exact beq_eq_false_iff_ne.2 hne

/-- A symbol begins nothing but itself. -/
theorem not_begins_of_ofSymbol? {c : Char} {kind : Kind} (h : Kind.ofSymbol? c = some kind) :
    isWordChar c = false ∧ c.isDigit = false ∧ c ≠ '"' ∧ c ≠ '\'' ∧ c ≠ '\x60' ∧ c ≠ '/' := by
  unfold Kind.ofSymbol? at h
  split at h <;> first | decide | cases h

namespace Front

/-! ## Well-formed fronts -/

/-- The closed fronts that some text has. -/
inductive Valid : Front → Prop
  | word {w : List Char} (hne : w ≠ []) (hw : ∀ c ∈ w, isWordChar c = true) :
    Valid (lexeme (Kind.ofWord (String.ofList w)) w)
  | int {ds : List Char} (hne : ds ≠ []) (hds : ∀ d ∈ ds, d.isDigit = true) :
    Valid (lexeme (.literal .int) ds)
  | float {ds es : List Char} (hne : ds ≠ []) (hds : ∀ d ∈ ds, d.isDigit = true)
    (hne' : es ≠ []) (hes : ∀ e ∈ es, e.isDigit = true) :
    Valid (lexeme (.literal .float) (ds ++ '.' :: es))
  | doubleQuoted {v : List Char} (hv : IsQuotedBody '"' v) :
    Valid (lexeme (.literal .doubleQuoted) v)
  | singleQuoted {v : List Char} (hv : IsQuotedBody '\'' v) :
    Valid (lexeme (.literal .singleQuoted) v)
  | funcExpr {v : List Char} (hv : '\x60' ∉ v) : Valid (lexeme (.literal .funcExpr) v)
  | multiline {v : List Char} (hv : FirstAt ['\'', '\'', '\''] v) :
    Valid (lexeme (.literal .multiline) v)
  | symbol {c : Char} {kind : Kind} (hc : Kind.ofSymbol? c = some kind) : Valid (lexeme kind [c])
  | stray {c : Char} (hc : isStray c = true) : Valid (trivia [c])
  | loneSlash : Valid (trivia ['/'])
  | lineComment {line : List Char} (hl : '\n' ∉ line) : Valid (trivia ('/' :: '/' :: line))
  | blockComment {inner : List Char} (hi : FirstAt ['*', '/'] inner) :
    Valid (trivia ('/' :: '*' :: inner ++ ['*', '/']))

/-- Whether a front goes no further than its text when `s` follows. -/
def Stops : Front → List Char → Prop
  | lexeme (.keyword _) _, s => Clear isWordChar s
  | lexeme (.literal .ident) _, s => Clear isWordChar s
  | lexeme (.literal .int) _, s =>
    Clear Char.isDigit s ∧ ∀ d ds, s = '.' :: d :: ds → d.isDigit = false
  | lexeme (.literal .float) _, s => Clear Char.isDigit s
  -- two marks and a third one would open a multiline string
  | lexeme (.literal .singleQuoted) [], s => Clear (· == '\'') s
  | trivia ['/'], s => Clear (· == '/') s ∧ Clear (· == '*') s
  | trivia ('/' :: '/' :: _), s => Clear (· ≠ '\n') s
  | _, _ => True

/-- Every front stops where the text ends. -/
@[simp] theorem stops_nil (f : Front) : f.Stops [] := by
  unfold Stops
  split <;> simp

/-- What stops a front does so by its beginning. -/
theorem Stops.of_append {f : Front} {s t : List Char} (h : f.Stops (s ++ t)) : f.Stops s := by
  unfold Stops at h ⊢
  split
  · exact Clear.of_append h
  · exact Clear.of_append h
  · refine ⟨Clear.of_append h.1, fun d ds hs => h.2 d (ds ++ t) ?_⟩
    rw [hs]
    rfl
  · exact Clear.of_append h
  · exact Clear.of_append h
  · exact ⟨Clear.of_append h.1, Clear.of_append h.2⟩
  · exact Clear.of_append h
  · trivial

/-- What no lexeme goes on over, whatever it is. -/
theorem stops_lexeme {kind : Kind} {value s : List Char} {c : Char} (hword : isWordChar c = false)
    (hdigit : c.isDigit = false) (hpoint : c ≠ '.') (hquote : c ≠ '\'') :
    (lexeme kind value).Stops (c :: s) := by
  unfold Stops
  split
  · exact hword
  · exact hword
  · refine ⟨hdigit, fun d ds h => ?_⟩
    exact absurd (List.cons.inj h).1 hpoint
  · exact hdigit
  · exact beq_eq_false_iff_ne.2 hquote
  · contradiction
  · contradiction
  · trivial

/-- A word goes on as long as there are characters of words. -/
theorem stops_word (w : String) (v s : List Char) :
    (lexeme (Kind.ofWord w) v).Stops s ↔ Clear isWordChar s := by
  unfold Kind.ofWord
  split <;> rfl

/-- A symbol ends after its one character, whatever follows. -/
theorem stops_symbol {c : Char} {kind : Kind} (h : Kind.ofSymbol? c = some kind)
    (v s : List Char) : (lexeme kind v).Stops s := by
  unfold Kind.ofSymbol? at h
  split at h <;> first | (cases h; trivial) | cases h

/-! ## What is read is well formed -/

/-- A number is taken whole: its digits, and a fraction if there is one, up to where neither goes
on. -/
theorem valid_number {c : Char} (hc : c.isDigit = true) (cs : List Char) :
    (number c cs).1.Valid ∧ (number c cs).1.Stops (number c cs).2 := by
  have hwhole : ∀ d ∈ c :: cs.takeWhile Char.isDigit, d.isDigit = true := by
    intro d hd
    rcases List.mem_cons.1 hd with rfl | hd
    · exact hc
    · exact mem_takeWhile d hd
  have hclear := clear_dropWhile Char.isDigit cs
  unfold number
  split
  case h_1 d ds hrest =>
    split
    · rename_i hd
      refine ⟨.float (by simp) hwhole (by simp) ?_, clear_dropWhile _ _⟩
      intro e he
      rcases List.mem_cons.1 he with rfl | he
      · exact hd
      · exact mem_takeWhile e he
    · rename_i hd
      refine ⟨.int (by simp) hwhole, rfl, ?_⟩
      intro d' ds' h
      cases h
      exact Bool.eq_false_iff.2 hd
  case h_2 hrest =>
    refine ⟨.int (by simp) hwhole, hclear, ?_⟩
    intro d ds h
    exact absurd h (hrest d ds)

/-- What an apostrophe opens, if it is closed, is a body of one of the two sorts of quotes and ends
there. -/
theorem valid_apostrophe {cs : List Char} (h : (apostrophe cs).1.isClosed = true) :
    (apostrophe cs).1.Valid ∧ (apostrophe cs).1.Stops (apostrophe cs).2 := by
  unfold apostrophe at h ⊢
  split
  case h_1 body =>
    cases hcut : cutAt ['\'', '\'', '\''] body with
    | none => simp [hcut, ofCut, isClosed] at h
    | some cut => exact ⟨.multiline (firstAt_of_cutAt hcut), trivial⟩
  case h_2 hcs =>
    cases hcut : cutQuoted '\'' cs with
    | none =>
      split at h
      · exact absurd rfl (hcs _)
      · simp [hcut, ofCut, isClosed] at h
    | some cut =>
      obtain ⟨value, rest⟩ := cut
      refine ⟨.singleQuoted (isQuotedBody_of_cutQuoted hcut), ?_⟩
      cases value with
      | cons v vs => trivial
      | nil =>
        have happ := append_of_cutQuoted hcut
        cases rest with
        | nil => trivial
        | cons r rs =>
          -- a third mark would have been the first case
          have hr : r ≠ '\'' := by
            rintro rfl
            exact hcs rs happ
          simpa [Stops, ofCut] using hr

/-- What a slash opens, if it is closed, is a comment that ends there, or the slash stands alone. -/
theorem valid_slash {cs : List Char} (h : (slash cs).1.isClosed = true) :
    (slash cs).1.Valid ∧ (slash cs).1.Stops (slash cs).2 := by
  unfold slash at h ⊢
  split
  case h_1 line =>
    refine ⟨.lineComment fun hn => ?_, ?_⟩
    · simpa using mem_takeWhile _ hn
    · exact clear_dropWhile _ line
  case h_2 body =>
    simp only at h
    split
    case h_1 inner rest hcut => exact ⟨.blockComment (firstAt_of_cutAt hcut), trivial⟩
    case h_2 hcut =>
      rw [hcut] at h
      simp [isClosed] at h
  case h_3 hline hblock =>
    refine ⟨.loneSlash, ?_⟩
    cases cs with
    | nil => exact stops_nil _
    | cons c cs =>
      have h1 : c ≠ '/' := by
        rintro rfl
        exact hline cs rfl
      have h2 : c ≠ '*' := by
        rintro rfl
        exact hblock cs rfl
      simp [Stops, h1, h2]

/-- A step of the reading takes a well-formed front, and as much as belongs to it. -/
theorem valid_read {c : Char} {cs : List Char} (h : (read c cs).1.isClosed = true) :
    (read c cs).1.Valid ∧ (read c cs).1.Stops (read c cs).2 := by
  unfold read at h ⊢
  split
  · rename_i hc
    refine ⟨.word (by simp) ?_, (stops_word _ _ _).2 (clear_dropWhile _ _)⟩
    intro d hd
    rcases List.mem_cons.1 hd with rfl | hd
    · exact hc
    · exact mem_takeWhile d hd
  rename_i hword
  rw [if_neg hword] at h
  split
  · exact valid_number ‹_› cs
  rename_i hdigit
  rw [if_neg hdigit] at h
  split
  · rename_i hq
    rw [if_pos hq] at h
    cases hcut : cutQuoted '"' cs with
    | none => simp [hcut, ofCut, isClosed] at h
    | some cut => exact ⟨.doubleQuoted (isQuotedBody_of_cutQuoted hcut), trivial⟩
  rename_i hdouble
  rw [if_neg hdouble] at h
  split
  · rename_i hq
    rw [if_pos hq] at h
    exact valid_apostrophe h
  rename_i hsingle
  rw [if_neg hsingle] at h
  split
  · rename_i hq
    rw [if_pos hq] at h
    cases hcut : cutAt ['\x60'] cs with
    | none => simp [hcut, ofCut, isClosed] at h
    | some cut => exact ⟨.funcExpr (firstAt_singleton_iff.1 (firstAt_of_cutAt hcut)), trivial⟩
  rename_i hfunc
  rw [if_neg hfunc] at h
  split
  · rename_i hq
    rw [if_pos hq] at h
    exact valid_slash h
  rename_i hslash
  split
  case h_1 kind hk => exact ⟨.symbol hk, stops_symbol hk _ _⟩
  case h_2 hk =>
    refine ⟨.stray ?_, ?_⟩
    · simp [isStray, hword, hdigit, hdouble, hsingle, hfunc, hslash, hk]
    · simp [Stops, hslash]

/-! ## What is well formed is read -/

/-- The rule for words, with whatever may follow one. -/
theorem read_word {c : Char} {w rest : List Char} (hw : ∀ d ∈ c :: w, isWordChar d = true)
    (hrest : Clear isWordChar rest) :
    read c (w ++ rest) = (lexeme (Kind.ofWord (String.ofList (c :: w))) (c :: w), rest) := by
  have hc := hw c List.mem_cons_self
  have htail : ∀ d ∈ w, isWordChar d = true := fun d hd => hw d (List.mem_cons_of_mem c hd)
  unfold read
  rw [if_pos hc, takeWhile_append_of_clear htail hrest, dropWhile_append_of_clear htail hrest]

/-- A digit is the beginning of a number, since it begins no word. -/
theorem read_digit {c : Char} (hc : c.isDigit = true) (cs : List Char) : read c cs = number c cs := by
  unfold read
  rw [if_neg (by rw [isWordChar_of_isDigit hc]; simp), if_pos hc]

/-- The rule for whole numbers. A point may follow if there is no digit after it. -/
theorem read_int {c : Char} {ds rest : List Char} (hds : ∀ d ∈ c :: ds, d.isDigit = true)
    (hrest : (lexeme (.literal .int) (c :: ds)).Stops rest) :
    read c (ds ++ rest) = (lexeme (.literal .int) (c :: ds), rest) := by
  obtain ⟨hclear, hpoint⟩ := hrest
  have htail : ∀ d ∈ ds, d.isDigit = true := fun d hd => hds d (List.mem_cons_of_mem c hd)
  rw [read_digit (hds c List.mem_cons_self), number, takeWhile_append_of_clear htail hclear,
    dropWhile_append_of_clear htail hclear]
  split
  · rename_i d es
    rw [if_neg (by rw [hpoint d es rfl]; simp)]
  · rfl

/-- The rule for numbers with a fraction. -/
theorem read_float {c e : Char} {ds es rest : List Char} (hds : ∀ d ∈ c :: ds, d.isDigit = true)
    (hes : ∀ d ∈ e :: es, d.isDigit = true) (hrest : Clear Char.isDigit rest) :
    read c (ds ++ '.' :: e :: es ++ rest) =
      (lexeme (.literal .float) (c :: ds ++ '.' :: e :: es), rest) := by
  have hhead : ∀ d ∈ ds, d.isDigit = true := fun d hd => hds d (List.mem_cons_of_mem c hd)
  have htail : ∀ d ∈ es, d.isDigit = true := fun d hd => hes d (List.mem_cons_of_mem e hd)
  have hpoint : Clear Char.isDigit ('.' :: e :: es ++ rest) := rfl
  rw [List.append_assoc, read_digit (hds c List.mem_cons_self), number,
    takeWhile_append_of_clear hhead hpoint, dropWhile_append_of_clear hhead hpoint]
  simp only [List.cons_append, hes e List.mem_cons_self, if_true]
  rw [takeWhile_append_of_clear htail hrest, dropWhile_append_of_clear htail hrest]

/-- The rule for a body between apostrophes. An empty one may not be followed by a third apostrophe,
which would open a text of several lines. -/
theorem read_singleQuoted {v rest : List Char} (hv : IsQuotedBody '\'' v)
    (hrest : (lexeme (.literal .singleQuoted) v).Stops rest) :
    read '\'' (v ++ '\'' :: rest) = (lexeme (.literal .singleQuoted) v, rest) := by
  have hcut := cutQuoted_append (by decide) hv rest
  show apostrophe (v ++ '\'' :: rest) = _
  unfold apostrophe
  split
  case h_2 => rw [hcut]; rfl
  case h_1 body hbody =>
    -- no text that begins with two marks has a body between them and a third
    cases v with
    | nil =>
      cases hbody
      exact absurd hrest (by simp [Stops])
    | cons d v =>
      obtain ⟨rfl, -⟩ := List.cons.inj hbody
      exact absurd rfl ((isQuotedBody_cons (by decide)).1 hv).1

/-- The rule for a body between three apostrophes. -/
theorem read_multiline {v : List Char} (hv : FirstAt ['\'', '\'', '\''] v) (rest : List Char) :
    read '\'' ('\'' :: '\'' :: v ++ ['\'', '\'', '\''] ++ rest) =
      (lexeme (.literal .multiline) v, rest) := by
  show ofCut .multiline _ (cutAt ['\'', '\'', '\''] (v ++ ['\'', '\'', '\''] ++ rest)) = _
  rw [cutAt_append (by simp) hv rest]
  rfl

/-- The rule for a comment that is closed. -/
theorem read_blockComment {inner : List Char} (hi : FirstAt ['*', '/'] inner) (rest : List Char) :
    read '/' ('*' :: inner ++ ['*', '/'] ++ rest) =
      (trivia ('/' :: '*' :: inner ++ ['*', '/']), rest) := by
  show slash ('*' :: (inner ++ ['*', '/'] ++ rest)) = _
  rw [slash, cutAt_append (by simp) hi rest]

/-- The rule for a comment up to the end of its line; the line end itself is left. -/
theorem read_lineComment {line rest : List Char} (hl : '\n' ∉ line)
    (hrest : Clear (· ≠ '\n') rest) :
    read '/' ('/' :: line ++ rest) = (trivia ('/' :: '/' :: line), rest) := by
  have hline : ∀ c ∈ line, decide (c ≠ '\n') = true := by
    intro c hc
    simp only [decide_eq_true_eq]
    rintro rfl
    exact hl hc
  show (trivia ('/' :: '/' :: (line ++ rest).takeWhile (· ≠ '\n')),
    (line ++ rest).dropWhile (· ≠ '\n')) = _
  rw [takeWhile_append_of_clear hline hrest, dropWhile_append_of_clear hline hrest]

/-- A slash that opens no comment is passed over. -/
theorem read_loneSlash {rest : List Char} (hrest : (trivia ['/']).Stops rest) :
    read '/' rest = (trivia ['/'], rest) := by
  obtain ⟨hline, hblock⟩ := hrest
  show slash rest = _
  unfold slash
  split
  · simp at hline
  · simp at hblock
  · rfl

/-- The rule for symbols. -/
theorem read_symbol {c : Char} {kind : Kind} (hc : Kind.ofSymbol? c = some kind)
    (rest : List Char) : read c rest = (lexeme kind [c], rest) := by
  obtain ⟨h1, h2, h3, h4, h5, h6⟩ := not_begins_of_ofSymbol? hc
  simp [read, h1, h2, h3, h4, h5, h6, hc]

/-- A character that means nothing is passed over by itself. -/
theorem read_stray {c : Char} (hc : isStray c = true) (rest : List Char) :
    read c rest = (trivia [c], rest) := by
  simp only [isStray, Bool.and_eq_true, Bool.not_eq_true', bne_iff_ne, ne_eq,
    Option.isNone_iff_eq_none] at hc
  obtain ⟨⟨⟨⟨⟨⟨h1, h2⟩, h3⟩, h4⟩, h5⟩, h6⟩, h7⟩ := hc
  simp [read, h1, h2, h3, h4, h5, h6, h7]

/-- A well-formed front is read off every text that begins with it and stops it. -/
theorem read_text {f : Front} {rest : List Char} (hv : f.Valid) (hs : f.Stops rest) :
    ∃ c cs, f.text ++ rest = c :: cs ∧ read c cs = (f, rest) := by
  cases hv with
  | @word w hne hw =>
    obtain ⟨c, cs, rfl⟩ := List.exists_cons_of_ne_nil hne
    refine ⟨c, cs ++ rest, ?_, read_word hw ((stops_word _ _ _).1 hs)⟩
    simp [text, fence_ofWord]
  | @int ds hne hds =>
    obtain ⟨c, cs, rfl⟩ := List.exists_cons_of_ne_nil hne
    exact ⟨c, cs ++ rest, by simp [text, Kind.fence], read_int hds hs⟩
  | @float ds es hne hds hne' hes =>
    obtain ⟨c, cs, rfl⟩ := List.exists_cons_of_ne_nil hne
    obtain ⟨e, es, rfl⟩ := List.exists_cons_of_ne_nil hne'
    exact ⟨c, cs ++ '.' :: e :: es ++ rest, by simp [text, Kind.fence], read_float hds hes hs⟩
  | @doubleQuoted v hv =>
    refine ⟨'"', v ++ '"' :: rest, by simp [text, Kind.fence], ?_⟩
    show ofCut .doubleQuoted _ (cutQuoted '"' (v ++ '"' :: rest)) = _
    rw [cutQuoted_append (by decide) hv rest]
    rfl
  | @singleQuoted v hv =>
    exact ⟨'\'', v ++ '\'' :: rest, by simp [text, Kind.fence], read_singleQuoted hv hs⟩
  | @funcExpr v hv =>
    refine ⟨'\x60', v ++ ['\x60'] ++ rest, by simp [text, Kind.fence], ?_⟩
    show ofCut .funcExpr _ (cutAt ['\x60'] (v ++ ['\x60'] ++ rest)) = _
    rw [cutAt_append (by simp) (firstAt_singleton_iff.2 hv) rest]
    rfl
  | @multiline v hv =>
    exact ⟨'\'', _, by simp [text, Kind.fence], read_multiline hv rest⟩
  | @symbol c kind hc =>
    refine ⟨c, rest, ?_, read_symbol hc rest⟩
    simp [text, fence_ofSymbol? hc]
  | @stray c hc => exact ⟨c, rest, rfl, read_stray hc rest⟩
  | loneSlash => exact ⟨'/', rest, rfl, read_loneSlash hs⟩
  | @lineComment line hl => exact ⟨'/', _, rfl, read_lineComment hl hs⟩
  | @blockComment inner hi => exact ⟨'/', _, by simp [text], read_blockComment hi rest⟩

/-- One step of the reading: the front is well formed, what follows stops it, and nothing is lost. -/
theorem read_eq_iff {c : Char} {cs rest : List Char} {f : Front} (hf : f.isClosed = true) :
    read c cs = (f, rest) ↔ f.Valid ∧ f.Stops rest ∧ f.text ++ rest = c :: cs := by
  constructor
  · intro h
    have hclosed : (read c cs).1.isClosed = true := by rw [h]; exact hf
    have hvalid := valid_read hclosed
    have htext := text_read c cs
    rw [h] at hvalid htext
    exact ⟨hvalid.1, hvalid.2, htext⟩
  · rintro ⟨hv, hs, htext⟩
    obtain ⟨c', cs', heq, hread⟩ := read_text hv hs
    rw [htext] at heq
    cases heq
    exact hread

/-- Every front has some text, so that reading goes on. -/
theorem Valid.text_ne_nil {f : Front} (hv : f.Valid) : f.text ≠ [] := by
  obtain ⟨c, cs, heq, -⟩ := read_text hv (stops_nil f)
  rw [List.append_nil] at heq
  simp [heq]

/-! ## Values by their kind -/

/-- The values that lexemes of a kind can have. The end of the input has no lexeme, nor has text
that is no token. -/
def Spells : Kind → List Char → Prop
  | .illegal, _ => False
  | .eof, _ => False
  | .literal .ident, v =>
    v ≠ [] ∧ (∀ c ∈ v, isWordChar c = true) ∧ Keyword.ofWord? (String.ofList v) = none
  | .literal .int, v => v ≠ [] ∧ ∀ d ∈ v, d.isDigit = true
  | .literal .float, v => ∃ ds es, v = ds ++ '.' :: es ∧ ds ≠ [] ∧ (∀ d ∈ ds, d.isDigit = true) ∧
    es ≠ [] ∧ ∀ e ∈ es, e.isDigit = true
  | .literal .doubleQuoted, v => IsQuotedBody '"' v
  | .literal .singleQuoted, v => IsQuotedBody '\'' v
  | .literal .funcExpr, v => '\x60' ∉ v
  | .literal .multiline, v => FirstAt ['\'', '\'', '\''] v
  | .relation r, v => v = [r.char]
  | .delimiter d, v => v = [d.char]
  | .keyword k, v => v = k.word.toList

/-- A word spells its keyword, or an identifier if it is none. -/
theorem spells_ofWord {w : List Char} (hne : w ≠ []) (hw : ∀ c ∈ w, isWordChar c = true) :
    Spells (Kind.ofWord (String.ofList w)) w := by
  unfold Kind.ofWord
  split
  · rename_i k hk
    have hword := List.find?_some hk
    simp only [beq_iff_eq] at hword
    show w = k.word.toList
    rw [hword, String.toList_ofList]
  · rename_i hk
    exact ⟨hne, hw, hk⟩

/-- A symbol spells its own kind. -/
theorem spells_ofSymbol? {c : Char} {kind : Kind} (h : Kind.ofSymbol? c = some kind) :
    Spells kind [c] := by
  unfold Kind.ofSymbol? at h
  split at h <;> first | (cases h; rfl) | cases h

theorem valid_keyword (k : Keyword) : (lexeme (.keyword k) k.word.toList).Valid := by
  have hk : Kind.ofWord (String.ofList k.word.toList) = .keyword k := by
    cases k <;> decide
  have hne : k.word.toList ≠ [] := by
    cases k <;> decide
  have hall : k.word.toList.all isWordChar = true := by
    cases k <;> rfl
  rw [← hk]
  exact .word hne (List.all_eq_true.1 hall)

/-- A lexeme is well formed if its kind can have its value. -/
theorem valid_lexeme_iff {kind : Kind} {v : List Char} :
    (lexeme kind v).Valid ↔ Spells kind v := by
  constructor
  · intro h
    cases h with
    | word hne hw => exact spells_ofWord hne hw
    | int hne hds => exact ⟨hne, hds⟩
    | float hne hds hne' hes => exact ⟨_, _, rfl, hne, hds, hne', hes⟩
    | doubleQuoted hv => exact hv
    | singleQuoted hv => exact hv
    | funcExpr hv => exact hv
    | multiline hv => exact hv
    | symbol hc => exact spells_ofSymbol? hc
  · intro h
    cases kind with
    | illegal => cases h
    | eof => cases h
    | literal l =>
      cases l with
      | ident =>
        obtain ⟨hne, hw, hk⟩ := h
        have hkind : Kind.ofWord (String.ofList v) = .literal .ident := by
          rw [Kind.ofWord, hk]
        rw [← hkind]
        exact .word hne hw
      | int => exact .int h.1 h.2
      | float =>
        obtain ⟨ds, es, rfl, hne, hds, hne', hes⟩ := h
        exact .float hne hds hne' hes
      | doubleQuoted => exact .doubleQuoted h
      | singleQuoted => exact .singleQuoted h
      | funcExpr => exact .funcExpr h
      | multiline => exact .multiline h
    | relation r =>
      obtain rfl : v = [r.char] := h
      exact .symbol (by cases r <;> rfl)
    | delimiter d =>
      obtain rfl : v = [d.char] := h
      exact .symbol (by cases d <;> rfl)
    | keyword k =>
      obtain rfl : v = k.word.toList := h
      exact valid_keyword k

/-- No text is read as the end. -/
theorem kind_ne_eof {kind : Kind} {v : List Char} (h : (lexeme kind v).Valid) : kind ≠ .eof := by
  rintro rfl
  exact valid_lexeme_iff.1 h

end Front

end Dbml
